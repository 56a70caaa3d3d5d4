import PerpetuaCore.Graph.Engine
import PerpetuaCore.Json.Reading
import PerpetuaCore.Python.Raising

namespace PerpetuaCore.Graph.LangGraph

open Interaction
open Python (Str Value Dict)

-- `langgraph.graph.START` and `langgraph.graph.END`.
structure Sentinels where
  start : Str
  finish : Str

-- `_route`: the closure over one router.
structure Route where
  router : Fn

-- What is called on the `StateGraph` builder; it only records.
inductive EdgeCall where
  | addEdge (source target : Str)
  | addConditionalEdges (source : Str) (route : Route) (pathMap : Option (Dict Str Str))

def EdgeCall.source : EdgeCall → Str
  | .addEdge source _ | .addConditionalEdges source _ _ => source

def EdgeCall.router? : EdgeCall → Option Fn
  | .addEdge _ _ => none
  | .addConditionalEdges _ route _ => some route.router

inductive BuilderCall where
  | addNode (name : Str) (fn : Fn)
  | edge (call : EdgeCall)
  | compile

structure NotImplementedError where
  message : Message

variable (lg : Sentinels)

def sourceOf (source : Str) : Str := if source = START then lg.start else source

def targetOf (target : Str) : Str := if target = END then lg.finish else target

-- `_route(state)`.
def Route.call (route : Route) (source : Str) (state : State) : Step (Value × State) := do
  let reply ← invoke (.router source route.router state)
  let target ← .ofExcept reply.result
  return (if target.eq (.str END) then .str lg.finish else target, reply.left)

-- Declarations are advisory: the path map covers every node and the end.
def pathMap (g : CompiledGraph) : Dict Str Str :=
  Dict.ofList ((g.nodes.keys ++ [END]).map fun target => (targetOf lg target, targetOf lg target))

def exportEdge (g : CompiledGraph) (source : Str) : Edge → Except NotImplementedError EdgeCall
  | .static target => .ok (.addEdge (sourceOf lg source) (targetOf lg target))
  | .fanout _ => .error
      ⟨["fan-out region at ", .repr source, " cannot be exported to LangGraph yet: ",
        "reducers and joins have no channel mapping. Run it natively."]⟩
  | .conditional edge =>
      .ok (.addConditionalEdges (sourceOf lg source) ⟨edge.router⟩
        (if edge.declaredTargets = [] then none else some (pathMap lg g)))
  | .callable router => .ok (.addConditionalEdges (sourceOf lg source) ⟨router⟩ none)

-- `LangGraphExporter.to_langgraph` of a compiled graph.
def toLanggraph (g : CompiledGraph) : Except NotImplementedError (List BuilderCall) := do
  let nodes := g.nodes.items.map fun item => BuilderCall.addNode item.1 item.2
  let edges ← g.edges.items.mapM fun item => exportEdge lg g item.1 item.2
  return nodes ++ edges.map .edge ++ [.compile]

-- Where an exported edge leads from a state, in a run of its router; a path map is asked for
-- what the router returns.
inductive Leads (source : Str) (state : State) : EdgeCall → Run → Str → State → Prop
  | edge {from' target : Str} : Leads source state (.addEdge from' target) [] target state
  | direct {from' target : Str} {route : Route} {t : Run} {left : State}
      (h : Exec acting (route.call lg source state) t (.ok (.str target, left))) :
      Leads source state (.addConditionalEdges from' route none) t target left
  | mapped {from' target target' : Str} {route : Route} {paths : Dict Str Str} {t : Run}
      {left : State} (h : Exec acting (route.call lg source state) t (.ok (.str target, left)))
      (hpath : paths.get? target = some target') :
      Leads source state (.addConditionalEdges from' route (some paths)) t target' left

-- An edge of the graph and the call it was exported by: it stands at that source, runs that
-- source's router, and leads where the native edge leads.
structure Exported (g : CompiledGraph) (source : Str) (edge : Edge) (call : EdgeCall) : Prop where
  placed : call.source = sourceOf lg source
  runs : call.router? = edge.router?
  leads : ∀ state t target left,
    Exec acting (resolveEdge g source edge state) t (.ok (target, left)) →
    Leads lg source state call t (targetOf lg target) left
  paths : ∀ from' route paths, call = .addConditionalEdges from' route (some paths) →
    ∀ state (t : Run) target left,
      Exec acting (resolveEdge g source edge state) t (.ok (target, left)) →
      targetOf lg target ∈ paths.keys ∧ paths.get? (targetOf lg target) = some (targetOf lg target)

variable {lg : Sentinels} {g : CompiledGraph} {source : Str}

def IsFanOut (edge : Edge) : Prop := ∃ region, edge = .fanout region

variable (lg) in
theorem get?_pathMap {target : Str} (h : target = END ∨ g.nodes.contains target = true) :
    (pathMap lg g).get? (targetOf lg target) = some (targetOf lg target) := by
  have hkey : targetOf lg target ∈ (pathMap lg g).keys := by
    rw [pathMap, Dict.mem_keys_ofList, List.map_map, List.mem_map]
    refine ⟨target, ?_, rfl⟩
    rcases h with rfl | h
    · exact List.mem_append_right _ List.mem_cons_self
    · exact List.mem_append_left _ (Dict.contains_iff.mp h)
  obtain ⟨value, hvalue⟩ := Dict.mem_keys_iff.mp hkey
  have hmem := Dict.mem_ofList (Dict.mem_items_of_get? hvalue)
  obtain ⟨other, -, hother⟩ := List.mem_map.mp hmem
  obtain ⟨hsame, rfl⟩ := Prod.mk.inj hother
  rw [hvalue, hsame]

-- A router that the native scheduler follows returns the same through the exported closure.
variable (lg) in
theorem route_call {router : Fn} {state left : State} {t : Run} {target : Str}
    (h : Exec acting (resolveEdge g source (.callable router) state) t (.ok (target, left))) :
    Exec acting (Route.call lg ⟨router⟩ source state) t (.ok (.str (targetOf lg target), left)) ∧
      (target = END ∨ g.nodes.contains target = true) := by
  obtain ⟨s, u, reply, rfl, hs, hread⟩ | ⟨error, -, ho⟩ := exec_bind h
  · obtain ⟨_, _, value, rfl, hvalue, hcheck⟩ | ⟨error, -, ho⟩ := exec_bind hread
    · obtain ⟨rfl, hresult⟩ := exec_ofExcept hvalue
      obtain ⟨_, _, checked, rfl, hchecked, hlast⟩ | ⟨error, -, ho⟩ := exec_bind hcheck
      · obtain ⟨rfl, hok⟩ := exec_ofExcept hchecked
        obtain ⟨rfl, ho⟩ := exec_ret hlast
        obtain ⟨rfl, rfl⟩ := Prod.mk.inj (Except.ok.inj ho)
        obtain ⟨rfl, -, hknown⟩ := checkTarget_eq_ok.mp hok.symm
        refine ⟨?_, hknown⟩
        have hsame : ((Value.str target).eq (.str END) = true) ↔ target = END := by
          simp [Value.eq]
        have htarget : (if (Value.str target).eq (.str END) = true then Value.str lg.finish
            else .str target) = .str (targetOf lg target) := by
          simp only [hsame, targetOf]
          split_ifs <;> rfl
        refine exec_bind_ok hs ?_
        rw [← hresult, ← htarget]
        exact .ret _
      · cases ho
    · cases ho
  · cases ho

theorem exportEdge_exported {edge : Edge} {call : EdgeCall} (h : exportEdge lg g source edge = .ok call) :
    Exported lg g source edge call := by
  cases edge with
  | static target =>
      obtain rfl := Except.ok.inj h
      refine ⟨rfl, rfl, fun state t target' left hrun => ?_, nofun⟩
      obtain ⟨s, u, checked, rfl, hchecked, hu⟩ | ⟨error, -, ho⟩ := exec_bind hrun
      · obtain ⟨rfl, hcheck⟩ := exec_ofExcept hchecked
        obtain ⟨rfl, ho⟩ := exec_ret hu
        obtain ⟨rfl, rfl⟩ := Prod.mk.inj (Except.ok.inj ho)
        obtain ⟨htarget, -, -⟩ := checkTarget_eq_ok.mp hcheck.symm
        rw [Value.str.inj htarget]
        exact .edge
      · cases ho
  | fanout region => cases h
  | callable router =>
      obtain rfl := Except.ok.inj h
      refine ⟨rfl, rfl, fun state t target left hrun => ?_, nofun⟩
      exact .direct (route_call lg hrun).1
  | conditional edge =>
      obtain rfl := Except.ok.inj h
      refine ⟨rfl, rfl, fun state t target left hrun => ?_, ?_⟩
      · obtain ⟨hcall, hknown⟩ := route_call lg hrun
        split_ifs
        · exact .direct hcall
        · exact .mapped hcall (get?_pathMap lg hknown)
      · intro from' route paths hcall state t target left hrun
        obtain ⟨-, hknown⟩ := route_call lg hrun
        obtain ⟨-, -, hpaths⟩ := EdgeCall.addConditionalEdges.inj hcall
        split_ifs at hpaths
        obtain rfl := Option.some.inj hpaths
        have hget := get?_pathMap lg hknown
        exact ⟨Dict.mem_keys_iff.mpr ⟨_, hget⟩, hget⟩

-- A graph without regions is exported node by node and edge by edge, each edge to where the
-- native scheduler goes; a graph with a region is not exported.
theorem toLanggraph_routes (lg : Sentinels) (g : CompiledGraph) :
    ((∀ item ∈ g.edges.items, ¬IsFanOut item.2) → ∃ calls,
      toLanggraph lg g = .ok (g.nodes.items.map (fun item => .addNode item.1 item.2) ++
        calls.map .edge ++ [.compile]) ∧
      List.Forall₂ (fun item call => Exported lg g item.1 item.2 call) g.edges.items calls) ∧
    ((∃ item ∈ g.edges.items, IsFanOut item.2) → ∃ error, toLanggraph lg g = .error error) := by
  constructor
  · intro hnone
    have hexported : ∀ item ∈ g.edges.items, ∃ call, exportEdge lg g item.1 item.2 = .ok call := by
      intro item hm
      have hregion := hnone item hm
      cases hedge : item.2 with
      | fanout region => exact absurd ⟨region, hedge⟩ hregion
      | _ => exact ⟨_, rfl⟩
    obtain ⟨calls, hcalls⟩ := Json.exists_map_eq hexported
    refine ⟨calls, ?_, ?_⟩
    · have hmap : g.edges.items.mapM (fun item => exportEdge lg g item.1 item.2) = .ok calls :=
        Python.mapM_eq_ok.mpr hcalls
      rw [toLanggraph, hmap]
      rfl
    · have hall : List.Forall₂ (fun item call => exportEdge lg g item.1 item.2 = .ok call)
          g.edges.items calls := by
        have heq := List.forall₂_eq_eq_eq ▸ hcalls
        exact List.forall₂_map_right_iff.mp (List.forall₂_map_left_iff.mp heq)
      exact hall.imp fun item call => exportEdge_exported
  · rintro ⟨item, hm, region, hregion⟩
    cases hresult : toLanggraph lg g with
    | error error => exact ⟨error, rfl⟩
    | ok calls =>
        obtain ⟨edges, hedges, -⟩ := Python.bind_eq_ok.mp hresult
        have hmem : exportEdge lg g item.1 item.2 ∈ edges.map Except.ok := by
          rw [← Python.mapM_eq_ok.mp hedges]
          exact List.mem_map.mpr ⟨item, hm, rfl⟩
        obtain ⟨call, -, hcall⟩ := List.mem_map.mp hmem
        rw [hregion] at hcall
        cases hcall

-- An edge of each kind that is exported.
def branching : CompiledGraph where
  nodes := ⟨[("a", ⟨1, none, none⟩), ("b", ⟨2, none, none⟩)], by decide⟩
  edges := ⟨[(START, .static "a"), ("a", .conditional ⟨⟨3, none, none⟩, ["b"]⟩),
    ("b", .callable ⟨4, none, none⟩)], by decide⟩
  maxSteps := 5

theorem toLanggraph_routes_branching :
    ∃ calls, toLanggraph ⟨"__start__", "__end__"⟩ branching = .ok
        ([.addNode "a" ⟨1, none, none⟩, .addNode "b" ⟨2, none, none⟩] ++ calls.map .edge ++
          [.compile]) ∧
      List.Forall₂ (fun item call => Exported ⟨"__start__", "__end__"⟩ branching item.1 item.2 call)
        branching.edges.items calls := by
  refine (toLanggraph_routes ⟨"__start__", "__end__"⟩ branching).1 fun item hm => ?_
  rintro ⟨region, hregion⟩
  simp only [branching, List.mem_cons, List.not_mem_nil, or_false] at hm
  rcases hm with rfl | rfl | rfl <;> cases hregion

end PerpetuaCore.Graph.LangGraph
