import PerpetuaCore.Graph.Spec.Authoring
import PerpetuaCore.Graph.Spec.Identity
import PerpetuaCore.Graph.Topology
import Mathlib.Data.List.Infix

namespace PerpetuaCore.Graph

open Python (Str Value Dict)
open Json (isStr)

-- A process-stable `module:qualname`, where one exists.
def stableCallableRef (fn : Fn) : Value :=
  match fn.module, fn.qualname with
  | some module, some qualname =>
      if ("<locals>" : Str) <:+: qualname ∨ ("<lambda>" : Str) <:+: qualname then .none
      else .str (module ++ ":" ++ qualname)
  | _, _ => .none

def Join.quorumValue : Join → Value
  | .quorum q _ => .int q
  | _ => .none

def Join.ref : Join → Value
  | .custom fn => stableCallableRef fn
  | _ => .none

def Reducer.kind : Reducer → ReducerKind
  | .rejectConflict => .rejectConflict
  | .first => .first
  | .last => .last
  | .concat => .concat
  | .union => .union
  | .custom _ => .custom

def Reducer.ref : Reducer → Value
  | .custom fn => stableCallableRef fn
  | _ => .none

def describeNode (item : Str × Fn) : Except Exn NodeSpec :=
  NodeSpec.new item.1 (stableCallableRef item.2) (.dict [])

-- An edge, and for a region its join as well.
def describeEdge (item : Str × Edge) : Except Exn (EdgeSpec × Option JoinSpec) :=
  match item with
  | (source, .static target) => do
      return (← EdgeSpec.new source "static" target .none [] (.dict []), none)
  | (source, .fanout region) => do
      let edge ← EdgeSpec.new source "fanout" region.thenNode .none (region.branches.map .str) (.dict [])
      let join ← JoinSpec.new source region.join.kind region.join.quorumValue region.join.ref
      return (edge, some join)
  | (source, .conditional ⟨router, declaredTargets⟩) => do
      return (← EdgeSpec.new source "conditional" .none (stableCallableRef router)
        (declaredTargets.map .str) (.dict []), none)
  | (source, .callable router) => do
      return (← EdgeSpec.new source "conditional" .none (stableCallableRef router) [] (.dict []), none)

def describeReducer (item : Str × Reducer) : Except Exn ReducerSpec :=
  ReducerSpec.new item.1 item.2.kind.text item.2.ref

-- `_describe_topology`.
def CompiledGraph.describe [Sha256] (g : CompiledGraph) : Except Exn GraphSpec := do
  let nodes ← g.nodes.items.mapM describeNode
  let edges ← g.edges.items.mapM describeEdge
  let reducers ← g.reducers.items.mapM describeReducer
  GraphSpec.create g.maxSteps nodes (edges.map Prod.fst) .none none reducers (edges.filterMap Prod.snd)

theorem isRef_stableCallableRef (fn : Fn) : isRef (stableCallableRef fn) = true := by
  unfold stableCallableRef
  split
  · split_ifs <;> rfl
  · rfl

-- What an edge's record says of it.
def Edge.kind : Edge → EdgeKind
  | .static _ => .static
  | .fanout _ => .fanout
  | .callable _ | .conditional _ => .conditional

def Edge.target : Edge → Value
  | .static target => target
  | .fanout region => region.thenNode
  | .callable _ | .conditional _ => .none

def Edge.routerRef (edge : Edge) : Value :=
  match edge.router? with
  | some router => stableCallableRef router
  | none => .none

def Edge.declaredTargets : Edge → List Str
  | .static _ | .callable _ => []
  | .fanout region => region.branches
  | .conditional edge => edge.declaredTargets

structure Pictures (source : Str) (edge : Edge) (spec : EdgeSpec) : Prop where
  source : spec.source = source
  kind : spec.kind = edge.kind
  target : spec.target = edge.target
  routerRef : spec.routerRef = edge.routerRef
  declaredTargets : ∀ target, target ∈ spec.declaredTargets ↔ target ∈ edge.declaredTargets.map .str
  branches : edge.kind = .fanout → spec.declaredTargets = edge.declaredTargets.map .str

structure PicturesRegion (source : Str) (region : FanOut) (spec : JoinSpec) : Prop where
  source : spec.source = source
  kind : spec.kind.text = region.join.kind
  quorum : spec.quorum = region.join.quorumValue
  ref : spec.ref = region.join.ref

-- A region's join; the other edges have none.
def PicturesJoin (source : Str) (edge : Edge) (join : Option JoinSpec) : Prop :=
  match edge with
  | .fanout region => ∃ spec, join = some spec ∧ PicturesRegion source region spec
  | _ => join = none

theorem isStr_strings (targets : List Str) : (targets.map Value.str).all isStr = true := by
  rw [List.all_map]
  exact List.all_eq_true.mpr fun _ _ => rfl

theorem mem_canonicalTargets {targets : List Str} {canonical : List Value} {target : Value}
    (h : canonicalTargets (targets.map .str) = .ok canonical) :
    target ∈ canonical ↔ target ∈ targets.map .str := by
  obtain ⟨unique, hset, hsorted⟩ := Python.bind_eq_ok.mp h
  obtain ⟨-, rfl⟩ := setOf_eq_ok.mp hset
  have hall := List.all_eq_true.mp (isStr_strings targets)
  rw [(sortedValues_perm hsorted).mem_iff]
  exact mem_distinct fun x hx y hy he => (eq_strings (hall x hx) (hall y hy)).mp he

theorem canonicalTargets_ascending {targets : List Str} (h : targets.Pairwise (· < ·)) :
    canonicalTargets (targets.map .str) = .ok (targets.map .str) := by
  have hstr := isStr_strings targets
  have hnodup : (targets.map Value.str).Nodup :=
    List.Nodup.map (fun _ _ => Value.str.inj) (h.imp fun h => h.ne)
  have hset : setOf (targets.map .str) = .ok (targets.map .str) :=
    setOf_eq_ok.mpr ⟨fun x hx => isStr_hashable (List.all_eq_true.mp hstr x hx),
      ((distinct_strings hstr).mpr hnodup).symm⟩
  rw [canonicalTargets, hset]
  refine Python.bind_eq_ok.mpr ⟨_, rfl, ?_⟩
  rw [sortedValues_strings hstr, Python.sorted_eq_self]
  rw [List.pairwise_map]
  exact h.imp fun h => h.le

theorem pictures_of_new {source : Str} {edge : Edge} {spec : EdgeSpec}
    (h : EdgeSpec.new source edge.kind.text edge.target edge.routerRef
      (edge.declaredTargets.map .str) (.dict []) = .ok spec) : Pictures source edge spec := by
  obtain ⟨hsource, hkind, htarget, href, -, hcanonical, -⟩ := EdgeSpec.new_eq_ok.mp h
  refine ⟨hsource, EdgeKind.text_injective (Value.str.inj hkind).symm, htarget, href,
    fun _ => mem_canonicalTargets hcanonical, fun hfanout => ?_⟩
  cases edge with
  | fanout region => exact (Except.ok.inj ((canonicalTargets_ascending region.ascending).symm.trans hcanonical)).symm
  | _ => cases hfanout

theorem describeEdge_pictures {source : Str} {edge : Edge} {spec : EdgeSpec} {join : Option JoinSpec}
    (h : describeEdge (source, edge) = .ok (spec, join)) :
    Pictures source edge spec ∧ PicturesJoin source edge join := by
  cases edge with
  | fanout region =>
      obtain ⟨read, hread, h⟩ := Python.bind_eq_ok.mp h
      obtain ⟨readJoin, hjoin, h⟩ := Python.bind_eq_ok.mp h
      cases h
      obtain ⟨hsource, hkind, hquorum, href⟩ := JoinSpec.new_eq_ok.mp hjoin
      exact ⟨pictures_of_new hread, readJoin, rfl,
        ⟨hsource.symm, (Value.str.inj hkind).symm, hquorum.symm, href.symm⟩⟩
  | static | callable | conditional =>
      obtain ⟨read, hread, h⟩ := Python.bind_eq_ok.mp h
      cases h
      exact ⟨pictures_of_new hread, rfl⟩

structure PicturesNode (name : Str) (fn : Fn) (spec : NodeSpec) : Prop where
  name : spec.name = name
  implementationRef : spec.implementationRef = stableCallableRef fn

structure PicturesReducer (field : Str) (reducer : Reducer) (spec : ReducerSpec) : Prop where
  field : spec.field = field
  kind : spec.kind = reducer.kind
  ref : spec.ref = reducer.ref

-- The records `specs` are pictures of the entries of `d`, and picture all of them.
structure Portrays {V α : Type} (P : Str → V → α → Prop) (d : Dict Str V) (specs : List α) : Prop where
  sound : ∀ spec ∈ specs, ∃ key value, d.get? key = some value ∧ P key value spec
  complete : ∀ key value, d.get? key = some value → ∃ spec ∈ specs, P key value spec

theorem portrays_of_mapM {V α : Type} {P : Str → V → α → Prop} {d : Dict Str V} {specs : List α}
    {describe : Str × V → Except Exn α}
    (hp : ∀ key value spec, describe (key, value) = .ok spec → P key value spec)
    (h : d.items.mapM describe = .ok specs) : Portrays P d specs := by
  rw [Python.mapM_eq_ok] at h
  constructor
  · intro spec hspec
    have hm : Except.ok spec ∈ d.items.map describe := h ▸ List.mem_map_of_mem hspec
    obtain ⟨⟨key, value⟩, hitem, hdescribe⟩ := List.mem_map.mp hm
    exact ⟨key, value, Dict.get?_of_mem hitem, hp key value spec hdescribe⟩
  · intro key value hget
    have hm : describe (key, value) ∈ specs.map .ok :=
      h ▸ List.mem_map_of_mem (Dict.mem_items_of_get? hget)
    obtain ⟨spec, hspec, hdescribe⟩ := List.mem_map.mp hm
    exact ⟨spec, hspec, hp key value spec hdescribe.symm⟩

theorem Portrays.of_mem_iff {V α : Type} {P : Str → V → α → Prop} {d : Dict Str V}
    {specs specs' : List α} (h : Portrays P d specs) (hm : ∀ spec, spec ∈ specs' ↔ spec ∈ specs) :
    Portrays P d specs' := by
  constructor
  · exact fun spec hspec => h.sound spec ((hm spec).mp hspec)
  · intro key value hget
    obtain ⟨spec, hspec, hp⟩ := h.complete key value hget
    exact ⟨spec, (hm spec).mpr hspec, hp⟩

-- A description of `g`: its joins are those of the regions that do not take every branch.
structure Described [Sha256] (g : CompiledGraph) (s : GraphSpec) : Prop where
  maxSteps : s.maxSteps = g.maxSteps
  nodes : Portrays PicturesNode g.nodes s.nodes
  edges : Portrays Pictures g.edges s.edges
  reducers : Portrays PicturesReducer g.reducers s.reducers
  join_sound : ∀ spec ∈ s.joins, ∃ source region, g.edges.get? source = some (.fanout region) ∧
    PicturesRegion source region spec
  join_complete : ∀ source region, g.edges.get? source = some (.fanout region) →
    region.join = .all ∨ ∃ spec ∈ s.joins, PicturesRegion source region spec
  made : GraphSpec.Made s

theorem Portrays.map {V α β : Type} {P : Str → V → α → Prop} {Q : Str → V → β → Prop} {f : α → β}
    {d : Dict Str V} {specs : List α} (h : Portrays P d specs)
    (hpq : ∀ key value spec, P key value spec → Q key value (f spec)) : Portrays Q d (specs.map f) := by
  constructor
  · intro spec' hspec'
    obtain ⟨spec, hspec, rfl⟩ := List.mem_map.mp hspec'
    obtain ⟨key, value, hget, hp⟩ := h.sound spec hspec
    exact ⟨key, value, hget, hpq key value spec hp⟩
  · intro key value hget
    obtain ⟨spec, hspec, hp⟩ := h.complete key value hget
    exact ⟨f spec, List.mem_map_of_mem hspec, hpq key value spec hp⟩

theorem PicturesNode.typed {name : Str} {fn : Fn} {spec : NodeSpec} (h : PicturesNode name fn spec) :
    spec.typed = true := by
  rw [NodeSpec.typed, h.implementationRef]
  exact isRef_stableCallableRef fn

theorem Pictures.typed {source : Str} {edge : Edge} {spec : EdgeSpec} (h : Pictures source edge spec) :
    spec.typed = true := by
  have htargets : spec.declaredTargets.all isStr = true := List.all_eq_true.mpr fun target ht => by
    obtain ⟨name, -, rfl⟩ := List.mem_map.mp ((h.declaredTargets target).mp ht)
    rfl
  have hrouter : isRef spec.routerRef = true := by
    rw [h.routerRef, Edge.routerRef]
    split
    · exact isRef_stableCallableRef _
    · rfl
  have htarget : isRef spec.target = true := by
    rw [h.target]
    cases edge <;> rfl
  simp [EdgeSpec.typed, htargets, hrouter, htarget]

theorem PicturesReducer.typed {field : Str} {reducer : Reducer} {spec : ReducerSpec}
    (h : PicturesReducer field reducer spec) : spec.typed = true := by
  rw [ReducerSpec.typed, h.ref]
  cases reducer <;> first | rfl | exact isRef_stableCallableRef _

theorem PicturesRegion.typed {source : Str} {region : FanOut} {spec : JoinSpec}
    (h : PicturesRegion source region spec) : spec.typed = true := by
  rw [JoinSpec.typed, h.ref]
  cases region.join <;> first | rfl | exact isRef_stableCallableRef _

theorem describe_described [Sha256] {g : CompiledGraph} {s : GraphSpec} (h : g.describe = .ok s) :
    Described g s := by
  obtain ⟨nodes, hnodes, h⟩ := Python.bind_eq_ok.mp h
  obtain ⟨pairs, hpairs, h⟩ := Python.bind_eq_ok.mp h
  obtain ⟨reducers, hreducers, hcreate⟩ := Python.bind_eq_ok.mp h
  have hnodes : Portrays PicturesNode g.nodes nodes := by
    refine portrays_of_mapM (fun name fn spec hs => ?_) hnodes
    obtain ⟨hname, href, -⟩ := NodeSpec.new_eq_ok.mp hs
    exact ⟨hname, href⟩
  have hpairs : Portrays (fun source edge pair => Pictures source edge pair.1 ∧
      PicturesJoin source edge pair.2) g.edges pairs :=
    portrays_of_mapM (fun _ _ _ hs => describeEdge_pictures hs) hpairs
  have hedges : Portrays Pictures g.edges (pairs.map Prod.fst) := hpairs.map fun _ _ _ hp => hp.1
  have hreducers : Portrays PicturesReducer g.reducers reducers := by
    refine portrays_of_mapM (fun field reducer spec hs => ?_) hreducers
    obtain ⟨hfield, hkind, href⟩ := ReducerSpec.new_eq_ok.mp hs
    exact ⟨(Value.str.inj hfield).symm, ReducerKind.text_injective (Value.str.inj hkind).symm, href.symm⟩
  have hjoins : ∀ spec ∈ pairs.filterMap Prod.snd, ∃ source region,
      g.edges.get? source = some (.fanout region) ∧ PicturesRegion source region spec := by
    intro spec hspec
    obtain ⟨pair, hpair, hsnd⟩ := List.mem_filterMap.mp hspec
    obtain ⟨source, edge, hget, -, hjoin⟩ := hpairs.sound pair hpair
    rw [hsnd] at hjoin
    cases edge with
    | fanout region =>
        obtain ⟨spec', hsome, hregion⟩ := hjoin
        obtain rfl := Option.some.inj hsome
        exact ⟨source, region, hget, hregion⟩
    | _ => cases hjoin
  have htypedNodes : ∀ n ∈ nodes, n.typed = true := by
    intro n hn
    obtain ⟨_, _, -, hp⟩ := hnodes.sound n hn
    exact hp.typed
  have htypedEdges : ∀ e ∈ pairs.map Prod.fst, e.typed = true := by
    intro e he
    obtain ⟨_, _, -, hp⟩ := hedges.sound e he
    exact hp.typed
  have hmade : GraphSpec.Made s := by
    refine GraphSpec.create_made htypedNodes htypedEdges (fun r hr => ?_) (fun j hj => ?_)
      (fun _ hv => absurd hv (Option.not_mem_none _)) hcreate
    · obtain ⟨_, _, -, hp⟩ := hreducers.sound r hr
      exact hp.typed
    · obtain ⟨_, _, -, hp⟩ := hjoins j hj
      exact hp.typed
  obtain ⟨-, hsteps, hsorted, hsortedEdges, hsortedReducers, hkept, -⟩ :=
    (GraphSpec.create_typed htypedNodes htypedEdges).mp hcreate
  refine ⟨hsteps, hnodes.of_mem_iff fun _ => ?_, hedges.of_mem_iff fun _ => ?_,
    hreducers.of_mem_iff fun _ => ?_, fun spec hspec => hjoins spec ?_, ?_, hmade⟩
  · rw [hsorted, Python.mem_sorted]
  · rw [hsortedEdges, Python.mem_sorted]
  · rw [hsortedReducers, Python.mem_sorted]
  · rw [hkept, Python.mem_sorted] at hspec
    exact List.mem_of_mem_filter hspec
  · intro source region hget
    obtain ⟨⟨edge, join⟩, hpair, -, hjoin⟩ := hpairs.complete source _ hget
    obtain ⟨spec, rfl, hregion⟩ := hjoin
    by_cases hall : region.join = .all
    · exact .inl hall
    refine .inr ⟨spec, ?_, hregion⟩
    have hkind : spec.kind ≠ .all := by
      intro hk
      have htext := hregion.kind
      rw [hk] at htext
      cases hj : region.join with
      | all => exact hall hj
      | _ =>
          rw [hj] at htext
          simp only [JoinKind.text, Join.kind] at htext
          exact absurd htext (by decide)
    rw [hkept, Python.mem_sorted]
    refine List.mem_filter.mpr ⟨List.mem_filterMap.mpr ⟨_, hpair, rfl⟩, ?_⟩
    simp [GraphSpec.implied, JoinSpec.isDefault, hkind]

end PerpetuaCore.Graph
