import PerpetuaCore.Graph.Equivalence
import PerpetuaCore.Graph.Lint

namespace PerpetuaCore.Graph

open Interaction
open Python (Str Value Dict)

-- `Reducer.__post_init__`: the kind is any string, the function may be missing.
def Reducer.new (kind : Str) (fn : Option Fn) : Except Exn Reducer :=
  match ReducerKind.kinds.find? (·.text = kind), fn with
  | none, _ => .error (.valueError ["unsupported reducer kind: ", .repr kind])
  | some .custom, some fn => .ok (.custom fn)
  | some .custom, none => .error (.valueError ["custom reducer requires a callable fn"])
  | some _, some _ => .error (.valueError ["only a custom reducer may set fn"])
  | some .rejectConflict, none => .ok .rejectConflict
  | some .first, none => .ok .first
  | some .last, none => .ok .last
  | some .concat, none => .ok .concat
  | some .union, none => .ok .union

-- What `add_reducer` is passed: a bound reducer, or a kind with its function.
inductive ReducerArg where
  | bound (reducer : Reducer)
  | declared (kind : Str) (fn : Option Fn)

def ReducerArg.reducer : ReducerArg → Except Exn Reducer
  | .bound reducer => .ok reducer
  | .declared kind fn => Reducer.new kind fn

structure MiniGraph where
  nodes : Dict Str Fn := .empty
  edges : Dict Str Edge := .empty
  reducers : Dict Str Reducer := .empty
  maxSteps : Int := 200

namespace MiniGraph

def addNode (graph : MiniGraph) (name : Str) (fn : Fn) : MiniGraph :=
  { graph with nodes := graph.nodes.set name fn }

def addEdge (graph : MiniGraph) (src : Str) (dst : Edge) : Except Exn MiniGraph :=
  match dst with
  | .fanout _ =>
      if src = START then
        .error (.valueError ["a fan-out region needs a source node; START cannot fan out"])
      else .ok { graph with edges := graph.edges.set src dst }
  | dst => .ok { graph with edges := graph.edges.set src dst }

def addReducer (graph : MiniGraph) (fieldName : Str) (kind : ReducerArg) : Except Exn MiniGraph := do
  let reducer ← kind.reducer
  return { graph with reducers := graph.reducers.set fieldName reducer }

def setEntry (graph : MiniGraph) (node : Str) : Except Exn MiniGraph :=
  graph.addEdge START (.static node)

def compile (graph : MiniGraph) : CompiledGraph :=
  ⟨graph.nodes, graph.edges, graph.maxSteps, graph.reducers⟩

end MiniGraph

-- One call on the builder.
inductive Authoring where
  | addNode (name : Str) (fn : Fn)
  | addEdge (src : Str) (dst : Edge)
  | addReducer (fieldName : Str) (kind : ReducerArg)
  | setEntry (node : Str)

namespace MiniGraph

def call (graph : MiniGraph) : Authoring → Except Exn MiniGraph
  | .addNode name fn => .ok (graph.addNode name fn)
  | .addEdge src dst => graph.addEdge src dst
  | .addReducer fieldName kind => graph.addReducer fieldName kind
  | .setEntry node => graph.setEntry node

-- A call that raises leaves the builder as it was, and the author may go on.
def author (graph : MiniGraph) (history : List Authoring) : MiniGraph :=
  history.foldl (fun graph step => (graph.call step).toOption.getD graph) graph

end MiniGraph

-- `GraphSpecValidationError`, with its report.
inductive Rejection where
  | raised (error : Exn)
  | invalid (report : GraphValidationReport)

-- `compile_validated`.
def MiniGraph.compileValidated [Sha256] [Builtins] (graph : MiniGraph) : Except Rejection CompiledGraph :=
  match graph.compile.describe >>= lintGraphSpec with
  | .error error => .error (.raised error)
  | .ok report => if report.valid then .ok graph.compile else .error (.invalid report)

namespace Builder

-- What a call binds a name to, where it does not raise.
def node? (name : Str) : Authoring → Option Fn
  | .addNode n fn => if n = name then some fn else none
  | _ => none

def edge? (source : Str) : Authoring → Option Edge
  | .addEdge src (.fanout region) => if src = source ∧ src ≠ START then some (.fanout region) else none
  | .addEdge src dst => if src = source then some dst else none
  | .setEntry node => if START = source then some (.static node) else none
  | _ => none

def reducer? (field : Str) : Authoring → Option Reducer
  | .addReducer fieldName kind => if fieldName = field then kind.reducer.toOption else none
  | _ => none

-- The last binding there is.
def current {α : Type} (binds : Authoring → Option α) (history : List Authoring) : Option α :=
  history.reverse.findSome? binds

-- Two histories that end with the same bindings.
structure Agree (history history' : List Authoring) : Prop where
  nodes : ∀ name, current (node? name) history = current (node? name) history'
  edges : ∀ source, current (edge? source) history = current (edge? source) history'
  reducers : ∀ field, current (reducer? field) history = current (reducer? field) history'

variable {graph : MiniGraph} {history history' : List Authoring} {step : Authoring}

theorem author_snoc : graph.author (history ++ [step]) =
    ((graph.author history).call step).toOption.getD (graph.author history) := by
  rw [MiniGraph.author, List.foldl_append]
  rfl

theorem current_snoc {α : Type} {binds : Authoring → Option α} :
    current binds (history ++ [step]) = (binds step).or (current binds history) := by
  rw [current, List.reverse_concat, List.findSome?_cons]
  cases binds step <;> rfl

-- What one call does to the three dicts.
structure Extends (graph graph' : MiniGraph) (step : Authoring) : Prop where
  maxSteps : graph'.maxSteps = graph.maxSteps
  nodes : ∀ name, graph'.nodes.get? name = (node? name step).or (graph.nodes.get? name)
  edges : ∀ source, graph'.edges.get? source = (edge? source step).or (graph.edges.get? source)
  reducers : ∀ field, graph'.reducers.get? field = (reducer? field step).or (graph.reducers.get? field)

theorem get?_set_or {V : Type} (d : Dict Str V) (key k : Str) (value : V) :
    (d.set key value).get? k = (if key = k then some value else none).or (d.get? k) := by
  rw [Dict.get?_set]
  by_cases hk : key = k
  · simp [hk]
  · simp [hk, Ne.symm hk]

theorem call_extends : Extends graph ((graph.call step).toOption.getD graph) step := by
  cases step with
  | addNode name fn => exact ⟨rfl, fun _ => get?_set_or .., fun _ => rfl, fun _ => rfl⟩
  | setEntry node => exact ⟨rfl, fun _ => rfl, fun _ => get?_set_or .., fun _ => rfl⟩
  | addReducer fieldName kind =>
      cases hkind : kind.reducer with
      | error error =>
          have hcall : graph.call (.addReducer fieldName kind) = .error error := by
            rw [MiniGraph.call, MiniGraph.addReducer, hkind]
            rfl
          rw [hcall]
          refine ⟨rfl, fun _ => rfl, fun _ => rfl, fun field => ?_⟩
          rw [reducer?, hkind]
          split_ifs <;> rfl
      | ok reducer =>
          have hcall : graph.call (.addReducer fieldName kind) =
              .ok { graph with reducers := graph.reducers.set fieldName reducer } := by
            rw [MiniGraph.call, MiniGraph.addReducer, hkind]
            rfl
          rw [hcall]
          refine ⟨rfl, fun _ => rfl, fun _ => rfl, fun field => ?_⟩
          rw [reducer?, hkind]
          exact get?_set_or ..
  | addEdge src dst =>
      cases dst with
      | static | callable | conditional =>
          exact ⟨rfl, fun _ => rfl, fun _ => get?_set_or .., fun _ => rfl⟩
      | fanout region =>
          by_cases hstart : src = START
          · have hcall : (graph.call (.addEdge src (.fanout region))).toOption = none := by
              rw [MiniGraph.call, MiniGraph.addEdge, if_pos hstart]
              rfl
            rw [hcall]
            refine ⟨rfl, fun _ => rfl, fun source => ?_, fun _ => rfl⟩
            rw [edge?, if_neg fun h => h.2 hstart]
            rfl
          · have hcall : graph.call (.addEdge src (.fanout region)) =
                .ok { graph with edges := graph.edges.set src (.fanout region) } := by
              rw [MiniGraph.call, MiniGraph.addEdge, if_neg hstart]
            rw [hcall]
            refine ⟨rfl, fun _ => rfl, fun source => ?_, fun _ => rfl⟩
            rw [edge?]
            simp only [hstart, ne_eq, not_false_eq_true, and_true]
            exact get?_set_or ..

-- Every dict holds the last binding of each of its names.
theorem author_extends : (graph.author history).maxSteps = graph.maxSteps ∧
    (∀ name, (graph.author history).nodes.get? name =
      (current (node? name) history).or (graph.nodes.get? name)) ∧
    (∀ source, (graph.author history).edges.get? source =
      (current (edge? source) history).or (graph.edges.get? source)) ∧
    ∀ field, (graph.author history).reducers.get? field =
      (current (reducer? field) history).or (graph.reducers.get? field) := by
  induction history using List.reverseRecOn with
  | nil => exact ⟨rfl, fun _ => rfl, fun _ => rfl, fun _ => rfl⟩
  | append_singleton history step ih =>
      obtain ⟨hsteps, hnodes, hedges, hreducers⟩ := ih
      have hx : Extends (graph.author history) _ step := call_extends
      rw [author_snoc]
      refine ⟨hx.maxSteps.trans hsteps, fun name => ?_, fun source => ?_, fun field => ?_⟩
      · rw [hx.nodes, hnodes, current_snoc, Option.or_assoc]
      · rw [hx.edges, hedges, current_snoc, Option.or_assoc]
      · rw [hx.reducers, hreducers, current_snoc, Option.or_assoc]

theorem Agree.symm (h : Agree history history') : Agree history' history :=
  ⟨fun name => (h.nodes name).symm, fun source => (h.edges source).symm, fun field => (h.reducers field).symm⟩

theorem equivalent_author (h : Agree history history') :
    Equivalence.Equivalent (graph.author history).compile (graph.author history').compile := by
  obtain ⟨hsteps, hnodes, hedges, hreducers⟩ := @author_extends graph history
  obtain ⟨hsteps', hnodes', hedges', hreducers'⟩ := @author_extends graph history'
  have hedge : ∀ source, (graph.author history).edges.get? source = (graph.author history').edges.get? source :=
    fun source => (hedges source).trans ((h.edges source).symm ▸ (hedges' source).symm)
  constructor
  · exact hsteps.trans hsteps'.symm
  · exact fun name => (hnodes name).trans ((h.nodes name).symm ▸ (hnodes' name).symm)
  · intro source
    rw [CompiledGraph.edgeOf, CompiledGraph.edgeOf, MiniGraph.compile, MiniGraph.compile, hedge]
  · exact fun field => (hreducers field).trans ((h.reducers field).symm ▸ (hreducers' field).symm)

section Describe

-- The records of a dict carry its keys.
theorem keys_of_mapM {V α : Type} {key : α → Str} {describe : Str × V → Except Exn α} {d : Dict Str V}
    {specs : List α} (hkey : ∀ name value spec, describe (name, value) = .ok spec → key spec = name)
    (h : d.items.mapM describe = .ok specs) : (specs.map key).Nodup := by
  have hkeys : specs.map key = d.items.map Prod.fst := by
    rw [← List.forall₂_eq_eq_eq, List.forall₂_map_left_iff, List.forall₂_map_right_iff]
    exact (Python.mapM_eq_ok_iff_forall₂.mp h).flip.imp fun _ _ hspec => hkey _ _ _ hspec
  rw [hkeys]
  exact d.nodup

theorem describeNode_pictures {name : Str} {fn : Fn} {spec : NodeSpec}
    (h : describeNode (name, fn) = .ok spec) : PicturesNode name fn spec := by
  obtain ⟨hname, href, -⟩ := NodeSpec.new_eq_ok.mp h
  exact ⟨hname, href⟩

variable {g g' : CompiledGraph} {nodes : List NodeSpec} {pairs : List (EdgeSpec × Option JoinSpec)}
  {reducers : List ReducerSpec}

theorem source_of_describeEdge {source : Str} {edge : Edge} {pair : EdgeSpec × Option JoinSpec}
    (h : describeEdge (source, edge) = .ok pair) :
    pair.1.source = source ∧ ∀ join, pair.2 = some join → join.source = source := by
  obtain ⟨hp, hpj⟩ := describeEdge_pictures h
  refine ⟨hp.source, fun join hjoin => ?_⟩
  rw [hjoin] at hpj
  cases edge with
  | fanout region =>
      obtain ⟨spec, hspec, hregion⟩ := hpj
      exact Option.some.inj hspec ▸ hregion.source
  | _ => cases hpj

-- No two records of a description tie.
theorem distinguished_of_describe (hn : g.nodes.items.mapM describeNode = .ok nodes)
    (he : g.edges.items.mapM describeEdge = .ok pairs)
    (hr : g.reducers.items.mapM describeReducer = .ok reducers) :
    Distinguished nodes (pairs.map Prod.fst) reducers (pairs.filterMap Prod.snd) := by
  have hsources : (pairs.map fun pair => pair.1.source).Nodup :=
    keys_of_mapM (fun _ _ _ hpair => (source_of_describeEdge hpair).1) he
  have hown : ∀ pair ∈ pairs, ∀ join, pair.2 = some join → pair.1.source = join.source := by
    intro pair hpair join hjoin
    obtain ⟨source, edge, -, hsource, hjoins⟩ :=
      (portrays_of_mapM (fun _ _ _ hpair => source_of_describeEdge hpair) he).sound pair hpair
    exact hsource.trans (hjoins join hjoin).symm
  constructor
  · intro a ha b hb hname _ _
    exact List.inj_on_of_nodup_map
      (keys_of_mapM (fun _ _ _ hspec => (describeNode_pictures hspec).name) hn) ha hb hname
  · intro a ha b hb hsource _ _ _ _ _
    obtain ⟨pair, hpair, rfl⟩ := List.mem_map.mp ha
    obtain ⟨pair', hpair', rfl⟩ := List.mem_map.mp hb
    rw [List.inj_on_of_nodup_map hsources hpair hpair' hsource]
  · intro a ha b hb hfield
    refine List.inj_on_of_nodup_map (keys_of_mapM (fun _ _ _ hspec => ?_) hr) ha hb hfield
    exact (Value.str.inj (ReducerSpec.new_eq_ok.mp hspec).1).symm
  · intro a ha b hb hsource _
    obtain ⟨pair, hpair, hsnd⟩ := List.mem_filterMap.mp ha
    obtain ⟨pair', hpair', hsnd'⟩ := List.mem_filterMap.mp hb
    have hsame := List.inj_on_of_nodup_map hsources hpair hpair'
      ((hown _ hpair _ hsnd).trans (hsource.trans (hown _ hpair' _ hsnd').symm))
    rw [hsame, hsnd'] at hsnd
    exact (Option.some.inj hsnd).symm

variable [Sha256] {s : GraphSpec}

-- Records that do not tie may be declared in any order.
theorem create_perm {maxSteps : Int} {nodes' : List NodeSpec} {edges edges' : List EdgeSpec}
    {reducers' : List ReducerSpec} {joins joins' : List JoinSpec}
    (hn : ∀ n ∈ nodes, n.typed = true) (he : ∀ e ∈ edges, e.typed = true)
    (hd : Distinguished nodes edges reducers joins) (hpn : nodes'.Perm nodes) (hpe : edges'.Perm edges)
    (hpr : reducers'.Perm reducers) (hpj : joins'.Perm joins)
    (h : GraphSpec.create maxSteps nodes edges .none none reducers joins = .ok s) :
    GraphSpec.create maxSteps nodes' edges' .none none reducers' joins' = .ok s := by
  obtain ⟨hfrozen, hsteps, hnodes, hedges, hreducers, hjoins, hversion, hid⟩ :=
    (GraphSpec.create_typed hn he).mp h
  have hn' : ∀ n ∈ nodes', n.typed = true := fun n hm => hn n (hpn.mem_iff.mp hm)
  have he' : ∀ e ∈ edges', e.typed = true := fun e hm => he e (hpe.mem_iff.mp hm)
  refine (GraphSpec.create_typed hn' he').mpr ⟨hfrozen, hsteps, ?_, ?_, ?_, ?_, hversion, hid⟩
  · refine hnodes.trans (Python.sorted_perm_iff.mpr (fun a ha b hb hkey => ?_) nodes' hpn).symm
    obtain ⟨hname, href, hmetadata⟩ := (nodeKey_eq_iff (hn a ha) (hn b hb)).mp hkey
    exact hd.nodes a ha b hb hname href hmetadata
  · refine hedges.trans (Python.sorted_perm_iff.mpr (fun a ha b hb hkey => ?_) edges' hpe).symm
    obtain ⟨hsource, hkind, htarget, href, htargets, hmetadata⟩ :=
      (edgeKey_eq_iff (he a ha) (he b hb)).mp hkey
    exact hd.edges a ha b hb hsource hkind htarget href htargets hmetadata
  · exact hreducers.trans (Python.sorted_perm_iff.mpr hd.reducers reducers' hpr).symm
  · exact hjoins.trans (GraphSpec.sorted_keptJoins_iff.mpr hd.joins joins' hpj).symm

-- A description does not depend on the order of the dicts.
theorem describe_perm (hsteps : g.maxSteps = g'.maxSteps) (hnodes : g.nodes.items.Perm g'.nodes.items)
    (hedges : g.edges.items.Perm g'.edges.items) (hreducers : g.reducers.items.Perm g'.reducers.items)
    (h : g.describe = .ok s) : g'.describe = .ok s := by
  obtain ⟨nodes, hn, h⟩ := Python.bind_eq_ok.mp h
  obtain ⟨pairs, he, h⟩ := Python.bind_eq_ok.mp h
  obtain ⟨reducers, hr, h⟩ := Python.bind_eq_ok.mp h
  obtain ⟨nodes', hn', hpn⟩ := Python.mapM_perm hnodes hn
  obtain ⟨pairs', he', hpe⟩ := Python.mapM_perm hedges he
  obtain ⟨reducers', hr', hpr⟩ := Python.mapM_perm hreducers hr
  refine Python.bind_eq_ok.mpr ⟨nodes', hn', Python.bind_eq_ok.mpr ⟨pairs', he',
    Python.bind_eq_ok.mpr ⟨reducers', hr', ?_⟩⟩⟩
  rw [← hsteps]
  refine create_perm ?_ ?_ (distinguished_of_describe hn he hr) hpn (hpe.map Prod.fst) hpr
    (hpe.filterMap Prod.snd) h
  · intro spec hm
    obtain ⟨_, _, -, hp⟩ := (portrays_of_mapM (fun _ _ _ => describeNode_pictures) hn).sound spec hm
    exact hp.typed
  · intro spec hm
    obtain ⟨pair, hpair, rfl⟩ := List.mem_map.mp hm
    obtain ⟨_, _, -, hp, -⟩ := (portrays_of_mapM (fun _ _ _ => describeEdge_pictures) he).sound pair hpair
    exact hp.typed

theorem describe_author (h : Agree history history')
    (hs : (graph.author history).compile.describe = .ok s) :
    (graph.author history').compile.describe = .ok s := by
  obtain ⟨hsteps, hnodes, hedges, hreducers⟩ := @author_extends graph history
  obtain ⟨hsteps', hnodes', hedges', hreducers'⟩ := @author_extends graph history'
  refine describe_perm (hsteps.trans hsteps'.symm) (Dict.items_perm fun name => ?_)
    (Dict.items_perm fun source => ?_) (Dict.items_perm fun field => ?_) hs
  · exact (hnodes name).trans ((h.nodes name).symm ▸ (hnodes' name).symm)
  · exact (hedges source).trans ((h.edges source).symm ▸ (hedges' source).symm)
  · exact (hreducers field).trans ((h.reducers field).symm ▸ (hreducers' field).symm)

theorem compileValidated_eq_ok [Builtins] :
    graph.compileValidated = .ok g ↔ graph.compile = g ∧
      ∃ report, (g.describe >>= lintGraphSpec) = .ok report ∧ report.valid = true := by
  unfold MiniGraph.compileValidated
  constructor
  · intro h
    split at h
    · cases h
    · rename_i report hreport
      split_ifs at h with hvalid
      cases h
      exact ⟨rfl, report, hreport, hvalid⟩
  · rintro ⟨rfl, report, hreport, hvalid⟩
    rw [hreport]
    exact if_pos hvalid

-- Only the last binding of each name counts: not the order of the calls, not what they
-- overwrite, not the calls that raise.
theorem last_binding_decides [Builtins] (h : Agree history history') :
    (∀ s, (graph.author history).compile.describe = .ok s ↔
      (graph.author history').compile.describe = .ok s) ∧
    ((∃ g, (graph.author history).compileValidated = .ok g) ↔
      ∃ g, (graph.author history').compileValidated = .ok g) ∧
    ∀ gate state, run (graph.author history).compile gate state =
      run (graph.author history').compile gate state := by
  have hvalidated : ∀ {history history'}, Agree history history' →
      (∃ g, (graph.author history).compileValidated = .ok g) →
        ∃ g, (graph.author history').compileValidated = .ok g := by
    rintro history history' h ⟨g, hg⟩
    obtain ⟨rfl, report, hreport, hvalid⟩ := compileValidated_eq_ok.mp hg
    obtain ⟨s, hs, hlint⟩ := Python.bind_eq_ok.mp hreport
    exact ⟨_, compileValidated_eq_ok.mpr ⟨rfl, report,
      Python.bind_eq_ok.mpr ⟨s, describe_author h hs, hlint⟩, hvalid⟩⟩
  exact ⟨fun _ => ⟨describe_author h, describe_author h.symm⟩, ⟨hvalidated h, hvalidated h.symm⟩,
    fun _ _ => Equivalence.run_congr (equivalent_author h)⟩

def overwriting : List Authoring :=
  [.setEntry "b", .addNode "a" ⟨1, none, none⟩, .addEdge START (.fanout .pair),
    .addReducer "scratchpad" (.declared "sum" none), .setEntry "a", .addNode "a" ⟨0, none, none⟩,
    .addReducer "scratchpad" (.declared "last" none)]

def direct : List Authoring :=
  [.addReducer "scratchpad" (.bound .last), .addNode "a" ⟨0, none, none⟩, .setEntry "a"]

omit [Sha256] in
theorem last_binding_decides_overwriting :
    letI := Sha256.verbatim
    letI := quotingBuiltins
    (∃ g, (({} : MiniGraph).author overwriting).compileValidated = .ok g) ∧
      run (({} : MiniGraph).author overwriting).compile none (State.new "s") =
        run (({} : MiniGraph).author direct).compile none (State.new "s") := by
  let := Sha256.verbatim
  let := quotingBuiltins
  have hagree : Agree overwriting direct := by
    constructor
    · intro name
      by_cases hname : "a" = name <;>
        simp [current, overwriting, direct, List.findSome?_cons, node?, hname]
    · intro source
      by_cases hsource : START = source <;>
        simp [current, overwriting, direct, List.findSome?_cons, edge?, hsource]
    · intro field
      by_cases hfield : "scratchpad" = field
      · simp only [current, overwriting, direct, reducer?, hfield, List.reverse_cons, List.reverse_nil,
          List.nil_append, List.cons_append, List.findSome?_cons, if_true]
        rfl
      · simp [current, overwriting, direct, List.findSome?_cons, reducer?, hfield]
  have hvalid : ∃ g, (({} : MiniGraph).author direct).compileValidated = .ok g :=
    Python.exists_ok (by decide +kernel)
  obtain ⟨-, hvalidated, hrun⟩ := @last_binding_decides {} _ _ _ _ hagree
  exact ⟨hvalidated.mpr hvalid, hrun none _⟩

end Describe

end Builder

end PerpetuaCore.Graph
