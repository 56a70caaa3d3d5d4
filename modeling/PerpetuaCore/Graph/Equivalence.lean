import PerpetuaCore.Graph.Describe
import PerpetuaCore.Graph.Engine

namespace PerpetuaCore.Graph

open Interaction
open Python (Str Value Dict)

namespace Equivalence

-- What the scheduler runs of an edge: declared targets are for the linter only.
def runtime : Edge → Edge
  | .conditional edge => .callable edge.router
  | edge => edge

-- Every lookup of the scheduler finds the same.
structure Equivalent (g g' : CompiledGraph) : Prop where
  maxSteps : g.maxSteps = g'.maxSteps
  nodes : ∀ name, g.nodes.get? name = g'.nodes.get? name
  edges : ∀ name, runtime (g.edgeOf name) = runtime (g'.edgeOf name)
  reducers : ∀ field, g.reducers.get? field = g'.reducers.get? field

variable {g g' : CompiledGraph} {gate : Option Gate}

theorem Equivalent.contains (h : Equivalent g g') (name : Str) :
    g.nodes.contains name = g'.nodes.contains name := by
  rw [Bool.eq_iff_iff, Dict.contains_iff, Dict.contains_iff, ← Dict.get?_isSome_iff,
    ← Dict.get?_isSome_iff, h.nodes]

theorem nodeFor_congr (h : Equivalent g g') : nodeFor g = nodeFor g' := by
  funext name
  rw [nodeFor, nodeFor, h.nodes]

theorem checkTarget_congr (h : Equivalent g g') : checkTarget g = checkTarget g' := by
  funext value
  unfold checkTarget
  simp only [h.contains]

theorem resolveEdge_runtime (source : Str) (edge : Edge) (state : State) :
    resolveEdge g source edge state = resolveEdge g source (runtime edge) state := by
  cases edge <;> rfl

theorem router?_runtime (edge : Edge) : (runtime edge).router? = edge.router? := by
  cases edge <;> rfl

theorem route_congr (h : Equivalent g g') {source : Str} {edge edge' : Edge} {state : State} {steps : Nat}
    (he : runtime edge = runtime edge') :
    route g gate source edge state steps = route g' gate source edge' state steps := by
  have hresolve : resolveEdge g source edge = resolveEdge g' source edge' := by
    funext state
    calc
      resolveEdge g source edge state = resolveEdge g source (runtime edge) state :=
        resolveEdge_runtime source edge state
      _ = resolveEdge g' source (runtime edge') state := by
        unfold resolveEdge
        rw [he, checkTarget_congr h]
      _ = resolveEdge g' source edge' state := (resolveEdge_runtime source edge' state).symm
  have hdispatch : ∀ nodes steps source batchId,
      dispatch gate (some edge) .router nodes steps source batchId =
        dispatch gate (some edge') .router nodes steps source batchId := by
    intro nodes steps source batchId
    unfold dispatch
    simp only [Option.bind_some, ← router?_runtime edge, ← router?_runtime edge', he]
  rw [route, route, hdispatch, hresolve]

theorem enterRegion_congr (h : Equivalent g g') : enterRegion g = enterRegion g' := by
  funext source edge state steps
  simp only [enterRegion, h.maxSteps, nodeFor_congr h, h.contains]

theorem branchCall_congr (h : Equivalent g g') : branchCall g = branchCall g' := by
  have hrun : runBranch g = runBranch g' := by
    funext source snapshot name
    rw [runBranch, runBranch, nodeFor_congr h]
  funext gate source batchId snapshot steps name
  rw [branchCall, branchCall, hrun]

theorem fold_congr (h : Equivalent g g') : fold g = fold g' := by
  have hfields : foldFields g = foldFields g' := by
    funext gate source snapshot request contributed fields folded
    induction fields generalizing folded with
    | nil => rfl
    | cons field rest ih =>
        have hfield : foldField g gate source snapshot request contributed field =
            foldField g' gate source snapshot request contributed field := by
          rw [foldField, foldField, h.reducers]
        simp only [foldFields, hfield, ih]
  funext gate source snapshot admitted request
  rw [fold, fold, hfields]

theorem fanout_of_runtime {edge : Edge} {region : FanOut} (h : runtime edge = .fanout region) :
    edge = .fanout region := by
  cases edge <;> first | exact h | cases h

variable [Sha256]

theorem joinRegion_congr (h : Equivalent g g') : joinRegion g = joinRegion g' := by
  have hfold : @foldRegion _ g = @foldRegion _ g' := by
    funext gate source edge state snapshot steps completed progress batchId admitted
    rw [foldRegion, foldRegion, fold_congr h]
  funext gate source edge state snapshot steps batchId settled
  rw [joinRegion, joinRegion, hfold]

theorem runRegion_congr (h : Equivalent g g') : runRegion g = runRegion g' := by
  have hsettle : settle g = settle g' := by
    funext gate source branches batchId snapshot steps
    rw [settle, settle, branchCall_congr h]
  funext gate source edge state steps
  rw [runRegion, runRegion, enterRegion_congr h, hsettle, joinRegion_congr h]

theorem runNode_congr (h : Equivalent g g') : runNode g = runNode g' := by
  funext gate node state steps
  rw [runNode, runNode, nodeFor_congr h]

theorem loopFrom_congr (h : Equivalent g g') {fuel : Nat} {node : Str} {state : State} {steps : Nat}
    {lastNode : Str} :
    loopFrom g gate fuel node state steps lastNode = loopFrom g' gate fuel node state steps lastNode := by
  induction fuel generalizing node state steps lastNode with
  | zero => rw [loopFrom, loopFrom, h.maxSteps]
  | succ fuel ih =>
      rw [loopFrom, loopFrom, h.maxSteps, runNode_congr h]
      split_ifs
      · rfl
      · rfl
      refine congrArg (Prog.bind _) (funext fun result => ?_)
      cases result with
      | none => rfl
      | some state =>
          have he := h.edges node
          dsimp only
          unfold followRegion
          cases hedge : g.edgeOf node with
          | fanout region =>
              rw [hedge] at he
              rw [fanout_of_runtime he.symm, runRegion_congr h]
              refine congrArg (Prog.bind _) (funext fun next => ?_)
              cases next with
              | none => rfl
              | some next => simp only [route_congr h rfl, ih]
          | static | callable | conditional =>
              cases hedge' : g'.edgeOf node with
              | fanout region =>
                  rw [hedge, hedge'] at he
                  cases he
              | _ =>
                  rw [hedge, hedge'] at he
                  simp only [Prog.bind_eq, Prog.ret_bind, route_congr h he, ih]

theorem run_congr (h : Equivalent g g') {state : State} : run g gate state = run g' gate state := by
  have hloop : ∀ node state steps lastNode,
      loop g gate node state steps lastNode = loop g' gate node state steps lastNode := by
    intro node state steps lastNode
    rw [loop, loop, h.maxSteps, loopFrom_congr h]
  rw [run, run, route_congr h (h.edges START)]
  simp only [hloop]

omit [Sha256] in
-- Two dicts pictured by the same records hold related values under the same keys.
theorem portrays_rel {V α : Type} {P : Str → V → α → Prop} {R : V → V → Prop} {d d' : Dict Str V}
    {specs : List α} (h : Portrays P d specs) (h' : Portrays P d' specs)
    (hkey : ∀ spec key value key' value', P key value spec → P key' value' spec → key = key')
    (hvalue : ∀ spec key value value', d.get? key = some value → d'.get? key = some value' →
      P key value spec → P key value' spec → R value value') (key : Str) :
    Option.Rel R (d.get? key) (d'.get? key) := by
  cases hd : d.get? key with
  | some value =>
      obtain ⟨spec, hspec, hp⟩ := h.complete key value hd
      obtain ⟨key', value', hd', hp'⟩ := h'.sound spec hspec
      obtain rfl := hkey spec key value key' value' hp hp'
      rw [hd']
      exact .some (hvalue spec key value value' hd hd' hp hp')
  | none =>
      cases hd' : d'.get? key with
      | none => exact .none
      | some value' =>
          obtain ⟨spec, hspec, hp'⟩ := h'.complete key value' hd'
          obtain ⟨key', value, hd'', hp⟩ := h.sound spec hspec
          obtain rfl := hkey spec key' value key value' hp hp'
          cases hd.symm.trans hd''

omit [Sha256] in
theorem eq_of_rel {V : Type} {x y : Option V} (h : Option.Rel (· = ·) x y) : x = y := by
  cases h with
  | some h => rw [h]
  | none => rfl

end Equivalence

namespace GraphSpec

variable [Sha256] {s s' : GraphSpec}

-- What `create` makes is determined by its identity.
theorem Made.eq_of_graphId (hsha : Function.Injective Sha256.hexdigest) (hs : Made s) (hs' : Made s')
    (hid : s.graphId = s'.graphId) : s = s' := by
  let := plainBuiltins
  have hpayload : Json.Same (.dict s'.payload) (.dict s.payload) :=
    same_of_graphId hsha hs'.isJson.1 hs.isJson.1 hs'.identified (hid ▸ hs.identified)
  have hdocument : Json.Same (.dict s'.document) (.dict s.document) := by
    rw [document, document, hid]
    exact Json.same_dict_cons hpayload .str
  have hread := hs.fromDict_of_reads (hs.reads_of_same (Json.same_refl hs.isJson.2))
  have hread' := hs'.fromDict_of_reads (hs'.reads_of_same hdocument)
  exact Except.ok.inj (hread.symm.trans hread')

end GraphSpec

def Join.fn? : Join → Option Fn
  | .custom fn => some fn
  | _ => none

def Reducer.fn? : Reducer → Option Fn
  | .custom fn => some fn
  | _ => none

def Edge.joinFn? : Edge → Option Fn
  | .fanout region => region.join.fn?
  | _ => none

-- Every function of the application a run of `g` may call.
def CompiledGraph.callables (g : CompiledGraph) : List Fn :=
  g.nodes.values ++ g.edges.values.filterMap Edge.router? ++ g.edges.values.filterMap Edge.joinFn? ++
    g.reducers.values.filterMap Reducer.fn?

namespace Equivalence

variable {g g' : CompiledGraph}

theorem mem_values {V : Type} {d : Dict Str V} {key : Str} {value : V} (h : d.get? key = some value) :
    value ∈ d.values :=
  List.mem_map_of_mem (Dict.mem_items_of_get? h)

-- Every callable has a stable reference, and one reference is that of one callable.
structure Named (g g' : CompiledGraph) : Prop where
  stable : ∀ fn ∈ g.callables ++ g'.callables, stableCallableRef fn ≠ .none
  same : ∀ fn ∈ g.callables, ∀ fn' ∈ g'.callables, ∀ ref, stableCallableRef fn = .str ref →
    stableCallableRef fn' = .str ref → fn = fn'

theorem Named.eq (hn : Named g g') {fn fn' : Fn} (hfn : fn ∈ g.callables) (hfn' : fn' ∈ g'.callables)
    (href : stableCallableRef fn = stableCallableRef fn') : fn = fn' := by
  have hstable := hn.stable fn (List.mem_append_left _ hfn)
  have href' := isRef_stableCallableRef fn
  cases h : stableCallableRef fn with
  | str ref => exact hn.same fn hfn fn' hfn' ref h (href.symm.trans h)
  | none => exact absurd h hstable
  | _ => rw [h] at href'; cases href'

theorem join_eq {join join' : Join} (hkind : join.kind = join'.kind)
    (hquorum : join.quorumValue = join'.quorumValue)
    (hfn : ∀ fn ∈ join.fn?, ∀ fn' ∈ join'.fn?, fn = fn') : join = join' := by
  cases join with
  | quorum q hq =>
      cases join' with
      | quorum q' hq' =>
          obtain rfl := Int.ofNat.inj (Value.int.inj hquorum)
          rfl
      | _ =>
          simp only [Join.kind] at hkind
          exact absurd hkind (by decide)
  | custom fn =>
      cases join' with
      | custom fn' => rw [hfn fn rfl fn' rfl]
      | _ =>
          simp only [Join.kind] at hkind
          exact absurd hkind (by decide)
  | _ =>
      cases join' <;> first
        | rfl
        | (simp only [Join.kind] at hkind
           exact absurd hkind (by decide))

theorem reducer_eq {reducer reducer' : Reducer} (hkind : reducer.kind = reducer'.kind)
    (hfn : ∀ fn ∈ reducer.fn?, ∀ fn' ∈ reducer'.fn?, fn = fn') : reducer = reducer' := by
  cases reducer with
  | custom fn =>
      cases reducer' with
      | custom fn' => rw [hfn fn rfl fn' rfl]
      | _ => cases hkind
  | _ => cases reducer' <;> first | rfl | cases hkind

theorem node_mem {name : Str} {fn : Fn} (h : g.nodes.get? name = some fn) : fn ∈ g.callables := by
  simp [CompiledGraph.callables, mem_values h]

theorem router_mem {source : Str} {edge : Edge} {fn : Fn} (h : g.edges.get? source = some edge)
    (hfn : edge.router? = some fn) : fn ∈ g.callables := by
  have hm : fn ∈ g.edges.values.filterMap Edge.router? := List.mem_filterMap.mpr ⟨edge, mem_values h, hfn⟩
  simp [CompiledGraph.callables, hm]

theorem join_mem {source : Str} {region : FanOut} {fn : Fn}
    (h : g.edges.get? source = some (.fanout region)) (hfn : region.join.fn? = some fn) :
    fn ∈ g.callables := by
  have hm : fn ∈ g.edges.values.filterMap Edge.joinFn? :=
    List.mem_filterMap.mpr ⟨.fanout region, mem_values h, hfn⟩
  simp [CompiledGraph.callables, hm]

theorem reducer_mem {field : Str} {reducer : Reducer} {fn : Fn}
    (h : g.reducers.get? field = some reducer) (hfn : reducer.fn? = some fn) : fn ∈ g.callables := by
  have hm : fn ∈ g.reducers.values.filterMap Reducer.fn? :=
    List.mem_filterMap.mpr ⟨reducer, mem_values h, hfn⟩
  simp [CompiledGraph.callables, hm]

theorem region_eq {region region' : FanOut} (hbranches : region.branches = region'.branches)
    (hthen : region.thenNode = region'.thenNode) (hjoin : region.join = region'.join) :
    region = region' := by
  cases region
  cases region'
  simp only [FanOut.mk.injEq]
  exact ⟨hbranches, hthen, hjoin⟩

variable [Sha256] {s s' : GraphSpec}

-- A join that is not written down takes every branch.
theorem join_of_described (hd : Described g s) (hd' : Described g' s) (hn : Named g g') {source : Str}
    {region region' : FanOut} (h : g.edges.get? source = some (.fanout region))
    (h' : g'.edges.get? source = some (.fanout region')) : region.join = region'.join := by
  have hshared : ∀ spec, PicturesRegion source region spec → PicturesRegion source region' spec →
      region.join = region'.join := by
    intro spec hp hp'
    refine join_eq (hp.kind.symm.trans hp'.kind) (hp.quorum.symm.trans hp'.quorum) fun fn hfn fn' hfn' => ?_
    refine hn.eq (join_mem h hfn) (join_mem h' hfn') ?_
    have href := hp.ref.symm.trans hp'.ref
    cases hj : region.join with
    | custom =>
        cases hj' : region'.join with
        | custom =>
            rw [hj] at hfn href
            rw [hj'] at hfn' href
            cases hfn
            cases hfn'
            exact href
        | _ => rw [hj'] at hfn'; cases hfn'
    | _ => rw [hj] at hfn; cases hfn
  have hboth : ∀ {g₁ : CompiledGraph} {region₁ region₂ : FanOut}, Described g₁ s →
      g₁.edges.get? source = some (.fanout region₁) → ∀ spec ∈ s.joins,
      PicturesRegion source region₂ spec → PicturesRegion source region₁ spec := by
    intro g₁ region₁ region₂ hd₁ h₁ spec hspec hp
    obtain ⟨source', region, hget, hp'⟩ := hd₁.join_sound spec hspec
    obtain rfl : source' = source := hp'.source.symm.trans hp.source
    cases hget.symm.trans h₁
    exact hp'
  rcases hd.join_complete source region h with hall | ⟨spec, hspec, hp⟩
  · rcases hd'.join_complete source region' h' with hall' | ⟨spec, hspec, hp⟩
    · rw [hall, hall']
    · exact hshared spec (hboth hd h spec hspec hp) hp
  · exact hshared spec hp (hboth hd' h' spec hspec hp)

theorem equivalent_of_described (hd : Described g s) (hd' : Described g' s) (hn : Named g g') :
    Equivalent g g' := by
  constructor
  · rw [← hd.maxSteps, hd'.maxSteps]
  · refine fun name => eq_of_rel (portrays_rel hd.nodes hd'.nodes ?_ ?_ name)
    · exact fun spec key value key' value' hp hp' => hp.name.symm.trans hp'.name
    · intro spec key fn fn' hget hget' hp hp'
      exact hn.eq (node_mem hget) (node_mem hget')
        (hp.implementationRef.symm.trans hp'.implementationRef)
  · intro name
    have hrel := portrays_rel (R := fun edge edge' => runtime edge = runtime edge') hd.edges hd'.edges
      (fun spec key value key' value' hp hp' => hp.source.symm.trans hp'.source)
      (fun spec key edge edge' hget hget' hp hp' => ?_) name
    · unfold CompiledGraph.edgeOf
      generalize g.edges.get? name = x at hrel
      generalize g'.edges.get? name = y at hrel
      cases hrel with
      | some h => exact h
      | none => rfl
    · have hkind := hp.kind.symm.trans hp'.kind
      have htarget := hp.target.symm.trans hp'.target
      have href := hp.routerRef.symm.trans hp'.routerRef
      cases edge with
      | static target =>
          cases edge' with
          | static target' => rw [Value.str.inj htarget]
          | _ => cases hkind
      | fanout region =>
          cases edge' with
          | fanout region' =>
              have hbranches := (hp.branches rfl).symm.trans (hp'.branches rfl)
              exact congrArg Edge.fanout (region_eq
                (List.map_injective_iff.mpr (fun _ _ => Value.str.inj) hbranches)
                (Value.str.inj htarget) (join_of_described hd hd' hn hget hget'))
          | _ => cases hkind
      | callable router | conditional edge =>
          cases edge' with
          | callable router' | conditional edge' =>
              exact congrArg Edge.callable (hn.eq (router_mem hget rfl) (router_mem hget' rfl) href)
          | _ => cases hkind
  · refine fun field => eq_of_rel (portrays_rel hd.reducers hd'.reducers ?_ ?_ field)
    · exact fun spec key value key' value' hp hp' => hp.field.symm.trans hp'.field
    · intro spec key reducer reducer' hget hget' hp hp'
      refine reducer_eq (hp.kind.symm.trans hp'.kind) fun fn hfn fn' hfn' => ?_
      refine hn.eq (reducer_mem hget hfn) (reducer_mem hget' hfn') ?_
      have href := hp.ref.symm.trans hp'.ref
      cases reducer with
      | custom =>
          cases reducer' with
          | custom =>
              cases hfn
              cases hfn'
              exact href
          | _ => cases hfn'
      | _ => cases hfn

-- One identity, one program: nothing that matters to a run is left out of the hash.
theorem graphId_determines_run (hsha : Function.Injective Sha256.hexdigest) (h : g.describe = .ok s)
    (h' : g'.describe = .ok s') (hid : s.graphId = s'.graphId) (hn : Named g g')
    (gate : Option Gate) (state : State) : run g gate state = run g' gate state := by
  have hd := describe_described h
  have hd' := describe_described h'
  obtain rfl := hd.made.eq_of_graphId hsha hd'.made hid
  exact run_congr (equivalent_of_described hd hd' hn)

def greet : Fn := ⟨0, some "app", some "greet"⟩

def pick : Fn := ⟨1, some "app", some "pick"⟩

-- One node, and a router behind it, authored with or without its wrapper.
def authored (edge : Edge) : CompiledGraph where
  nodes := ⟨[("greet", greet)], List.nodup_singleton _⟩
  edges := ⟨[(START, .static "greet"), ("greet", edge)],
    (by decide : ([START, "greet"] : List Str).Nodup)⟩
  maxSteps := 4

omit [Sha256] in
theorem graphId_determines_run_wrapped :
    letI := Sha256.verbatim
    run (authored (.callable pick)) (some ⟨true, true⟩) (State.new "s") =
      run (authored (.conditional ⟨pick, []⟩)) (some ⟨true, true⟩) (State.new "s") := by
  let := Sha256.verbatim
  obtain ⟨s, hs⟩ : ∃ s, (authored (.callable pick)).describe = .ok s :=
    Python.exists_ok (by decide +kernel)
  obtain ⟨s', hs'⟩ : ∃ s, (authored (.conditional ⟨pick, []⟩)).describe = .ok s :=
    Python.exists_ok (by decide +kernel)
  have hid : (authored (.callable pick)).describe.toOption.map GraphSpec.graphId =
      (authored (.conditional ⟨pick, []⟩)).describe.toOption.map GraphSpec.graphId := by decide +kernel
  rw [hs, hs'] at hid
  have hcallables : ∀ fn ∈ [greet, pick], ∀ fn' ∈ [greet, pick],
      stableCallableRef fn = stableCallableRef fn' → fn = fn' := by decide +kernel
  refine graphId_determines_run Function.injective_id hs hs' (Option.some.inj hid)
    ⟨by decide +kernel, fun fn hfn fn' hfn' ref h h' => hcallables fn hfn fn' hfn' (h.trans h'.symm)⟩ _ _

end Equivalence

end PerpetuaCore.Graph
