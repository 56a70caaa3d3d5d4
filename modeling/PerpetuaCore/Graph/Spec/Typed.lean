import PerpetuaCore.Graph.Spec.GraphSpec

namespace PerpetuaCore.Graph

open Python (Str Value Decides)
open Json (isStr)

-- A reference as the records annotate it: a string or None.
def isRef : Value → Bool
  | .none | .str _ => true
  | _ => false

def refText : Value → Str
  | .str s => s
  | _ => []

-- The records as they are annotated.
def NodeSpec.typed (node : NodeSpec) : Bool := isRef node.implementationRef

def EdgeSpec.typed (edge : EdgeSpec) : Bool :=
  isRef edge.target && isRef edge.routerRef && edge.declaredTargets.all isStr

def ReducerSpec.typed (reducer : ReducerSpec) : Bool := isRef reducer.ref

def JoinSpec.typed (join : JoinSpec) : Bool := isRef join.ref

theorem orEmpty_ref {ref : Value} (h : isRef ref = true) : orEmpty ref = .str (refText ref) := by
  cases ref with
  | none => rfl
  | str s => cases s <;> rfl
  | _ => cases h

theorem strings_of_typed {items : List Value} (h : items.all isStr = true) :
    items = (items.map refText).map .str := by
  rw [List.map_map]
  refine (List.map_id' items).symm.trans (List.map_congr_left fun x hx => ?_)
  have hstr := List.all_eq_true.mp h x hx
  cases x with
  | str s => rfl
  | _ => cases hstr

theorem isStr_hashable {x : Value} (h : isStr x = true) : x.hashable = true := by
  cases x <;> first | rfl | cases h

theorem eq_strings {x y : Value} (hx : isStr x = true) (hy : isStr y = true) :
    x.eq y = true ↔ x = y := by
  cases x with
  | str s =>
      cases y with
      | str t => simp [Value.eq]
      | _ => cases hy
  | _ => cases hx

theorem sortedValues_strings {items : List Value} (h : items.all isStr = true) :
    sortedValues items = .ok (Python.sorted refText items) := by
  have hdecides : ∀ a ∈ items, ∀ b ∈ items, Decides (a.less b) (refText a < refText b) := by
    intro a ha b hb
    have hstr := List.all_eq_true.mp h a ha
    have hstr' := List.all_eq_true.mp h b hb
    cases a with
    | str s =>
        cases b with
        | str t => exact Python.decides_strings s t
        | _ => cases hstr'
    | _ => cases hstr
  rw [sortedValues, Python.sortedBy_eq hdecides]

theorem distinct_strings {items : List Value} (h : items.all isStr = true) :
    distinct items = items ↔ items.Nodup := by
  have hall := List.all_eq_true.mp h
  constructor
  · intro hd
    refine (hd ▸ distinct_pairwise items).imp_of_mem fun {x y} hx hy he => ?_
    rintro rfl
    simp [(eq_strings (hall x hx) (hall x hx)).mpr rfl] at he
  · intro hn
    refine distinct_eq_self (hn.imp_of_mem fun {x y} hx hy hne => ?_)
    exact Bool.eq_false_iff.mpr fun he => hne ((eq_strings (hall x hx) (hall y hy)).mp he)

-- Declared targets that are strings are in canonical order already.
theorem EdgeSpec.canonical {edge : EdgeSpec} (h : edge.declaredTargets.all isStr = true) :
    checkEdge edge.kind edge.target edge.routerRef edge.declaredTargets = .ok () ∧
      canonicalTargets edge.declaredTargets = .ok edge.declaredTargets := by
  obtain ⟨targets, hchecked, hcanonical⟩ := edge.declared
  obtain ⟨unique, hset, hsorted⟩ := Python.bind_eq_ok.mp hcanonical
  obtain ⟨-, rfl⟩ := setOf_eq_ok.mp hset
  have hperm := sortedValues_perm hsorted
  have hstr : (distinct targets).all isStr = true := by rw [← hperm.all_eq, h]
  have hself : distinct edge.declaredTargets = edge.declaredTargets := by
    rw [distinct_strings h, hperm.nodup_iff, ← distinct_strings hstr]
    exact distinct_eq_self (distinct_pairwise targets)
  have hunique : setOf edge.declaredTargets = .ok edge.declaredTargets :=
    setOf_eq_ok.mpr ⟨fun x hx => isStr_hashable (List.all_eq_true.mp h x hx), hself.symm⟩
  rw [sortedValues_strings hstr] at hsorted
  obtain ⟨htarget, hplain, hstatic, hfanout⟩ := checkEdge_eq_ok.mp hchecked
  constructor
  · refine checkEdge_eq_ok.mpr ⟨htarget, hplain, fun hk => ?_, fun hk => ?_⟩
    · obtain rfl := hstatic hk
      exact List.perm_nil.mp hperm
    · obtain ⟨unique, hset', hlength, htwo⟩ := hfanout hk
      obtain rfl := Except.ok.inj (hset.symm.trans hset')
      exact ⟨_, hunique, rfl, by rw [hperm.length_eq, hlength]; exact htwo⟩
  · rw [canonicalTargets, hunique]
    refine Python.bind_eq_ok.mpr ⟨_, rfl, ?_⟩
    rw [sortedValues_strings h, ← Except.ok.inj hsorted, Python.sorted_sorted]

def nodeKey (node : NodeSpec) : List Str :=
  [node.name, refText node.implementationRef, node.metadata.text]

-- Every part of an edge's key is a text or a tuple of texts.
def edgeKey (edge : EdgeSpec) : List (List Str) :=
  [[edge.source], [edge.kind.text], [refText edge.target], [refText edge.routerRef],
    edge.declaredTargets.map refText, [edge.metadata.text]]

theorem nodeKey_decides {a b : NodeSpec} (ha : a.typed = true) (hb : b.typed = true) :
    Decides (Python.lessList a.sortKey b.sortKey) (nodeKey a < nodeKey b) := by
  have hkey : ∀ n : NodeSpec, n.typed = true → n.sortKey = (nodeKey n).map .str := by
    intro n hn
    rw [NodeSpec.sortKey, orEmpty_ref hn]
    rfl
  rw [hkey a ha, hkey b hb]
  exact Python.lessList_strings _ _

theorem text_decides (a b : Str) : Decides ((Value.str a).less (.str b)) ([a] < [b]) := by
  obtain ⟨r, hr, hlt⟩ := Python.decides_strings a b
  exact ⟨r, hr, by simp [hlt, List.cons_lt_cons_iff]⟩

theorem edgeKey_decides {a b : EdgeSpec} (ha : a.typed = true) (hb : b.typed = true) :
    Decides (Python.lessList a.sortKey b.sortKey) (edgeKey a < edgeKey b) := by
  simp only [EdgeSpec.typed, Bool.and_eq_true] at ha hb
  have htext : ∀ s t : Str, (Value.str s).eq (.str t) = true ↔ [s] = [t] := by simp [Value.eq]
  have htuple : ∀ s t : List Str, (Value.tuple (s.map .str)).eq (.tuple (t.map .str)) = true ↔ s = t := by
    simp [Value.eq, Python.eqList_strings]
  rw [EdgeSpec.sortKey, EdgeSpec.sortKey, orEmpty_ref ha.1.1, orEmpty_ref ha.1.2,
    orEmpty_ref hb.1.1, orEmpty_ref hb.1.2, strings_of_typed ha.2, strings_of_typed hb.2]
  refine Python.lessList_cons (htext _ _) (text_decides _ _) ?_
  refine Python.lessList_cons (htext _ _) (text_decides _ _) ?_
  refine Python.lessList_cons (htext _ _) (text_decides _ _) ?_
  refine Python.lessList_cons (htext _ _) (text_decides _ _) ?_
  refine Python.lessList_cons (htuple _ _) (Python.lessList_strings _ _) ?_
  exact Python.lessList_cons (htext _ _) (text_decides _ _) ⟨false, rfl, by simp⟩

theorem sortedByKey_eq {α κ : Type} [LinearOrder κ] {key : α → List Value} {text : α → κ}
    {items : List α}
    (h : ∀ a ∈ items, ∀ b ∈ items, Decides (Python.lessList (key a) (key b)) (text a < text b)) :
    sortedByKey key items = .ok (Python.sorted text items) := by
  rw [sortedByKey, Python.sortedBy_eq h]

-- Records as annotated are sorted by the texts of their keys.
theorem sortedByKey_nodes {nodes : List NodeSpec} (h : ∀ n ∈ nodes, n.typed = true) :
    sortedByKey NodeSpec.sortKey nodes = .ok (Python.sorted nodeKey nodes) :=
  sortedByKey_eq fun a ha b hb => nodeKey_decides (h a ha) (h b hb)

theorem sortedByKey_edges {edges : List EdgeSpec} (h : ∀ e ∈ edges, e.typed = true) :
    sortedByKey EdgeSpec.sortKey edges = .ok (Python.sorted edgeKey edges) :=
  sortedByKey_eq fun a ha b hb => edgeKey_decides (h a ha) (h b hb)

namespace GraphSpec

variable {s : GraphSpec}

-- Joins in the order of their sources and kinds are in the order of their sources.
theorem sorted_source_joinKey (joins : List JoinSpec) :
    Python.sorted JoinSpec.source (Python.sorted joinKey joins) = Python.sorted joinKey joins := by
  refine Python.sorted_eq_self ((Python.sorted_pairwise joinKey joins).imp fun {a b} h => ?_)
  by_contra hlt
  have hkey : joinKey b < joinKey a := by
    rw [joinKey, joinKey, List.cons_lt_cons_iff]
    exact .inl (not_le.mp hlt)
  exact absurd h (not_le.mpr hkey)

theorem payloadOf_sorted {version : Str} {maxSteps : Int} {nodes : List NodeSpec}
    {edges : List EdgeSpec} {metadata : Metadata} {reducers : List ReducerSpec}
    {joins : List JoinSpec} (hn : ∀ n ∈ nodes, n.typed = true) (he : ∀ e ∈ edges, e.typed = true) :
    canonicalGraphPayload version maxSteps nodes edges metadata reducers joins =
      .ok (payloadOf version maxSteps (Python.sorted nodeKey nodes) (Python.sorted edgeKey edges)
        metadata reducers joins) := by
  rw [canonicalGraphPayload, sortedByKey_nodes hn, sortedByKey_edges he]
  rfl

variable [Sha256]

theorem create_typed {maxSteps : Int} {nodes : List NodeSpec} {edges : List EdgeSpec}
    {metadata : Value} {schemaVersion : Option Str} {reducers : List ReducerSpec}
    {joins : List JoinSpec} (hn : ∀ n ∈ nodes, n.typed = true) (he : ∀ e ∈ edges, e.typed = true) :
    create maxSteps nodes edges metadata schemaVersion reducers joins = .ok s ↔
      freezeMetadata (if truthy metadata then metadata else .dict []) = .ok s.metadata ∧
      s.maxSteps = maxSteps ∧ s.nodes = Python.sorted nodeKey nodes ∧
      s.edges = Python.sorted edgeKey edges ∧ s.reducers = Python.sorted ReducerSpec.field reducers ∧
      s.joins = Python.sorted joinKey (keptJoins s.edges joins) ∧
      versionFor schemaVersion (usesR3 s.edges s.reducers s.joins) = .ok s.schemaVersion ∧
      computeGraphId (.dict s.payload) = .ok s.graphId := by
  have hn' : ∀ n ∈ Python.sorted nodeKey nodes, n.typed = true := fun n hm => hn n (Python.mem_sorted.mp hm)
  have he' : ∀ e ∈ Python.sorted edgeKey edges, e.typed = true := fun e hm => he e (Python.mem_sorted.mp hm)
  rw [create_eq_ok]
  constructor
  · rintro ⟨nodes', edges', payload, hfrozen, hnodes, hedges, hversion, hpayload, hid, hsteps,
      hnodes', hedges', hreducers, hjoins⟩
    rw [sortedByKey_nodes hn] at hnodes
    rw [sortedByKey_edges he] at hedges
    cases hnodes
    cases hedges
    rw [sortedByKey_nodes hn', Python.sorted_sorted] at hnodes'
    rw [sortedByKey_edges he', Python.sorted_sorted] at hedges'
    rw [payloadOf_sorted hn' he', Python.sorted_sorted, Python.sorted_sorted] at hpayload
    rw [sorted_source_joinKey] at hjoins
    have hn := Except.ok.inj hnodes'
    have he := Except.ok.inj hedges'
    cases hpayload
    refine ⟨hfrozen, hsteps, hn.symm, he.symm, hreducers, ?_, ?_, ?_⟩
    · rw [hjoins, he]
    · rw [hreducers, hjoins, ← he]
      exact hversion
    · rw [payload, hsteps, ← hn, ← he, hreducers, hjoins]
      exact hid
  · rintro ⟨hfrozen, hsteps, hnodes, hedges, hreducers, hjoins, hversion, hid⟩
    refine ⟨s.nodes, s.edges, s.payload, hfrozen, hnodes ▸ sortedByKey_nodes hn,
      hedges ▸ sortedByKey_edges he, ?_, ?_, hid, hsteps, ?_, ?_, hreducers, ?_⟩
    · rw [← hreducers, ← hjoins]
      exact hversion
    · rw [payloadOf_sorted (hnodes ▸ hn') (hedges ▸ he'), payload, hsteps, hreducers, ← hjoins, hnodes,
        hedges, Python.sorted_sorted, Python.sorted_sorted]
    · rw [hnodes, sortedByKey_nodes hn', Python.sorted_sorted]
    · rw [hedges, sortedByKey_edges he', Python.sorted_sorted]
    · rw [sorted_source_joinKey, ← hjoins]

end GraphSpec

end PerpetuaCore.Graph
