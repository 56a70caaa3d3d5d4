import PerpetuaCore.Graph.Spec.RoundTrip
import Mathlib.Data.List.Pairwise

namespace PerpetuaCore.Graph

open Python (Str Value Dict)
open Json (Same isStr isJson)

-- Only known fields, whatever they hold.
def Known (item : Value) (allowed : List String) : Prop :=
  ∃ items, item = .dict items ∧ ∀ key ∈ items.map Prod.fst, ∃ name ∈ allowed, key = (name : Value)

-- The item says what the record says: every scalar has its type and value, what is left out
-- is the default, and targets are listed in any order and number.
structure SaysNode (item : Value) (node : NodeSpec) : Prop where
  known : Known item nodeFields
  name : field? item "name" = some (.str node.name)
  implementationRef : getOr item "implementation_ref" .none = node.implementationRef
  metadata : Same node.metadata.thaw (getOr item "metadata" (.dict []))

structure SaysEdge (item : Value) (edge : EdgeSpec) : Prop where
  known : Known item edgeFields
  source : field? item "source" = some (.str edge.source)
  kind : field? item "kind" = some (.str edge.kind.text)
  target : getOr item "target" .none = edge.target
  routerRef : getOr item "router_ref" .none = edge.routerRef
  declaredTargets : ∃ targets, getOr item "declared_targets" (.list []) = .list targets ∧
    ∀ x, x ∈ targets ↔ x ∈ edge.declaredTargets
  metadata : Same edge.metadata.thaw (getOr item "metadata" (.dict []))

structure SaysReducer (item : Value) (reducer : ReducerSpec) : Prop where
  known : Known item reducerFields
  field : field? item "field" = some (.str reducer.field)
  kind : field? item "kind" = some (.str reducer.kind.text)
  ref : getOr item "ref" .none = reducer.ref

structure SaysJoin (item : Value) (join : JoinSpec) : Prop where
  known : Known item joinFields
  source : field? item "source" = some (.str join.source)
  kind : field? item "kind" = some (.str join.kind.text)
  quorum : getOr item "quorum" .none = join.quorum
  ref : getOr item "ref" .none = join.ref

-- The member of `p` under this key lists items that say what the records say, one by one.
def SaysAll {α : Type} (Says : Value → α → Prop) (p : Value) (key : String) (records : List α) : Prop :=
  ∃ items, getOr p key (.list []) = .list items ∧ List.Forall₂ Says items records

-- The payload says what the spec says, but for the order of its records and for joins that
-- are implied.
structure Says (p : Value) (s : GraphSpec) : Prop where
  known : Known p graphFields
  version : field? p "schema_version" = some (.str s.schemaVersion)
  identity : field? p "graph_id" = some (.str s.graphId)
  steps : field? p "max_steps" = some (.int s.maxSteps)
  metadata : Same s.metadata.thaw (getOr p "metadata" (.dict []))
  nodes : ∃ nodes, nodes.Perm s.nodes ∧ SaysAll SaysNode p "nodes" nodes
  edges : ∃ edges, edges.Perm s.edges ∧ SaysAll SaysEdge p "edges" edges
  reducers : ∃ reducers, reducers.Perm s.reducers ∧ SaysAll SaysReducer p "reducers" reducers
  joins : ∃ joins, (GraphSpec.keptJoins s.edges joins).Perm s.joins ∧
    SaysAll SaysJoin p "joins" joins

def literalText (item : Value) (key : String) : Bool := (field? item key).any isStr

def isDict : Value → Bool
  | .dict _ => true
  | _ => false

def isInt : Value → Bool
  | .int _ => true
  | _ => false

def literalMetadata (item : Value) : Bool := isDict (getOr item "metadata" (.dict []))

-- A list in which Python finds nothing equal but what is the same.
def literalTargets (item : Value) : Bool :=
  match getOr item "declared_targets" (.list []) with
  | .list targets => targets.all fun x => targets.all fun y => !x.eq y || x = y
  | _ => false

def literalNode (item : Value) : Bool := literalText item "name" && literalMetadata item

def literalEdge (item : Value) : Bool :=
  literalText item "source" && literalTargets item && literalMetadata item

def literalReducer (item : Value) : Bool := literalText item "field"

def literalJoin (item : Value) : Bool := literalText item "source"

def listed (p : Value) (key : String) : List Value :=
  match getOr p key (.list []) with
  | .list items => items
  | _ => []

-- Nothing in the payload is coerced when it is loaded.
def literal (p : Value) : Bool :=
  literalText p "schema_version" && (field? p "max_steps").any isInt && literalMetadata p &&
    (listed p "nodes").all literalNode && (listed p "edges").all literalEdge &&
    (listed p "reducers").all literalReducer && (listed p "joins").all literalJoin

theorem literalText_iff {item : Value} {key : String} :
    literalText item key = true ↔ ∃ s, field? item key = some (.str s) := by
  unfold literalText
  cases field? item key with
  | none => simp
  | some value => cases value <;> simp [isStr]

theorem known_of_check [Builtins] {item : Value} {allowed : List String} {record : String}
    (h : checkRecordFields item allowed record = .ok ()) : Known item allowed := by
  unfold checkRecordFields at h
  split at h
  · rename_i items
    dsimp only at h
    split_ifs at h with hunknown
    refine ⟨items, rfl, fun key hkey => ?_⟩
    have hallowed := List.filter_eq_nil_iff.mp hunknown key hkey
    simpa using hallowed
  · cases h

-- Parts of a JSON value are JSON values.
theorem isJson_field? {p v : Value} {key : String} (hp : isJson p = true)
    (h : field? p key = some v) : isJson v = true := by
  cases p with
  | dict items =>
      have hm := Dict.mem_ofList (Dict.mem_items_of_get? h)
      exact (Json.isJsonItems_iff.mp (Bool.and_eq_true_iff.mp hp).2 _ hm).2
  | _ => cases h

theorem isJson_getOr {p d : Value} {key : String} (hp : isJson p = true) (hd : isJson d = true) :
    isJson (getOr p key d) = true := by
  unfold getOr
  cases h : field? p key with
  | none => exact hd
  | some v => exact isJson_field? hp h

theorem freezeMetadata_dict {items : List (Value × Value)} {metadata : Metadata}
    (hj : isJson (.dict items) = true) (h : freezeMetadata (.dict items) = .ok metadata) :
    Same metadata.thaw (.dict items) := by
  have hn := of_decide_eq_true (Bool.and_eq_true_iff.mp hj).1
  exact same_thaw hj ((freezeMetadata_dict_iff hn).mp h)

-- Metadata says what it is frozen to when it is a mapping.
theorem literalMetadata_of_same {item : Value} {metadata : Metadata}
    (h : Same metadata.thaw (getOr item "metadata" (.dict []))) : literalMetadata item = true := by
  have hthaw : metadata.thaw = _ := thaw_mapping (FrozenJson.ordered_mapping_iff.mp metadata.ordered).1
  rw [hthaw] at h
  obtain ⟨items, hitems, -⟩ := Json.same_dict h
  rw [literalMetadata, hitems]
  rfl

theorem same_of_literalMetadata {item : Value} {metadata : Metadata} (hj : isJson item = true)
    (hl : literalMetadata item = true)
    (h : freezeMetadata (getOr item "metadata" (.dict [])) = .ok metadata) :
    Same metadata.thaw (getOr item "metadata" (.dict [])) := by
  have hm : isJson (getOr item "metadata" (.dict [])) = true := isJson_getOr hj rfl
  unfold literalMetadata at hl
  generalize getOr item "metadata" (.dict []) = value at *
  cases value with
  | dict items => exact freezeMetadata_dict hm h
  | _ => cases hl

-- What a set of JSON values can hold.
theorem hashable_cases {x : Value} (hj : isJson x = true) (hh : x.hashable = true) :
    x = .none ∨ (∃ s, x = .str s) ∨ ∃ n, x.number? = some n := by
  cases x with
  | none => exact .inl rfl
  | str s => exact .inr (.inl ⟨s, rfl⟩)
  | bool b => exact .inr (.inr ⟨_, rfl⟩)
  | int i => exact .inr (.inr ⟨_, rfl⟩)
  | float f =>
      cases f with
      | finite t => exact .inr (.inr ⟨_, rfl⟩)
      | infinite | nan => cases hj
  | list | dict => cases hh
  | tuple | object => cases hj

theorem eq_comm_of_hashable {x y : Value} (hx : isJson x = true ∧ x.hashable = true)
    (hy : isJson y = true ∧ y.hashable = true) : x.eq y = y.eq x := by
  rcases hashable_cases hy.1 hy.2 with rfl | ⟨t, rfl⟩ | ⟨n, hn⟩
  · rcases hashable_cases hx.1 hx.2 with rfl | ⟨s, rfl⟩ | ⟨m, hm⟩
    · rfl
    · rfl
    · rw [Value.number_eq hm, Value.eq_number hm]
      rfl
  · rcases hashable_cases hx.1 hx.2 with rfl | ⟨s, rfl⟩ | ⟨m, hm⟩
    · rfl
    · exact Bool.beq_comm
    · rw [Value.number_eq hm, Value.eq_number hm]
      rfl
  · rw [Value.eq_number hn, Value.number_eq hn]
    exact congrArg (fun f => x.number?.any f) (funext fun m => Python.Number.eq_comm m n)

-- Of targets that are equal only when they are the same, a set keeps all.
theorem mem_distinct {items : List Value} (h : ∀ x ∈ items, ∀ y ∈ items, x.eq y = true → x = y)
    {x : Value} : x ∈ distinct items ↔ x ∈ items := by
  refine ⟨mem_of_mem_distinct, fun hx => ?_⟩
  induction items with
  | nil => cases hx
  | cons y rest ih =>
      rcases List.mem_cons.mp hx with rfl | hx
      · exact List.mem_cons_self
      · by_cases heq : y.eq x = true
        · rw [← h y List.mem_cons_self x (List.mem_cons_of_mem _ hx) heq]
          exact List.mem_cons_self
        · refine List.mem_cons_of_mem _ (List.mem_filter.mpr ⟨ih (fun a ha b hb =>
            h a (List.mem_cons_of_mem _ ha) b (List.mem_cons_of_mem _ hb)) hx, ?_⟩)
          simpa using heq

section Records

variable {item : Value}

theorem literalNode_of_says {node : NodeSpec} (h : SaysNode item node) : literalNode item = true :=
  Bool.and_eq_true_iff.mpr ⟨literalText_iff.mpr ⟨_, h.name⟩, literalMetadata_of_same h.metadata⟩

theorem saysNode_of_literal [Builtins] {node : NodeSpec} (hj : isJson item = true)
    (hknown : Known item nodeFields) (hl : literalNode item = true) (h : nodeOf item = .ok node) :
    SaysNode item node := by
  obtain ⟨hname, hmetadata⟩ := Bool.and_eq_true_iff.mp hl
  obtain ⟨name, hname⟩ := literalText_iff.mp hname
  obtain ⟨_, hrequired, hnew⟩ := Python.bind_eq_ok.mp h
  obtain rfl := Option.some.inj (hname.symm.trans (required_eq_ok.mp hrequired))
  obtain ⟨hn, hr, hm⟩ := NodeSpec.new_eq_ok.mp hnew
  exact ⟨hknown, hn ▸ hname, hr.symm, same_of_literalMetadata hj hmetadata hm⟩

theorem literalEdge_of_says {edge : EdgeSpec} (hj : isJson item = true) (h : SaysEdge item edge) :
    literalEdge item = true := by
  obtain ⟨targets, htargets, hmem⟩ := h.declaredTargets
  have hlist : isJson (.list targets) = true := htargets ▸ isJson_getOr hj rfl
  obtain ⟨declared, -, hcanonical⟩ := edge.declared
  obtain ⟨unique, hset, hsorted⟩ := Python.bind_eq_ok.mp hcanonical
  obtain ⟨hhashable, rfl⟩ := setOf_eq_ok.mp hset
  have hperm := sortedValues_perm hsorted
  have hscalar : ∀ x ∈ targets, isJson x = true ∧ x.hashable = true := fun x hx =>
    ⟨Json.isJsonList_iff.mp hlist x hx,
      hhashable x (mem_of_mem_distinct (hperm.mem_iff.mp ((hmem x).mp hx)))⟩
  have hdistinct : ∀ x ∈ targets, ∀ y ∈ targets, x.eq y = true → x = y := by
    intro x hx y hy heq
    by_contra hne
    have hpairs : edge.declaredTargets.Pairwise fun x y => x.eq y = false ∧ y.eq x = false := by
      refine (hperm.pairwise_iff fun h => h.symm).mpr ?_
      refine (distinct_pairwise declared).imp_of_mem fun {a b} ha hb he => ⟨he, ?_⟩
      have ha := hscalar a ((hmem a).mpr (hperm.mem_iff.mpr ha))
      have hb := hscalar b ((hmem b).mpr (hperm.mem_iff.mpr hb))
      rw [← eq_comm_of_hashable ha hb, he]
    have : Std.Symm fun x y : Value => x.eq y = false ∧ y.eq x = false := ⟨fun _ _ h => h.symm⟩
    have hfalse := hpairs.forall ((hmem x).mp hx) ((hmem y).mp hy) hne
    exact absurd heq (by simp [hfalse.1])
  have hl : literalTargets item = true := by
    rw [literalTargets, htargets]
    simp only [List.all_eq_true, Bool.or_eq_true, Bool.not_eq_true', decide_eq_true_eq]
    intro x hx y hy
    cases heq : x.eq y with
    | false => exact .inl rfl
    | true => exact .inr (hdistinct x hx y hy heq)
  rw [literalEdge, literalText_iff.mpr ⟨_, h.source⟩, hl, literalMetadata_of_same h.metadata]
  rfl

theorem saysEdge_of_literal [Builtins] {edge : EdgeSpec} (hj : isJson item = true)
    (hknown : Known item edgeFields) (hl : literalEdge item = true) (h : edgeOf item = .ok edge) :
    SaysEdge item edge := by
  simp only [literalEdge, Bool.and_eq_true] at hl
  obtain ⟨⟨hsource, htargets⟩, hmetadata⟩ := hl
  obtain ⟨source, hsource⟩ := literalText_iff.mp hsource
  obtain ⟨_, hrequired, h⟩ := Python.bind_eq_ok.mp h
  obtain rfl := Option.some.inj (hsource.symm.trans (required_eq_ok.mp hrequired))
  obtain ⟨kind, hkind, h⟩ := Python.bind_eq_ok.mp h
  obtain ⟨targets, htuple, hnew⟩ := Python.bind_eq_ok.mp h
  obtain ⟨hs, rfl, ht, hr, hchecked, hcanonical, hm⟩ := EdgeSpec.new_eq_ok.mp hnew
  refine ⟨hknown, hs ▸ hsource, required_eq_ok.mp hkind, ht.symm, hr.symm, ?_,
    same_of_literalMetadata hj hmetadata hm⟩
  obtain ⟨unique, hset, hsorted⟩ := Python.bind_eq_ok.mp hcanonical
  obtain ⟨-, rfl⟩ := setOf_eq_ok.mp hset
  have hread : getOr item "declared_targets" (.list []) = .list targets := by
    unfold literalTargets getOr at htargets
    unfold getOr tupleOf at htuple
    unfold getOr
    cases hf : field? item "declared_targets" with
    | none =>
        rw [hf] at htuple
        rw [← Except.ok.inj htuple]
        rfl
    | some value =>
        rw [hf] at htuple htargets
        cases value with
        | list items => rw [← Except.ok.inj htuple]; rfl
        | _ => cases htargets
  refine ⟨targets, hread, fun x => ?_⟩
  rw [literalTargets, hread] at htargets
  simp only [List.all_eq_true, Bool.or_eq_true, Bool.not_eq_true', decide_eq_true_eq] at htargets
  rw [(sortedValues_perm hsorted).mem_iff, mem_distinct fun x hx y hy heq => ?_]
  exact (htargets x hx y hy).resolve_left (by simp [heq])

theorem literalReducer_of_says {reducer : ReducerSpec} (h : SaysReducer item reducer) :
    literalReducer item = true :=
  literalText_iff.mpr ⟨_, h.field⟩

theorem saysReducer_of_literal [Builtins] {reducer : ReducerSpec} (hknown : Known item reducerFields)
    (hl : literalReducer item = true) (h : reducerOf item = .ok reducer) : SaysReducer item reducer := by
  obtain ⟨field, hfield⟩ := literalText_iff.mp hl
  obtain ⟨_, hrequired, h⟩ := Python.bind_eq_ok.mp h
  obtain rfl := Option.some.inj (hfield.symm.trans (required_eq_ok.mp hrequired))
  obtain ⟨kind, hkind, hnew⟩ := Python.bind_eq_ok.mp h
  obtain ⟨hf, rfl, hr⟩ := ReducerSpec.new_eq_ok.mp hnew
  exact ⟨hknown, hf ▸ hfield, required_eq_ok.mp hkind, hr⟩

theorem literalJoin_of_says {join : JoinSpec} (h : SaysJoin item join) : literalJoin item = true :=
  literalText_iff.mpr ⟨_, h.source⟩

theorem saysJoin_of_literal [Builtins] {join : JoinSpec} (hknown : Known item joinFields)
    (hl : literalJoin item = true) (h : joinOf item = .ok join) : SaysJoin item join := by
  obtain ⟨source, hsource⟩ := literalText_iff.mp hl
  obtain ⟨_, hrequired, h⟩ := Python.bind_eq_ok.mp h
  obtain rfl := Option.some.inj (hsource.symm.trans (required_eq_ok.mp hrequired))
  obtain ⟨kind, hkind, hnew⟩ := Python.bind_eq_ok.mp h
  obtain ⟨hs, rfl, hq, hr⟩ := JoinSpec.new_eq_ok.mp hnew
  exact ⟨hknown, hs ▸ hsource, required_eq_ok.mp hkind, hq, hr⟩

end Records

-- The items say what the records decoded from them say exactly when they are literal.
theorem saysAll_iff {α : Type} {Says : Value → α → Prop} {decode : Value → Except Exn α}
    {lit : Value → Bool} {P : List α → Prop} {p : Value} {key : String} {items : List Value}
    {records : List α} (hitems : getOr p key (.list []) = .list items)
    (hdecode : items.mapM decode = .ok records) (hP : P records)
    (hlit : ∀ item ∈ items, ∀ r, Says item r → lit item = true)
    (hmeans : ∀ item ∈ items, ∀ r, lit item = true → decode item = .ok r → Says item r) :
    (∃ rs, P rs ∧ SaysAll Says p key rs) ↔ (listed p key).all lit = true := by
  have hlisted : listed p key = items := by rw [listed, hitems]
  rw [hlisted, List.all_eq_true]
  constructor
  · rintro ⟨rs, -, items', hitems', hall⟩ item hm
    obtain rfl := Value.list.inj (hitems.symm.trans hitems')
    obtain ⟨i, hi, rfl⟩ := List.getElem_of_mem hm
    have hr := (List.forall₂_iff_get.mp hall).2 i hi ((List.Forall₂.length_eq hall) ▸ hi)
    exact hlit _ hm _ hr
  · intro hl
    obtain ⟨hlength, hzip⟩ := Json.map_eq_zip (Python.mapM_eq_ok.mp hdecode)
    refine ⟨records, hP, items, hitems, List.forall₂_iff_zip.mpr ⟨hlength, fun {item r} hm => ?_⟩⟩
    have hitem := (List.of_mem_zip hm).1
    exact hmeans item hitem r (hl item hitem) (hzip item r hm)

-- What is decoded from JSON values is written as JSON values.
theorem isJson_of_nodeOf [Builtins] {item : Value} {node : NodeSpec} (hj : isJson item = true)
    (h : nodeOf item = .ok node) : isJson node.toDict = true := by
  obtain ⟨_, -, hnew⟩ := Python.bind_eq_ok.mp h
  obtain ⟨-, href, -⟩ := NodeSpec.new_eq_ok.mp hnew
  exact isJson_node (href ▸ isJson_getOr hj rfl)

theorem isJson_of_tupleOf {value : Value} {items : List Value} (hj : isJson value = true)
    (h : tupleOf value = .ok items) : isJson (.list items) = true := by
  cases value with
  | list items =>
      obtain rfl := Except.ok.inj h
      exact hj
  | str s =>
      obtain rfl := Except.ok.inj h
      exact isJson_strings (by simp [isStr])
  | dict fields =>
      obtain rfl := Except.ok.inj h
      refine isJson_strings (List.all_eq_true.mpr fun x hx => ?_)
      obtain ⟨field, hm, rfl⟩ := List.mem_map.mp hx
      exact (Json.isJsonItems_iff.mp (Bool.and_eq_true_iff.mp hj).2 field hm).1
  | tuple | object => cases hj
  | _ => cases h

theorem isJson_of_edgeOf [Builtins] {item : Value} {edge : EdgeSpec} (hj : isJson item = true)
    (h : edgeOf item = .ok edge) : isJson edge.toDict = true := by
  obtain ⟨_, -, h⟩ := Python.bind_eq_ok.mp h
  obtain ⟨kind, -, h⟩ := Python.bind_eq_ok.mp h
  obtain ⟨targets, htuple, hnew⟩ := Python.bind_eq_ok.mp h
  obtain ⟨-, -, htarget, hrouter, -, hcanonical, -⟩ := EdgeSpec.new_eq_ok.mp hnew
  obtain ⟨unique, hset, hsorted⟩ := Python.bind_eq_ok.mp hcanonical
  obtain ⟨-, rfl⟩ := setOf_eq_ok.mp hset
  have htargets : isJson (.list targets) = true := by
    unfold getOr at htuple
    cases hf : field? item "declared_targets" with
    | none =>
        rw [hf] at htuple
        obtain rfl := Except.ok.inj htuple
        rfl
    | some value =>
        rw [hf] at htuple
        exact isJson_of_tupleOf (isJson_field? hj hf) htuple
  refine isJson_edge (htarget ▸ isJson_getOr hj rfl) (hrouter ▸ isJson_getOr hj rfl) ?_
  rw [isJson, Json.isJsonList_iff] at htargets ⊢
  exact fun x hx => htargets x (mem_of_mem_distinct ((sortedValues_perm hsorted).mem_iff.mp hx))

theorem isJson_of_reducerOf [Builtins] {item : Value} {reducer : ReducerSpec} (hj : isJson item = true)
    (h : reducerOf item = .ok reducer) : isJson reducer.toDict = true := by
  obtain ⟨_, -, h⟩ := Python.bind_eq_ok.mp h
  obtain ⟨kind, -, hnew⟩ := Python.bind_eq_ok.mp h
  obtain ⟨-, -, href⟩ := ReducerSpec.new_eq_ok.mp hnew
  exact isJson_reducer (href ▸ isJson_getOr hj rfl)

theorem isJson_of_joinOf [Builtins] {item : Value} {join : JoinSpec} (hj : isJson item = true)
    (h : joinOf item = .ok join) : isJson join.toDict = true := by
  obtain ⟨_, -, h⟩ := Python.bind_eq_ok.mp h
  obtain ⟨kind, -, hnew⟩ := Python.bind_eq_ok.mp h
  obtain ⟨-, -, -, href⟩ := JoinSpec.new_eq_ok.mp hnew
  exact isJson_join (href ▸ isJson_getOr hj rfl)

-- Every record decoded from a JSON list has what its item gives it.
theorem forall_decoded {α : Type} {decode : Value → Except Exn α} {P : α → Prop} {p : Value}
    {key : String} {items : List Value} {records : List α} (hp : isJson p = true)
    (hitems : getOr p key (.list []) = .list items) (hdecode : items.mapM decode = .ok records)
    (h : ∀ {item r}, isJson item = true → decode item = .ok r → P r) : ∀ r ∈ records, P r := by
  intro r hr
  have hm : .ok r ∈ items.map decode := Python.mapM_eq_ok.mp hdecode ▸ List.mem_map_of_mem hr
  obtain ⟨item, hitem, hr⟩ := List.mem_map.mp hm
  have hlist : isJson (.list items) = true := hitems ▸ isJson_getOr hp rfl
  exact h (Json.isJsonList_iff.mp hlist item hitem) hr

namespace GraphSpec

theorem keptJoins_perm {edges edges' : List EdgeSpec} (h : edges.Perm edges') (joins : List JoinSpec) :
    keptJoins edges joins = keptJoins edges' joins := by
  have hany : ∀ join, implied edges joins join = implied edges' joins join := by
    intro join
    rw [implied, implied, h.any_eq]
  rw [keptJoins, keptJoins]
  exact List.filter_congr fun join _ => by rw [hany]

theorem versionFor_some {requested version : Str} {r3 : Bool}
    (h : versionFor (some requested) r3 = .ok version) : requested = version := by
  unfold versionFor at h
  dsimp only at h
  split_ifs at h
  exact Except.ok.inj h

variable [Builtins] [Sha256] {p : Value} {s : GraphSpec}

theorem isJson_loaded (hp : isJson p = true) (h : fromDict p = .ok s) :
    isJson (.dict s.payload) = true := by
  obtain ⟨rawNodes, rawEdges, rawReducers, rawJoins, nodes, edges, reducers, joins, steps, maxSteps,
    -, -, ⟨hrawNodes, hrawEdges⟩, -, -, hnodes, hedges, ⟨hrawReducers, hrawJoins⟩, -, -,
    hreducers, hjoins, -, -, hcreate, -⟩ := fromDict_eq_ok.mp h
  obtain ⟨nodes', edges', payload, -, hnodes', hedges', -, -, -, -, hnodes'', hedges'', hreducers',
    hjoins'⟩ := create_eq_ok.mp hcreate
  refine (isJson_payload s.graphId (fun n hn => ?_) (fun e he => ?_) (fun r hr => ?_)
    fun j hj => ?_).1
  · have hm := (sortedByKey_perm hnodes').mem_iff.mp ((sortedByKey_perm hnodes'').mem_iff.mp hn)
    exact forall_decoded hp hrawNodes hnodes isJson_of_nodeOf n hm
  · have hm := (sortedByKey_perm hedges').mem_iff.mp ((sortedByKey_perm hedges'').mem_iff.mp he)
    exact forall_decoded hp hrawEdges hedges isJson_of_edgeOf e hm
  · rw [hreducers', Python.mem_sorted] at hr
    exact forall_decoded hp hrawReducers hreducers isJson_of_reducerOf r hr
  · rw [hjoins', Python.mem_sorted, Python.mem_sorted] at hj
    exact forall_decoded hp hrawJoins hjoins isJson_of_joinOf j (List.mem_of_mem_filter hj)

-- A payload that loads says what its spec says exactly when nothing in it is coerced.
theorem says_iff (hp : isJson p = true) (h : fromDict p = .ok s) :
    Says p s ↔ literal p = true := by
  obtain ⟨rawNodes, rawEdges, rawReducers, rawJoins, nodes, edges, reducers, joins, steps, maxSteps,
    hfields, -, ⟨hrawNodes, hrawEdges⟩, hn, he, hnodes, hedges, ⟨hrawReducers, hrawJoins⟩, hr, hj,
    hreducers, hjoins, hsteps, hmax, hcreate, hid⟩ := fromDict_eq_ok.mp h
  obtain ⟨nodes', edges', payload, hfrozen, hnodes', hedges', hversion, -, -, hmaxSteps, hnodes'',
    hedges'', hreducers', hjoins'⟩ := create_eq_ok.mp hcreate
  have hknown := known_of_check hfields
  have hv : field? p "schema_version" = some (.str s.schemaVersion) ↔
      literalText p "schema_version" = true := by
    rw [literalText_iff]
    refine ⟨fun h => ⟨_, h⟩, fun ⟨t, ht⟩ => ?_⟩
    have ht' : getOr p "schema_version" "" = .str t := by rw [getOr, ht]; rfl
    rw [ht'] at hversion
    rw [ht, ← versionFor_some hversion]
    rfl
  have hst : field? p "max_steps" = some (.int s.maxSteps) ↔
      (field? p "max_steps").any isInt = true := by
    rw [required_eq_ok.mp hsteps, hmaxSteps]
    cases steps <;> simp [isInt, intOf] at hmax ⊢
    exact hmax
  have hm : Same s.metadata.thaw (getOr p "metadata" (.dict [])) ↔ literalMetadata p = true := by
    refine ⟨literalMetadata_of_same, fun hl => same_of_literalMetadata hp hl ?_⟩
    unfold literalMetadata at hl
    generalize getOr p "metadata" (.dict []) = value at *
    cases value with
    | dict items => cases items <;> exact hfrozen
    | _ => cases hl
  have hjson : ∀ {key : String} {items : List Value}, getOr p key (.list []) = .list items →
      ∀ item ∈ items, isJson item = true := fun hitems =>
    Json.isJsonList_iff.mp (hitems ▸ isJson_getOr hp rfl : isJson (.list _) = true)
  have hns : (∃ rs, rs.Perm s.nodes ∧ SaysAll SaysNode p "nodes" rs) ↔
      (listed p "nodes").all literalNode = true := saysAll_iff hrawNodes hnodes
    ((sortedByKey_perm hnodes'').trans (sortedByKey_perm hnodes')).symm
    (fun _ _ _ => literalNode_of_says)
    fun item hm _ => saysNode_of_literal (hjson hrawNodes item hm) (known_of_check (hn item hm))
  have hes : (∃ rs, rs.Perm s.edges ∧ SaysAll SaysEdge p "edges" rs) ↔
      (listed p "edges").all literalEdge = true := saysAll_iff hrawEdges hedges
    ((sortedByKey_perm hedges'').trans (sortedByKey_perm hedges')).symm
    (fun item hm _ => literalEdge_of_says (hjson hrawEdges item hm))
    fun item hm _ => saysEdge_of_literal (hjson hrawEdges item hm) (known_of_check (he item hm))
  have hrs : (∃ rs, rs.Perm s.reducers ∧ SaysAll SaysReducer p "reducers" rs) ↔
      (listed p "reducers").all literalReducer = true := saysAll_iff hrawReducers hreducers
    (hreducers' ▸ (Python.sorted_perm _ _).symm) (fun _ _ _ => literalReducer_of_says)
    fun item hm _ => saysReducer_of_literal (known_of_check (hr item hm))
  have hjs : (∃ rs, (keptJoins s.edges rs).Perm s.joins ∧ SaysAll SaysJoin p "joins" rs) ↔
      (listed p "joins").all literalJoin = true := saysAll_iff hrawJoins hjoins
    (by
      rw [hjoins', keptJoins_perm (sortedByKey_perm hedges'')]
      exact ((Python.sorted_perm _ _).trans (Python.sorted_perm _ _)).symm)
    (fun _ _ _ => literalJoin_of_says)
    fun item hm _ => saysJoin_of_literal (known_of_check (hj item hm))
  simp only [literal, Bool.and_eq_true, ← hv, ← hst, ← hm, ← hns, ← hes, ← hrs, ← hjs]
  constructor
  · intro h
    exact ⟨⟨⟨⟨⟨⟨h.version, h.steps⟩, h.metadata⟩, h.nodes⟩, h.edges⟩, h.reducers⟩, h.joins⟩
  · rintro ⟨⟨⟨⟨⟨⟨hversion, hsteps⟩, hmetadata⟩, hnodes⟩, hedges⟩, hreducers⟩, hjoins⟩
    exact ⟨hknown, hversion, hid, hsteps, hmetadata, hnodes, hedges, hreducers, hjoins⟩

omit [Builtins] in
-- One identity, one payload.
theorem same_of_graphId (hsha : Function.Injective Sha256.hexdigest) {a b : List (Value × Value)}
    {graphId : Str} (ha : isJson (.dict a) = true) (hb : isJson (.dict b) = true)
    (hida : computeGraphId (.dict a) = .ok graphId) (hidb : computeGraphId (.dict b) = .ok graphId) :
    Same (.dict a) (.dict b) := by
  have htext : ∀ {payload : Value}, computeGraphId payload = .ok graphId →
      ∃ text, Json.dumpsUnicode payload = some text ∧ graphId = Sha256.hexdigest text := by
    intro payload hid
    obtain ⟨text, htext, hid⟩ := Python.bind_eq_ok.mp hid
    unfold Graph.canonicalJson at htext
    split at htext
    · rename_i written hwritten
      obtain rfl := Except.ok.inj htext
      split_ifs at hid
      exact ⟨written, hwritten, (Except.ok.inj hid).symm⟩
    · cases htext
  obtain ⟨text, hwritten, ht⟩ := htext hida
  obtain ⟨text', hwritten', ht'⟩ := htext hidb
  obtain rfl := hsha (ht.symm.trans ht')
  have hdocs := Json.dumpsUnicode_eq_iff.mp (hwritten.trans hwritten'.symm)
  obtain ⟨d, hd⟩ : ∃ d, Json.toDoc id (.dict a) = some d := Json.toDoc_isSome ha
  exact Json.same_of_toDoc ha hb hd (hdocs ▸ hd)

theorem payload_of_graphId (hsha : Function.Injective Sha256.hexdigest) {p' : Value} {s' : GraphSpec}
    (hp : isJson p = true) (h : fromDict p = .ok s) (hp' : isJson p' = true)
    (h' : fromDict p' = .ok s') (hid : s'.graphId = s.graphId) :
    Same (.dict s.payload) (.dict s'.payload) := by
  have hidentified : ∀ {p s}, fromDict p = .ok s → computeGraphId (.dict s.payload) = .ok s.graphId := by
    intro p s h
    obtain ⟨_, _, _, _, _, _, _, _, _, _, -, -, -, -, -, -, -, -, -, -, -, -, -, -, hcreate, -⟩ :=
      fromDict_eq_ok.mp h
    exact create_identified hcreate
  exact same_of_graphId hsha (isJson_loaded hp h) (isJson_loaded hp' h') (hidentified h)
    (hid ▸ hidentified h')

-- The graph_id a payload is checked against is that of the rebuilt spec: it vouches for the
-- payload exactly where rebuilding coerces nothing.
theorem says_iff_literal (hp : isJson p = true) (h : fromDict p = .ok s) :
    (Says p s ↔ literal p = true) ∧
      (Function.Injective Sha256.hexdigest → ∀ p' s', isJson p' = true → fromDict p' = .ok s' →
        s'.graphId = s.graphId → Same (.dict s.payload) (.dict s'.payload)) :=
  ⟨says_iff hp h, fun hsha _ _ hp' h' hid => payload_of_graphId hsha hp h hp' h' hid⟩

def fiveSpec : Except Exn GraphSpec :=
  create 3 [⟨"5", .none, ⟨[], rfl⟩⟩] [] (.dict []) none [] []

-- One node, identified as the spec whose node is named by the text.
def fivePayload (name : Value) : Value :=
  .dict [("schema_version", "1"), ("graph_id", .str ((fiveSpec.map graphId).toOption.getD [])),
    ("max_steps", .int 3), ("nodes", .list [.dict [("name", name)]])]

omit [Builtins] [Sha256] in
theorem says_iff_literal_five :
    letI := Sha256.verbatim
    letI := plainBuiltins
    ∃ s, fromDict (fivePayload "5") = .ok s ∧
      (Says (fivePayload "5") s ↔ literal (fivePayload "5") = true) := by
  let := Sha256.verbatim
  let := plainBuiltins
  obtain ⟨s, hs⟩ : ∃ s, fromDict (fivePayload "5") = .ok s := Python.exists_ok (by decide +kernel)
  exact ⟨s, hs, (says_iff_literal (by decide +kernel) hs).1⟩

omit [Builtins] [Sha256] in
-- A node named by the number 5 is loaded as one named by the text "5".
theorem number_name_accepted :
    ¬∀ [Builtins] [Sha256], Function.Injective Sha256.hexdigest → ∀ p s, isJson p = true →
      fromDict p = .ok s → Says p s := by
  intro h
  let := Sha256.verbatim
  let := plainBuiltins
  obtain ⟨s, hs⟩ : ∃ s, fromDict (fivePayload (.int 5)) = .ok s := Python.exists_ok (by decide +kernel)
  have hmeans := h Function.injective_id _ s (by decide +kernel) hs
  have hliteral := (says_iff (by decide +kernel) hs).mp hmeans
  exact absurd hliteral (by decide +kernel)

end GraphSpec

end PerpetuaCore.Graph
