import PerpetuaCore.Graph.Spec.Coercions
import PerpetuaCore.Graph.Spec.Frozen

namespace PerpetuaCore.Graph

open Python (Str Value Dict)
open Json (isJson)

-- The frozen metadata of a record.
structure Metadata where
  members : List (Str × FrozenJson)
  ordered : (FrozenJson.mapping members).ordered = true

namespace Metadata

def thaw (metadata : Metadata) : Value := thawJson (.mapping metadata.members)

-- `_canonical_json(_thaw_json(metadata))`.
def text (metadata : Metadata) : Str :=
  (Json.dumpsUnicode metadata.thaw).get (Json.dumpsUnicode_isSome (isJson_thaw metadata.ordered))

end Metadata

-- `_freeze_json(dict(value))`.
def freezeMetadata (value : Value) : Except Exn Metadata := do
  let items ← dictOf value
  match h : freezeJson (.dict items.items) with
  | .error error => .error error
  | .ok (.mapping members) => .ok ⟨members, freeze_ordered h⟩
  | .ok _ => .error (.typeError ["GraphSpec metadata must be a mapping"])

theorem freezeMetadata_dict_iff {items : List (Value × Value)} (hn : (items.map Prod.fst).Nodup)
    {metadata : Metadata} :
    freezeMetadata (.dict items) = .ok metadata ↔
      freezeJson (.dict items) = .ok (.mapping metadata.members) := by
  rw [freezeMetadata, dictOf, Python.bind_eq_ok]
  constructor
  · rintro ⟨read, hread, hfrozen⟩
    obtain rfl := Except.ok.inj hread
    split at hfrozen
    · cases hfrozen
    · rename_i members hmembers
      obtain rfl := Except.ok.inj hfrozen
      rwa [Dict.items_ofList hn] at hmembers
    · cases hfrozen
  · intro h
    refine ⟨_, rfl, ?_⟩
    have hitems : freezeJson (.dict (Dict.ofList items).items) = .ok (.mapping metadata.members) := by
      rwa [Dict.items_ofList hn]
    split
    · rename_i hf
      cases hitems.symm.trans hf
    · rename_i members hf
      cases hitems.symm.trans hf
      rfl
    · rename_i hnot hf
      exact absurd (hf.symm.trans hitems) (by simpa using hnot _)

-- The member of an enumeration with this text.
def kindOf {κ : Type} (kinds : List κ) (text : κ → Str) (value : Value) : Option κ :=
  kinds.find? fun kind => value = .str (text kind)

theorem eq_text_of_kindOf {κ : Type} {kinds : List κ} {text : κ → Str} {value : Value} {kind : κ}
    (h : kindOf kinds text value = some kind) : value = .str (text kind) := by
  unfold kindOf at h
  simpa using List.find?_some h

structure NodeSpec where
  name : Str
  implementationRef : Value
  metadata : Metadata

def NodeSpec.new (name : Str) (implementationRef metadata : Value) : Except Exn NodeSpec := do
  return ⟨name, implementationRef, ← freezeMetadata metadata⟩

theorem NodeSpec.new_eq_ok {name : Str} {ref metadata : Value} {node : NodeSpec} :
    NodeSpec.new name ref metadata = .ok node ↔ node.name = name ∧ node.implementationRef = ref ∧
      freezeMetadata metadata = .ok node.metadata := by
  rw [NodeSpec.new, Python.bind_eq_ok]
  constructor
  · rintro ⟨frozen, hfrozen, ⟨⟩⟩
    exact ⟨rfl, rfl, hfrozen⟩
  · rintro ⟨rfl, rfl, hfrozen⟩
    exact ⟨_, hfrozen, rfl⟩

def NodeSpec.toDict (node : NodeSpec) : Value :=
  .dict [("name", node.name), ("implementation_ref", node.implementationRef),
    ("metadata", node.metadata.thaw)]

-- `_node_sort_key`.
def NodeSpec.sortKey (node : NodeSpec) : List Value :=
  [node.name, orEmpty node.implementationRef, node.metadata.text]

inductive EdgeKind where
  | static
  | conditional
  | fanout
  deriving DecidableEq

def EdgeKind.text : EdgeKind → Str
  | .static => "static"
  | .conditional => "conditional"
  | .fanout => "fanout"

def EdgeKind.kinds : List EdgeKind := [.static, .conditional, .fanout]

theorem EdgeKind.kindOf_eq_some {value : Value} {kind : EdgeKind} :
    kindOf kinds text value = some kind ↔ value = .str kind.text := by
  refine ⟨eq_text_of_kindOf, ?_⟩
  rintro rfl
  cases kind <;> rfl

-- The checks of `EdgeSpec.__post_init__`.
def checkEdge (kind : EdgeKind) (target routerRef : Value) (declaredTargets : List Value) :
    Except Exn Unit :=
  match kind with
  | .static =>
      if target = .none then .error (.valueError ["static edge requires target"])
      else if routerRef ≠ .none ∨ declaredTargets ≠ [] then
        .error (.valueError ["static edge must not set router_ref or declared_targets"])
      else .ok ()
  | .conditional =>
      if target ≠ .none then .error (.valueError ["conditional edge must not set target"])
      else .ok ()
  | .fanout =>
      if target = .none then .error (.valueError ["fanout edge requires target"])
      else if routerRef ≠ .none then .error (.valueError ["fanout edge must not set router_ref"])
      else do
        let unique ← setOf declaredTargets
        if unique.length ≠ declaredTargets.length then
          .error (.valueError ["fanout edge branches must be unique"])
        else if declaredTargets.length < 2 then
          .error (.valueError ["fanout edge requires at least two branches"])
        else .ok ()

theorem checkEdge_eq_ok {kind : EdgeKind} {target routerRef : Value} {targets : List Value} :
    checkEdge kind target routerRef targets = .ok () ↔
      (kind = .conditional → target = .none) ∧
      (kind ≠ .conditional → target ≠ .none ∧ routerRef = .none) ∧
      (kind = .static → targets = []) ∧
      (kind = .fanout → ∃ unique, setOf targets = .ok unique ∧
        unique.length = targets.length ∧ 2 ≤ targets.length) := by
  cases kind with
  | static => by_cases htarget : target = .none <;> simp [checkEdge, htarget]
  | conditional => by_cases htarget : target = .none <;> simp [checkEdge, htarget]
  | fanout =>
      by_cases htarget : target = .none
      · simp [checkEdge, htarget]
      by_cases href : routerRef = .none
      · subst href
        rw [checkEdge, if_neg htarget, if_neg (not_not.mpr rfl), Python.bind_eq_ok]
        constructor
        · rintro ⟨unique, hset, hlength⟩
          split_ifs at hlength with hunique htwo
          exact ⟨nofun, fun _ => ⟨htarget, rfl⟩, nofun,
            fun _ => ⟨unique, hset, not_not.mp hunique, Nat.not_lt.mp htwo⟩⟩
        · rintro ⟨-, -, -, hfanout⟩
          obtain ⟨unique, hset, hunique, htwo⟩ := hfanout rfl
          exact ⟨unique, hset, by simp [hunique, Nat.not_lt.mpr htwo]⟩
      · simp [checkEdge, htarget, href]

-- `tuple(sorted(set(targets)))`.
def canonicalTargets (targets : List Value) : Except Exn (List Value) :=
  setOf targets >>= sortedValues

-- The targets of an edge are those it was declared with, in their canonical order.
structure EdgeSpec where
  source : Str
  kind : EdgeKind
  target : Value
  routerRef : Value
  declaredTargets : List Value
  metadata : Metadata
  declared : ∃ targets, checkEdge kind target routerRef targets = .ok () ∧
    canonicalTargets targets = .ok declaredTargets

def EdgeSpec.new (source : Str) (kind target routerRef : Value) (declaredTargets : List Value)
    (metadata : Value) : Except Exn EdgeSpec :=
  match kindOf EdgeKind.kinds EdgeKind.text kind with
  | none => .error (.valueError ["unsupported edge kind: ", .repr kind])
  | some kind =>
      match hchecked : checkEdge kind target routerRef declaredTargets with
      | .error error => .error error
      | .ok () =>
          match hsorted : canonicalTargets declaredTargets with
          | .error error => .error error
          | .ok targets => do
              let metadata ← freezeMetadata metadata
              return ⟨source, kind, target, routerRef, targets, metadata,
                declaredTargets, hchecked, hsorted⟩

theorem EdgeSpec.new_eq_ok {source : Str} {kind target routerRef metadata : Value}
    {targets : List Value} {edge : EdgeSpec} :
    EdgeSpec.new source kind target routerRef targets metadata = .ok edge ↔
      edge.source = source ∧ kind = .str edge.kind.text ∧ edge.target = target ∧
      edge.routerRef = routerRef ∧ checkEdge edge.kind target routerRef targets = .ok () ∧
      canonicalTargets targets = .ok edge.declaredTargets ∧
      freezeMetadata metadata = .ok edge.metadata := by
  unfold EdgeSpec.new
  constructor
  · intro h
    split at h
    · cases h
    split at h
    · cases h
    split at h
    · cases h
    rename_i hkind hchecked _ hcanonical
    obtain ⟨frozen, hfrozen, ⟨⟩⟩ := Python.bind_eq_ok.mp h
    exact ⟨rfl, eq_text_of_kindOf hkind, rfl, rfl, hchecked, hcanonical, hfrozen⟩
  · rintro ⟨rfl, rfl, rfl, rfl, hchecked, hcanonical, hfrozen⟩
    have hkind := (@EdgeKind.kindOf_eq_some edge.kind.text edge.kind).mpr rfl
    split
    · rename_i hnone
      cases hnone.symm.trans hkind
    rename_i hsome
    obtain rfl := Option.some.inj (hsome.symm.trans hkind)
    split
    · rename_i herror
      cases herror.symm.trans hchecked
    split
    · rename_i herror
      cases herror.symm.trans hcanonical
    rename_i hok
    obtain rfl := Except.ok.inj (hok.symm.trans hcanonical)
    exact Python.bind_eq_ok.mpr ⟨_, hfrozen, rfl⟩

def EdgeSpec.toDict (edge : EdgeSpec) : Value :=
  .dict [("source", edge.source), ("kind", edge.kind.text), ("target", edge.target),
    ("router_ref", edge.routerRef), ("declared_targets", .list edge.declaredTargets),
    ("metadata", edge.metadata.thaw)]

-- `_edge_sort_key`.
def EdgeSpec.sortKey (edge : EdgeSpec) : List Value :=
  [edge.source, edge.kind.text, orEmpty edge.target, orEmpty edge.routerRef,
    .tuple edge.declaredTargets, edge.metadata.text]

inductive ReducerKind where
  | rejectConflict
  | first
  | last
  | concat
  | union
  | custom
  deriving DecidableEq

def ReducerKind.text : ReducerKind → Str
  | .rejectConflict => "reject_conflict"
  | .first => "first"
  | .last => "last"
  | .concat => "concat"
  | .union => "union"
  | .custom => "custom"

-- `REDUCER_KINDS`.
def ReducerKind.kinds : List ReducerKind :=
  [.rejectConflict, .first, .last, .concat, .union, .custom]

theorem ReducerKind.kindOf_eq_some {value : Value} {kind : ReducerKind} :
    kindOf kinds text value = some kind ↔ value = .str kind.text := by
  refine ⟨eq_text_of_kindOf, ?_⟩
  rintro rfl
  cases kind <;> rfl

-- Only a custom reducer or join may set ref.
def checkRef {κ : Type} [DecidableEq κ] (custom kind : κ) (record : String) (ref : Value) :
    Except Exn Unit :=
  if kind ≠ custom ∧ ref ≠ .none then
    .error (.valueError ["only a custom ", record, " may set ref"])
  else .ok ()

structure ReducerSpec where
  field : Str
  kind : ReducerKind
  ref : Value
  fieldNonempty : field ≠ []
  checked : checkRef .custom kind "reducer" ref = .ok ()

def ReducerSpec.new (field kind ref : Value) : Except Exn ReducerSpec :=
  match field with
  | .str (c :: rest) =>
      match kindOf ReducerKind.kinds ReducerKind.text kind with
      | none => .error (.valueError ["unsupported reducer kind: ", .repr kind])
      | some kind =>
          match hchecked : checkRef .custom kind "reducer" ref with
          | .error error => .error error
          | .ok () => .ok ⟨c :: rest, kind, ref, nofun, hchecked⟩
  | _ => .error (.valueError ["reducer field must be a non-empty string"])

theorem ReducerSpec.new_eq_ok {field kind ref : Value} {reducer : ReducerSpec} :
    ReducerSpec.new field kind ref = .ok reducer ↔
      field = .str reducer.field ∧ kind = .str reducer.kind.text ∧ ref = reducer.ref := by
  unfold ReducerSpec.new
  constructor
  · intro h
    split at h
    · split at h
      · cases h
      rename_i kind hkind
      split at h
      · cases h
      cases h
      exact ⟨rfl, eq_text_of_kindOf hkind, rfl⟩
    · cases h
  · rintro ⟨rfl, rfl, rfl⟩
    obtain ⟨field, kind, ref, hnonempty, hchecked⟩ := reducer
    cases field with
    | nil => cases hnonempty rfl
    | cons c rest =>
        dsimp only
        split
        · rename_i hnone
          cases hnone.symm.trans (ReducerKind.kindOf_eq_some.mpr rfl)
        rename_i hsome
        obtain rfl := Option.some.inj (hsome.symm.trans (ReducerKind.kindOf_eq_some.mpr rfl))
        split
        · rename_i herror
          cases herror.symm.trans hchecked
        rfl

def ReducerSpec.toDict (reducer : ReducerSpec) : Value :=
  .dict [("field", reducer.field), ("kind", reducer.kind.text), ("ref", reducer.ref)]

inductive JoinKind where
  | all
  | any
  | firstSuccess
  | quorum
  | custom
  deriving DecidableEq

def JoinKind.text : JoinKind → Str
  | .all => "all"
  | .any => "any"
  | .firstSuccess => "first_success"
  | .quorum => "quorum"
  | .custom => "custom"

-- `JOIN_KINDS`.
def JoinKind.kinds : List JoinKind := [.all, .any, .firstSuccess, .quorum, .custom]

theorem JoinKind.kindOf_eq_some {value : Value} {kind : JoinKind} :
    kindOf kinds text value = some kind ↔ value = .str kind.text := by
  refine ⟨eq_text_of_kindOf, ?_⟩
  rintro rfl
  cases kind <;> rfl

-- A quorum join has an integer quorum of at least 1, and no other join has one.
def checkQuorum (kind : JoinKind) (quorum : Value) : Except Exn Unit :=
  if kind = .quorum then
    match quorum with
    | .int q =>
        if q < 1 then .error (.valueError ["quorum join requires an integer quorum >= 1"])
        else .ok ()
    | _ => .error (.valueError ["quorum join requires an integer quorum >= 1"])
  else if quorum ≠ .none then .error (.valueError ["only a quorum join may set quorum"])
  else .ok ()

structure JoinSpec where
  source : Str
  kind : JoinKind
  quorum : Value
  ref : Value
  counted : checkQuorum kind quorum = .ok ()
  checked : checkRef .custom kind "join" ref = .ok ()

theorem JoinSpec.quorum_cases (join : JoinSpec) : (∃ q, join.quorum = .int q) ∨ join.quorum = .none := by
  have hcounted := join.counted
  unfold checkQuorum at hcounted
  split at hcounted
  · split at hcounted
    · exact .inl ⟨_, ‹_›⟩
    · cases hcounted
  · split at hcounted
    · cases hcounted
    · exact .inr (not_not.mp ‹_›)

def JoinSpec.new (source : Str) (kind quorum ref : Value) : Except Exn JoinSpec :=
  match kindOf JoinKind.kinds JoinKind.text kind with
  | none => .error (.valueError ["unsupported join kind: ", .repr kind])
  | some kind =>
      match hcounted : checkQuorum kind quorum with
      | .error error => .error error
      | .ok () =>
          match hchecked : checkRef .custom kind "join" ref with
          | .error error => .error error
          | .ok () => .ok ⟨source, kind, quorum, ref, hcounted, hchecked⟩

theorem JoinSpec.new_eq_ok {source : Str} {kind quorum ref : Value} {join : JoinSpec} :
    JoinSpec.new source kind quorum ref = .ok join ↔ source = join.source ∧
      kind = .str join.kind.text ∧ quorum = join.quorum ∧ ref = join.ref := by
  unfold JoinSpec.new
  constructor
  · intro h
    split at h
    · cases h
    rename_i kind hkind
    split at h
    · cases h
    split at h
    · cases h
    cases h
    exact ⟨rfl, eq_text_of_kindOf hkind, rfl, rfl⟩
  · rintro ⟨rfl, rfl, rfl, rfl⟩
    obtain ⟨source, kind, quorum, ref, hcounted, hchecked⟩ := join
    dsimp only
    split
    · rename_i hnone
      cases hnone.symm.trans (JoinKind.kindOf_eq_some.mpr rfl)
    rename_i hsome
    obtain rfl := Option.some.inj (hsome.symm.trans (JoinKind.kindOf_eq_some.mpr rfl))
    split
    · rename_i herror
      cases herror.symm.trans hcounted
    split
    · rename_i herror
      cases herror.symm.trans hchecked
    rfl

-- `all` is the implied join of every region.
def JoinSpec.isDefault (join : JoinSpec) : Bool := join.kind = .all

def JoinSpec.toDict (join : JoinSpec) : Value :=
  .dict [("source", join.source), ("kind", join.kind.text), ("quorum", join.quorum),
    ("ref", join.ref)]

end PerpetuaCore.Graph
