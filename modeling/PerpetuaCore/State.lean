import PerpetuaCore.Python.Dict
import PerpetuaCore.Graph.Gate

namespace PerpetuaCore

open Python (Str Value Dict)
open PerpetuaCore.Graph (Exn)

-- The declared fields of `PerpetuaState`.
def modelFields : List Str :=
  ["session_id", "messages", "scratchpad", "status", "error", "nodes_visited", "metadata",
    "retry_count", "target_tier", "task_type", "optimize_for", "model_hint"]

abbrev Delta := Dict Value Value

-- What serialising makes of an object inside a field: a dict of a model's or a dataclass's
-- fields, for instance, or the object itself.
class Dumping where
  object : Str → Nat → Bool → Value

-- Serialising that knows no such object.
@[reducible] def Dumping.verbatim : Dumping := ⟨.object⟩

section Dumping

variable [Dumping]

mutual

-- What `model_dump` makes of a field's value; the keys of a dict stay as they are.
def dumped : Value → Value
  | .list items => .list (dumpedList items)
  | .tuple items => .tuple (dumpedList items)
  | .dict items => .dict (dumpedItems items)
  | .object type identity copies => Dumping.object type identity copies
  | value => value

def dumpedList : List Value → List Value
  | [] => []
  | value :: rest => dumped value :: dumpedList rest

def dumpedItems : List (Value × Value) → List (Value × Value)
  | [] => []
  | (key, value) :: rest => (key, dumped value) :: dumpedItems rest

end

end Dumping

-- A state is the instance's `__dict__`: every declared field has a value, and merges
-- may have added further attributes. `merge` validates nothing, so values are arbitrary.
structure State where
  attrs : Dict Value Value
  declared : ∀ field ∈ modelFields, (attrs.get? (.str field)).isSome = true

namespace State

-- `getattr(state, key, None)`.
def get (state : State) (key : Str) : Value :=
  (state.attrs.get? key).getD .none

-- `copy.deepcopy` of a container of these items returns.
def itemsCopy (items : List (Value × Value)) : Bool :=
  items.all fun item => item.1.copies && item.2.copies

def update (state : State) (delta : Delta) : State where
  attrs := state.attrs.update delta
  declared := by
    intro field hf
    have hd := state.declared field hf
    rw [Dict.get?_update]
    cases delta.get? (.str field) <;> simp [hd]

-- `PerpetuaState.merge`: raises only where a value refuses to be copied.
def merge (state : State) (delta : Delta) : Except Exn State :=
  if itemsCopy delta.items && itemsCopy state.attrs.items then .ok (state.update delta)
  else .error (.typeError ["cannot be copied"])

def defaultItems (sessionId : Str) : List (Value × Value) :=
  [("session_id", sessionId), ("messages", .list []), ("scratchpad", .dict []),
    ("status", "idle"), ("error", .none), ("nodes_visited", .list []), ("metadata", .dict []),
    ("retry_count", .int 0), ("target_tier", "shared"), ("task_type", "reasoning"),
    ("optimize_for", "quality"), ("model_hint", .none)]

theorem nodup_modelFields : (modelFields.map Value.str).Nodup := by decide

theorem defaultItems_keys (sessionId : Str) :
    (defaultItems sessionId).map Prod.fst = modelFields.map Value.str := rfl

-- `PerpetuaState(session_id=...)`.
def new (sessionId : Str) : State where
  attrs := ⟨defaultItems sessionId, defaultItems_keys sessionId ▸ nodup_modelFields⟩
  declared := by
    intro field hf
    rw [Dict.get?_isSome_iff, Dict.keys, defaultItems_keys]
    exact List.mem_map_of_mem hf

-- `state.model_dump()`: the declared fields.
def modelDump [Dumping] (state : State) : Delta where
  items := modelFields.map fun field => (.str field, dumped (state.get field))
  nodup := by
    rw [List.map_map]
    exact nodup_modelFields

theorem get?_modelDump [Dumping] {state : State} {field : Str} (hf : field ∈ modelFields) :
    state.modelDump.get? (.str field) = some (dumped (state.get field)) :=
  Dict.get?_of_mem (List.mem_map_of_mem hf)

@[simp] theorem get_update (state : State) (delta : Delta) (key : Str) :
    (state.update delta).get key = (delta.get? (.str key)).getD (state.get key) := by
  simp only [get, update, Dict.get?_update]
  cases delta.get? (.str key) <;> rfl

theorem merge_eq_update {state merged : State} {delta : Delta}
    (h : state.merge delta = .ok merged) : merged = state.update delta := by
  unfold merge at h
  split_ifs at h
  exact (Except.ok.inj h).symm

-- Every attribute can be copied, so that the state can be merged.
def copyable (state : State) : Bool := itemsCopy state.attrs.items

theorem itemsCopy_eq (items : List (Value × Value)) : itemsCopy items = Value.copiesItems items := by
  induction items with
  | nil => rfl
  | cons item rest ih =>
      simp only [itemsCopy, List.all_cons, Value.copiesItems] at ih ⊢
      rw [ih]

theorem merge_ok {state : State} {delta : Delta} (hs : state.copyable = true)
    (hd : itemsCopy delta.items = true) : state.merge delta = .ok (state.update delta) := by
  simp only [copyable] at hs
  simp [merge, hs, hd]

-- A merge copies everything it keeps.
theorem merge_copyable {state merged : State} {delta : Delta} (h : state.merge delta = .ok merged) :
    merged.copyable = true := by
  unfold merge at h
  split_ifs at h with hcopy
  obtain ⟨hd, hs⟩ := Bool.and_eq_true_iff.mp hcopy
  rw [← Except.ok.inj h]
  refine List.all_eq_true.mpr fun item hitem => ?_
  rcases Dict.mem_items_update hitem with hm | hm
  · exact List.all_eq_true.mp hd item hm
  · exact List.all_eq_true.mp hs item hm

end State

end PerpetuaCore
