import PerpetuaCore.Graph.Gate
import PerpetuaCore.Json.Dumps
import PerpetuaCore.Python.Dict
import PerpetuaCore.Python.Order

namespace PerpetuaCore.Graph

open Python (Str Value Dict Number)

-- What the interpreter's own texts are: `repr` of a value, and the integer `int` reads
-- from a text.
class Builtins where
  repr : Value → Str
  parseInt : Str → Option Int

-- `bool(value)`; an object Core does not look into counts as true.
def truthy : Value → Bool
  | .none => false
  | .bool b => b
  | .int i => i ≠ 0
  | .float (.finite x) => x.toNumber.mantissa ≠ 0
  | .str s => s ≠ []
  | .list items | .tuple items => !items.isEmpty
  | .dict items => !items.isEmpty
  | _ => true

-- `value or ""`, as the sort keys use it.
def orEmpty (value : Value) : Value := if truthy value then value else ""

-- `str(value)`.
def strOf [Builtins] : Value → Str
  | .none => "None"
  | .bool b => if b then "True" else "False"
  | .int i => Json.toStr (Json.intText i)
  | .float (.finite x) => Json.toStr x.text
  | .float (.infinite negative) => if negative then "-inf" else "inf"
  | .float .nan => "nan"
  | .str s => s
  | value => Builtins.repr value

-- Towards zero.
def truncate (x : Number) : Int :=
  if 0 ≤ x.exponent then x.mantissa * 10 ^ x.exponent.toNat
  else x.mantissa.tdiv (10 ^ (-x.exponent).toNat)

-- `int(value)`.
def intOf [Builtins] : Value → Except Exn Int
  | .bool b => .ok (if b then 1 else 0)
  | .int i => .ok i
  | .float (.finite x) => .ok (truncate x.toNumber)
  | .float (.infinite _) => .error (.other "OverflowError" none none 0)
  | .float .nan => .error (.valueError ["cannot convert float NaN to integer"])
  | .str s =>
      match Builtins.parseInt s with
      | some i => .ok i
      | none => .error (.valueError ["invalid literal for int() with base 10: ", .repr (.str s)])
  | value => .error (.typeError ["int() argument must be a string, a bytes-like object or a real " ++
      "number, not '", .insert value.typeName, "'"])

def unhashable (value : Value) : Exn :=
  .typeError ["unhashable type: '", .insert value.typeName, "'"]

def notIterable (value : Value) : Exn :=
  .typeError ["'", .insert value.typeName, "' object is not iterable"]

-- `tuple(value)`.
def tupleOf (value : Value) : Except Exn (List Value) :=
  match value.iterate with
  | none => .error (notIterable value)
  | some items => .ok items

def pairItem (item : Value) : Except Exn (Value × Value) :=
  match item.iterate with
  | none => .error (.typeError ["cannot convert dictionary update sequence element to a sequence"])
  | some [key, value] => if key.hashable then .ok (key, value) else .error (unhashable key)
  | some _ => .error (.valueError ["dictionary update sequence element has wrong length; 2 is required"])

-- `dict(value)`: a mapping's items, or the pairs an iterable gives.
def dictOf : Value → Except Exn (Dict Value Value)
  | .dict items => .ok (Dict.ofList items)
  | value =>
      match value.iterate with
      | none => .error (notIterable value)
      | some items => (items.mapM pairItem).map Dict.ofList

-- Of items that are equal the first stays.
def distinct : List Value → List Value
  | [] => []
  | x :: rest => x :: (distinct rest).filter fun y => !x.eq y

theorem mem_of_mem_distinct {items : List Value} {x : Value} (h : x ∈ distinct items) : x ∈ items := by
  induction items with
  | nil => cases h
  | cons y rest ih =>
      rcases List.mem_cons.mp h with rfl | h
      · exact List.mem_cons_self
      · exact List.mem_cons_of_mem _ (ih (List.mem_of_mem_filter h))

theorem distinct_pairwise (items : List Value) :
    (distinct items).Pairwise fun x y => x.eq y = false := by
  induction items with
  | nil => exact .nil
  | cons x rest ih =>
      refine .cons (fun y hy => ?_) (ih.filter _)
      simpa using (List.mem_filter.mp hy).2

theorem distinct_eq_self {items : List Value} (h : items.Pairwise fun x y => x.eq y = false) :
    distinct items = items := by
  induction h with
  | nil => rfl
  | cons hx _ ih =>
      rw [distinct, ih, List.filter_eq_self.mpr]
      intro y hy
      simp [hx y hy]

-- `set(items)`.
def setOf (items : List Value) : Except Exn (List Value) :=
  match items.find? fun x => !x.hashable with
  | some x => .error (unhashable x)
  | none => .ok (distinct items)

theorem setOf_eq_ok {items unique : List Value} :
    setOf items = .ok unique ↔ (∀ x ∈ items, x.hashable = true) ∧ unique = distinct items := by
  unfold setOf
  split
  · rename_i x hx
    have hbad : ¬x.hashable = true := by simpa using List.find?_some hx
    exact ⟨nofun, fun h => absurd (h.1 x (List.mem_of_find?_eq_some hx)) hbad⟩
  · rename_i hnone
    simp only [List.find?_eq_none, Bool.not_eq_true', Bool.not_eq_false] at hnone
    exact ⟨fun h => ⟨hnone, (Except.ok.inj h).symm⟩, fun h => by rw [h.2]⟩

-- `sorted(items, key=key)`; keys are tuples.
def sortedByKey {α : Type} (key : α → List Value) (items : List α) : Except Exn (List α) :=
  match Python.sortedBy (fun a b => Python.lessList (key a) (key b)) items with
  | some items => .ok items
  | none => .error (.typeError ["'<' not supported between instances"])

-- `sorted(items)`.
def sortedValues (items : List Value) : Except Exn (List Value) :=
  match Python.sortedBy Value.less items with
  | some items => .ok items
  | none => .error (.typeError ["'<' not supported between instances"])

theorem sortedByKey_perm {α : Type} {key : α → List Value} {items items' : List α}
    (h : sortedByKey key items = .ok items') : items'.Perm items := by
  unfold sortedByKey at h
  split at h
  · obtain rfl := Except.ok.inj h
    exact Python.sortedBy_perm ‹_›
  · cases h

theorem sortedValues_perm {items items' : List Value} (h : sortedValues items = .ok items') :
    items'.Perm items := by
  unfold sortedValues at h
  split at h
  · obtain rfl := Except.ok.inj h
    exact Python.sortedBy_perm ‹_›
  · cases h

end PerpetuaCore.Graph
