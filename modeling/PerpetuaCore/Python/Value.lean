import Mathlib.Algebra.Group.Int.Defs
import Mathlib.Data.List.Lex
import Mathlib.Order.Fin.Basic

namespace Python

-- A Python string is a sequence of code points; unlike `Char`, lone surrogates are allowed.
abbrev CodePoint := Fin 0x110000

abbrev Str := List CodePoint

def CodePoint.ofChar (c : Char) : CodePoint :=
  ⟨c.toNat, by have := c.valid; rcases this with h | ⟨_, h⟩ <;> simp only [Char.toNat] <;> omega⟩

def Str.ofString (s : String) : Str :=
  s.toList.map CodePoint.ofChar

instance : Coe String Str := ⟨Str.ofString⟩

-- A finite float is named by the text `float.__repr__` prints for it: that text reads back
-- as the same float, so no two floats share one.
structure FloatText where
  text : List Char
  chars : ∀ c ∈ text, c.isDigit ∨ c ∈ ['-', '+', '.', 'e']
  pointed : '.' ∈ text ∨ 'e' ∈ text
  deriving DecidableEq

inductive Float64 where
  | finite (repr : FloatText)
  | infinite (negative : Bool)
  | nan
  deriving DecidableEq

-- A number as Python compares it: `mantissa * 10 ^ exponent`.
structure Number where
  mantissa : Int
  exponent : Int

namespace Number

def ofInt (i : Int) : Number := ⟨i, 0⟩

-- Both mantissas over the smaller of the two exponents.
def scale (x y : Number) : Int × Int :=
  let low := min x.exponent y.exponent
  (x.mantissa * 10 ^ (x.exponent - low).toNat, y.mantissa * 10 ^ (y.exponent - low).toNat)

def eq (x y : Number) : Bool := (x.scale y).1 == (x.scale y).2

def le (x y : Number) : Bool := (x.scale y).1 ≤ (x.scale y).2

theorem eq_comm (x y : Number) : x.eq y = y.eq x := by
  rw [Number.eq, Number.eq, scale, scale, min_comm, Bool.beq_comm]

end Number

def FloatText.toNumber (x : FloatText) : Number :=
  let digits (t : List Char) : Int := Nat.ofDigitChars 10 t 0
  let negative := x.text.head? = some '-'
  let body := if negative then x.text.drop 1 else x.text
  let whole := body.takeWhile Char.isDigit
  let rest := body.dropWhile Char.isDigit
  let fraction := if rest.head? = some '.' then (rest.drop 1).takeWhile Char.isDigit else []
  let tail := (body.dropWhile (· ≠ 'e')).drop 1
  let shift := if tail.head? = some '-' then - digits (tail.drop 1) else digits (tail.drop 1)
  let mantissa := digits (whole ++ fraction)
  ⟨if negative then -mantissa else mantissa, shift - fraction.length⟩

-- `dict` lists its items in insertion order. `object` is any value Core does not look
-- into: its type's name, which object it is, and whether `copy.deepcopy` accepts it.
inductive Value where
  | none
  | bool (b : Bool)
  | int (i : Int)
  | float (x : Float64)
  | str (s : Str)
  | list (items : List Value)
  | tuple (items : List Value)
  | dict (items : List (Value × Value))
  | object (type : Str) (identity : Nat) (copies : Bool)

instance : Coe Str Value := ⟨.str⟩

instance : Coe String Value := ⟨fun s => .str (s : Str)⟩

namespace Value

mutual

def same : Value → Value → Bool
  | .none, .none => true
  | .bool a, .bool b => a == b
  | .int a, .int b => a == b
  | .float a, .float b => a == b
  | .str a, .str b => a == b
  | .list a, .list b => sameList a b
  | .tuple a, .tuple b => sameList a b
  | .dict a, .dict b => sameItems a b
  | .object s i c, .object t j d => s == t && i == j && c == d
  | _, _ => false

def sameList : List Value → List Value → Bool
  | [], [] => true
  | x :: a, y :: b => same x y && sameList a b
  | _, _ => false

def sameItems : List (Value × Value) → List (Value × Value) → Bool
  | [], [] => true
  | (k, v) :: a, (l, w) :: b => same k l && same v w && sameItems a b
  | _, _ => false

end

mutual

theorem same_iff (a b : Value) : same a b = true ↔ a = b := by
  cases a <;> cases b <;> simp [same, sameList_iff, sameItems_iff, and_assoc]

theorem sameList_iff (a b : List Value) : sameList a b = true ↔ a = b := by
  cases a <;> cases b <;> simp [sameList, same_iff, sameList_iff]

theorem sameItems_iff (a b : List (Value × Value)) : sameItems a b = true ↔ a = b := by
  rcases a with _ | ⟨⟨k, v⟩, a⟩ <;> rcases b with _ | ⟨⟨l, w⟩, b⟩ <;>
    simp [sameItems, same_iff, sameItems_iff]

end

instance : DecidableEq Value :=
  fun a b => decidable_of_iff (same a b = true) (same_iff a b)

def typeName : Value → Str
  | .none => "NoneType"
  | .bool _ => "bool"
  | .int _ => "int"
  | .float _ => "float"
  | .str _ => "str"
  | .list _ => "list"
  | .tuple _ => "tuple"
  | .dict _ => "dict"
  | .object type _ _ => type

mutual

-- `hash(value)` does not raise.
def hashable : Value → Bool
  | .list _ | .dict _ => false
  | .tuple items => hashableList items
  | _ => true

def hashableList : List Value → Bool
  | [] => true
  | x :: rest => x.hashable && hashableList rest

end

-- The items `[*value]` unpacks; `none` where it raises TypeError.
def iterate : Value → Option (List Value)
  | .list items | .tuple items => some items
  | .str s => some (s.map fun c => .str [c])
  | .dict items => some (items.map Prod.fst)
  | _ => .none

def number? : Value → Option Number
  | .bool b => some (.ofInt (if b then 1 else 0))
  | .int i => some (.ofInt i)
  | .float (.finite x) => some x.toNumber
  | _ => .none

mutual

-- `copy.deepcopy` returns: nothing inside refuses to be copied.
def copies : Value → Bool
  | .list items | .tuple items => copiesList items
  | .dict items => copiesItems items
  | .object _ _ c => c
  | _ => true

def copiesList : List Value → Bool
  | [] => true
  | x :: rest => x.copies && copiesList rest

def copiesItems : List (Value × Value) → Bool
  | [] => true
  | (k, v) :: rest => k.copies && v.copies && copiesItems rest

end

mutual

-- Python's `==`: numbers by value across types, dicts without regard to order.
def eq : Value → Value → Bool
  | .none, .none => true
  | .str a, .str b => a == b
  | .list a, .list b => eqList a b
  | .tuple a, .tuple b => eqList a b
  | .dict a, .dict b => a.length == b.length && eqItems a b
  | .object s i _, .object t j _ => s == t && i == j
  | .float (.infinite s), .float (.infinite t) => s == t
  | a, b =>
      match a.number?, b.number? with
      | some x, some y => x.eq y
      | _, _ => false

def eqList : List Value → List Value → Bool
  | [], [] => true
  | x :: a, y :: b => eq x y && eqList a b
  | _, _ => false

def eqItems : List (Value × Value) → List (Value × Value) → Bool
  | [], _ => true
  | (k, v) :: rest, b => b.any (fun item => eq k item.1 && eq v item.2) && eqItems rest b

end

-- A number equals nothing but numbers.
theorem eq_number {x y : Value} {n : Number} (hy : y.number? = some n) :
    x.eq y = x.number?.any fun m => m.eq n := by
  cases y with
  | bool b =>
      cases hy
      cases x with
      | float f => cases f <;> rfl
      | _ => rfl
  | int i =>
      cases hy
      cases x with
      | float f => cases f <;> rfl
      | _ => rfl
  | float g =>
      cases g with
      | finite t =>
          cases hy
          cases x with
          | float f => cases f <;> rfl
          | _ => rfl
      | infinite | nan => cases hy
  | _ => cases hy

theorem number_eq {x y : Value} {n : Number} (hy : y.number? = some n) :
    y.eq x = x.number?.any fun m => n.eq m := by
  cases y with
  | bool b =>
      cases hy
      cases x with
      | float f => cases f <;> rfl
      | _ => rfl
  | int i =>
      cases hy
      cases x with
      | float f => cases f <;> rfl
      | _ => rfl
  | float g =>
      cases g with
      | finite t =>
          cases hy
          cases x with
          | float f => cases f <;> rfl
          | _ => rfl
      | infinite | nan => cases hy
  | _ => cases hy

mutual

-- No dict inside has a key twice.
def wellFormed : Value → Bool
  | .list items | .tuple items => wellFormedList items
  | .dict items => decide (items.map Prod.fst).Nodup && wellFormedItems items
  | _ => true

def wellFormedList : List Value → Bool
  | [] => true
  | x :: rest => x.wellFormed && wellFormedList rest

def wellFormedItems : List (Value × Value) → Bool
  | [] => true
  | (_, v) :: rest => v.wellFormed && wellFormedItems rest

end

theorem wellFormedList_iff {items : List Value} :
    wellFormedList items = true ↔ ∀ x ∈ items, x.wellFormed = true := by
  induction items with
  | nil => simp [wellFormedList]
  | cons x rest ih => simp [wellFormedList, ih]

theorem wellFormedItems_iff {items : List (Value × Value)} :
    wellFormedItems items = true ↔ ∀ item ∈ items, item.2.wellFormed = true := by
  induction items with
  | nil => simp [wellFormedItems]
  | cons item rest ih => simp [wellFormedItems, ih]

-- What holds of a value when it holds of everything inside it holds of every value.
theorem inside {motive : Value → Prop} (none : motive .none) (bool : ∀ b, motive (.bool b))
    (int : ∀ i, motive (.int i)) (float : ∀ x, motive (.float x)) (str : ∀ s, motive (.str s))
    (list : ∀ items, (∀ x ∈ items, motive x) → motive (.list items))
    (tuple : ∀ items, (∀ x ∈ items, motive x) → motive (.tuple items))
    (dict : ∀ items, (∀ item ∈ items, motive item.2) → motive (.dict items))
    (object : ∀ type identity copies, motive (.object type identity copies)) :
    ∀ v, motive v := by
  refine @Value.rec motive (fun items => ∀ x ∈ items, motive x)
    (fun items => ∀ item ∈ items, motive item.2) (fun item => motive item.2)
    none bool int float str list tuple dict object (by simp) ?_ (by simp) ?_ fun _ _ _ hv => hv
  · exact fun x rest hx hrest => List.forall_mem_cons.mpr ⟨hx, hrest⟩
  · exact fun item rest hitem hrest => List.forall_mem_cons.mpr ⟨hitem, hrest⟩

end Value

end Python
