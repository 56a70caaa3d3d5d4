import PerpetuaCore.Python.Value
import PerpetuaCore.Python.Sorted
import PerpetuaCore.Python.Raising

namespace Python

def Float64.less : Float64 → Float64 → Bool
  | .nan, _ | _, .nan => false
  | .infinite negative, .infinite negative' => negative && !negative'
  | .infinite negative, .finite _ => negative
  | .finite _, .infinite negative => !negative
  | .finite x, .finite y => !y.toNumber.le x.toNumber

def Value.numberLess (a b : Value) : Option Bool :=
  match a.number?, b.number? with
  | some x, some y => some (!y.le x)
  | _, _ =>
      match a, b with
      | .float x, .float y => some (x.less y)
      | .float (.infinite negative), b => b.number?.map fun _ => negative
      | a, .float (.infinite negative) => a.number?.map fun _ => !negative
      | .float .nan, b => b.number?.map fun _ => false
      | a, .float .nan => a.number?.map fun _ => false
      | _, _ => .none

mutual

-- Python's `<`; `none` where it raises TypeError.
def Value.less : Value → Value → Option Bool
  | .str a, .str b => some (a < b)
  | .list a, .list b | .tuple a, .tuple b => lessList a b
  | a, b => a.numberLess b

-- The first items that differ decide.
def lessList : List Value → List Value → Option Bool
  | _, [] => some false
  | [], _ :: _ => some true
  | x :: a, y :: b => if x.eq y then lessList a b else x.less y

end

variable {α κ : Type}

-- `sorted` by a comparison that may raise: stable insertion.
def insertBy (less : α → α → Option Bool) (x : α) : List α → Option (List α)
  | [] => some [x]
  | y :: rest =>
      match less y x with
      | none => none
      | some true => (insertBy less x rest).map (y :: ·)
      | some false => some (x :: y :: rest)

def sortedBy (less : α → α → Option Bool) : List α → Option (List α)
  | [] => some []
  | x :: rest => (sortedBy less rest).bind (insertBy less x)

theorem insertBy_perm {less : α → α → Option Bool} {x : α} {items items' : List α}
    (h : insertBy less x items = some items') : items'.Perm (x :: items) := by
  induction items generalizing items' with
  | nil =>
      obtain rfl := Option.some.inj h
      exact .rfl
  | cons y rest ih =>
      unfold insertBy at h
      split at h
      · cases h
      · obtain ⟨inserted, hi, rfl⟩ := Option.map_eq_some_iff.mp h
        exact ((ih hi).cons y).trans (.swap x y rest)
      · obtain rfl := Option.some.inj h
        exact .rfl

theorem sortedBy_perm {less : α → α → Option Bool} {items items' : List α}
    (h : sortedBy less items = some items') : items'.Perm items := by
  induction items generalizing items' with
  | nil =>
      obtain rfl := Option.some.inj h
      exact .rfl
  | cons x rest ih =>
      obtain ⟨sorted, hs, hi⟩ := Option.bind_eq_some_iff.mp h
      exact (insertBy_perm hi).trans ((ih hs).cons x)

-- A comparison that does not raise and says whether `p`.
def Decides (r : Option Bool) (p : Prop) : Prop := ∃ b, r = some b ∧ (b = true ↔ p)

-- Where the comparison is that of a key, sorting cannot raise.
theorem sortedBy_eq [LinearOrder κ] {less : α → α → Option Bool} {key : α → κ} {items : List α}
    (h : ∀ a ∈ items, ∀ b ∈ items, Decides (less a b) (key a < key b)) :
    sortedBy less items = some (sorted key items) := by
  induction items with
  | nil => rfl
  | cons x rest ih =>
      have hrest := ih fun a ha b hb => h a (List.mem_cons_of_mem _ ha) b (List.mem_cons_of_mem _ hb)
      have hinsert : ∀ l : List α, (∀ y ∈ l, y ∈ rest) → insertBy less x l =
          some (l.orderedInsert (fun a b => key a ≤ key b) x) := by
        intro l hl
        induction l with
        | nil => rfl
        | cons y l ihl =>
            obtain ⟨hy, hl⟩ := List.forall_mem_cons.mp hl
            obtain ⟨b, hb, hlt⟩ := h y (List.mem_cons_of_mem _ hy) x List.mem_cons_self
            rw [insertBy, hb, ihl hl, List.orderedInsert]
            cases b with
            | true => simp [hlt.mp rfl]
            | false => simp [not_lt.mp fun hyx => Bool.false_ne_true (hlt.mpr hyx)]
      rw [sortedBy, hrest, Option.bind_some, hinsert _ fun y hy => mem_sorted.mp hy]
      rfl

theorem decides_strings (a b : Str) : Decides ((Value.str a).less (.str b)) (a < b) :=
  ⟨_, rfl, decide_eq_true_iff⟩

theorem eqList_strings (a b : List Str) :
    Value.eqList (a.map .str) (b.map .str) = true ↔ a = b := by
  induction a generalizing b with
  | nil => cases b <;> simp [Value.eqList]
  | cons x a ih => cases b <;> simp [Value.eqList, Value.eq, ih]

-- The first items that differ decide.
theorem lessList_cons [LinearOrder κ] {x y : Value} {a b : List Value} {u v : κ} {k l : List κ}
    (heq : x.eq y = true ↔ u = v) (hless : Decides (x.less y) (u < v))
    (h : Decides (lessList a b) (k < l)) : Decides (lessList (x :: a) (y :: b)) (u :: k < v :: l) := by
  rw [lessList, List.cons_lt_cons_iff]
  split_ifs with hxy
  · obtain ⟨r, hr, hlt⟩ := h
    obtain rfl := heq.mp hxy
    exact ⟨r, hr, by simp [hlt]⟩
  · obtain ⟨r, hr, hlt⟩ := hless
    have hne : u ≠ v := fun huv => hxy (heq.mpr huv)
    exact ⟨r, hr, by simp [hlt, hne]⟩

-- Sequences of strings compare in lexicographic order.
theorem lessList_strings (a b : List Str) : Decides (lessList (a.map .str) (b.map .str)) (a < b) := by
  induction a generalizing b with
  | nil => cases b <;> exact ⟨_, rfl, by simp⟩
  | cons x a ih =>
      cases b with
      | nil => exact ⟨_, rfl, by simp⟩
      | cons y b => exact lessList_cons (by simp [Value.eq]) (decides_strings x y) (ih b)

end Python
