import Mathlib.Data.List.Sort

namespace Python

variable {α κ : Type} [LinearOrder κ]

-- `sorted(items, key=key)`: a stable sort.
def sorted (key : α → κ) (items : List α) : List α :=
  items.insertionSort fun a b => key a ≤ key b

theorem sorted_perm (key : α → κ) (items : List α) : (sorted key items).Perm items :=
  List.perm_insertionSort _ _

@[simp] theorem mem_sorted {key : α → κ} {items : List α} {x : α} :
    x ∈ sorted key items ↔ x ∈ items :=
  (sorted_perm key items).mem_iff

@[simp] theorem length_sorted (key : α → κ) (items : List α) :
    (sorted key items).length = items.length :=
  (sorted_perm key items).length_eq

theorem sorted_pairwise (key : α → κ) (items : List α) :
    (sorted key items).Pairwise fun a b => key a ≤ key b := by
  have : Std.Total (fun a b : α => key a ≤ key b) := ⟨fun a b => le_total (key a) (key b)⟩
  have : IsTrans α (fun a b => key a ≤ key b) := ⟨fun _ _ _ => le_trans⟩
  exact List.pairwise_insertionSort _ _

theorem sorted_eq_self {key : α → κ} {items : List α}
    (h : items.Pairwise fun a b => key a ≤ key b) : sorted key items = items :=
  List.Pairwise.insertionSort_eq h

@[simp] theorem sorted_sorted (key : α → κ) (items : List α) :
    sorted key (sorted key items) = sorted key items :=
  sorted_eq_self (sorted_pairwise key items)

-- A total key leaves the order of the input no influence.
theorem sorted_eq_of_perm {key : α → κ} (hkey : Function.Injective key) {xs ys : List α}
    (h : xs.Perm ys) : sorted key xs = sorted key ys := by
  have hp : (sorted key xs).Perm (sorted key ys) :=
    (sorted_perm key xs).trans (h.trans (sorted_perm key ys).symm)
  exact hp.eq_of_pairwise
    (fun a b _ _ hab hba => hkey (le_antisymm hab hba))
    (sorted_pairwise key xs) (sorted_pairwise key ys)

-- Items of one key keep their order.
theorem filter_sorted (key : α → κ) (k : κ) (items : List α) :
    (sorted key items).filter (fun x => key x = k) = items.filter fun x => key x = k := by
  have hinsert : ∀ (x : α) (l : List α),
      (l.orderedInsert (fun a b => key a ≤ key b) x).filter (fun y => key y = k) =
        (x :: l).filter fun y => key y = k := by
    intro x l
    induction l with
    | nil => rfl
    | cons y l ih =>
        rw [List.orderedInsert]
        split_ifs with hle
        · rfl
        · rw [List.filter_cons, ih]
          by_cases hx : key x = k
          · have hy : key y ≠ k := by
              rintro rfl
              exact hle hx.le
            simp [hx, hy]
          · simp [List.filter_cons, hx]
  induction items with
  | nil => rfl
  | cons x rest ih =>
      rw [sorted, List.insertionSort_cons, hinsert, List.filter_cons, List.filter_cons]
      simp only [sorted] at ih
      rw [ih]

-- Lists in order are the same when they have the same items of every key.
theorem eq_of_filter {key : α → κ} {xs ys : List α} (hx : xs.Pairwise fun a b => key a ≤ key b)
    (hy : ys.Pairwise fun a b => key a ≤ key b)
    (h : ∀ k, xs.filter (fun x => key x = k) = ys.filter fun x => key x = k) : xs = ys := by
  have hmem : ∀ x, x ∈ xs ↔ x ∈ ys := by
    intro x
    have hfilter := congrArg (x ∈ ·) (h (key x))
    simpa using hfilter
  induction hx generalizing ys with
  | nil => exact (List.eq_nil_iff_forall_not_mem.mpr fun x hm => by simpa using (hmem x).mpr hm).symm
  | @cons x xs hfirst _ ih =>
      cases hy with
      | nil => simpa using (hmem x).mp List.mem_cons_self
      | @cons y ys hfirst' hy =>
          have hle : key y ≤ key x := by
            rcases List.mem_cons.mp ((hmem x).mp List.mem_cons_self) with rfl | hm
            · exact le_rfl
            · exact hfirst' x hm
          have hge : key x ≤ key y := by
            rcases List.mem_cons.mp ((hmem y).mpr List.mem_cons_self) with rfl | hm
            · exact le_rfl
            · exact hfirst y hm
          have hkey : key y = key x := le_antisymm hle hge
          have hhead := h (key x)
          rw [List.filter_cons_of_pos (by simp), List.filter_cons_of_pos (by simpa using hkey)] at hhead
          obtain ⟨rfl, -⟩ := List.cons.inj hhead
          have hrest : ∀ k, xs.filter (fun z => key z = k) = ys.filter fun z => key z = k := by
            intro k
            have hk := h k
            rw [List.filter_cons, List.filter_cons] at hk
            split_ifs at hk with hx
            · exact (List.cons.inj hk).2
            · exact hk
          rw [ih hy hrest fun z => by simpa using congrArg (z ∈ ·) (hrest (key z))]

-- Without ties, rearranging leaves what is found under a key as it is.
theorem filter_eq_of_perm {α κ : Type} [DecidableEq κ] {key : α → κ} {xs ys : List α} (hp : xs.Perm ys)
    (h : ∀ a ∈ xs, ∀ b ∈ xs, key a = key b → a = b) (k : κ) :
    xs.filter (fun x => key x = k) = ys.filter fun x => key x = k := by
  have hfilter := hp.filter fun x => decide (key x = k)
  cases hxs : xs.filter fun x => key x = k with
  | nil =>
      rw [hxs] at hfilter
      exact hfilter.nil_eq
  | cons a rest =>
      have hmem : ∀ x ∈ a :: rest, x ∈ xs ∧ key x = k := by
        intro x hx
        rw [← hxs] at hx
        simpa using hx
      obtain ⟨ha, hka⟩ := hmem a List.mem_cons_self
      have hsame : a :: rest = List.replicate (rest.length + 1) a := by
        refine List.eq_replicate_of_mem fun x hx => ?_
        obtain ⟨hm, hk⟩ := hmem x hx
        exact h x hm a ha (hk.trans hka.symm)
      rw [hxs, hsame] at hfilter
      rw [hsame, List.perm_replicate.mp hfilter.symm]

-- Sorting what passes a test is testing what is sorted.
theorem filter_sorted_comm (p : α → Bool) (key : α → κ) (items : List α) :
    (sorted key items).filter p = sorted key (items.filter p) := by
  refine eq_of_filter ((sorted_pairwise key items).filter p) (sorted_pairwise key _) fun k => ?_
  rw [filter_sorted, List.filter_comm, filter_sorted, List.filter_comm]

-- Sorting forgets the order of the input exactly when no two different items tie.
theorem sorted_perm_iff {key : α → κ} {xs : List α} :
    (∀ ys : List α, ys.Perm xs → sorted key ys = sorted key xs) ↔
      ∀ a ∈ xs, ∀ b ∈ xs, key a = key b → a = b := by
  classical
  constructor
  · intro h a ha b hb hkey
    by_contra hne
    have hb' : b ∈ xs.erase a := (List.mem_erase_of_ne (Ne.symm hne)).mpr hb
    have hab : (a :: b :: (xs.erase a).erase b).Perm xs :=
      ((List.perm_cons_erase hb').symm.cons a).trans (List.perm_cons_erase ha).symm
    have hsorted := (h _ hab).trans (h _ ((List.Perm.swap a b _).trans hab)).symm
    have hfilter := congrArg (List.filter fun x => key x = key a) hsorted
    rw [filter_sorted, filter_sorted] at hfilter
    simp only [List.filter_cons, hkey, decide_true, if_true] at hfilter
    exact hne (List.cons.inj hfilter).1
  · intro h ys hp
    refine ((sorted_perm key ys).trans (hp.trans (sorted_perm key xs).symm)).eq_of_pairwise
      (fun a b ha hb hab hba => ?_) (sorted_pairwise key ys) (sorted_pairwise key xs)
    exact h a (hp.mem_iff.mp (mem_sorted.mp ha)) b (mem_sorted.mp hb) (le_antisymm hab hba)

-- Items in strictly ascending order are what any arrangement of them is sorted to.
theorem sorted_eq_of_ascending {key : α → κ} {xs ys : List α} (h : xs.Perm ys)
    (hys : ys.Pairwise fun a b => key a < key b) : sorted key xs = ys := by
  have hn : (ys.map key).Nodup := List.pairwise_map.mpr (hys.imp ne_of_lt)
  refine ((sorted_perm key xs).trans h).eq_of_pairwise (fun a b ha hb hab hba => ?_)
    (sorted_pairwise key xs) (hys.imp le_of_lt)
  exact List.inj_on_of_nodup_map hn (h.mem_iff.mp (mem_sorted.mp ha)) hb (le_antisymm hab hba)

end Python
