import Mathlib.Data.List.Basic
import Mathlib.Data.List.Induction

-- Lists that an item is added to only where no item that is taken for the same is in them.
namespace Python.OrderedSet

variable {α : Type} {same : α → α → Bool} {items result : List α} {x : α}

def add (same : α → α → Bool) (result : List α) (x : α) : List α :=
  if result.any (same · x) then result else result ++ [x]

def addAll (same : α → α → Bool) (result items : List α) : List α :=
  items.foldl (add same) result

-- What is added of some items: each at its first occurrence, in their order.
structure Added [DecidableEq α] (same : α → α → Bool) (result items fresh : List α) : Prop where
  sublist : fresh.Sublist items
  distinct : fresh.Pairwise fun a b => same a b = false
  absent : ∀ a ∈ result, ∀ b ∈ fresh, same a b = false
  covers : ∀ x ∈ items, ∃ y ∈ result ++ fresh, same y x = true
  ordered : fresh.Pairwise fun a b => items.idxOf a < items.idxOf b
  first : (∀ a ∈ result ++ items, ∀ b ∈ items, ∀ c ∈ items, same a b = true → same b c = true →
    same a c = true) → ∀ x ∈ fresh, ∀ y ∈ items.takeWhile (· ≠ x), same y x = false

theorem addAll_snoc : addAll same result (items ++ [x]) = add same (addAll same result items) x := by
  rw [addAll, List.foldl_append]
  rfl

theorem add_of_found {y : α} (hy : y ∈ result) (h : same y x = true) : add same result x = result :=
  if_pos (List.any_eq_true.mpr ⟨y, hy, h⟩)

theorem addAll_of_found (h : ∀ x ∈ items, ∃ y ∈ result, same y x = true) :
    addAll same result items = result := by
  induction items with
  | nil => rfl
  | cons x rest ih =>
      obtain ⟨⟨y, hy, hsame⟩, hrest⟩ := List.forall_mem_cons.mp h
      rw [addAll, List.foldl_cons, add_of_found hy hsame]
      exact ih hrest

section Added

variable [DecidableEq α] {fresh : List α}

theorem takeWhile_ne_append {ys : List α} (h : x ∈ items) :
    (items ++ ys).takeWhile (· ≠ x) = items.takeWhile (· ≠ x) := by
  induction items with
  | nil => cases h
  | cons y rest ih =>
      rw [List.cons_append, List.takeWhile_cons, List.takeWhile_cons]
      by_cases hy : y = x
      · simp [hy]
      · rw [ih (List.mem_of_ne_of_mem (Ne.symm hy) h)]

theorem Added.skip (h : Added same result items fresh)
    (hx : ∃ y ∈ result ++ fresh, same y x = true) : Added same result (items ++ [x]) fresh := by
  have hmem : ∀ a ∈ fresh, a ∈ items := h.sublist.subset
  constructor
  · exact h.sublist.trans (List.sublist_append_left _ _)
  · exact h.distinct
  · exact h.absent
  · intro y hy
    rcases List.mem_append.mp hy with hy | hy
    · exact h.covers y hy
    · exact List.mem_singleton.mp hy ▸ hx
  · refine h.ordered.imp_of_mem fun ha hb hlt => ?_
    rwa [List.idxOf_append_of_mem (hmem _ ha), List.idxOf_append_of_mem (hmem _ hb)]
  · intro htrans a ha
    rw [takeWhile_ne_append (hmem a ha)]
    refine h.first (fun a ha b hb c hc => htrans a ?_ b ?_ c ?_) a ha
    · rw [← List.append_assoc]
      exact List.mem_append_left _ ha
    · exact List.mem_append_left _ hb
    · exact List.mem_append_left _ hc

theorem Added.append (h : Added same result items fresh) (hrefl : ∀ x, same x x = true)
    (hx : ∀ y ∈ result ++ fresh, same y x = false) :
    Added same result (items ++ [x]) (fresh ++ [x]) := by
  have hmem : ∀ a ∈ fresh, a ∈ items := h.sublist.subset
  have hnew : x ∉ items := by
    intro hm
    obtain ⟨y, hy, hsame⟩ := h.covers x hm
    rw [hx y hy] at hsame
    cases hsame
  constructor
  · exact h.sublist.append (List.Sublist.refl _)
  · refine List.pairwise_append.mpr ⟨h.distinct, List.pairwise_singleton _ _, fun a ha b hb => ?_⟩
    exact List.mem_singleton.mp hb ▸ hx a (List.mem_append_right _ ha)
  · intro a ha b hb
    rcases List.mem_append.mp hb with hb | hb
    · exact h.absent a ha b hb
    · exact List.mem_singleton.mp hb ▸ hx a (List.mem_append_left _ ha)
  · intro y hy
    rw [← List.append_assoc]
    rcases List.mem_append.mp hy with hy | hy
    · obtain ⟨z, hz, hsame⟩ := h.covers y hy
      exact ⟨z, List.mem_append_left _ hz, hsame⟩
    · obtain rfl := List.mem_singleton.mp hy
      exact ⟨y, List.mem_append_right _ hy, hrefl y⟩
  · refine List.pairwise_append.mpr ⟨?_, List.pairwise_singleton _ _, fun a ha b hb => ?_⟩
    · refine h.ordered.imp_of_mem fun ha hb hlt => ?_
      rwa [List.idxOf_append_of_mem (hmem _ ha), List.idxOf_append_of_mem (hmem _ hb)]
    · obtain rfl := List.mem_singleton.mp hb
      rw [List.idxOf_append_of_mem (hmem a ha), List.idxOf_append_of_notMem hnew]
      exact Nat.lt_add_right _ (List.idxOf_lt_length_iff.mpr (hmem a ha))
  · intro htrans a ha y hy
    rcases List.mem_append.mp ha with ha | ha
    · rw [takeWhile_ne_append (hmem a ha)] at hy
      refine h.first (fun a ha b hb c hc => htrans a ?_ b ?_ c ?_) a ha y hy
      · rw [← List.append_assoc]
        exact List.mem_append_left _ ha
      · exact List.mem_append_left _ hb
      · exact List.mem_append_left _ hc
    · obtain rfl := List.mem_singleton.mp ha
      have hy : y ∈ items := by
        have hne := List.all_eq_true.mp List.all_takeWhile y hy
        have hall := (List.takeWhile_prefix _).subset hy
        refine (List.mem_append.mp hall).resolve_right fun hlast => ?_
        simp [List.mem_singleton.mp hlast] at hne
      obtain ⟨z, hz, hsame⟩ := h.covers y hy
      have hz' : z ∈ result ++ (items ++ [a]) := by
        rcases List.mem_append.mp hz with hz | hz
        · exact List.mem_append_left _ hz
        · exact List.mem_append_right _ (List.mem_append_left _ (hmem z hz))
      by_contra hya
      have hza := htrans z hz' y (List.mem_append_left _ hy) a (by simp) hsame (by simpa using hya)
      rw [hx z hz] at hza
      cases hza

-- Adding items appends those that are added of them.
theorem addAll_added (hrefl : ∀ x, same x x = true) (result items : List α) :
    ∃ fresh, addAll same result items = result ++ fresh ∧ Added same result items fresh := by
  induction items using List.reverseRecOn with
  | nil =>
      refine ⟨[], (List.append_nil _).symm, .slnil, .nil, ?_, ?_, .nil, ?_⟩
      · exact fun _ _ _ hb => nomatch hb
      · exact fun _ hx => nomatch hx
      · exact fun _ _ hx => nomatch hx
  | append_singleton items x ih =>
      obtain ⟨fresh, hfresh, hadded⟩ := ih
      rw [addAll_snoc, hfresh, add]
      split_ifs with hfound
      · obtain ⟨y, hy, hsame⟩ := List.any_eq_true.mp hfound
        exact ⟨fresh, rfl, hadded.skip ⟨y, hy, hsame⟩⟩
      · refine ⟨fresh ++ [x], List.append_assoc .., hadded.append hrefl fun y hy => ?_⟩
        simp only [List.any_eq_true, not_exists, not_and] at hfound
        simpa using hfound y hy

-- Adding the same items again adds none.
theorem addAll_addAll (hrefl : ∀ x, same x x = true) (result items : List α) :
    addAll same (addAll same result items) items = addAll same result items := by
  obtain ⟨fresh, hfresh, hadded⟩ := addAll_added hrefl result items
  rw [hfresh]
  exact addAll_of_found hadded.covers

end Added

end Python.OrderedSet
