import Mathlib.Data.Finset.Card
import Mathlib.Data.Finset.SDiff
import Mathlib.Logic.Relation

namespace Python

-- The worklist search: vertices that were seen and are still to be expanded wait in a frontier.
structure Worklist (α : Type) where
  frontier : List α
  seen : List α

namespace Worklist

variable {α : Type} [DecidableEq α]

def push (work : Worklist α) (target : α) : Worklist α :=
  if target ∈ work.seen then work else ⟨target :: work.frontier, target :: work.seen⟩

-- One round of the loop, where a vertex waits.
def advance (successors : α → List α) (work : Worklist α) : Worklist α :=
  match work.frontier with
  | [] => work
  | current :: rest => (successors current).foldl push ⟨rest, work.seen⟩

-- Pops a vertex and pushes its successors, until no vertex waits.
def explore (successors : α → List α) : Nat → Worklist α → List α
  | 0, work => work.seen
  | fuel + 1, work =>
      match work.frontier with
      | [] => work.seen
      | current :: rest => explore successors fuel ((successors current).foldl push ⟨rest, work.seen⟩)

-- What is reached from `start`; every successor is one of `vertices`.
def search (successors : α → List α) (vertices : List α) (start : α) : List α :=
  explore successors (vertices.length + 1) ⟨[start], [start]⟩

variable {successors : α → List α} {vertices : List α} {start : α}

-- How often a vertex can still be popped: those that wait, and those not seen yet.
def todo (vertices : List α) (work : Worklist α) : Nat :=
  work.frontier.length + (vertices.toFinset \ work.seen.toFinset).card

section Push

variable {work : Worklist α} {target x : α} {targets : List α}

theorem mem_push_seen : x ∈ (work.push target).seen ↔ x = target ∨ x ∈ work.seen := by
  unfold push
  split_ifs with h
  · exact ⟨.inr, fun hx => hx.elim (fun he => he ▸ h) id⟩
  · exact List.mem_cons

theorem push_keeps (h : x ∈ work.frontier) : x ∈ (work.push target).frontier := by
  unfold push
  split_ifs
  · exact h
  · exact List.mem_cons_of_mem _ h

theorem push_waits (hseen : x ∈ (work.push target).seen) :
    x ∈ work.seen ∨ x ∈ (work.push target).frontier := by
  unfold push at hseen ⊢
  split_ifs at hseen ⊢
  · exact .inl hseen
  · rcases List.mem_cons.mp hseen with rfl | hx
    · exact .inr List.mem_cons_self
    · exact .inl hx

theorem push_seen_of_waiting (h : ∀ x ∈ work.frontier, x ∈ work.seen) :
    ∀ x ∈ (work.push target).frontier, x ∈ (work.push target).seen := by
  unfold push
  split_ifs
  · exact h
  · intro x hx
    rcases List.mem_cons.mp hx with rfl | hx
    · exact List.mem_cons_self
    · exact List.mem_cons_of_mem _ (h x hx)

-- A vertex that is pushed leaves those not seen yet.
theorem push_todo (ht : target ∈ vertices) : todo vertices (work.push target) = todo vertices work := by
  unfold push
  split_ifs with h
  · rfl
  · have hmem : target ∈ vertices.toFinset \ work.seen.toFinset := by simp [ht, h]
    have herase : vertices.toFinset \ (target :: work.seen).toFinset =
        (vertices.toFinset \ work.seen.toFinset).erase target := by
      rw [List.toFinset_cons, Finset.sdiff_insert]
    have hcard := Finset.card_erase_add_one hmem
    simp only [todo, herase, List.length_cons]
    omega

theorem mem_pushAll_seen : x ∈ (targets.foldl push work).seen ↔ x ∈ targets ∨ x ∈ work.seen := by
  induction targets generalizing work with
  | nil => simp
  | cons target rest ih =>
      rw [List.foldl_cons, ih, mem_push_seen, List.mem_cons]
      tauto

theorem pushAll_keeps (h : x ∈ work.frontier) : x ∈ (targets.foldl push work).frontier := by
  induction targets generalizing work with
  | nil => exact h
  | cons target rest ih => exact ih (push_keeps h)

theorem pushAll_waits (hseen : x ∈ (targets.foldl push work).seen) :
    x ∈ work.seen ∨ x ∈ (targets.foldl push work).frontier := by
  induction targets generalizing work with
  | nil => exact .inl hseen
  | cons target rest ih =>
      rw [List.foldl_cons] at hseen ⊢
      rcases ih hseen with hpushed | hwaits
      · exact (push_waits hpushed).imp_right pushAll_keeps
      · exact .inr hwaits

theorem pushAll_seen_of_waiting (h : ∀ x ∈ work.frontier, x ∈ work.seen) :
    ∀ x ∈ (targets.foldl push work).frontier, x ∈ (targets.foldl push work).seen := by
  induction targets generalizing work with
  | nil => exact h
  | cons target rest ih => exact ih (push_seen_of_waiting h)

theorem pushAll_todo (ht : ∀ target ∈ targets, target ∈ vertices) :
    todo vertices (targets.foldl push work) = todo vertices work := by
  induction targets generalizing work with
  | nil => rfl
  | cons target rest ih =>
      obtain ⟨htarget, hrest⟩ := List.forall_mem_cons.mp ht
      rw [List.foldl_cons, ih hrest, push_todo htarget]

end Push

abbrev Reaches (successors : α → List α) : α → α → Prop :=
  Relation.ReflTransGen fun x y => y ∈ successors x

-- Everything seen is reached, and was expanded unless it waits.
structure Expanding (successors : α → List α) (start : α) (work : Worklist α) : Prop where
  rooted : start ∈ work.seen
  waiting : ∀ x ∈ work.frontier, x ∈ work.seen
  expanded : ∀ x ∈ work.seen, x ∉ work.frontier → ∀ y ∈ successors x, y ∈ work.seen
  reached : ∀ x ∈ work.seen, Reaches successors start x

theorem Expanding.step {current : α} {rest seen : List α}
    (h : Expanding successors start ⟨current :: rest, seen⟩) :
    Expanding successors start ((successors current).foldl push ⟨rest, seen⟩) := by
  have hcurrent := h.waiting current List.mem_cons_self
  constructor
  · exact mem_pushAll_seen.mpr (.inr h.rooted)
  · exact pushAll_seen_of_waiting fun x hx => h.waiting x (List.mem_cons_of_mem _ hx)
  · intro x hx hwaits y hy
    rw [mem_pushAll_seen]
    have hseen : x ∈ seen := (pushAll_waits hx).resolve_right hwaits
    by_cases he : x = current
    · exact .inl (he ▸ hy)
    · refine .inr (h.expanded x hseen (fun hmem => hwaits (pushAll_keeps ?_)) y hy)
      exact (List.mem_cons.mp hmem).resolve_left he
  · intro x hx
    rcases mem_pushAll_seen.mp hx with hx | hx
    · exact (h.reached current hcurrent).tail hx
    · exact h.reached x hx

theorem Expanding.advance {work : Worklist α} (h : Expanding successors start work) :
    Expanding successors start (work.advance successors) := by
  obtain ⟨frontier, seen⟩ := work
  cases frontier with
  | nil => exact h
  | cons current rest => exact h.step

theorem Expanding.iterate {work : Worklist α} {rounds : Nat} (h : Expanding successors start work) :
    Expanding successors start ((Worklist.advance successors)^[rounds] work) := by
  induction rounds with
  | zero => exact h
  | succ rounds ih =>
      rw [Function.iterate_succ_apply']
      exact ih.advance

omit [DecidableEq α] in
-- Where nothing waits, everything that is reached has been seen.
theorem Expanding.mem_seen_iff {work : Worklist α} {x : α} (h : Expanding successors start work)
    (hnone : work.frontier = []) : x ∈ work.seen ↔ Reaches successors start x := by
  refine ⟨h.reached x, fun hx => ?_⟩
  induction hx with
  | refl => exact h.rooted
  | tail _ hy ih => exact h.expanded _ ih (by simp [hnone]) _ hy

omit [DecidableEq α] in
theorem expanding_start : Expanding successors start ⟨[start], [start]⟩ := by
  refine ⟨List.mem_cons_self, fun _ hx => hx, fun x hx hwaits => absurd hx hwaits, fun x hx => ?_⟩
  obtain rfl := List.mem_singleton.mp hx
  exact .refl

-- After as many rounds as there is something to do, nothing waits.
theorem advance_ends {work : Worklist α} {rounds : Nat}
    (hv : ∀ x, ∀ y ∈ successors x, y ∈ vertices) (hrounds : todo vertices work ≤ rounds) :
    ((advance successors)^[rounds] work).frontier = [] := by
  induction rounds generalizing work with
  | zero =>
      refine List.eq_nil_of_length_eq_zero ?_
      unfold todo at hrounds
      simp only [Function.iterate_zero, id_eq]
      omega
  | succ rounds ih =>
      obtain ⟨frontier, seen⟩ := work
      cases frontier with
      | nil =>
          have hfixed : advance successors ⟨[], seen⟩ = ⟨[], seen⟩ := rfl
          rw [Function.iterate_fixed hfixed]
      | cons current rest =>
          rw [Function.iterate_succ_apply]
          refine ih ?_
          have htodo : todo vertices ((successors current).foldl push ⟨rest, seen⟩) =
              todo vertices ⟨rest, seen⟩ := pushAll_todo (hv current)
          simp only [advance, htodo]
          simp only [todo, List.length_cons] at hrounds ⊢
          omega

theorem explore_eq {fuel : Nat} {work : Worklist α} :
    explore successors fuel work = ((advance successors)^[fuel] work).seen := by
  induction fuel generalizing work with
  | zero => rfl
  | succ fuel ih =>
      rw [Function.iterate_succ_apply, ← ih]
      obtain ⟨frontier, seen⟩ := work
      cases frontier with
      | nil =>
          cases fuel <;> rfl
      | cons current rest => rfl

theorem todo_start (start : α) : todo vertices ⟨[start], [start]⟩ ≤ vertices.length + 1 := by
  have hsub := Finset.card_le_card (Finset.sdiff_subset (s := vertices.toFinset) (t := [start].toFinset))
  have hlen := vertices.toFinset_card_le
  simp only [todo, List.length_singleton]
  omega

-- The search ends with exactly what its start reaches.
theorem mem_search_iff (hv : ∀ x, ∀ y ∈ successors x, y ∈ vertices) {x : α} :
    x ∈ search successors vertices start ↔ Reaches successors start x := by
  rw [search, explore_eq]
  exact expanding_start.iterate.mem_seen_iff (advance_ends hv (todo_start _))

end Worklist

end Python
