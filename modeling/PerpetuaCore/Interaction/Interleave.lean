import PerpetuaCore.Interaction.Exec
import Mathlib.Data.List.Forall2
import Mathlib.Data.List.Perm.Basic

namespace Interaction

variable {S : Signature} {E ε τ : Type}

-- `Shuffle s t u`: `u` interleaves `s` and `t`, keeping the order of each.
inductive Shuffle : List E → List E → List E → Prop
  | nil : Shuffle [] [] []
  | left {e : E} {s t u : List E} (h : Shuffle s t u) : Shuffle (e :: s) t (e :: u)
  | right {e : E} {s t u : List E} (h : Shuffle s t u) : Shuffle s (e :: t) (e :: u)

namespace Shuffle

variable {s t u : List E}

theorem sublist_left (h : Shuffle s t u) : s.Sublist u := by
  induction h with
  | nil => exact .slnil
  | left _ ih => exact ih.cons_cons _
  | right _ ih => exact ih.cons _

theorem sublist_right (h : Shuffle s t u) : t.Sublist u := by
  induction h with
  | nil => exact .slnil
  | left _ ih => exact ih.cons _
  | right _ ih => exact ih.cons_cons _

theorem perm (h : Shuffle s t u) : u.Perm (s ++ t) := by
  induction h with
  | nil => exact .nil
  | left _ ih => exact ih.cons _
  | @right e s t u _ ih => exact (ih.cons e).trans List.perm_middle.symm

theorem append (s t : List E) : Shuffle s t (s ++ t) := by
  induction s with
  | nil =>
      induction t with
      | nil => exact .nil
      | cons e t ih => exact .right ih
  | cons e s ih => exact .left ih

-- Around one event of `u`, what comes before it and after it in its own list.
theorem split {e : E} {pre post : List E} (h : Shuffle s t (pre ++ e :: post)) :
    (∃ s₁ s₂, s = s₁ ++ e :: s₂ ∧ s₁.Sublist pre ∧ s₂.Sublist post) ∨
    (∃ t₁ t₂, t = t₁ ++ e :: t₂ ∧ t₁.Sublist pre ∧ t₂.Sublist post) := by
  induction pre generalizing s t with
  | nil =>
      cases h with
      | left h => exact .inl ⟨[], _, rfl, .slnil, h.sublist_left⟩
      | right h => exact .inr ⟨[], _, rfl, .slnil, h.sublist_right⟩
  | cons x pre ih =>
      cases h with
      | left h =>
          rcases ih h with ⟨s₁, s₂, rfl, hpre, hpost⟩ | ⟨t₁, t₂, rfl, hpre, hpost⟩
          · exact .inl ⟨x :: s₁, s₂, rfl, hpre.cons_cons x, hpost⟩
          · exact .inr ⟨t₁, t₂, rfl, hpre.cons x, hpost⟩
      | right h =>
          rcases ih h with ⟨s₁, s₂, rfl, hpre, hpost⟩ | ⟨t₁, t₂, rfl, hpre, hpost⟩
          · exact .inl ⟨s₁, s₂, rfl, hpre.cons x, hpost⟩
          · exact .inr ⟨x :: t₁, t₂, rfl, hpre.cons_cons x, hpost⟩

theorem pairwise {R : E → E → Prop} (h : Shuffle s t u) (hs : s.Pairwise R) (ht : t.Pairwise R)
    (hst : ∀ a ∈ s, ∀ b ∈ t, R a b ∧ R b a) : u.Pairwise R := by
  induction h with
  | nil => exact .nil
  | @left e s t u h ih =>
      obtain ⟨he, hs⟩ := List.pairwise_cons.mp hs
      refine .cons (fun b hb => ?_) (ih hs ht fun a ha => hst a (List.mem_cons_of_mem e ha))
      rcases List.mem_append.mp (h.perm.mem_iff.mp hb) with hb | hb
      · exact he b hb
      · exact (hst e List.mem_cons_self b hb).1
  | @right e s t u h ih =>
      obtain ⟨he, ht⟩ := List.pairwise_cons.mp ht
      refine .cons (fun b hb => ?_)
        (ih hs ht fun a ha b hb => hst a ha b (List.mem_cons_of_mem e hb))
      rcases List.mem_append.mp (h.perm.mem_iff.mp hb) with hb | hb
      · exact (hst b hb e List.mem_cons_self).2
      · exact he b hb

end Shuffle

-- Every task runs to its own end; their events are interleaved in any order that
-- keeps each task's own, and the outcomes stand in the order of the tasks.
inductive Interleaved (sem : Semantics S E) :
    List (Prog S ε τ) → List E → List (Except ε τ) → Prop
  | nil : Interleaved sem [] [] []
  | cons {p : Prog S ε τ} {ps : List (Prog S ε τ)} {s t u : List E} {o : Except ε τ}
      {os : List (Except ε τ)} (hp : Exec sem p s o) (hps : Interleaved sem ps t os)
      (hu : Shuffle s t u) : Interleaved sem (p :: ps) u (o :: os)

namespace Interleaved

variable {sem : Semantics S E} {ps : List (Prog S ε τ)} {u : List E} {os : List (Except ε τ)}

-- The run of each task, and what the interleaving keeps of it.
theorem runs (h : Interleaved sem ps u os) :
    ∃ rs : List (List E × Except ε τ),
      List.Forall₂ (fun p r => Exec sem p r.1 r.2) ps rs ∧ os = rs.map Prod.snd ∧
      (∀ r ∈ rs, r.1.Sublist u) ∧ u.Perm (rs.map Prod.fst).flatten := by
  induction h with
  | nil => exact ⟨[], .nil, rfl, by simp, .nil⟩
  | @cons p ps s t u o os hp hps hu ih =>
      obtain ⟨rs, hrs, rfl, hsub, hperm⟩ := ih
      refine ⟨(s, o) :: rs, .cons hp hrs, rfl, ?_, ?_⟩
      · intro r hr
        rcases List.mem_cons.mp hr with rfl | hr
        · exact hu.sublist_left
        · exact (hsub r hr).trans hu.sublist_right
      · simpa using hu.perm.trans (hperm.append_left s)

-- Each event of the interleaving belongs to the run of one of the tasks.
theorem exists_of_mem (h : Interleaved sem ps u os) {e : E} (he : e ∈ u) :
    ∃ p ∈ ps, ∃ s, ∃ o ∈ os, Exec sem p s o ∧ e ∈ s := by
  induction h with
  | nil => cases he
  | cons hp _ hu ih =>
      rcases List.mem_append.mp (hu.perm.mem_iff.mp he) with hs | ht
      · exact ⟨_, List.mem_cons_self, _, _, List.mem_cons_self, hp, hs⟩
      · obtain ⟨q, hq, s, o, ho, hqs, hes⟩ := ih ht
        exact ⟨q, List.mem_cons_of_mem _ hq, s, o, List.mem_cons_of_mem _ ho, hqs, hes⟩

-- One event of the interleaving, and what the run it belongs to did before it.
theorem split {e : E} {pre post : List E} (h : Interleaved sem ps (pre ++ e :: post) os) :
    ∃ p ∈ ps, ∃ s₁ s₂ o, Exec sem p (s₁ ++ e :: s₂) o ∧ s₁.Sublist pre := by
  generalize hu : pre ++ e :: post = u at h
  induction h generalizing pre post with
  | nil => simp at hu
  | cons hp _ hshuffle ih =>
      subst hu
      rcases hshuffle.split with ⟨s₁, s₂, rfl, hpre, -⟩ | ⟨t₁, t₂, rfl, hpre, -⟩
      · exact ⟨_, List.mem_cons_self, s₁, s₂, _, hp, hpre⟩
      · obtain ⟨q, hq, s₁, s₂, o, hs, hsub⟩ := ih rfl
        exact ⟨q, List.mem_cons_of_mem _ hq, s₁, s₂, o, hs, hsub.trans hpre⟩

-- A relation between earlier and later events that each run keeps, and that holds
-- both ways between the events of different tasks, is kept by every interleaving.
theorem pairwise {R : E → E → Prop} (h : Interleaved sem ps u os)
    (hown : ∀ p ∈ ps, ∀ s o, Exec sem p s o → s.Pairwise R)
    (hcross : ps.Pairwise fun p q => ∀ s t o o', Exec sem p s o → Exec sem q t o' →
      ∀ a ∈ s, ∀ b ∈ t, R a b ∧ R b a) : u.Pairwise R := by
  induction h with
  | nil => exact .nil
  | @cons p ps s t u o os hp hps hu ih =>
      obtain ⟨hfirst, hrest⟩ := List.pairwise_cons.mp hcross
      refine hu.pairwise (hown p List.mem_cons_self s o hp)
        (ih (fun q hq => hown q (List.mem_cons_of_mem p hq)) hrest) fun a ha b hb => ?_
      obtain ⟨q, hq, s', o', -, hs', hb⟩ := hps.exists_of_mem hb
      exact hfirst q hq s s' o o' hp hs' a ha b hb

-- Each outcome is that of one of the tasks, whose run is part of the interleaving.
theorem exists_of_outcome (h : Interleaved sem ps u os) {o : Except ε τ} (ho : o ∈ os) :
    ∃ p ∈ ps, ∃ s, Exec sem p s o ∧ s.Sublist u := by
  induction h with
  | nil => cases ho
  | cons hp _ hu ih =>
      rcases List.mem_cons.mp ho with rfl | ho
      · exact ⟨_, List.mem_cons_self, _, hp, hu.sublist_left⟩
      · obtain ⟨q, hq, s, hs, hsub⟩ := ih ho
        exact ⟨q, List.mem_cons_of_mem _ hq, s, hs, hsub.trans hu.sublist_right⟩

-- Counting over the batch adds up what each task's own run counts.
theorem countP_eq {c : E → Bool} {q : τ → Bool} (h : Interleaved sem ps u os)
    (hp : ∀ p ∈ ps, ∀ s value, Exec sem p s (.ok value) → s.countP c = if q value then 1 else 0)
    {values : List τ} (hos : os = values.map .ok) : u.countP c = values.countP q := by
  induction h generalizing values with
  | nil =>
      obtain rfl := List.map_eq_nil_iff.mp hos.symm
      rfl
  | cons hs _ hu ih =>
      cases values with
      | nil => cases hos
      | cons value rest =>
          obtain ⟨ho, hrest⟩ := List.cons.inj hos
          subst ho
          rw [hu.perm.countP_eq, List.countP_append, List.countP_cons,
            hp _ List.mem_cons_self _ value hs,
            ih (fun p hm => hp p (List.mem_cons_of_mem _ hm)) hrest, Nat.add_comm]

-- What is collected over the batch is, up to order, what each task's own run collects.
theorem filterMap_perm {β : Type} {f : E → Option β} {q : τ → Option β} (h : Interleaved sem ps u os)
    (hp : ∀ p ∈ ps, ∀ s value, Exec sem p s (.ok value) → s.filterMap f = (q value).toList)
    {values : List τ} (hos : os = values.map .ok) : (u.filterMap f).Perm (values.filterMap q) := by
  induction h generalizing values with
  | nil =>
      obtain rfl := List.map_eq_nil_iff.mp hos.symm
      exact .nil
  | cons hs _ hu ih =>
      cases values with
      | nil => cases hos
      | cons value rest =>
          obtain ⟨ho, hrest⟩ := List.cons.inj hos
          subst ho
          have htail := ih (fun p hm => hp p (List.mem_cons_of_mem _ hm)) hrest
          have hhead := hp _ List.mem_cons_self _ value hs
          refine (hu.perm.filterMap f).trans ?_
          rw [List.filterMap_append, hhead]
          cases hq : q value with
          | none => rwa [List.filterMap_cons_none hq]
          | some found => exact (List.filterMap_cons_some hq).symm ▸ htail.cons found

end Interleaved

end Interaction
