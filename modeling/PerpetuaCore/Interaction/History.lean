import PerpetuaCore.Interaction.Interleave

namespace Interaction

variable {S : Signature} {E ε τ : Type} {P Q : List E → E → Prop} {h u : List E}

-- `P` holds of every event of a history, together with what came before it.
def Always (P : List E → E → Prop) (h : List E) : Prop :=
  ∀ pre e post, h = pre ++ e :: post → P pre e

theorem always_nil : Always P [] := by
  intro pre e post he
  simp at he

theorem always_cons {e : E} :
    Always P (e :: u) ↔ P [] e ∧ Always (fun pre => P (e :: pre)) u := by
  constructor
  · intro h
    exact ⟨h [] e u rfl, fun pre e' post he => h (e :: pre) e' post (by rw [he, List.cons_append])⟩
  · rintro ⟨hhead, htail⟩ pre e' post he
    cases pre with
    | nil =>
        obtain ⟨rfl, rfl⟩ := List.cons.inj he
        exact hhead
    | cons x pre =>
        obtain ⟨rfl, rfl⟩ := List.cons.inj he
        exact htail pre e' post rfl

theorem always_append : Always P (h ++ u) ↔ Always P h ∧ Always (fun pre => P (h ++ pre)) u := by
  induction h generalizing P with
  | nil => simp [always_nil]
  | cons e h ih => simp only [List.cons_append, always_cons, ih, and_assoc]

theorem always_snoc {e : E} : Always P (h ++ [e]) ↔ Always P h ∧ P h e := by
  rw [always_append, always_cons, List.append_nil]
  exact ⟨fun hp => ⟨hp.1, hp.2.1⟩, fun hp => ⟨hp.1, hp.2, always_nil⟩⟩

theorem Always.mono (hp : Always P h) (hq : ∀ pre, ∀ e ∈ h, P pre e → Q pre e) : Always Q h := by
  intro pre e post he
  exact hq pre e (by simp [he]) (hp pre e post he)

-- An event of a history in two parts stands in one of them.
theorem split_append {past post : List E} {e : E} (he : h ++ u = past ++ e :: post) :
    (∃ mid, h = past ++ e :: mid ∧ post = mid ++ u) ∨
    (∃ mid, past = h ++ mid ∧ u = mid ++ e :: post) := by
  rcases List.append_eq_append_iff.mp he with ⟨mid, rfl, rfl⟩ | ⟨mid, rfl, hmid⟩
  · exact .inr ⟨mid, rfl, rfl⟩
  · cases mid with
    | nil => exact .inr ⟨[], by simp, by simpa using hmid.symm⟩
    | cons x mid =>
        obtain ⟨rfl, rfl⟩ := List.cons.inj hmid
        exact .inl ⟨mid, rfl, rfl⟩

theorem split_after {past post : List E} {e : E} (he : h ++ u = past ++ e :: post) (hn : e ∉ h) :
    ∃ mid, past = h ++ mid ∧ u = mid ++ e :: post := by
  rcases split_append he with ⟨mid, rfl, -⟩ | hafter
  · simp at hn
  · exact hafter

-- The only event of a history that satisfies `p`.
theorem split_unique {p : E → Prop} {past post : List E} {e e' : E}
    (he : h ++ e :: u = past ++ e' :: post) (hh : ∀ x ∈ h, ¬p x) (hu : ∀ x ∈ u, ¬p x) (hp : p e') :
    past = h ∧ e' = e ∧ post = u := by
  rcases split_append he with ⟨mid, rfl, -⟩ | ⟨mid, rfl, hmid⟩
  · exact absurd hp (hh e' (by simp))
  · cases mid with
    | nil =>
        obtain ⟨rfl, rfl⟩ := List.cons.inj hmid
        exact ⟨List.append_nil h, rfl, rfl⟩
    | cons first mid =>
        obtain ⟨-, rfl⟩ := List.cons.inj hmid
        exact absurd hp (hu e' (by simp))

-- A property of the past that more events cannot spoil is kept by interleaving.
theorem Interleaved.always {sem : Semantics S E} {ps : List (Prog S ε τ)}
    {os : List (Except ε τ)} (h : Interleaved sem ps u os)
    (hmono : ∀ s pre e, s.Sublist pre → P s e → P pre e)
    (hown : ∀ p ∈ ps, ∀ s o, Exec sem p s o → Always P s) : Always P u := by
  rintro pre e post rfl
  obtain ⟨p, hp, s₁, s₂, o, hs, hsub⟩ := h.split
  exact hmono s₁ pre e hsub (hown p hp _ o hs s₁ e s₂ rfl)

end Interaction
