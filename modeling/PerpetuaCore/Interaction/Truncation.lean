import PerpetuaCore.Interaction.Exec

namespace Interaction

variable {S : Signature} {E ε α β : Type}

-- `Truncates C p q`: `p` is `q` with some of what it may still do replaced by raising an
-- exception of `C`.
inductive Truncates (C : ε → Prop) : Prog S ε α → Prog S ε α → Prop
  | ret (value : α) : Truncates C (.ret value) (.ret value)
  | raise (error : ε) : Truncates C (.raise error) (.raise error)
  | ask (op : S.Op) {next next' : S.Ans op → Prog S ε α}
      (h : ∀ answer, Truncates C (next answer) (next' answer)) :
      Truncates C (.ask op next) (.ask op next')
  | cut {error : ε} (h : C error) (q : Prog S ε α) : Truncates C (.raise error) q

namespace Truncates

variable {C : ε → Prop} {sem : Semantics S E}

@[refl] theorem refl (p : Prog S ε α) : Truncates C p p := by
  induction p with
  | ret value => exact .ret value
  | raise error => exact .raise error
  | ask op next ih => exact .ask op ih

theorem bind {p q : Prog S ε α} {f f' : α → Prog S ε β} (h : Truncates C p q)
    (hf : ∀ value, Truncates C (f value) (f' value)) : Truncates C (p.bind f) (q.bind f') := by
  induction h with
  | ret value => exact hf value
  | raise error => exact .raise error
  | ask op _ ih => exact .ask op ih
  | cut h q => exact .cut h _

-- The two differ only in how they go on from what `p` returns.
theorem after (p : Prog S ε α) {f f' : α → Prog S ε β}
    (hf : ∀ value, Truncates C (f value) (f' value)) : Truncates C (p.bind f) (p.bind f') :=
  bind (refl p) hf

-- A run of the truncated program is one of the whole program, or is cut off on its way.
theorem extends_to {p q : Prog S ε α} (h : Truncates C p q)
    (htotal : ∀ op, ∃ s answer, sem op s answer) {t : List E} {o : Except ε α}
    (he : Exec sem p t o) :
    Exec sem q t o ∨ ∃ error, C error ∧ o = .error error ∧ ∃ u o', Exec sem q (t ++ u) o' := by
  induction h generalizing t with
  | ret | raise => exact .inl he
  | ask op _ ih =>
      cases he with
      | ask hop hnext =>
          rcases ih _ hnext with hq | ⟨error, hc, ho, u, o', hq⟩
          · exact .inl (.ask hop hq)
          · refine .inr ⟨error, hc, ho, u, o', ?_⟩
            rw [List.append_assoc]
            exact .ask hop hq
  | @cut error hc q =>
      obtain ⟨rfl, rfl⟩ := exec_raise he
      have hruns : ∃ u o', Exec sem q u o' := by
        clear he
        induction q with
        | ret value => exact ⟨[], _, .ret value⟩
        | raise error => exact ⟨[], _, .raise error⟩
        | ask op next ih =>
            obtain ⟨s, answer, hop⟩ := htotal op
            obtain ⟨u, o', hq⟩ := ih answer
            exact ⟨s ++ u, o', .ask hop hq⟩
      obtain ⟨u, o', hq⟩ := hruns
      exact .inr ⟨error, hc, rfl, u, o', hq⟩

-- A run of the whole program is one of the truncated program, or goes on past the end of one.
theorem restricts_to {p q : Prog S ε α} (h : Truncates C p q) {t : List E} {o : Except ε α}
    (he : Exec sem q t o) :
    Exec sem p t o ∨ ∃ s u error, t = s ++ u ∧ C error ∧ Exec sem p s (.error error) := by
  induction h generalizing t with
  | ret | raise => exact .inl he
  | ask op _ ih =>
      cases he with
      | @ask _ _ s _ _ _ hop hnext =>
          rcases ih _ hnext with hp | ⟨s', u, error, rfl, hc, hp⟩
          · exact .inl (.ask hop hp)
          · exact .inr ⟨s ++ s', u, error, (List.append_assoc ..).symm, hc, .ask hop hp⟩
  | @cut error hc q => exact .inr ⟨[], t, error, rfl, hc, .raise error⟩

end Truncates

end Interaction
