import PerpetuaCore.Interaction.Exec

namespace Interaction

variable {S : Signature} {E ε α σ : Type}

-- At most `n` attempts, numbered from `k`. An attempt ends the loop with a result, or hands a
-- state on to the next.
def Prog.retry (attempt : Nat → σ → Prog S ε (α ⊕ σ)) : Nat → Nat → σ → Prog S ε (α ⊕ σ)
  | 0, _, state => .ret (.inr state)
  | n + 1, k, state => (attempt k state).bind fun
      | .inl result => .ret (.inl result)
      | .inr next => retry attempt n (k + 1) next

-- The runs of attempts that all handed on, from the `k`-th.
inductive HandedOn (sem : Semantics S E) (attempt : Nat → σ → Prog S ε (α ⊕ σ)) :
    Nat → σ → List (List E) → σ → Prop
  | nil (k : Nat) (state : σ) : HandedOn sem attempt k state [] state
  | cons {k : Nat} {state next last : σ} {t : List E} {ts : List (List E)}
      (hattempt : Exec sem (attempt k state) t (.ok (.inr next)))
      (hrest : HandedOn sem attempt (k + 1) next ts last) : HandedOn sem attempt k state (t :: ts) last

variable {sem : Semantics S E} {attempt : Nat → σ → Prog S ε (α ⊕ σ)} {n k : Nat} {state last : σ}
  {t : List E} {ts : List (List E)} {o : Except ε (α ⊕ σ)}

-- A loop runs out of attempts, or ends with the first that does not hand on.
theorem exec_retry (h : Exec sem (Prog.retry attempt n k state) t o) :
    ∃ ts last, HandedOn sem attempt k state ts last ∧
      (ts.length = n ∧ t = ts.flatten ∧ o = .ok (.inr last) ∨
        ts.length < n ∧ ∃ u, t = ts.flatten ++ u ∧ Exec sem (attempt (k + ts.length) last) u o ∧
          ∀ next, o ≠ .ok (.inr next)) := by
  induction n generalizing k state t with
  | zero =>
      obtain ⟨rfl, rfl⟩ := exec_ret h
      exact ⟨[], state, .nil k state, .inl ⟨rfl, rfl, rfl⟩⟩
  | succ n ih =>
      rcases exec_bind h with ⟨s, u, result, rfl, hattempt, hnext⟩ | ⟨error, hattempt, rfl⟩
      · cases result with
        | inl result =>
            obtain ⟨rfl, rfl⟩ := exec_ret hnext
            refine ⟨[], state, .nil k state, .inr ⟨n.succ_pos, s, by simp, hattempt, nofun⟩⟩
        | inr next =>
            obtain ⟨ts, last, hts, hend⟩ := ih hnext
            refine ⟨s :: ts, last, .cons hattempt hts, ?_⟩
            rcases hend with ⟨hlen, rfl, ho⟩ | ⟨hlen, u, rfl, hlast, ho⟩
            · exact .inl ⟨congrArg (· + 1) hlen, rfl, ho⟩
            · refine .inr ⟨Nat.succ_lt_succ hlen, u, (List.append_assoc ..).symm, ?_, ho⟩
              rw [List.length_cons, Nat.add_comm ts.length, ← Nat.add_assoc]
              exact hlast
      · exact ⟨[], state, .nil k state, .inr ⟨n.succ_pos, t, rfl, hattempt, nofun⟩⟩

-- What holds after every attempt that hands on holds after all of them.
theorem HandedOn.invariant {I : Nat → σ → List E → Prop} {h : List E}
    (hts : HandedOn sem attempt k state ts last) (hinit : I k state h)
    (hstep : ∀ k state h t next, I k state h → Exec sem (attempt k state) t (.ok (.inr next)) →
      I (k + 1) next (h ++ t)) : I (k + ts.length) last (h ++ ts.flatten) := by
  induction hts generalizing h with
  | nil => simpa using hinit
  | @cons k state next last t ts hattempt _ ih =>
      have hrest := ih (hstep k state h t next hinit hattempt)
      rwa [Nat.add_assoc, Nat.add_comm 1, List.append_assoc] at hrest

end Interaction
