import PerpetuaCore.Interaction.Generator

namespace Interaction

variable {S : Signature} {E O ε τ α β : Type}

-- Which answers to an operation may be taken for each other.
abbrev Likeness (S : Signature) := (op : S.Op) → S.Ans op → S.Ans op → Prop

namespace Prog

-- The program issues operations of `P` only, and goes on the same from answers that are alike.
def Indifferent (P : S.Op → Prop) (R : Likeness S) : Prog S ε α → Prop
  | ret _ => True
  | raise _ => True
  | ask op next => P op ∧ (∀ answer answer', R op answer answer' → next answer = next answer') ∧
      ∀ answer, (next answer).Indifferent P R

namespace Indifferent

variable {P : S.Op → Prop} {R : Likeness S}

theorem bind {p : Prog S ε α} {f : α → Prog S ε β} (hp : p.Indifferent P R)
    (hf : ∀ value, (f value).Indifferent P R) : (p.bind f).Indifferent P R := by
  induction p with
  | ret value => exact hf value
  | raise => trivial
  | ask op next ih =>
      obtain ⟨hop, hsame, hnext⟩ := hp
      refine ⟨hop, fun answer answer' hr => ?_, fun answer => ih answer (hnext answer)⟩
      exact congrArg (·.bind f) (hsame answer answer' hr)

-- An operation whose answer is made nothing of but what is alike.
theorem call_bind {op : S.Op} {f : S.Ans op → Prog S ε β} (hop : P op)
    (hsame : ∀ answer answer', R op answer answer' → f answer = f answer')
    (hf : ∀ answer, (f answer).Indifferent P R) : ((call op).bind f).Indifferent P R :=
  ⟨hop, hsame, hf⟩

theorem ofExcept (x : Except ε α) : (ofExcept x : Prog S ε α).Indifferent P R := by
  cases x <;> trivial

theorem forM {f : β → Prog S ε PUnit} {xs : List β} (h : ∀ x, (f x).Indifferent P R) :
    (xs.forM f).Indifferent P R := by
  induction xs with
  | nil => trivial
  | cons x rest ih => exact .bind (h x) fun _ => ih

-- Where only an answer itself is like it, there is nothing to be indifferent to.
theorem of_asks {Q : S.Op → Prop} {p : Prog S ε α} (hp : p.Asks Q)
    (hq : ∀ op, Q op → P op ∧ ∀ answer answer', R op answer answer' → answer = answer') :
    p.Indifferent P R := by
  induction p with
  | ret => trivial
  | raise => trivial
  | ask op next ih =>
      obtain ⟨hop, hsame⟩ := hq op hp.1
      refine ⟨hop, fun answer answer' hr => ?_, fun answer => ih answer (hp.2 answer)⟩
      exact congrArg next (hsame answer answer' hr)

end Indifferent

end Prog

-- The same event, up to an answer that is alike.
def Entry.Like (R : Likeness S) : Entry S O → Entry S O → Prop
  | .act op answer, entry => ∃ answer', R op answer answer' ∧ entry = .act op answer'
  | .emit value, entry => entry = .emit value

theorem observations_like {R : Likeness S} {t t' : Trace S O}
    (h : List.Forall₂ (Entry.Like R) t t') : observations t' = observations t := by
  induction h with
  | nil => rfl
  | @cons e e' t t' he _ ih =>
      cases e with
      | emit value =>
          obtain rfl := he
          exact congrArg (value :: ·) ih
      | act op answer =>
          obtain ⟨answer', -, rfl⟩ := he
          exact ih

theorem exec_like {R : Likeness S} {p : Prog S ε α} {t t' : Trace S O} {o : Except ε α}
    (hp : p.Indifferent (fun _ => True) R) (he : Exec acting p t o)
    (ht : List.Forall₂ (Entry.Like R) t t') : Exec acting p t' o := by
  induction he generalizing t' with
  | ret value =>
      cases ht
      exact .ret value
  | raise error =>
      cases ht
      exact .raise error
  | @ask op next s t answer o hop _ ih =>
      obtain ⟨-, hsame, hnext⟩ := hp
      obtain rfl : s = [.act op answer] := hop
      cases ht with
      | @cons _ entry _ t' hentry ht =>
          obtain ⟨answer', hr, rfl⟩ := hentry
          have hrest := ih (hnext answer) ht
          rw [hsame answer answer' hr] at hrest
          show Exec acting (.ask op next) ([.act op answer'] ++ t') o
          exact .ask rfl hrest

theorem Shuffle.forall₂ {Q : E → E → Prop} {s t u u' : List E} (h : Shuffle s t u)
    (hu : List.Forall₂ Q u u') :
    ∃ s' t', Shuffle s' t' u' ∧ List.Forall₂ Q s s' ∧ List.Forall₂ Q t t' := by
  induction h generalizing u' with
  | nil =>
      cases hu
      exact ⟨[], [], .nil, .nil, .nil⟩
  | left _ ih =>
      cases hu with
      | cons he hu =>
          obtain ⟨s', t', hshuffle, hs, ht⟩ := ih hu
          exact ⟨_, t', .left hshuffle, .cons he hs, ht⟩
  | right _ ih =>
      cases hu with
      | cons he hu =>
          obtain ⟨s', t', hshuffle, hs, ht⟩ := ih hu
          exact ⟨s', _, .right hshuffle, hs, .cons he ht⟩

theorem interleaved_like {R : Likeness S} {ps : List (Prog S ε τ)} {u u' : Trace S O}
    {os : List (Except ε τ)} (hp : ∀ p ∈ ps, p.Indifferent (fun _ => True) R)
    (hi : Interleaved acting ps u os) (hu : List.Forall₂ (Entry.Like R) u u') :
    Interleaved acting ps u' os := by
  induction hi generalizing u' with
  | nil =>
      cases hu
      exact .nil
  | cons he _ hshuffle ih =>
      obtain ⟨s', t', hshuffle', hs, ht⟩ := hshuffle.forall₂ hu
      exact .cons (exec_like (hp _ List.mem_cons_self) he hs)
        (ih (fun p hm => hp p (List.mem_cons_of_mem _ hm)) ht) hshuffle'

-- For a generator: its tasks are indifferent, too, and what they return is taken as it is.
def Likeness.gen (R : Likeness S) : Likeness (Gen S O ε τ)
  | .act op => R op
  | .emit _ => Eq
  | .fork _ => Eq

def Tasks (R : Likeness S) : (Gen S O ε τ).Op → Prop
  | .fork tasks => ∀ task ∈ tasks, task.Indifferent (fun _ => True) R
  | _ => True

namespace Prog

abbrev Heedless (R : Likeness S) (p : Prog (Gen S O ε τ) ε α) : Prop := p.Indifferent (Tasks R) R.gen

theorem Indifferent.lift {R : Likeness S} {p : Prog S ε α} (hp : p.Indifferent (fun _ => True) R) :
    (p.lift : Prog (Gen S O ε τ) ε α).Heedless R := by
  induction p with
  | ret => trivial
  | raise => trivial
  | ask op next ih =>
      obtain ⟨-, hsame, hnext⟩ := hp
      refine ⟨trivial, fun answer answer' hr => ?_, fun answer => ih answer (hnext answer)⟩
      exact congrArg Prog.lift (hsame answer answer' hr)

theorem Indifferent.emit {R : Likeness S} {value : O} :
    (Prog.emit value : Prog (Gen S O ε τ) ε Unit).Heedless R :=
  ⟨trivial, fun _ _ _ => rfl, fun _ => trivial⟩

theorem Indifferent.fork {R : Likeness S} {tasks : List (Prog S ε τ)}
    (ht : ∀ task ∈ tasks, task.Indifferent (fun _ => True) R) :
    (Prog.fork tasks : Prog (Gen S O ε τ) ε _).Heedless R :=
  ⟨ht, fun _ _ hr => congrArg Prog.ret hr, fun _ => trivial⟩

theorem Indifferent.of_does {P : S.Op → Prop} {Q : O → Prop} {R : Likeness S}
    {p : Prog (Gen S O ε τ) ε α} (hp : p.Asks (Does P Q))
    (hq : ∀ op, P op → ∀ answer answer', R op answer answer' → answer = answer') : p.Heedless R := by
  refine .of_asks hp fun op hop => ?_
  cases op with
  | act op => exact ⟨trivial, hq op hop⟩
  | emit value => exact ⟨trivial, fun _ _ hr => hr⟩
  | fork tasks =>
      exact ⟨fun task hm => .of_asks (hop task hm) fun op hop => ⟨trivial, hq op hop⟩, fun _ _ hr => hr⟩

end Prog

-- What an environment may leave out of account, a run may be answered otherwise in.
theorem exec_generating_like {R : Likeness S} {p : Prog (Gen S O ε τ) ε α} {t t' : Trace S O}
    {o : Except ε α} (hp : p.Heedless R) (he : Exec generating p t o)
    (ht : List.Forall₂ (Entry.Like R) t t') : Exec generating p t' o := by
  induction he generalizing t' with
  | ret value =>
      cases ht
      exact .ret value
  | raise error =>
      cases ht
      exact .raise error
  | @ask op next s t answer o hop _ ih =>
      obtain ⟨htasks, hsame, hnext⟩ := hp
      have hs := (List.forall₂_take_append t' s t ht.flip).flip
      have hrest := ih (hnext answer) (List.forall₂_drop_append t' s t ht.flip).flip
      rw [← List.take_append_drop s.length t']
      generalize t'.take s.length = s' at hs ⊢
      cases op with
      | act op =>
          obtain rfl : s = [.act op answer] := hop
          cases hs with
          | cons hentry hs =>
              cases hs
              obtain ⟨answer', hr, rfl⟩ := hentry
              rw [hsame answer answer' hr] at hrest
              show Exec generating (.ask (.act op) next) ([.act op answer'] ++ _) o
              exact .ask rfl hrest
      | emit value =>
          obtain rfl : s = [.emit value] := hop
          cases hs with
          | cons hentry hs =>
              cases hs
              obtain rfl := hentry
              exact .ask rfl hrest
      | fork tasks =>
          exact .ask (interleaved_like htasks hop hs) hrest

end Interaction
