import PerpetuaCore.Interaction.Program

namespace Interaction

variable {S : Signature} {E ε α β : Type}

-- Which events one operation may leave in the trace, and with which answer.
abbrev Semantics (S : Signature) (E : Type) := (op : S.Op) → List E → S.Ans op → Prop

-- A complete run: every operation was answered, and the program has ended.
inductive Exec (sem : Semantics S E) : Prog S ε α → List E → Except ε α → Prop
  | ret (value : α) : Exec sem (.ret value) [] (.ok value)
  | raise (error : ε) : Exec sem (.raise error) [] (.error error)
  | ask {op : S.Op} {next : S.Ans op → Prog S ε α} {s t : List E} {answer : S.Ans op}
      {outcome : Except ε α} (hop : sem op s answer) (hnext : Exec sem (next answer) t outcome) :
      Exec sem (.ask op next) (s ++ t) outcome

variable {sem : Semantics S E}

theorem exec_ret {value : α} {t : List E} {o : Except ε α} (h : Exec sem (.ret value) t o) :
    t = [] ∧ o = .ok value := by
  cases h
  exact ⟨rfl, rfl⟩

theorem exec_raise {error : ε} {t : List E} {o : Except ε α} (h : Exec sem (.raise error) t o) :
    t = [] ∧ o = .error error := by
  cases h
  exact ⟨rfl, rfl⟩

theorem exec_ofExcept {x : Except ε α} {t : List E} {o : Except ε α}
    (h : Exec sem (.ofExcept x) t o) : t = [] ∧ o = x := by
  cases x with
  | ok value => exact exec_ret h
  | error error => exact exec_raise h

theorem exec_bind {p : Prog S ε α} {f : α → Prog S ε β} {t : List E} {o : Except ε β}
    (h : Exec sem (p.bind f) t o) :
    (∃ s u value, t = s ++ u ∧ Exec sem p s (.ok value) ∧ Exec sem (f value) u o) ∨
    (∃ error, Exec sem p t (.error error) ∧ o = .error error) := by
  induction p generalizing t with
  | ret value => exact .inl ⟨[], t, value, rfl, .ret value, h⟩
  | raise error =>
      obtain ⟨rfl, rfl⟩ := exec_raise h
      exact .inr ⟨error, .raise error, rfl⟩
  | ask op next ih =>
      cases h with
      | ask hop hnext =>
          rcases ih _ hnext with ⟨s, u, value, rfl, hp, hf⟩ | ⟨error, hp, rfl⟩
          · exact .inl ⟨_, u, value, (List.append_assoc ..).symm, .ask hop hp, hf⟩
          · exact .inr ⟨error, .ask hop hp, rfl⟩

theorem exec_tryCatch {p : Prog S ε α} {handler : ε → Prog S ε α} {t : List E} {o : Except ε α}
    (h : Exec sem (p.tryCatch handler) t o) :
    (∃ value, Exec sem p t (.ok value) ∧ o = .ok value) ∨
    (∃ s u error, t = s ++ u ∧ Exec sem p s (.error error) ∧ Exec sem (handler error) u o) := by
  induction p generalizing t with
  | ret value =>
      obtain ⟨rfl, rfl⟩ := exec_ret h
      exact .inl ⟨value, .ret value, rfl⟩
  | raise error => exact .inr ⟨[], t, error, rfl, .raise error, h⟩
  | ask op next ih =>
      cases h with
      | ask hop hnext =>
          rcases ih _ hnext with ⟨value, hp, rfl⟩ | ⟨s, u, error, rfl, hp, hh⟩
          · exact .inl ⟨value, .ask hop hp, rfl⟩
          · exact .inr ⟨_, u, error, (List.append_assoc ..).symm, .ask hop hp, hh⟩

theorem exec_attempt {p : Prog S ε α} {t : List E} {o : Except ε (Except ε α)}
    (h : Exec sem p.attempt t o) : ∃ outcome, o = .ok outcome := by
  rcases exec_tryCatch h with ⟨outcome, -, rfl⟩ | ⟨_, _, error, -, -, hu⟩
  · exact ⟨outcome, rfl⟩
  · exact ⟨.error error, (exec_ret hu).2⟩

-- A run goes the same way where only what follows a part of it is replaced.
theorem exec_bind_congr {p : Prog S ε α} {f f' : α → Prog S ε β} {t : List E} {o : Except ε β}
    (h : Exec sem (p.bind f) t o)
    (hf : ∀ s u value, t = s ++ u → Exec sem p s (.ok value) → Exec sem (f value) u o →
      Exec sem (f' value) u o) : Exec sem (p.bind f') t o := by
  induction p generalizing t with
  | ret value => exact hf [] t value rfl (.ret value) h
  | raise error =>
      obtain ⟨rfl, rfl⟩ := exec_raise h
      exact .raise error
  | ask op next ih =>
      cases h with
      | ask hop hnext =>
          refine .ask hop (ih _ hnext fun s u value ht hp hu => ?_)
          exact hf _ u value (by rw [ht, List.append_assoc]) (.ask hop hp) hu

theorem exec_bind_ok {p : Prog S ε α} {f : α → Prog S ε β} {s u : List E} {value : α}
    {o : Except ε β} (hp : Exec sem p s (.ok value)) (hf : Exec sem (f value) u o) :
    Exec sem (p.bind f) (s ++ u) o := by
  generalize hr : Except.ok value = r at hp
  induction hp with
  | ret value' =>
      obtain rfl := Except.ok.inj hr
      exact hf
  | raise => cases hr
  | ask hop _ ih =>
      rw [List.append_assoc]
      exact .ask hop (ih hr)

-- After the history `h`, every complete run of `p` ends in a state of the trace
-- that `Q` (on return) or `F` (on an exception) accepts.
def Ensures (sem : Semantics S E) (F : ε → List E → Prop) (p : Prog S ε α)
    (Q : α → List E → Prop) (h : List E) : Prop :=
  ∀ t o, Exec sem p t o → match o with
    | .ok value => Q value (h ++ t)
    | .error error => F error (h ++ t)

namespace Ensures

variable {F : ε → List E → Prop} {Q : α → List E → Prop} {R : β → List E → Prop} {h : List E}

theorem ret {value : α} (hq : Q value h) : Ensures sem F (.ret value) Q h := by
  intro t o he
  obtain ⟨rfl, rfl⟩ := exec_ret he
  simpa using hq

theorem raise {error : ε} (hf : F error h) : Ensures sem F (.raise error) Q h := by
  intro t o he
  obtain ⟨rfl, rfl⟩ := exec_raise he
  simpa using hf

theorem ofExcept {x : Except ε α} (hok : ∀ value, x = .ok value → Q value h)
    (herr : ∀ error, x = .error error → F error h) : Ensures sem F (.ofExcept x) Q h := by
  cases x with
  | ok value => exact ret (hok value rfl)
  | error error => exact raise (herr error rfl)

theorem call {op : S.Op} {Q : S.Ans op → List E → Prop}
    (hq : ∀ s answer, sem op s answer → Q answer (h ++ s)) :
    Ensures sem F (.call op) Q h := by
  intro t o he
  cases he with
  | ask hop hnext =>
      obtain ⟨rfl, rfl⟩ := exec_ret hnext
      simpa using hq _ _ hop

theorem bind {p : Prog S ε α} {f : α → Prog S ε β}
    (hp : Ensures sem F p (fun value => Ensures sem F (f value) R) h) :
    Ensures sem F (p.bind f) R h := by
  intro t o he
  rcases exec_bind he with ⟨s, u, value, rfl, hs, hu⟩ | ⟨error, hs, rfl⟩
  · have hr := hp s _ hs u o hu
    simpa only [List.append_assoc] using hr
  · exact hp t _ hs

theorem mono {p : Prog S ε α} {Q' : α → List E → Prop} {F' : ε → List E → Prop}
    (hp : Ensures sem F p Q h) (hq : ∀ value h', Q value h' → Q' value h')
    (hf : ∀ error h', F error h' → F' error h') : Ensures sem F' p Q' h := by
  intro t o he
  have hr := hp t o he
  cases o with
  | ok value => exact hq _ _ hr
  | error error => exact hf _ _ hr

-- Sequencing with the callee's own contract: the caller never opens it.
theorem andThen {p : Prog S ε α} {f : α → Prog S ε β} (hp : Ensures sem F p Q h)
    (hf : ∀ value h', Q value h' → Ensures sem F (f value) R h') :
    Ensures sem F (p.bind f) R h :=
  bind (hp.mono hf fun _ _ hx => hx)

-- Adds what is known of the results, whatever happens on an exception.
theorem and {p : Prog S ε α} {Q' : α → List E → Prop} (hp : Ensures sem F p Q h)
    (hp' : Ensures sem (fun _ _ => True) p Q' h) :
    Ensures sem F p (fun value h' => Q value h' ∧ Q' value h') h := by
  intro t o he
  have hr := hp t o he
  have hr' := hp' t o he
  cases o with
  | ok value => exact ⟨hr, hr'⟩
  | error error => exact hr

-- A run only adds to its history.
theorem grows {p : Prog S ε α} (hp : Ensures sem F p Q h) :
    Ensures sem F p (fun value h' => h ⊆ h' ∧ Q value h') h := by
  intro t o he
  have hr := hp t o he
  cases o with
  | ok value => exact ⟨List.subset_append_left h t, hr⟩
  | error error => exact hr

theorem returns {R : α → Prop} {p : Prog S ε α} (hp : p.Returns R) :
    Ensures sem (fun _ _ => True) p (fun value _ => R value) h := by
  induction p generalizing h with
  | ret => exact ret hp
  | raise => exact raise trivial
  | ask op next ih =>
      exact bind (p := .call op) (f := next) (call fun _ answer _ => ih answer (hp answer))

theorem tryCatch {p : Prog S ε α} {handler : ε → Prog S ε α}
    (hp : Ensures sem (fun error => Ensures sem F (handler error) Q) p Q h) :
    Ensures sem F (p.tryCatch handler) Q h := by
  intro t o he
  rcases exec_tryCatch he with ⟨value, hs, rfl⟩ | ⟨s, u, error, rfl, hs, hu⟩
  · exact hp t _ hs
  · have hr := hp s _ hs u o hu
    simpa only [List.append_assoc] using hr

theorem attempt {p : Prog S ε α} {Q : Except ε α → List E → Prop}
    (hp : Ensures sem (fun error => Q (.error error)) p (fun value => Q (.ok value)) h) :
    Ensures sem F p.attempt Q h :=
  tryCatch (bind (hp.mono (fun _ _ hx => ret hx) fun _ _ hx => ret hx))

theorem forM {f : β → Prog S ε PUnit} {xs : List β} {I : List β → List E → Prop}
    (hinit : I xs h)
    (hstep : ∀ x rest h', I (x :: rest) h' → Ensures sem F (f x) (fun _ => I rest) h') :
    Ensures sem F (xs.forM f) (fun _ => I []) h := by
  induction xs generalizing h with
  | nil => exact ret hinit
  | cons x rest ih => exact andThen (hstep x rest h hinit) fun _ _ hx => ih hx

-- What is claimed under an assumption on the whole history may be proved under the
-- assumption on the history so far, where no history regains it.
theorem assuming {D : List E → Prop} {p : Prog S ε α} (hd : ∀ s t, D (s ++ t) → D s)
    (hp : D h → Ensures sem F p Q h) :
    Ensures sem (fun error t => D t → F error t) p (fun value t => D t → Q value t) h := by
  intro t o he
  cases o with
  | ok value => exact fun ht => hp (hd h t ht) t _ he
  | error error => exact fun ht => hp (hd h t ht) t _ he

end Ensures

end Interaction
