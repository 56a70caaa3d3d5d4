import PerpetuaCore.Interaction.Eval

namespace Interaction

variable {S C : Signature} {O ε φ τ σ α : Type}

-- A run of `p` that has come as far as `rest`.
inductive Reaches {E : Type} (sem : Semantics S E) : Prog S ε α → List E → Prog S ε α → Prop
  | here (p : Prog S ε α) : Reaches sem p [] p
  | ask {op : S.Op} {next : S.Ans op → Prog S ε α} {rest : Prog S ε α} {s t : List E}
      {answer : S.Ans op} (hop : sem op s answer) (hnext : Reaches sem (next answer) t rest) :
      Reaches sem (.ask op next) (s ++ t) rest

theorem Reaches.exec {E : Type} {sem : Semantics S E} {p rest : Prog S ε α} {s t : List E}
    {o : Except ε α} (h : Reaches sem p s rest) (he : Exec sem rest t o) : Exec sem p (s ++ t) o := by
  induction h with
  | here => exact he
  | ask hop _ ih =>
      rw [List.append_assoc]
      exact .ask hop (ih he)

-- As far as a run in an environment without memory has come, it does what the simulation does.
theorem Exec.reaches {E : Type} {sem : Semantics S E} {p : Prog S ε α} {t : List E} {o : Except ε α}
    (he : Exec sem p t o) : Reaches sem p t (.ofExcept o) := by
  induction he with
  | ret value => exact .here _
  | raise error => exact .here _
  | ask hop _ ih => exact .ask hop ih

theorem Reaches.subset_simulate {handler : Handler S} {p rest : Prog (Gen S O ε τ) ε α} {s : Trace S O}
    (h : Reaches generating p s rest) (hs : Obeys handler s) : s ⊆ (p.simulate handler).1 := by
  induction h with
  | here => exact List.nil_subset _
  | @ask op next rest s t answer hop _ ih =>
      obtain ⟨hhead, htail⟩ := Obeys.append_iff.mp hs
      have hsame : s ⊆ (handler.generating op).1 ∧ answer = (handler.generating op).2 := by
        cases op with
        | act op =>
            obtain rfl : s = [.act op answer] := hop
            obtain rfl := hhead op answer List.mem_cons_self
            exact ⟨List.Subset.refl _, rfl⟩
        | emit value =>
            obtain rfl : s = [.emit value] := hop
            exact ⟨List.Subset.refl _, rfl⟩
        | fork tasks =>
            exact ⟨interleaved_events hop hhead, interleaved_outcomes hop hhead⟩
      obtain ⟨hevents, rfl⟩ := hsame
      exact List.append_subset.mpr ⟨fun e he => List.mem_append_left _ (hevents he),
        fun e he => List.mem_append_right _ (ih htail he)⟩

-- What happens while a consumer drains a generator: events of the generator, and the
-- consumer's own exchanges.
inductive Turn (S C : Signature) (O : Type) where
  | inner (event : Entry S O)
  | outer (op : C.Op) (answer : C.Ans op)

@[reducible] def Draining (S C : Signature) (O ε τ : Type) : Signature where
  Op := (Gen S O ε τ).Op ⊕ C.Op
  Ans
    | .inl op => (Gen S O ε τ).Ans op
    | .inr op => C.Ans op

def draining : Semantics (Draining S C O ε τ) (Turn S C O)
  | .inl op, t, answer => ∃ s, t = s.map .inner ∧ generating op s answer
  | .inr op, t, answer => t = [.outer op answer]

namespace Prog

-- A program of the consumer alone.
def outer : Prog C φ α → Prog (Draining S C O ε τ) φ α
  | ret value => ret value
  | raise error => raise error
  | ask op next => ask (S := Draining S C O ε τ) (.inr op) fun answer => (next answer).outer

-- Pulls one value after the other and handles each before the next is asked for.
def drain (handle : σ → O → Prog C φ σ) (ended : ε → φ) :
    Prog (Gen S O ε τ) ε α → σ → Prog (Draining S C O ε τ) φ σ
  | ret _, held => ret held
  | raise error, _ => raise (ended error)
  | ask (.act op) next, held =>
      ask (S := Draining S C O ε τ) (.inl (.act op)) fun answer => (next answer).drain handle ended held
  | ask (.fork tasks) next, held =>
      ask (S := Draining S C O ε τ) (.inl (.fork tasks)) fun answer =>
        (next answer).drain handle ended held
  | ask (.emit value) next, held =>
      ask (S := Draining S C O ε τ) (.inl (.emit value)) fun _ =>
        (handle held value).outer.bind fun held => (next ()).drain handle ended held

end Prog

-- The generator's part of what happened.
def pulled (t : List (Turn S C O)) : Trace S O :=
  t.filterMap fun
    | .inner event => some event
    | .outer .. => none

-- The consumer's exchanges, as steps.
def outward (b : Trace C Empty) : List (Turn S C O) :=
  b.filterMap fun
    | .act op answer => some (.outer op answer)
    | .emit value => value.elim

@[simp] theorem pulled_append (s t : List (Turn S C O)) : pulled (s ++ t) = pulled s ++ pulled t :=
  List.filterMap_append

@[simp] theorem pulled_cons (event : Entry S O) (t : List (Turn S C O)) :
    pulled (.inner event :: t) = event :: pulled t := rfl

@[simp] theorem pulled_outer (op : C.Op) (answer : C.Ans op) (t : List (Turn S C O)) :
    pulled (.outer op answer :: t) = pulled t := rfl

@[simp] theorem pulled_outward (b : Trace C Empty) : pulled (outward b : List (Turn S C O)) = [] := by
  induction b with
  | nil => rfl
  | cons event b ih =>
      cases event with
      | act op answer => exact ih
      | emit value => exact value.elim

@[simp] theorem outward_nil : (outward [] : List (Turn S C O)) = [] := rfl

@[simp] theorem outward_act (op : C.Op) (answer : C.Ans op) (b : Trace C Empty) :
    (outward (.act op answer :: b) : List (Turn S C O)) = .outer op answer :: outward b := rfl

@[simp] theorem outward_append (b c : Trace C Empty) :
    (outward (b ++ c) : List (Turn S C O)) = outward b ++ outward c :=
  List.filterMap_append

theorem exec_outer {p : Prog C φ α} {t : List (Turn S C O)} {o : Except φ α}
    (h : Exec draining (p.outer : Prog (Draining S C O ε τ) φ α) t o) :
    ∃ b : Trace C Empty, t = outward b ∧ Exec acting p b o := by
  induction p generalizing t with
  | ret value =>
      obtain ⟨rfl, rfl⟩ := exec_ret h
      exact ⟨[], rfl, .ret value⟩
  | raise error =>
      obtain ⟨rfl, rfl⟩ := exec_raise h
      exact ⟨[], rfl, .raise error⟩
  | ask op next ih =>
      cases h with
      | ask hop hnext =>
          obtain ⟨b, rfl, hb⟩ := ih _ hnext
          obtain rfl := hop
          rename_i answer
          refine ⟨.act op answer :: b, rfl, ?_⟩
          show Exec acting (.ask op next) ([.act op answer] ++ b) o
          exact .ask rfl hb

-- A generator's events and what the consumer did about each value, before anything more.
inductive Lockstep (handle : σ → O → Prog C φ σ) : σ → Trace S O → List (Turn S C O) → σ → Prop
  | nil (held : σ) : Lockstep handle held [] [] held
  | act {op : S.Op} {answer : S.Ans op} {held held' : σ} {s : Trace S O} {t : List (Turn S C O)}
      (h : Lockstep handle held s t held') :
      Lockstep handle held (.act op answer :: s) (.inner (.act op answer) :: t) held'
  | emit {value : O} {held mid held' : σ} {b : Trace C Empty} {s : Trace S O}
      {t : List (Turn S C O)} (hhandled : Exec acting (handle held value) b (.ok mid))
      (h : Lockstep handle mid s t held') :
      Lockstep handle held (.emit value :: s) (.inner (.emit value) :: (outward b ++ t)) held'

namespace Lockstep

variable {handle : σ → O → Prog C φ σ} {held held' : σ} {s : Trace S O} {t : List (Turn S C O)}

theorem pulled_eq (h : Lockstep handle held s t held') : pulled t = s := by
  induction h with
  | nil => rfl
  | act _ ih => rw [pulled_cons, ih]
  | emit _ _ ih => rw [pulled_cons, pulled_append, pulled_outward, List.nil_append, ih]

theorem quiet (hs : observations s = []) : Lockstep handle held s (s.map .inner) held := by
  induction s with
  | nil => exact .nil held
  | cons event s ih =>
      cases event with
      | act op answer => exact .act (ih hs)
      | emit value => cases hs

theorem append {mid : σ} {s' : Trace S O} {t' : List (Turn S C O)}
    (h : Lockstep handle held s t mid) (h' : Lockstep handle mid s' t' held') :
    Lockstep handle held (s ++ s') (t ++ t') held' := by
  induction h with
  | nil => exact h'
  | act _ ih => exact .act (ih h')
  | emit hhandled _ ih =>
      rw [List.cons_append, List.cons_append, List.append_assoc]
      exact .emit hhandled (ih h')

end Lockstep

-- A drained run: the generator ran to its end in lockstep with the consumer, or the consumer
-- failed on the value it was handling and nothing was asked of the generator any more.
inductive Drained (handle : σ → O → Prog C φ σ) (ended : ε → φ) (p : Prog (Gen S O ε τ) ε α) (held : σ)
    (t : List (Turn S C O)) : Except φ σ → Prop
  | returned {value : α} {held' : σ} (hrun : Exec generating p (pulled t) (.ok value))
      (hstep : Lockstep handle held (pulled t) t held') : Drained handle ended p held t (.ok held')
  | raised {error : ε} {held' : σ} (hrun : Exec generating p (pulled t) (.error error))
      (hstep : Lockstep handle held (pulled t) t held') :
      Drained handle ended p held t (.error (ended error))
  | failed {s : Trace S O} {u : List (Turn S C O)} {value : O} {b : Trace C Empty} {held' : σ}
      {rest : Prog (Gen S O ε τ) ε α} {error : φ}
      (hrun : Reaches generating p (s ++ [.emit value]) rest)
      (hstep : Lockstep handle held s u held')
      (hfailed : Exec acting (handle held' value) b (.error error))
      (ht : t = u ++ .inner (.emit value) :: outward b) : Drained handle ended p held t (.error error)

section Drain

variable {handle : σ → O → Prog C φ σ} {ended : ε → φ} {held : σ} {t : List (Turn S C O)}
  {o : Except φ σ}

-- One more operation of the generator at the head of a drained run.
theorem Drained.ask {op : (Gen S O ε τ).Op} {next : (Gen S O ε τ).Ans op → Prog (Gen S O ε τ) ε α}
    {s : Trace S O} {u : List (Turn S C O)} {answer : (Gen S O ε τ).Ans op} {mid : σ}
    (hop : generating op s answer) (hstep : Lockstep handle held s u mid)
    (h : Drained handle ended (next answer) mid t o) :
    Drained handle ended (.ask op next) held (u ++ t) o := by
  have hpulled : pulled (u ++ t) = s ++ pulled t := by rw [pulled_append, hstep.pulled_eq]
  cases h with
  | returned hrun hrest =>
      have hrun := Exec.ask hop hrun
      have hrest := hstep.append hrest
      rw [← hpulled] at hrun hrest
      exact .returned hrun hrest
  | raised hrun hrest =>
      have hrun := Exec.ask hop hrun
      have hrest := hstep.append hrest
      rw [← hpulled] at hrun hrest
      exact .raised hrun hrest
  | failed hrun hrest hfailed ht =>
      have hrun := Reaches.ask hop hrun
      rw [← List.append_assoc] at hrun
      exact .failed hrun (hstep.append hrest) hfailed (by rw [ht, List.append_assoc])

theorem exec_drain {p : Prog (Gen S O ε τ) ε α}
    (h : Exec draining (p.drain handle ended held) t o) : Drained handle ended p held t o := by
  induction p generalizing held t with
  | ret value =>
      obtain ⟨rfl, rfl⟩ := exec_ret h
      exact .returned (.ret value) (.nil held)
  | raise error =>
      obtain ⟨rfl, rfl⟩ := exec_raise h
      exact .raised (.raise error) (.nil held)
  | ask op next ih =>
      cases op with
      | act op =>
          cases h with
          | ask hop hnext =>
              obtain ⟨s, rfl, hs⟩ := hop
              refine .ask hs (Lockstep.quiet ?_) (ih _ hnext)
              obtain rfl : s = [.act op _] := hs
              rfl
      | fork tasks =>
          cases h with
          | ask hop hnext =>
              obtain ⟨s, rfl, hs⟩ := hop
              exact .ask hs (Lockstep.quiet (interleaved_observations hs)) (ih _ hnext)
      | emit value =>
          cases h with
          | ask hop hnext =>
              obtain ⟨s, rfl, hop⟩ := hop
              have hs : s = [.emit value] := hop
              subst hs
              rcases exec_bind hnext with ⟨v, u, mid, rfl, hv, hu⟩ | ⟨error, hv, rfl⟩
              · obtain ⟨b, rfl, hb⟩ := exec_outer hv
                rw [← List.append_assoc]
                refine .ask hop ?_ (ih () hu)
                have hstep := Lockstep.emit (S := S) hb (.nil mid)
                rwa [List.append_nil] at hstep
              · obtain ⟨b, rfl, hb⟩ := exec_outer hv
                have hreached : Reaches generating (.ask (.emit value) next) ([.emit value] ++ []) (next ()) :=
                  .ask hop (.here _)
                exact .failed (s := []) (u := []) hreached (.nil held) hb rfl

end Drain

-- Environments without memory for the generator and for the consumer.
def Handler.draining (handler : Handler S) (host : Handler C) :
    (op : (Draining S C O ε τ).Op) → List (Turn S C O) × (Draining S C O ε τ).Ans op
  | .inl op => ((handler.generating op).1.map .inner, (handler.generating op).2)
  | .inr op => ([.outer op (host op)], host op)

theorem exec_draining (handler : Handler S) (host : Handler C)
    (p : Prog (Draining S C O ε τ) φ α) :
    Exec Interaction.draining p (p.eval (handler.draining host)).1 (p.eval (handler.draining host)).2 := by
  apply exec_eval
  intro op
  cases op with
  | inl op => exact ⟨_, rfl, generating_handler handler op⟩
  | inr op => exact rfl

end Interaction
