import PerpetuaCore.Interaction.Interleave

namespace Interaction

-- What an observing generator may do: act on its environment, emit a value to
-- its consumer, or run a batch of tasks side by side and wait for all of them.
-- The tasks themselves can only act.
inductive GenOp (S : Signature) (O ε τ : Type) where
  | act (op : S.Op)
  | emit (value : O)
  | fork (tasks : List (Prog S ε τ))

@[reducible] def Gen (S : Signature) (O ε τ : Type) : Signature where
  Op := GenOp S O ε τ
  Ans
    | .act op => S.Ans op
    | .emit _ => Unit
    | .fork _ => List (Except ε τ)

inductive Entry (S : Signature) (O : Type) where
  | act (op : S.Op) (answer : S.Ans op)
  | emit (value : O)

abbrev Trace (S : Signature) (O : Type) := List (Entry S O)

variable {S : Signature} {O ε τ α : Type}

def acting : Semantics S (Entry S O) :=
  fun op t answer => t = [.act op answer]

def generating : Semantics (Gen S O ε τ) (Entry S O)
  | .act op, t, answer => t = [.act op answer]
  | .emit value, t, _ => t = [.emit value]
  | .fork tasks, t, outcomes => Interleaved acting tasks t outcomes

namespace Prog

def emit (value : O) : Prog (Gen S O ε τ) ε Unit :=
  call (S := Gen S O ε τ) (.emit value)

def fork (tasks : List (Prog S ε τ)) : Prog (Gen S O ε τ) ε (List (Except ε τ)) :=
  call (S := Gen S O ε τ) (.fork tasks)

-- A program without observations, run inside a generator.
def lift : Prog S ε α → Prog (Gen S O ε τ) ε α
  | ret value => ret value
  | raise error => raise error
  | ask op next => ask (S := Gen S O ε τ) (.act op) fun answer => (next answer).lift

end Prog

theorem exec_lift {p : Prog S ε α} {t : Trace S O} {o : Except ε α}
    (h : Exec generating (p.lift : Prog (Gen S O ε τ) ε α) t o) : Exec acting p t o := by
  induction p generalizing t with
  | ret value =>
      obtain ⟨rfl, rfl⟩ := exec_ret h
      exact .ret value
  | raise error =>
      obtain ⟨rfl, rfl⟩ := exec_raise h
      exact .raise error
  | ask op next ih =>
      cases h with
      | ask hop hnext => exact .ask hop (ih _ hnext)

theorem lift_exec {p : Prog S ε α} {t : Trace S O} {o : Except ε α} (h : Exec acting p t o) :
    Exec generating (p.lift : Prog (Gen S O ε τ) ε α) t o := by
  induction h with
  | ret value => exact .ret value
  | raise error => exact .raise error
  | ask hop _ ih => exact .ask hop ih

-- What the consumer of a run has been shown.
def observations (t : Trace S O) : List O :=
  t.filterMap fun
    | .emit value => some value
    | .act .. => none

@[simp] theorem observations_nil : observations ([] : Trace S O) = [] := rfl

@[simp] theorem observations_append (s t : Trace S O) :
    observations (s ++ t) = observations s ++ observations t :=
  List.filterMap_append

@[simp] theorem observations_emit (value : O) (t : Trace S O) :
    observations (.emit value :: t) = value :: observations t := rfl

@[simp] theorem observations_act (op : S.Op) (answer : S.Ans op) (t : Trace S O) :
    observations (.act op answer :: t) = observations t := rfl

@[simp] theorem observations_emits {β : Type} (f : β → O) (xs : List β) :
    observations (xs.map fun x => (.emit (f x) : Entry S O)) = xs.map f := by
  induction xs with
  | nil => rfl
  | cons x rest ih => simp [ih]

theorem emit_mem_iff {value : O} {t : Trace S O} :
    .emit value ∈ t ↔ value ∈ observations t := by
  induction t with
  | nil => simp
  | cons entry t ih => cases entry <;> simp [ih]

-- A program without observations shows the consumer nothing.
theorem exec_acting_observations {p : Prog S ε α} {t : Trace S O} {o : Except ε α}
    (h : Exec acting p t o) : observations t = [] := by
  induction h with
  | ret => rfl
  | raise => rfl
  | ask hop _ ih =>
      cases hop
      simpa using ih

theorem interleaved_observations {ps : List (Prog S ε τ)} {t : Trace S O}
    {os : List (Except ε τ)} (h : Interleaved acting ps t os) : observations t = [] := by
  by_contra hne
  obtain ⟨value, hv⟩ := List.exists_mem_of_ne_nil _ hne
  obtain ⟨p, _, s, o, _, hp, hs⟩ := h.exists_of_mem (emit_mem_iff.mpr hv)
  have hm := emit_mem_iff.mp hs
  rw [exec_acting_observations hp] at hm
  cases hm

-- A program's events are the operations it may issue.
theorem exec_asks {P : S.Op → Prop} {p : Prog S ε α} {t : Trace S O} {o : Except ε α}
    (h : Exec acting p t o) (hp : p.Asks P) : ∀ e ∈ t, ∃ op answer, e = .act op answer ∧ P op := by
  induction h with
  | ret => simp
  | raise => simp
  | @ask op next s t answer o hop _ ih =>
      obtain rfl : s = [.act op answer] := hop
      intro e he
      rcases List.mem_cons.mp he with rfl | he
      · exact ⟨op, answer, rfl, hp.1⟩
      · exact ih (hp.2 answer) e he

theorem interleaved_asks {P : S.Op → Prop} {ps : List (Prog S ε τ)} {t : Trace S O}
    {os : List (Except ε τ)} (h : Interleaved acting ps t os) (hp : ∀ p ∈ ps, p.Asks P) :
    ∀ e ∈ t, ∃ op answer, e = .act op answer ∧ P op := by
  intro e he
  obtain ⟨p, hmem, s, o, -, hs, hes⟩ := h.exists_of_mem he
  exact exec_asks hs (hp p hmem) e hes

-- What a generator may do, tasks included: operations that satisfy `P`, values that satisfy `Q`.
def Does (P : S.Op → Prop) (Q : O → Prop) : (Gen S O ε τ).Op → Prop
  | .act op => P op
  | .emit value => Q value
  | .fork tasks => ∀ task ∈ tasks, task.Asks P

namespace Does

variable {P : S.Op → Prop} {Q : O → Prop}

theorem lift {p : Prog S ε α} (hp : p.Asks P) :
    (p.lift : Prog (Gen S O ε τ) ε α).Asks (Does P Q) := by
  induction p with
  | ret => trivial
  | raise => trivial
  | ask op next ih => exact ⟨hp.1, fun answer => ih answer (hp.2 answer)⟩

theorem lift_returns {R : α → Prop} {p : Prog S ε α} (hp : p.Returns R) :
    (p.lift : Prog (Gen S O ε τ) ε α).Returns R := by
  induction p with
  | ret => exact hp
  | raise => trivial
  | ask op next ih => exact fun answer => ih answer (hp answer)

theorem emit {value : O} (h : Q value) :
    (Prog.emit value : Prog (Gen S O ε τ) ε Unit).Asks (Does P Q) :=
  .call h

theorem mono {P' : S.Op → Prop} {Q' : O → Prop} {p : Prog (Gen S O ε τ) ε α}
    (h : p.Asks (Does P Q)) (hp : ∀ op, P op → P' op) (hq : ∀ value, Q value → Q' value) :
    p.Asks (Does P' Q') := by
  refine Prog.Asks.mono h fun op hop => ?_
  cases op with
  | act op => exact hp op hop
  | emit value => exact hq value hop
  | fork tasks => exact fun task htask => (hop task htask).mono hp

theorem events {p : Prog (Gen S O ε τ) ε α} {t : Trace S O} {o : Except ε α}
    (he : Exec generating p t o) (hp : p.Asks (Does P Q)) :
    (∀ op answer, .act op answer ∈ t → P op) ∧ ∀ value ∈ observations t, Q value := by
  induction he with
  | ret => exact ⟨nofun, nofun⟩
  | raise => exact ⟨nofun, nofun⟩
  | @ask op next s t answer o hop _ ih =>
      obtain ⟨hacts, hvalues⟩ := ih (hp.2 answer)
      obtain ⟨hs, hshown⟩ : (∀ op answer, .act op answer ∈ s → P op) ∧
          ∀ value ∈ observations s, Q value := by
        cases op with
        | act op =>
            obtain rfl : s = [.act op answer] := hop
            refine ⟨fun op' answer' hm => ?_, nofun⟩
            cases List.mem_singleton.mp hm
            exact hp.1
        | emit value =>
            obtain rfl : s = [.emit value] := hop
            refine ⟨fun op' answer' hm => (nomatch List.mem_singleton.mp hm), fun value' hm => ?_⟩
            obtain rfl := List.mem_singleton.mp hm
            exact hp.1
        | fork tasks =>
            have hi : Interleaved acting tasks s answer := hop
            refine ⟨fun op answer hm => ?_, by simp [interleaved_observations hi]⟩
            obtain ⟨op', answer', he, hP⟩ := interleaved_asks hi hp.1 _ hm
            cases he
            exact hP
      constructor
      · intro op answer hm
        rcases List.mem_append.mp hm with hm | hm
        · exact hs op answer hm
        · exact hacts op answer hm
      · intro value hm
        rw [observations_append] at hm
        rcases List.mem_append.mp hm with hm | hm
        · exact hshown value hm
        · exact hvalues value hm

end Does

namespace Ensures

variable {F : ε → Trace S O → Prop} {h : Trace S O}

theorem act {op : S.Op} {Q : S.Ans op → Trace S O → Prop}
    (hq : ∀ answer, Q answer (h ++ [.act op answer])) :
    Ensures acting F (.call op : Prog S ε (S.Ans op)) Q h := by
  apply call
  rintro _ answer rfl
  exact hq answer

theorem emit {value : O} {Q : Unit → Trace S O → Prop} (hq : Q () (h ++ [.emit value])) :
    Ensures generating F (.emit value : Prog (Gen S O ε τ) ε Unit) Q h := by
  apply call
  rintro _ ⟨⟩ rfl
  exact hq

theorem emitAll {β : Type} {f : β → O} {xs : List β} {Q : PUnit → Trace S O → Prop}
    (hq : Q ⟨⟩ (h ++ xs.map fun x => .emit (f x))) :
    Ensures generating F (xs.forM fun x => (.emit (f x) : Prog (Gen S O ε τ) ε Unit)) Q h := by
  induction xs generalizing h with
  | nil =>
      refine .ret ?_
      simpa using hq
  | cons x rest ih =>
      refine .bind (.emit (ih ?_))
      simpa using hq

theorem fork {tasks : List (Prog S ε τ)} {Q : List (Except ε τ) → Trace S O → Prop}
    (hq : ∀ t outcomes, Interleaved acting tasks t outcomes → Q outcomes (h ++ t)) :
    Ensures generating F (.fork tasks : Prog (Gen S O ε τ) ε _) Q h := by
  apply call
  exact hq

-- What every operation a program may issue preserves, the program preserves.
theorem asks {P : S.Op → Prop} {I : Trace S O → Prop} {p : Prog S ε α} (hp : p.Asks P)
    (hstep : ∀ h op answer, P op → I h → I (h ++ [.act op answer])) (hi : I h) :
    Ensures acting (fun _ => I) p (fun _ => I) h := by
  induction p generalizing h with
  | ret => exact ret hi
  | raise => exact raise hi
  | ask op next ih =>
      refine bind (p := .call op) (f := next) (act fun answer => ?_)
      exact ih answer (hp.2 answer) (hstep h op answer hp.1 hi)

theorem fork_asks {P : S.Op → Prop} {I : Trace S O → Prop} {tasks : List (Prog S ε τ)}
    (htasks : ∀ p ∈ tasks, p.Asks P)
    (hstep : ∀ h op answer, P op → I h → I (h ++ [.act op answer])) (hi : I h) :
    Ensures generating F (.fork tasks : Prog (Gen S O ε τ) ε _) (fun _ => I) h := by
  refine fork fun t outcomes ht => ?_
  have hacts := interleaved_asks ht htasks
  clear ht
  induction t generalizing h with
  | nil => rwa [List.append_nil]
  | cons e t ih =>
      obtain ⟨op, answer, rfl, hop⟩ := hacts e List.mem_cons_self
      rw [List.append_cons]
      exact ih (hstep h op answer hop hi) fun e he => hacts e (List.mem_cons_of_mem _ he)

-- A program without observations keeps whatever is known of the observations so far.
theorem still {P : List O → Prop} {p : Prog S ε α} (hp : P (observations h)) :
    Ensures acting (fun _ t => P (observations t)) p (fun _ t => P (observations t)) h := by
  intro t o he
  have ht : P (observations (h ++ t)) := by
    simpa [exec_acting_observations he] using hp
  cases o <;> exact ht

theorem fork_still {P : List O → Prop} {tasks : List (Prog S ε τ)} (hp : P (observations h)) :
    Ensures generating F (.fork tasks : Prog (Gen S O ε τ) ε _) (fun _ t => P (observations t)) h := by
  refine fork fun t outcomes ht => ?_
  simpa [interleaved_observations ht] using hp

theorem lift {p : Prog S ε α} {Q : α → Trace S O → Prop} (hp : Ensures acting F p Q h) :
    Ensures generating F (p.lift : Prog (Gen S O ε τ) ε α) Q h :=
  fun t o he => hp t o (exec_lift he)

end Ensures

end Interaction
