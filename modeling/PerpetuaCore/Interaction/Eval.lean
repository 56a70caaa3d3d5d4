import PerpetuaCore.Interaction.Generator

namespace Interaction

variable {S : Signature} {E O ε τ α : Type}

-- Runs a program against a function that answers every operation.
def Prog.eval (answer : (op : S.Op) → List E × S.Ans op) : Prog S ε α → List E × Except ε α
  | .ret value => ([], .ok value)
  | .raise error => ([], .error error)
  | .ask op next =>
      let rest := (next (answer op).2).eval answer
      ((answer op).1 ++ rest.1, rest.2)

-- An environment without memory: its answer depends on the operation alone.
abbrev Handler (S : Signature) := (op : S.Op) → S.Ans op

namespace Handler

def acting (handler : Handler S) (op : S.Op) : Trace S O × S.Ans op :=
  ([.act op (handler op)], handler op)

-- Tasks are run one after the other: one of the interleavings.
def generating (handler : Handler S) :
    (op : (Gen S O ε τ).Op) → Trace S O × (Gen S O ε τ).Ans op
  | .act op => ([.act op (handler op)], handler op)
  | .emit value => ([.emit value], ())
  | .fork tasks =>
      ((tasks.map fun task => (task.eval handler.acting).1).flatten,
        tasks.map fun task => (task.eval (handler.acting (O := O))).2)

end Handler

def Prog.simulate (handler : Handler S) (p : Prog (Gen S O ε τ) ε α) : Trace S O × Except ε α :=
  p.eval handler.generating

theorem exec_eval {sem : Semantics S E} {answer : (op : S.Op) → List E × S.Ans op}
    (hsem : ∀ op, sem op (answer op).1 (answer op).2) (p : Prog S ε α) :
    Exec sem p (p.eval answer).1 (p.eval answer).2 := by
  induction p with
  | ret value => exact .ret value
  | raise error => exact .raise error
  | ask op next ih => exact .ask (hsem op) (ih _)

theorem interleaved_eval (handler : Handler S) (tasks : List (Prog S ε τ)) :
    Interleaved acting tasks (tasks.map fun task => (task.eval (handler.acting (O := O))).1).flatten
      (tasks.map fun task => (task.eval (handler.acting (O := O))).2) := by
  induction tasks with
  | nil => exact .nil
  | cons task rest ih =>
      exact .cons (exec_eval (fun _ => rfl) task) ih (Shuffle.append _ _)

theorem generating_handler (handler : Handler S) (op : (Gen S O ε τ).Op) :
    generating op (handler.generating op).1 (handler.generating op).2 := by
  cases op with
  | act op => exact rfl
  | emit value => exact rfl
  | fork tasks => exact interleaved_eval handler tasks

-- A simulation is a run.
theorem exec_simulate (handler : Handler S) (p : Prog (Gen S O ε τ) ε α) :
    Exec generating p (p.simulate handler).1 (p.simulate handler).2 :=
  exec_eval (generating_handler handler) p

-- A run in which the environment answered as `handler` does.
def Obeys (handler : Handler S) (t : Trace S O) : Prop :=
  ∀ op answer, .act op answer ∈ t → answer = handler op

theorem Obeys.append_iff {handler : Handler S} {s t : Trace S O} :
    Obeys handler (s ++ t) ↔ Obeys handler s ∧ Obeys handler t := by
  simp only [Obeys, List.mem_append]
  constructor
  · intro h
    exact ⟨fun op a hm => h op a (.inl hm), fun op a hm => h op a (.inr hm)⟩
  · rintro ⟨hs, ht⟩ op a (hm | hm)
    · exact hs op a hm
    · exact ht op a hm

theorem Obeys.sublist {handler : Handler S} {s t : Trace S O} (h : Obeys handler t)
    (hs : s.Sublist t) : Obeys handler s :=
  fun op answer hm => h op answer (hs.subset hm)

theorem obeys_eval (handler : Handler S) (p : Prog S ε α) :
    Obeys handler (p.eval (handler.acting (O := O))).1 := by
  induction p with
  | ret value => exact nofun
  | raise error => exact nofun
  | ask op next ih =>
      refine Obeys.append_iff.mpr ⟨?_, ih _⟩
      rintro op' answer (_ | ⟨_, ⟨⟩⟩)
      rfl

theorem obeys_simulate (handler : Handler S) (p : Prog (Gen S O ε τ) ε α) :
    Obeys handler (p.simulate handler).1 := by
  induction p with
  | ret value => exact nofun
  | raise error => exact nofun
  | ask op next ih =>
      refine Obeys.append_iff.mpr ⟨?_, ih _⟩
      cases op with
      | act op =>
          rintro op' answer (_ | ⟨_, ⟨⟩⟩)
          rfl
      | emit value => rintro op' answer (_ | ⟨_, ⟨⟩⟩)
      | fork tasks =>
          rintro op answer hm
          obtain ⟨t, ht, hm⟩ := List.mem_flatten.mp hm
          obtain ⟨task, _, rfl⟩ := List.mem_map.mp ht
          exact obeys_eval handler task op answer hm

theorem exec_acting_eq {handler : Handler S} {p : Prog S ε α} {t : Trace S O} {o : Except ε α}
    (he : Exec acting p t o) (ht : Obeys handler t) :
    t = (p.eval handler.acting).1 ∧ o = (p.eval (handler.acting (O := O))).2 := by
  induction he with
  | ret => exact ⟨rfl, rfl⟩
  | raise => exact ⟨rfl, rfl⟩
  | @ask op next s t answer o hop _ ih =>
      cases hop
      obtain ⟨hhead, htail⟩ := Obeys.append_iff.mp ht
      obtain rfl := hhead op answer (by simp)
      obtain ⟨rfl, rfl⟩ := ih htail
      exact ⟨rfl, rfl⟩

theorem interleaved_outcomes {handler : Handler S} {tasks : List (Prog S ε τ)} {t : Trace S O}
    {os : List (Except ε τ)} (hi : Interleaved acting tasks t os) (ht : Obeys handler t) :
    os = tasks.map fun task => (task.eval (handler.acting (O := O))).2 := by
  induction hi with
  | nil => rfl
  | cons hp _ hu ih =>
      have hs := (exec_acting_eq hp (ht.sublist hu.sublist_left)).2
      have hr := ih (ht.sublist hu.sublist_right)
      rw [hs, hr, List.map_cons]

theorem interleaved_events {handler : Handler S} {tasks : List (Prog S ε τ)} {t : Trace S O}
    {os : List (Except ε τ)} (hi : Interleaved acting tasks t os) (ht : Obeys handler t) :
    t ⊆ (tasks.map fun task => (task.eval (handler.acting (O := O))).1).flatten := by
  induction hi with
  | nil => exact List.Subset.refl _
  | cons hp _ hu ih =>
      obtain ⟨rfl, -⟩ := exec_acting_eq hp (ht.sublist hu.sublist_left)
      intro e he
      rcases List.mem_append.mp (hu.perm.mem_iff.mp he) with he | he
      · exact List.mem_append_left _ he
      · exact List.mem_append_right _ (ih (ht.sublist hu.sublist_right) he)

-- The order in which the tasks of a batch take their turns shows nowhere: against
-- an environment without memory every run shows and returns what the simulation does.
theorem exec_generating_eq {handler : Handler S} {p : Prog (Gen S O ε τ) ε α} {t : Trace S O}
    {o : Except ε α} (he : Exec generating p t o) (ht : Obeys handler t) :
    observations t = observations (p.simulate handler).1 ∧ o = (p.simulate handler).2 := by
  induction he with
  | ret => exact ⟨rfl, rfl⟩
  | raise => exact ⟨rfl, rfl⟩
  | @ask op next s t answer o hop _ ih =>
      obtain ⟨hhead, htail⟩ := Obeys.append_iff.mp ht
      cases op with
      | act op =>
          obtain rfl : s = [.act op answer] := hop
          obtain rfl := hhead op answer (by simp)
          obtain ⟨hobs, rfl⟩ := ih htail
          exact ⟨hobs, rfl⟩
      | emit value =>
          obtain rfl : s = [.emit value] := hop
          obtain ⟨hobs, rfl⟩ := ih htail
          exact ⟨congrArg (value :: ·) hobs, rfl⟩
      | fork tasks =>
          have hi : Interleaved acting tasks s answer := hop
          obtain rfl := interleaved_outcomes hi hhead
          obtain ⟨hobs, rfl⟩ := ih htail
          refine ⟨?_, rfl⟩
          simp only [observations_append, interleaved_observations hi, hobs, List.nil_append,
            Prog.simulate, Prog.eval, Handler.generating,
            interleaved_observations (interleaved_eval handler tasks)]

end Interaction
