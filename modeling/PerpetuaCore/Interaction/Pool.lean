import PerpetuaCore.Interaction.Interleave
import Mathlib.Algebra.BigOperators.Group.List.Basic
import Mathlib.Algebra.Group.Prod
import Mathlib.Algebra.GroupWithZero.Nat
import Mathlib.Order.WellFounded

namespace Interaction

variable {τ E ε α : Type}

-- One list that interleaves all of them, keeping the order of each.
inductive Shuffles : List (List E) → List E → Prop
  | nil : Shuffles [] []
  | cons {s t u : List E} {ss : List (List E)} (h : Shuffles ss t) (hu : Shuffle s t u) :
      Shuffles (s :: ss) u

namespace Shuffle

theorem extend_left {s t u : List E} (h : Shuffle s t u) (es : List E) :
    Shuffle (s ++ es) t (u ++ es) := by
  induction h with
  | nil => simpa using append es []
  | left _ ih => exact ih.left
  | right _ ih => exact ih.right

theorem extend_right {s t u : List E} (h : Shuffle s t u) (es : List E) :
    Shuffle s (t ++ es) (u ++ es) := by
  induction h with
  | nil => exact append [] es
  | left _ ih => exact ih.left
  | right _ ih => exact ih.right

end Shuffle

namespace Pool

-- A task that has started is on one of its runs; `rest` are the events still to come.
inductive Task (τ E ε α : Type)
  | waiting (input : τ)
  | running (rest : List E) (outcome : Except ε α)
  | done (outcome : Except ε α)

namespace Task

-- The permits a task holds.
def held : Task τ E ε α → Nat
  | .running .. => 1
  | _ => 0

def isDone : Task τ E ε α → Bool
  | .done _ => true
  | _ => false

def result? : Task τ E ε α → Option α
  | .done (.ok value) => some value
  | _ => none

end Task

def error? : Except ε α → Option ε
  | .ok _ => none
  | .error error => some error

-- One move of a task: the events it leaves, the permits before and after it, and the failure
-- it ends in. There may be no semaphore.
inductive Move (Runs : τ → List E → Except ε α → Prop) :
    Task τ E ε α → Option Nat → List E → Task τ E ε α → Option Nat → Option ε → Prop
  | start {input : τ} {permits : Option Nat} {s : List E} {o : Except ε α}
      (hfree : permits ≠ some 0) (hrun : Runs input s o) :
      Move Runs (.waiting input) permits [] (.running s o) (permits.map (· - 1)) none
  | act {e : E} {rest : List E} {o : Except ε α} {permits : Option Nat} :
      Move Runs (.running (e :: rest) o) permits [e] (.running rest o) permits none
  | finish {o : Except ε α} {permits : Option Nat} :
      Move Runs (.running [] o) permits [] (.done o) (permits.map (· + 1)) (error? o)

end Pool

open Pool (Task Move)

structure Pool (τ E ε α : Type) where
  tasks : List (Pool.Task τ E ε α)
  permits : Option Nat
  failed : Option ε

namespace Pool

variable {Runs : τ → List E → Except ε α → Prop}

def start (permits : Option Nat) (inputs : List τ) : Pool τ E ε α :=
  ⟨inputs.map .waiting, permits, none⟩

def inFlight (pool : Pool τ E ε α) : Nat := (pool.tasks.map Task.held).sum

def finished (pool : Pool τ E ε α) : Bool := pool.tasks.all Task.isDone

-- What awaiting all tasks comes to: the first failure, or the results in the order of the tasks.
def gathered (pool : Pool τ E ε α) : Option (Except ε (List α)) :=
  match pool.failed with
  | some error => some (.error error)
  | none => (pool.tasks.mapM Task.result?).map .ok

-- Any task that can move may be the next to do so.
inductive Step (Runs : τ → List E → Except ε α → Prop) :
    Pool τ E ε α → List E → Pool τ E ε α → Prop
  | move {before after : List (Task τ E ε α)} {task task' : Task τ E ε α}
      {permits permits' : Option Nat} {failed error : Option ε} {es : List E}
      (h : Move Runs task permits es task' permits' error) :
      Step Runs ⟨before ++ task :: after, permits, failed⟩ es
        ⟨before ++ task' :: after, permits', failed.or error⟩

inductive Steps (Runs : τ → List E → Except ε α → Prop) (pool : Pool τ E ε α) :
    List E → Pool τ E ε α → Prop
  | refl : Steps Runs pool [] pool
  | step {t es : List E} {pool' pool'' : Pool τ E ε α} (h : Steps Runs pool t pool')
      (hstep : Step Runs pool' es pool'') : Steps Runs pool (t ++ es) pool''

-- The permits that are free and those that are held make up the bound.
def Balanced (bound : Option Nat) (pool : Pool τ E ε α) : Prop :=
  pool.permits.map (· + pool.inFlight) = bound

theorem inFlight_split {before after : List (Task τ E ε α)} {task : Task τ E ε α}
    {permits : Option Nat} {failed : Option ε} :
    (Pool.mk (before ++ task :: after) permits failed).inFlight =
      task.held + ((before.map Task.held).sum + (after.map Task.held).sum) := by
  rw [inFlight, List.map_append, List.sum_append, List.map_cons, List.sum_cons, Nat.add_left_comm]

theorem Move.held_eq {task task' : Task τ E ε α} {permits permits' : Option Nat} {es : List E}
    {error : Option ε} (h : Move Runs task permits es task' permits' error) :
    permits'.map (· + task'.held) = permits.map (· + task.held) := by
  cases h with
  | @start _ permits _ _ hfree hrun =>
      cases permits with
      | none => rfl
      | some free =>
          have hpos : free ≠ 0 := fun h => hfree (congrArg some h)
          exact congrArg some (Nat.sub_add_cancel (Nat.pos_of_ne_zero hpos))
  | act => rfl
  | @finish _ permits => exact Option.map_map _ _ permits

theorem balanced_start (bound : Option Nat) (inputs : List τ) :
    Balanced bound (start bound inputs : Pool τ E ε α) := by
  have hidle : (start bound inputs : Pool τ E ε α).inFlight = 0 := by
    rw [inFlight, start, List.map_map]
    refine List.sum_eq_zero_iff_forall_eq_nat.mpr fun n hn => ?_
    obtain ⟨_, -, rfl⟩ := List.mem_map.mp hn
    rfl
  rw [Balanced, hidle]
  exact Option.map_id'

theorem Step.balanced {bound : Option Nat} {pool pool' : Pool τ E ε α} {es : List E}
    (h : Step Runs pool es pool') (hpool : Balanced bound pool) : Balanced bound pool' := by
  cases h with
  | @move before after task task' permits permits' _ _ _ hmove =>
      rw [Balanced, inFlight_split] at hpool ⊢
      rw [← hpool]
      have hheld := congrArg (Option.map (· + ((before.map Task.held).sum +
        (after.map Task.held).sum))) hmove.held_eq
      rw [Option.map_map, Option.map_map] at hheld
      simpa only [Function.comp_def, Nat.add_assoc] using hheld

theorem Steps.balanced {bound : Option Nat} {pool pool' : Pool τ E ε α} {t : List E}
    (h : Steps Runs pool t pool') (hpool : Balanced bound pool) : Balanced bound pool' := by
  induction h with
  | refl => exact hpool
  | step _ hstep ih => exact hstep.balanced ih

theorem Balanced.le {bound : Nat} {pool : Pool τ E ε α} (h : Balanced (some bound) pool) :
    pool.inFlight ≤ bound := by
  obtain ⟨free, -, rfl⟩ := Option.map_eq_some_iff.mp h
  exact Nat.le_add_left _ _

-- Where no permit is free, some task holds one.
theorem Balanced.exists_held {bound : Option Nat} {pool : Pool τ E ε α}
    (h : Balanced bound pool) (hbound : bound ≠ some 0) (hpermits : pool.permits = some 0) :
    ∃ task ∈ pool.tasks, task.held ≠ 0 := by
  by_contra hnone
  have hidle : pool.inFlight = 0 := List.sum_eq_zero_iff_forall_eq_nat.mpr fun n hn => by
    obtain ⟨task, hm, rfl⟩ := List.mem_map.mp hn
    exact of_not_not fun hheld => hnone ⟨task, hm, hheld⟩
  rw [Balanced, hpermits, hidle] at h
  exact hbound h.symm

theorem exists_move_running (rest : List E) (o : Except ε α) (permits : Option Nat) :
    ∃ es task' permits' error, Move Runs (.running rest o) permits es task' permits' error := by
  cases rest with
  | nil => exact ⟨_, _, _, _, .finish⟩
  | cons e rest => exact ⟨_, _, _, _, .act⟩

-- Until all tasks are done, one of them can move.
theorem Balanced.progress {bound : Option Nat} {pool : Pool τ E ε α} (h : Balanced bound pool)
    (hbound : bound ≠ some 0) (hruns : ∀ input, ∃ s o, Runs input s o)
    (hpool : pool.finished = false) : ∃ es pool', Step Runs pool es pool' := by
  obtain ⟨tasks, permits, failed⟩ := pool
  have hmove : ∃ task ∈ tasks, ∃ es task' permits' error,
      Move Runs task permits es task' permits' error := by
    by_cases hfree : permits = some 0
    · obtain ⟨task, hm, hheld⟩ := h.exists_held hbound hfree
      cases task with
      | running rest o => exact ⟨_, hm, exists_move_running rest o permits⟩
      | _ => exact absurd rfl hheld
    · obtain ⟨task, hm, hdone⟩ : ∃ task ∈ tasks, task.isDone = false := by
        simpa [finished] using hpool
      cases task with
      | waiting input =>
          obtain ⟨s, o, hrun⟩ := hruns input
          exact ⟨_, hm, _, _, _, _, .start hfree hrun⟩
      | running rest o => exact ⟨_, hm, exists_move_running rest o permits⟩
      | done o => cases hdone
  obtain ⟨task, hm, es, task', permits', error, hmove⟩ := hmove
  obtain ⟨before, after, rfl⟩ := List.append_of_mem hm
  exact ⟨es, _, .move hmove⟩

-- The starts that are left, and then the moves of the tasks that have started.
def Task.rank : Task τ E ε α → Nat × Nat
  | .waiting _ => (1, 0)
  | .running rest _ => (0, rest.length + 1)
  | .done _ => (0, 0)

def rank (pool : Pool τ E ε α) : Nat × Nat := (pool.tasks.map Task.rank).sum

def Below : Nat × Nat → Nat × Nat → Prop := Prod.Lex (· < ·) (· < ·)

theorem below_wf : WellFounded Below := WellFounded.prod_lex Nat.lt_wfRel.wf Nat.lt_wfRel.wf

theorem below_add_right {a b : Nat × Nat} (h : Below a b) (c : Nat × Nat) :
    Below (a + c) (b + c) := by
  cases h with
  | left _ _ h => exact .left _ _ (Nat.add_lt_add_right h c.1)
  | right _ h => exact .right _ (Nat.add_lt_add_right h c.2)

theorem Move.rank_below {task task' : Task τ E ε α} {permits permits' : Option Nat} {es : List E}
    {error : Option ε} (h : Move Runs task permits es task' permits' error) :
    Below task'.rank task.rank := by
  cases h with
  | start => exact .left _ _ Nat.zero_lt_one
  | act => exact .right _ (Nat.lt_succ_self _)
  | finish => exact .right _ (Nat.lt_succ_self _)

theorem Step.rank_below {pool pool' : Pool τ E ε α} {es : List E} (h : Step Runs pool es pool') :
    Below pool'.rank pool.rank := by
  cases h with
  | move hmove =>
      simp only [rank, List.map_append, List.map_cons, List.sum_append, List.sum_cons,
        add_left_comm _ (Task.rank _)]
      exact below_add_right hmove.rank_below _

theorem Steps.head {pool pool' pool'' : Pool τ E ε α} {es t : List E} (hstep : Step Runs pool es pool')
    (h : Steps Runs pool' t pool'') : Steps Runs pool (es ++ t) pool'' := by
  induction h with
  | refl => simpa using Steps.refl.step hstep
  | step _ hlast ih => simpa using ih.step hlast

-- No run of the pool goes on for ever, and none gets stuck before all tasks are done.
theorem Balanced.completes {bound : Option Nat} (hbound : bound ≠ some 0)
    (hruns : ∀ input, ∃ s o, Runs input s o) (pool : Pool τ E ε α) (h : Balanced bound pool) :
    ∃ t last, Steps Runs pool t last ∧ last.finished = true := by
  induction pool using (InvImage.wf rank below_wf).induction with
  | _ pool ih =>
      cases hpool : pool.finished with
      | true => exact ⟨[], pool, .refl, hpool⟩
      | false =>
          obtain ⟨es, pool', hstep⟩ := h.progress hbound hruns hpool
          obtain ⟨t, last, hlast, hfinished⟩ := ih pool' hstep.rank_below (hstep.balanced h)
          exact ⟨es ++ t, last, .head hstep hlast, hfinished⟩

-- What a task has done so far of a run on its input.
inductive Begun (Runs : τ → List E → Except ε α → Prop) : τ → List E → Task τ E ε α → Prop
  | waiting {input : τ} : Begun Runs input [] (.waiting input)
  | running {input : τ} {s rest : List E} {o : Except ε α} (h : Runs input (s ++ rest) o) :
      Begun Runs input s (.running rest o)
  | done {input : τ} {s : List E} {o : Except ε α} (h : Runs input s o) :
      Begun Runs input s (.done o)

theorem Move.begun {task task' : Task τ E ε α} {permits permits' : Option Nat} {es : List E}
    {error : Option ε} (h : Move Runs task permits es task' permits' error) {input : τ} {s : List E}
    (hbegun : Begun Runs input s task) : Begun Runs input (s ++ es) task' := by
  cases h with
  | start hfree hrun =>
      cases hbegun
      exact .running hrun
  | act =>
      cases hbegun with
      | running h => exact .running (by rwa [List.append_assoc])
  | finish =>
      cases hbegun with
      | running h => exact .done (by rwa [List.append_nil] at h ⊢)

-- The events so far interleave what the tasks have done, each on its own input.
inductive Woven (Runs : τ → List E → Except ε α → Prop) :
    List τ → List E → List (Task τ E ε α) → Prop
  | nil : Woven Runs [] [] []
  | cons {input : τ} {inputs : List τ} {s t u : List E} {task : Task τ E ε α}
      {tasks : List (Task τ E ε α)} (hbegun : Begun Runs input s task)
      (h : Woven Runs inputs t tasks) (hu : Shuffle s t u) :
      Woven Runs (input :: inputs) u (task :: tasks)

theorem woven_start (inputs : List τ) : Woven Runs inputs [] (inputs.map .waiting) := by
  induction inputs with
  | nil => exact .nil
  | cons input rest ih => exact .cons .waiting ih .nil

theorem Woven.move {before after : List (Task τ E ε α)} {task task' : Task τ E ε α}
    {permits permits' : Option Nat} {es u : List E} {error : Option ε} {inputs : List τ}
    (hmove : Move Runs task permits es task' permits' error)
    (h : Woven Runs inputs u (before ++ task :: after)) :
    Woven Runs inputs (u ++ es) (before ++ task' :: after) := by
  induction before generalizing inputs u with
  | nil =>
      cases h with
      | cons hbegun h hu => exact .cons (hmove.begun hbegun) h (hu.extend_left es)
  | cons first before ih =>
      cases h with
      | cons hbegun h hu => exact .cons hbegun (ih h) (hu.extend_right es)

theorem Steps.woven {inputs : List τ} {pool pool' : Pool τ E ε α} {t : List E}
    (h : Steps Runs pool t pool') (hpool : Woven Runs inputs [] pool.tasks) :
    Woven Runs inputs t pool'.tasks := by
  induction h with
  | refl => exact hpool
  | step _ hstep ih =>
      cases hstep with
      | move hmove => exact ih.move hmove

-- Once all tasks are done, each was one run on its input, and the outcomes stand in input order.
theorem Woven.runs {inputs : List τ} {t : List E} {tasks : List (Task τ E ε α)}
    (h : Woven Runs inputs t tasks) (hdone : tasks.all Task.isDone = true) :
    ∃ rs : List (List E × Except ε α),
      List.Forall₂ (fun input r => Runs input r.1 r.2) inputs rs ∧ Shuffles (rs.map Prod.fst) t ∧
      tasks = (rs.map Prod.snd).map .done := by
  induction h with
  | nil => exact ⟨[], .nil, .nil, rfl⟩
  | @cons input inputs s t u task tasks hbegun h hu ih =>
      obtain ⟨htask, htasks⟩ := Bool.and_eq_true_iff.mp hdone
      obtain ⟨rs, hrs, hshuffles, rfl⟩ := ih htasks
      cases hbegun with
      | done hrun => exact ⟨(s, _) :: rs, .cons hrun hrs, .cons hshuffles hu, rfl⟩
      | _ => cases htask

-- A failure was some task's.
def Blames (pool : Pool τ E ε α) : Prop :=
  ∀ error, pool.failed = some error → .done (.error error) ∈ pool.tasks

theorem Step.blames {pool pool' : Pool τ E ε α} {es : List E} (h : Step Runs pool es pool')
    (hpool : Blames pool) : Blames pool' := by
  cases h with
  | @move before after task task' permits permits' failed error es hmove =>
      intro first hfirst
      cases failed with
      | some earlier =>
          have hm := hpool first hfirst
          have hne : .done (.error first) ≠ task := by
            rintro rfl
            cases hmove
          simp only [List.mem_append, List.mem_cons, hne, false_or] at hm ⊢
          tauto
      | none =>
          cases hmove with
          | @finish o _ =>
              cases o with
              | ok value => cases hfirst
              | error own =>
                  obtain rfl := Option.some.inj hfirst
                  exact List.mem_append_right _ List.mem_cons_self
          | _ => cases hfirst

theorem Steps.blames {pool pool' : Pool τ E ε α} {t : List E} (h : Steps Runs pool t pool')
    (hpool : Blames pool) : Blames pool' := by
  induction h with
  | refl => exact hpool
  | step _ hstep ih => exact hstep.blames ih

-- The run of a task that is done is part of the events.
theorem Woven.exists_run {inputs : List τ} {u : List E} {tasks : List (Task τ E ε α)}
    (h : Woven Runs inputs u tasks) {o : Except ε α} (hm : .done o ∈ tasks) :
    ∃ input ∈ inputs, ∃ s, Runs input s o ∧ s.Sublist u := by
  induction h with
  | nil => cases hm
  | cons hbegun _ hu ih =>
      rcases List.mem_cons.mp hm with rfl | hm
      · cases hbegun with
        | done hrun => exact ⟨_, List.mem_cons_self, _, hrun, hu.sublist_left⟩
      · obtain ⟨input, hinput, s, hrun, hsub⟩ := ih hm
        exact ⟨input, List.mem_cons_of_mem _ hinput, s, hrun, hsub.trans hu.sublist_right⟩

-- The first failure stays the first.
theorem Step.failed_eq {pool pool' : Pool τ E ε α} {es : List E} (h : Step Runs pool es pool')
    {error : ε} (hfailed : pool.failed = some error) : pool'.failed = some error := by
  cases h with
  | move =>
      obtain rfl : _ = some error := hfailed
      rfl

theorem Steps.failed_eq {pool pool' : Pool τ E ε α} {t : List E} (h : Steps Runs pool t pool')
    {error : ε} (hfailed : pool.failed = some error) : pool'.failed = some error := by
  induction h with
  | refl => exact hfailed
  | step _ hstep ih => exact hstep.failed_eq ih

-- No task has failed where no failure is on record.
def Records (pool : Pool τ E ε α) : Prop :=
  pool.failed = none → ∀ error, .done (.error error) ∉ pool.tasks

theorem Step.records {pool pool' : Pool τ E ε α} {es : List E} (h : Step Runs pool es pool')
    (hpool : Records pool) : Records pool' := by
  cases h with
  | @move before after task task' permits permits' failed error es hmove =>
      intro hnone later hm
      obtain ⟨hfailed, herror⟩ := Option.or_eq_none_iff.mp hnone
      have hrest := hpool hfailed later
      simp only [List.mem_append, List.mem_cons, not_or] at hm hrest
      rcases hm with hm | rfl | hm
      · exact hrest.1 hm
      · cases hmove with
        | finish => cases herror
      · exact hrest.2.2 hm

theorem Steps.records {pool pool' : Pool τ E ε α} {t : List E} (h : Steps Runs pool t pool')
    (hpool : Records pool) : Records pool' := by
  induction h with
  | refl => exact hpool
  | step _ hstep ih => exact hstep.records ih

theorem records_start (permits : Option Nat) (inputs : List τ) :
    Records (start permits inputs : Pool τ E ε α) := by
  intro _ error hm
  obtain ⟨_, -, h⟩ := List.mem_map.mp hm
  cases h

theorem gathered_ok {pool : Pool τ E ε α} (h : Blames pool) {values : List α}
    (htasks : pool.tasks = (values.map .ok).map .done) : pool.gathered = some (.ok values) := by
  have hfailed : pool.failed = none := Option.eq_none_iff_forall_ne_some.mpr fun error hfailed => by
    have hm := h error hfailed
    rw [htasks] at hm
    obtain ⟨outcome, ho, heq⟩ := List.mem_map.mp hm
    obtain ⟨value, -, rfl⟩ := List.mem_map.mp ho
    cases heq
  have hresults : pool.tasks.mapM Task.result? = some values := by
    rw [htasks, List.mapM_map, List.mapM_map]
    exact (List.mapM_pure (f := id)).trans (congrArg some (List.map_id values))
  rw [gathered, hfailed, hresults]
  rfl

end Pool

end Interaction
