import PerpetuaCore.Graph.Calls
import PerpetuaCore.Graph.Rules

namespace PerpetuaCore.Graph.Budget

open Interaction
open Python (Str Value Dict)

-- A node callable receives control, in the loop or as a branch.
def executes : Event → Bool
  | .enter (.node ..) | .enter (.branch ..) => true
  | _ => false

-- A branch that received control settles with an error.
def fails : Event → Bool
  | .leave (.branch ..) reply =>
      match (reply : Reply).result with
      | .ok (.dict _) => false
      | _ => true
  | _ => false

-- The executions so far, the branches that failed since the last region was opened, and those
-- that failed in regions that were committed all the same.
structure Tally where
  executed : Nat
  failed : Nat
  tolerated : Nat
  deriving DecidableEq

def Tally.observe (tally : Tally) (observation : GraphObservation) : Tally :=
  match observation.event.kind with
  | .superstepStart => { tally with failed := 0 }
  | .superstepCommit => { tally with tolerated := tally.tolerated + tally.failed }
  | _ => tally

def Tally.add (tally : Tally) : Event → Tally
  | .emit observation => tally.observe observation
  | event =>
      { tally with
        executed := tally.executed + if executes event then 1 else 0
        failed := tally.failed + if fails event then 1 else 0 }

def tally (t : Run) : Tally := t.foldl Tally.add ⟨0, 0, 0⟩

theorem tally_append (s t : Run) : tally (s ++ t) = t.foldl Tally.add (tally s) :=
  List.foldl_append

theorem tally_executed (t : Run) : (tally t).executed = t.countP executes := by
  have hfrom : ∀ τ : Tally, (t.foldl Tally.add τ).executed = τ.executed + t.countP executes := by
    induction t with
    | nil => exact fun _ => rfl
    | cons e t ih =>
        intro τ
        rw [List.foldl_cons, ih, List.countP_cons]
        cases e with
        | emit observation =>
            have hshow : (τ.observe observation).executed = τ.executed := by
              unfold Tally.observe
              split <;> rfl
            simp [Tally.add, hshow, executes]
        | act op answer =>
            simp only [Tally.add]
            omega
  rw [tally, hfrom, Nat.zero_add]

-- Exchanges that no node callable takes part in.
def calm : Op → Prop
  | .enter (.node ..) | .enter (.branch ..) | .leave (.branch ..) => False
  | _ => True

theorem calm_of_aside {op : Op} (h : aside op) : calm op := by
  cases op with
  | enter callable => cases callable <;> exact h
  | leave callable => cases callable <;> first | exact h | trivial
  | _ => trivial

abbrev calmKinds : List EventKind := [.nodeStart, .nodeEnd, .edgeSelected, .interrupt, .done, .stopped]

theorem add_calm {τ : Tally} {op : Op} {answer : Core.Ans op} (h : calm op) :
    τ.add (.act (S := Core) op answer) = τ := by
  cases op with
  | enter callable | leave callable => cases callable <;> first | rfl | exact h.elim
  | _ => rfl

theorem add_shown {τ : Tally} {observation : GraphObservation} (h : shows calmKinds observation) :
    τ.add (.emit observation) = τ := by
  unfold shows at h
  unfold Tally.add Tally.observe
  dsimp only
  split <;> rename_i hkind <;> first | rfl | (rw [hkind] at h; exact absurd h (by decide))

variable {g : CompiledGraph} {gate : Option Gate} {source : Str} {edge : FanOut}
  {state snapshot : State} {steps : Nat} {h : Run}

theorem tally_still {α : Type} {p : Scheduler α} {t : Run} {o : Except Exn α}
    (he : Exec generating p t o) (hp : p.Asks (Does calm (shows calmKinds))) (τ : Tally) :
    t.foldl Tally.add τ = τ := by
  obtain ⟨hacts, hshown⟩ := Does.events he hp
  clear he hp
  induction t with
  | nil => rfl
  | cons e t ih =>
      have hrest := ih (fun op answer hm => hacts op answer (List.mem_cons_of_mem _ hm))
      rw [List.foldl_cons]
      cases e with
      | emit observation =>
          rw [add_shown (hshown observation (by simp))]
          exact hrest fun value hm => hshown value (by simp [hm])
      | act op answer =>
          rw [add_calm (hacts op answer List.mem_cons_self)]
          exact hrest fun value hm => hshown value (by simpa using hm)

-- The budget as far as it binds: an execution beyond it was bought by a tolerated failure.
def Within (g : CompiledGraph) (t : Run) : Prop :=
  ((tally t).executed : Int) ≤ g.maxSteps + (tally t).tolerated

theorem still {α : Type} {p : Scheduler α} (hp : p.Asks (Does calm (shows calmKinds)))
    (hw : Within g h) :
    Ensures generating (fun _ => Within g) p (fun _ t => tally t = tally h) h := by
  intro t o he
  have ht : tally (h ++ t) = tally h := by rw [tally_append, tally_still he hp]
  cases o with
  | ok value => exact ht
  | error exc => exact (congrArg (fun τ : Tally => (τ.executed : Int) ≤ g.maxSteps + τ.tolerated) ht).mpr hw

theorem calmly {α : Type} {p : Step α} (hp : p.Asks calm) (hw : Within g h) :
    Ensures generating (fun _ => Within g) (p.lift : Scheduler α) (fun _ t => tally t = tally h) h :=
  still (Does.lift hp) hw

theorem within_of_eq {t : Run} (ht : tally t = tally h) (hw : Within g h) : Within g t := by
  rw [Within, ht]
  exact hw

theorem tally_emit {t : Run} {observation : GraphObservation} (hs : shows calmKinds observation) :
    tally (t ++ [.emit observation]) = tally t := by
  rw [tally_append]
  exact add_shown hs

theorem stopped_shown {node : Str} {decision : GateDecision} {observation : GraphObservation}
    (ho : stopped state node steps decision = .ok observation) : shows calmKinds observation := by
  obtain ⟨closed, -, rfl⟩ := stopped_eq ho
  simp [shows]

-- All budgeted executions are those of the steps counted and of tolerated failures.
structure Level (g : CompiledGraph) (steps : Nat) (t : Run) : Prop where
  counted : (tally t).executed = steps + (tally t).tolerated
  bounded : (steps : Int) ≤ g.maxSteps

theorem Level.within (hl : Level g steps h) : Within g h := by
  have hcounted := hl.counted
  have hbounded := hl.bounded
  unfold Within
  omega

theorem Level.of_eq {t : Run} (hl : Level g steps h) (ht : tally t = tally h) : Level g steps t :=
  ⟨by rw [ht]; exact hl.counted, hl.bounded⟩

theorem orStop_within {α : Type} {node : Str} {decision : Option GateDecision}
    {next : Scheduler (Option α)} {R : α → Run → Prop} (hw : Within g h)
    (hnext : Ensures generating (fun _ => Within g) next (Rule.Goes (Within g) R) h) :
    Ensures generating (fun _ => Within g) (orStop state node steps decision next)
      (Rule.Goes (Within g) R) h :=
  Rule.orStop (fun _ => hnext)
    (fun _ _ _ ho => within_of_eq (tally_emit (stopped_shown ho)) hw) fun _ _ _ => hw

section Node

variable [Sha256]

theorem runNode_level {node : Str} (hl : Level g steps h) (hbudget : (steps : Int) < g.maxSteps) :
    Ensures generating (fun _ => Within g) (runNode g gate node state steps)
      (Rule.Goes (Within g) fun _ => Level g (steps + 1)) h := by
  have hw := hl.within
  refine .bind (.ofExcept (fun fn _ => ?_) fun _ _ => hw)
  refine .bind (.ofExcept (fun visited _ => ?_) fun _ _ => hw)
  have hstart : tally (h ++ [.emit (nodeStarted steps visited node)]) = tally h :=
    tally_emit (by simp [shows, nodeStarted])
  refine .bind (.emit ?_)
  refine .andThen (calmly (dispatch_asks trivial) (within_of_eq hstart hw)) fun asked t ht => ?_
  rw [hstart] at ht
  refine orStop_within (within_of_eq ht hw) ?_
  refine .andThen (calmly (beforeStart_asks fun _ _ => trivial) (within_of_eq ht hw)) fun _ u hu => ?_
  rw [ht] at hu
  refine .bind (.lift (Rule.invoke fun reply => ?_))
  have hcalled : Level g (steps + 1)
      (u ++ [Event.enter (.node node fn visited), Event.leave (.node node fn visited) reply]) := by
    have hcounted := hl.counted
    constructor
    · rw [tally_append, hu]
      simp only [List.foldl_cons, List.foldl_nil, Tally.add, executes, fails, if_true, Bool.false_eq_true,
        if_false]
      omega
    · omega
  have hdoes : (finishNode gate node steps reply).Asks (Does calm (shows calmKinds)) :=
    Does.mono finishNode_does (fun _ => calm_of_aside) fun _ hs => by
      simp only [shows, List.mem_cons, List.not_mem_nil, or_false] at hs ⊢
      tauto
  refine (still hdoes hcalled.within).mono ?_ fun _ _ hw => hw
  rintro (_ | state) t ht
  · exact within_of_eq ht hcalled.within
  · exact hcalled.of_eq ht

end Node

-- One branch: it is called at most once, and called it either succeeds or fails.
structure Counts (s : Run) (o : Except Exn Settled) : Prop where
  once : s.countP executes ≤ 1
  settled : ∀ item, o = .ok item → s.countP executes = (if item.ok then 1 else 0) + s.countP fails

-- Nothing has been called yet.
def Uncalled (t : Run) : Prop := t.countP executes = 0 ∧ t.countP fails = 0

theorem uncalled {α : Type} {p : Step α} (hp : p.Asks calm) (hu : Uncalled h) :
    Ensures acting (fun _ => Uncalled) p (fun _ => Uncalled) h := by
  refine .asks hp (fun h op answer hop hu => ?_) hu
  have hquiet : executes (.act (S := Core) op answer) = false ∧ fails (.act (S := Core) op answer) = false := by
    cases op with
    | enter callable | leave callable => cases callable <;> first | exact ⟨rfl, rfl⟩ | exact hop.elim
    | _ => exact ⟨rfl, rfl⟩
  simpa [Uncalled, hquiet.1, hquiet.2] using hu

theorem runBranch_counts {name : Str} (hu : Uncalled h) :
    Ensures acting (fun exc t => Counts t (.error exc)) (runBranch g source snapshot name)
      (fun item t => Counts t (.ok item)) h := by
  obtain ⟨hexecuted, hfailed⟩ := hu
  unfold runBranch
  cases nodeFor g name with
  | error exc =>
      refine .ret ⟨by omega, fun item hi => ?_⟩
      cases hi
      simp [hexecuted, hfailed, Settled.ok, Settled.error?]
  | ok fn =>
      refine .bind (Rule.invoke fun reply => ?_)
      have hcount : ∀ o : Except Exn Settled, (∀ item, o = .ok item →
            item.ok = !fails (Event.leave (.branch source name fn snapshot) reply)) →
          Counts (h ++ [Event.enter (.branch source name fn snapshot),
            Event.leave (.branch source name fn snapshot) reply]) o := by
        intro o ho
        constructor
        · simp [hexecuted, executes, List.countP_append, List.countP_cons]
        · intro item hi
          rw [ho item hi]
          have henter : fails (Event.enter (.branch source name fn snapshot)) = false := rfl
          cases hf : fails (Event.leave (.branch source name fn snapshot) reply) <;>
            simp [hexecuted, hfailed, hf, henter, executes, List.countP_append, List.countP_cons]
      split
      · rename_i exc hresult
        split_ifs
        · refine .ret (hcount _ fun item hi => ?_)
          cases hi
          simp [fails, hresult, Settled.ok, Settled.error?]
        · exact .raise (hcount _ nofun)
      · rename_i value hresult
        refine .ret (hcount _ fun item hi => ?_)
        cases hi
        cases value <;> simp [fails, hresult, Settled.ok, Settled.error?, requireDelta]

theorem branchCall_counts {batchId name : Str} {t : Run} {o : Except Exn Settled}
    (he : Exec acting (branchCall g gate source batchId snapshot steps name) t o) : Counts t o := by
  have hcall : Ensures acting (fun exc t => Counts t (.error exc))
      (branchCall g gate source batchId snapshot steps name) (fun item t => Counts t (.ok item)) [] := by
    have hnone : Uncalled [] := ⟨rfl, rfl⟩
    have hraise : ∀ exc t, Uncalled t → Counts t (.error exc) :=
      fun _ _ hu => ⟨by rw [hu.1]; exact Nat.zero_le 1, nofun⟩
    have hwithheld : ∀ exc t, Uncalled t → Counts t (.ok ⟨name, .error exc⟩) := by
      refine fun exc t hu => ⟨by rw [hu.1]; exact Nat.zero_le 1, fun item hi => ?_⟩
      cases hi
      simp [hu.1, hu.2, Settled.ok, Settled.error?]
    unfold branchCall
    split_ifs
    · refine .andThen ((uncalled (attemptException_asks (dispatch_asks trivial)) hnone).mono
        (fun _ _ hu => hu) hraise) ?_
      rintro (exc | ⟨_ | decision, request⟩) t hu
      · exact .ret (hwithheld _ _ hu)
      · refine .andThen ((uncalled (attemptException_asks (beforeStart_asks fun _ _ => trivial)) hu).mono
          (fun _ _ hu => hu) hraise) ?_
        rintro (exc | _) t hu
        · exact .ret (hwithheld _ _ hu)
        · exact runBranch_counts hu
      · exact .ret (hwithheld _ _ hu)
    · exact runBranch_counts hnone
  have hend := hcall t o he
  cases o <;> exact hend

theorem interleaved_counts {names : List Str} {batchId : Str} {u : Run} {os : List (Except Exn Settled)}
    (hi : Interleaved acting (names.map (branchCall g gate source batchId snapshot steps)) u os) :
    u.countP executes ≤ names.length ∧ ∀ settled : List Settled, os = settled.map .ok →
      u.countP executes = settled.countP Settled.ok + u.countP fails := by
  induction names generalizing u os with
  | nil =>
      cases hi
      refine ⟨le_rfl, fun settled hs => ?_⟩
      obtain rfl := List.map_eq_nil_iff.mp hs.symm
      rfl
  | cons name rest ih =>
      cases hi with
      | @cons _ _ s t _ o os hs ht hu =>
          obtain ⟨hlength, hsettled⟩ := ih ht
          obtain ⟨honce, hitem⟩ := branchCall_counts hs
          rw [hu.perm.countP_eq, hu.perm.countP_eq, List.countP_append, List.countP_append,
            List.length_cons]
          refine ⟨by omega, fun settled hos => ?_⟩
          cases settled with
          | nil => cases hos
          | cons item settled =>
              obtain ⟨ho, hos⟩ := List.cons.inj hos
              rw [List.countP_cons, hsettled settled hos, hitem item ho]
              omega

theorem tally_acts {t : Run} (ht : observations t = []) (τ : Tally) :
    t.foldl Tally.add τ =
      ⟨τ.executed + t.countP executes, τ.failed + t.countP fails, τ.tolerated⟩ := by
  induction t generalizing τ with
  | nil => rfl
  | cons e t ih =>
      cases e with
      | emit observation => cases ht
      | act op answer =>
          rw [List.foldl_cons, ih ht, List.countP_cons, List.countP_cons]
          simp only [Tally.add, Tally.mk.injEq, and_true]
          omega

-- A region whose branches have settled: `completed` counts those that succeeded, too.
structure Joining (g : CompiledGraph) (completed : Nat) (t : Run) : Prop where
  counted : (tally t).executed = completed + (tally t).failed + (tally t).tolerated
  bounded : (completed : Int) ≤ g.maxSteps
  within : Within g t

theorem Joining.of_eq {completed : Nat} {t : Run} (hj : Joining g completed h) (ht : tally t = tally h) :
    Joining g completed t :=
  ⟨by rw [ht]; exact hj.counted, hj.bounded, within_of_eq ht hj.within⟩

section Region

variable [Sha256] {completed : Nat} {batchId : Str} {admitted : List (Str × Delta)}

theorem publishRegion_level {progress : steps ≤ completed} {merged : Delta} {provenance : Provenance}
    (hj : Joining g completed h) :
    Ensures generating (fun _ => Within g)
      (publishRegion gate source edge state snapshot steps completed progress batchId admitted merged
        provenance)
      (Rule.Goes (Within g) fun result => Level g result.steps) h := by
  refine .andThen (calmly (commit_asks fun _ => trivial) hj.within) fun asked t ht => ?_
  have hw := within_of_eq ht hj.within
  refine orStop_within hw (.bind (.ofExcept (fun committed _ => ?_) fun _ _ => hw))
  refine .andThen (calmly (.attempt (afterCommit_asks fun _ => trivial)) hw) fun settlement u hu => ?_
  refine .bind (.emitAll (.bind (.emit ?_)))
  have hended : tally (u ++ admitted.map fun item => .emit (nodeEnded completed committed item)) =
      tally h := by
    rw [tally_append, hu, ht]
    generalize tally h = τ
    induction admitted with
    | nil => rfl
    | cons item rest ih =>
        rw [List.map_cons, List.foldl_cons, add_shown (by simp [shows, nodeEnded])]
        exact ih
  have hl : Level g completed ((u ++ admitted.map fun item =>
      .emit (nodeEnded completed committed item)) ++
      [.emit (superstepCommitted source edge completed (admitted.map Prod.fst) committed merged
        provenance)]) := by
    have hcounted := hj.counted
    constructor
    · rw [tally_append, hended]
      simp only [List.foldl_cons, List.foldl_nil, Tally.add, Tally.observe, superstepCommitted]
      omega
    · exact hj.bounded
  exact .bind (.ofExcept (fun _ _ => .ret hl) fun _ _ => hl.within)

theorem foldRegion_level {progress : steps ≤ completed} (hj : Joining g completed h) :
    Ensures generating (fun _ => Within g)
      (foldRegion g gate source edge state snapshot steps completed progress batchId admitted)
      (Rule.Goes (Within g) fun result => Level g result.steps) h := by
  refine .andThen (calmly (dispatch_asks trivial) hj.within) fun asked t ht => ?_
  have hw := within_of_eq ht hj.within
  refine orStop_within hw ?_
  refine .andThen (calmly (catchBoundaryStop_asks (fold_asks (fun _ _ => ⟨trivial, trivial⟩)
    fun _ _ _ _ => ⟨trivial, trivial⟩)) hw) fun folded u hu => ?_
  rw [ht] at hu
  have hw := within_of_eq hu hj.within
  rcases folded with decision | ⟨merged, provenance⟩
  · exact orStop_within hw (.ret hw)
  · exact .bind (.ofExcept (fun _ _ => publishRegion_level (hj.of_eq hu)) fun _ _ => hw)

theorem joinRegion_level {settled : List Settled}
    (hj : Joining g (steps + settled.countP Settled.ok) h) :
    Ensures generating (fun _ => Within g)
      (joinRegion g gate source edge state snapshot steps batchId settled)
      (Rule.Goes (Within g) fun result => Level g result.steps) h := by
  refine .bind (.ofExcept (fun verdict _ => orStop_within hj.within ?_) fun _ _ => hj.within)
  split
  · refine .bind (.ofExcept (fun _ _ => .bind (.emit (.ret ?_))) fun _ _ => hj.within)
    exact within_of_eq (tally_emit (by simp [shows])) hj.within
  · refine .andThen (calmly (askJoin_asks fun _ _ => trivial) hj.within) fun asked t ht => ?_
    refine orStop_within (within_of_eq ht hj.within) ?_
    refine .andThen (calmly (beforeStart_asks fun _ _ => trivial) (within_of_eq ht hj.within))
      fun _ u hu => ?_
    rw [ht] at hu
    refine .andThen (calmly (admit_asks fun _ _ => ⟨trivial, trivial⟩) (within_of_eq hu hj.within))
      fun admitted v hv => ?_
    rw [hu] at hv
    exact foldRegion_level (hj.of_eq hv)

omit [Sha256] in
theorem enterRegion_fits (he : enterRegion g source edge state steps = .ok snapshot) :
    (steps + edge.branches.length : Int) ≤ g.maxSteps := by
  by_contra hfits
  rw [enterRegion, if_pos (not_le.mp hfits)] at he
  cases he

theorem runRegion_level (hl : Level g steps h) :
    Ensures generating (fun _ => Within g) (runRegion g gate source edge state steps)
      (Rule.Goes (Within g) fun result => Level g result.steps) h := by
  refine .bind (.ofExcept (fun snapshot hs => ?_) fun _ _ => hl.within)
  have hfits := enterRegion_fits hs
  refine .bind (.bind (.emit (.emitAll ?_)))
  have hopen : ∀ names : List Str, tally ((h ++ [.emit (superstepStarted source edge steps snapshot)]) ++
      names.map fun name => .emit (nodeStarted steps snapshot name)) =
      { tally h with failed := 0 } := by
    intro names
    rw [tally_append, tally_append]
    generalize tally h = τ
    induction names with
    | nil => rfl
    | cons name rest ih =>
        rw [List.map_cons, List.foldl_cons, add_shown (by simp [shows, nodeStarted])]
        exact ih
  have hopened := hopen edge.branches
  have hw : Within g ((h ++ [.emit (superstepStarted source edge steps snapshot)]) ++
      edge.branches.map fun name => .emit (nodeStarted steps snapshot name)) := by
    rw [Within, hopened]
    exact hl.within
  refine .andThen (calmly (.call trivial) hw) fun batchId t ht => ?_
  refine .andThen (calmly (dispatch_asks trivial) (within_of_eq ht hw)) fun asked u hu => ?_
  rw [ht, hopened] at hu
  have hcounted := hl.counted
  have hbounded := hl.bounded
  refine orStop_within ?_ ?_
  · rw [Within, hu]
    exact hl.within
  refine .bind (.bind (.fork fun v outcomes hi => ?_))
  obtain ⟨hstarted, hsettled⟩ := interleaved_counts hi
  have hrun := tally_acts (interleaved_observations hi) (tally u)
  rw [← tally_append, hu] at hrun
  have hw : Within g (u ++ v) := by
    rw [Within, hrun]
    dsimp only
    omega
  refine .ofExcept (fun settled hr => ?_) fun _ _ => hw
  have hsum := hsettled settled (results_ok hr)
  refine joinRegion_level ⟨?_, ?_, hw⟩
  · rw [hrun]
    dsimp only
    omega
  · omega

theorem followRegion_level {node : Str} (hl : Level g steps h) :
    Ensures generating (fun _ => Within g) (followRegion g gate node state steps)
      (Rule.Goes (Within g) fun next => Level g next.1.steps) h := by
  unfold followRegion
  split
  · refine .andThen (runRegion_level hl) ?_
    rintro (_ | result) t hq
    · exact .ret hq
    · exact .ret hq
  · exact .ret hl

omit [Sha256] in
theorem route_level {node : Str} {edge : Edge} (hl : Level g steps h) :
    Ensures generating (fun _ => Within g) (route g gate node edge state steps)
      (Rule.Goes (Within g) fun _ => Level g steps) h := by
  have hdoes : (route g gate node edge state steps).Asks (Does calm (shows calmKinds)) :=
    Does.mono route_does (fun _ => calm_of_aside) fun _ hs => by
      simp only [shows, List.mem_cons, List.not_mem_nil, or_false] at hs ⊢
      rcases hs with hs | hs <;> simp [hs]
  refine (still hdoes hl.within).mono ?_ fun _ _ hw => hw
  rintro (_ | next) t ht
  · exact within_of_eq ht hl.within
  · exact hl.of_eq ht

omit [Sha256] in
theorem finish_within (hl : Level g steps h) :
    Ensures generating (fun _ => Within g) (finish state steps) (fun _ => Within g) h := by
  have hdoes : (finish state steps).Asks (Does calm (shows calmKinds)) :=
    Does.mono finish_does (fun _ => calm_of_aside) fun _ hs => by
      simp only [shows, List.mem_singleton] at hs
      simp [shows, hs]
  exact (still hdoes hl.within).mono (fun _ _ ht => within_of_eq ht hl.within) fun _ _ hw => hw

-- Executions stay within the budget, those apart that failed in a region and were tolerated.
theorem run_within {t : Run} {o : Except Exn Unit} (hm : 0 ≤ g.maxSteps)
    (he : Exec generating (run g gate state) t o) : Within g t := by
  have hstart : Level g 0 [] := ⟨rfl, hm⟩
  have hrun : Ensures generating (fun _ => Within g) (run g gate state) (fun _ => Within g) [] := by
    refine Rule.run (I := fun _ _ steps _ => Level g steps) (J := fun _ _ steps => Level g steps)
      (K := fun _ _ _ steps => Level g steps) (route_level hstart) ?_ ?_ ?_ ?_ ?_
    · exact fun _ _ _ _ hl => finish_within hl
    · exact fun _ _ _ _ _ hl _ => hl.within
    · exact fun _ _ _ _ _ hl _ hbudget => runNode_level hl hbudget
    · exact fun _ _ _ _ hl => followRegion_level hl
    · exact fun _ _ _ _ _ hl => route_level hl
  have hend := hrun t o he
  cases o <;> exact hend

end Region

-- A region that is committed although one of its branches failed, and then one node more.
def lenient : CompiledGraph where
  nodes := ⟨[("a", ⟨0, none, none⟩), ("b", ⟨1, none, none⟩), ("c", ⟨2, none, none⟩),
    ("d", ⟨3, none, none⟩)], by decide⟩
  edges := ⟨[(START, .static "a"), ("a", .fanout { FanOut.pair with
    thenNode := "d", join := .any, continues := List.cons_ne_nil _ _, attainable := nofun })], by decide⟩
  maxSteps := 3

def failingBranch : Handler Core
  | .leave (.branch _ name _ state) =>
      if name = "c" then ⟨.error (.other "ValueError" none none 0), state⟩ else ⟨.ok (.dict []), state⟩
  | op => obliging (fun _ => .dict []) op

-- Only branches that succeeded are counted as steps, so the failures a join tolerates come on
-- top of the budget, and nothing else does.
theorem executions_bounded [Sha256] {t : Run} {o : Except Exn Unit} (hm : 0 ≤ g.maxSteps)
    (he : Exec generating (run g gate state) t o) :
    (t.countP executes : Int) ≤ g.maxSteps + (tally t).tolerated := by
  have hw := run_within hm he
  rwa [Within, tally_executed] at hw

theorem executions_bounded_lenient :
    letI := Sha256.verbatim
    let t := ((run lenient (some ⟨true, true⟩) (State.new "s")).simulate failingBranch).1
    (tally t).tolerated = 1 ∧ (t.countP executes : Int) ≤ 3 + (tally t).tolerated := by
  let := Sha256.verbatim
  intro t
  exact ⟨by decide +kernel, executions_bounded (by decide) (exec_simulate failingBranch _)⟩

theorem failed_branch_uncounted :
    ¬∀ [Sha256] (g : CompiledGraph) (gate : Option Gate) (state : State) (t : Run) (o : Except Exn Unit),
      0 ≤ g.maxSteps → Exec generating (run g gate state) t o →
        (t.countP executes : Int) ≤ g.maxSteps := by
  intro h
  let := Sha256.verbatim
  have hcount : ((run lenient none (State.new "s")).simulate failingBranch).1.countP executes = 4 := by
    decide +kernel
  have hbound := h lenient none (State.new "s") _ _ (by decide) (exec_simulate failingBranch _)
  rw [hcount] at hbound
  exact absurd hbound (by decide)

end PerpetuaCore.Graph.Budget
