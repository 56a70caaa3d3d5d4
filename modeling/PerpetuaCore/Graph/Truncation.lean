import PerpetuaCore.Graph.Engine
import PerpetuaCore.Interaction.Truncation

namespace PerpetuaCore.Graph.Truncation

open Interaction
open Python (Str Value Dict)

-- The graph with another step budget.
def withMaxSteps (g : CompiledGraph) (maxSteps : Int) : CompiledGraph := { g with maxSteps }

def IsMaxSteps (error : Exn) : Prop := ∃ steps lastNode, error = .maxStepsExceeded steps lastNode

variable {g : CompiledGraph} {gate : Option Gate} {small large : Int} {state : State} {steps : Nat}

theorem enterRegion_truncates (hle : small ≤ large) {source : Str} {edge : FanOut} :
    Truncates (S := Gen Core GraphObservation Exn Settled) IsMaxSteps
      (.ofExcept (enterRegion (withMaxSteps g small) source edge state steps))
      (.ofExcept (enterRegion (withMaxSteps g large) source edge state steps)) := by
  by_cases hsmall : small < steps + edge.branches.length
  · have hcut : enterRegion (withMaxSteps g small) source edge state steps =
        .error (.maxStepsExceeded steps source) := if_pos hsmall
    rw [hcut]
    exact .cut ⟨_, _, rfl⟩ _
  · have hlarge : ¬large < steps + edge.branches.length := by omega
    have hsame : enterRegion (withMaxSteps g small) source edge state steps =
        enterRegion (withMaxSteps g large) source edge state steps :=
      (if_neg hsmall).trans (if_neg hlarge).symm
    rw [hsame]

theorem fold_withMaxSteps (maxSteps : Int) : fold (withMaxSteps g maxSteps) = fold g := by
  have hfields : foldFields (withMaxSteps g maxSteps) = foldFields g := by
    funext gate source snapshot request contributed fields folded
    induction fields generalizing folded with
    | nil => rfl
    | cons field rest ih =>
        have hfield : foldField (withMaxSteps g maxSteps) = foldField g := rfl
        simp only [foldFields, hfield, ih]
  funext gate source snapshot admitted request
  rw [fold, fold, hfields]

variable [Sha256]

theorem joinRegion_withMaxSteps (maxSteps : Int) :
    joinRegion (withMaxSteps g maxSteps) = joinRegion g := by
  have hfold : @foldRegion _ (withMaxSteps g maxSteps) = @foldRegion _ g := by
    funext gate source edge state snapshot steps completed progress batchId admitted
    rw [foldRegion, foldRegion, fold_withMaxSteps]
  funext gate source edge state snapshot steps batchId settled
  rw [joinRegion, joinRegion, hfold]

-- Past its own check of the budget a region is the same.
theorem runRegion_truncates (hle : small ≤ large) {source : Str} {edge : FanOut} :
    Truncates IsMaxSteps (runRegion (withMaxSteps g small) gate source edge state steps)
      (runRegion (withMaxSteps g large) gate source edge state steps) := by
  have hsettle : settle (withMaxSteps g small) = settle (withMaxSteps g large) := rfl
  have hjoin : joinRegion (withMaxSteps g small) = joinRegion (withMaxSteps g large) := by
    rw [joinRegion_withMaxSteps, joinRegion_withMaxSteps]
  unfold runRegion
  rw [hsettle, hjoin]
  exact .bind (enterRegion_truncates hle) fun _ => .refl _

theorem followRegion_truncates (hle : small ≤ large) {node : Str} :
    Truncates IsMaxSteps (followRegion (withMaxSteps g small) gate node state steps)
      (followRegion (withMaxSteps g large) gate node state steps) := by
  have hedge : (withMaxSteps g large).edgeOf node = (withMaxSteps g small).edgeOf node := rfl
  unfold followRegion
  rw [hedge]
  split
  · exact .bind (runRegion_truncates hle) fun _ => .refl _
  · exact .refl _

theorem loopFrom_end {fuel : Nat} {lastNode : Str} :
    loopFrom g gate fuel END state steps lastNode = finish state steps := by
  cases fuel <;> rw [loopFrom, if_pos rfl]

-- The larger budget leaves fuel wherever it leaves steps.
theorem loopFrom_truncates (hle : small ≤ large) {fuel fuel' : Nat} {node lastNode : Str}
    (hfuel : (large - steps).toNat ≤ fuel') :
    Truncates IsMaxSteps (loopFrom (withMaxSteps g small) gate fuel node state steps lastNode)
      (loopFrom (withMaxSteps g large) gate fuel' node state steps lastNode) := by
  induction fuel generalizing fuel' node state steps lastNode with
  | zero =>
      rw [loopFrom]
      split_ifs with hend
      · rw [hend, loopFrom_end]
      · exact .cut ⟨_, _, rfl⟩ _
      · exact .cut ⟨_, _, rfl⟩ _
  | succ fuel ih =>
      rw [loopFrom]
      split_ifs with hend hsmall
      · rw [hend, loopFrom_end]
      · exact .cut ⟨_, _, rfl⟩ _
      · have hsteps : (steps : Int) < large := lt_of_lt_of_le (not_le.mp hsmall) hle
        obtain ⟨fuel', rfl⟩ : ∃ n, fuel' = n + 1 := Nat.exists_eq_succ_of_ne_zero (by omega)
        have hlarge : ¬(withMaxSteps g large).maxSteps ≤ steps := not_le.mpr hsteps
        rw [loopFrom, if_neg hend, if_neg hlarge]
        refine .after _ ?_
        rintro (_ | published)
        · exact .refl _
        refine .bind (followRegion_truncates hle) ?_
        rintro (_ | ⟨result, edge⟩)
        · exact .refl _
        refine .after _ ?_
        rintro (_ | ⟨target, routed⟩)
        · exact .refl _
        have hprogress := result.progress
        exact ih (by omega)

theorem run_truncates (hle : small ≤ large) :
    Truncates IsMaxSteps (run (withMaxSteps g small) gate state)
      (run (withMaxSteps g large) gate state) := by
  refine .after _ ?_
  rintro (_ | ⟨node, routed⟩)
  · exact .refl _
  · exact loopFrom_truncates hle le_rfl

omit [Sha256] in
theorem generating_total (op : (Gen Core GraphObservation Exn Settled).Op) :
    ∃ t answer, generating op t answer :=
  ⟨_, _, generating_handler (obliging fun _ => .dict []) op⟩

-- The budget only ever cuts a run short: under a smaller one a run is the same, event for event
-- and to its outcome, or it raises `MaxStepsExceeded` where the larger one goes on.
theorem maxSteps_truncates (hle : small ≤ large) (t : Run) (o : Except Exn Unit) :
    (Exec generating (run (withMaxSteps g small) gate state) t o →
      Exec generating (run (withMaxSteps g large) gate state) t o ∨
      ∃ steps lastNode, o = .error (.maxStepsExceeded steps lastNode) ∧
        ∃ u o', Exec generating (run (withMaxSteps g large) gate state) (t ++ u) o') ∧
    (Exec generating (run (withMaxSteps g large) gate state) t o →
      Exec generating (run (withMaxSteps g small) gate state) t o ∨
      ∃ s u steps lastNode, t = s ++ u ∧
        Exec generating (run (withMaxSteps g small) gate state) s
          (.error (.maxStepsExceeded steps lastNode))) := by
  constructor
  · intro he
    rcases (run_truncates hle).extends_to generating_total he with hq | ⟨_, ⟨steps, last, rfl⟩, ho, hmore⟩
    · exact .inl hq
    · exact .inr ⟨steps, last, ho, hmore⟩
  · intro he
    rcases (run_truncates hle).restricts_to he with hp | ⟨s, u, _, ht, ⟨steps, last, rfl⟩, hp⟩
    · exact .inl hp
    · exact .inr ⟨s, u, steps, last, ht, hp⟩

omit [Sha256] in
theorem maxSteps_truncates_diamond :
    letI := Sha256.verbatim
    let budget := fun maxSteps => run (withMaxSteps .diamond maxSteps) none (State.new "s")
    let cut := (budget 2).simulate (obliging fun _ => .dict [])
    let whole := (budget 5).simulate (obliging fun _ => .dict [])
    (Exec generating (budget 5) cut.1 cut.2 ∨
      ∃ steps lastNode, cut.2 = .error (.maxStepsExceeded steps lastNode) ∧
        ∃ u o', Exec generating (budget 5) (cut.1 ++ u) o') ∧
    (Exec generating (budget 2) whole.1 whole.2 ∨
      ∃ s u steps lastNode, whole.1 = s ++ u ∧
        Exec generating (budget 2) s (.error (.maxStepsExceeded steps lastNode))) := by
  let := Sha256.verbatim
  intro budget cut whole
  have hle : (2 : Int) ≤ 5 := by decide
  exact ⟨(maxSteps_truncates hle _ _).1 (exec_simulate _ _),
    (maxSteps_truncates hle _ _).2 (exec_simulate _ _)⟩

end PerpetuaCore.Graph.Truncation
