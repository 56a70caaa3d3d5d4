import PerpetuaCore.Graph.Engine
import PerpetuaCore.Interaction.Eval
import PerpetuaCore.Interaction.Pool

namespace PerpetuaCore.Graph.LangChain

open Interaction
open Python (Str Value Dict)

inductive Input where
  | state (state : State)
  | mapping (inputData : Dict Value Value)

-- `_coerce_state`; `validated` is `PerpetuaState(**input_data)`.
def coerceState (validated : Dict Value Value → Except Exn State) : Input → Except Exn State
  | .state state => .ok state
  | .mapping inputData => validated inputData

-- What `ainvoke` does on an input, and what it returns.
def Ainvoke [Sha256] (validated : Dict Value Value → Except Exn State) (g : CompiledGraph)
    (input : Input) (t : Run) (o : Except Exn State) : Prop :=
  match coerceState validated input with
  | .error error => t = [] ∧ o = .error error
  | .ok state => ∃ ended, Exec generating (run g none state) t ended ∧
      o = ended.map fun _ => ainvoke state t

-- `(config or {}).get("max_concurrency")`.
def maxConcurrency (config : Option (Dict Str Value)) : Value :=
  (config.bind (·.get? "max_concurrency")).getD .none

-- The permits there are: `None` makes no semaphore. A bool is no `int` here.
def permitsOf : Value → Except Exn (Option Nat)
  | .none => .ok none
  | .int k =>
      if k ≤ 0 then .error (.valueError ["max_concurrency must be a positive integer"])
      else .ok (some k.toNat)
  | _ => .error (.valueError ["max_concurrency must be a positive integer"])

-- The tasks that `abatch` gathers, none of which has started.
def abatch (config : Option (Dict Str Value)) (inputs : List Input) :
    Except Exn (Pool Input Event Exn State) := do
  let permits ← permitsOf (maxConcurrency config)
  return .start permits inputs

inductive Bounds : Value → Option Nat → Prop
  | unbounded : Bounds .none none
  | bounded {k : Nat} (h : 0 < k) : Bounds (.int k) (some k)

theorem permitsOf_eq_ok {bound : Value} {permits : Option Nat} :
    permitsOf bound = .ok permits ↔ Bounds bound permits := by
  constructor
  · intro h
    cases bound with
    | none =>
        obtain rfl := Except.ok.inj h
        exact .unbounded
    | int k =>
        simp only [permitsOf] at h
        split_ifs at h with hk
        obtain rfl := Except.ok.inj h
        have hcast : ((k.toNat : Nat) : Int) = k := Int.toNat_of_nonneg (by omega)
        rw [← hcast]
        exact .bounded (by omega)
    | _ => cases h
  · rintro (_ | hk)
    · rfl
    · rename_i k
      have hpos : ¬(k : Int) ≤ 0 := by omega
      rw [permitsOf, if_neg hpos, Int.toNat_natCast]

theorem permitsOf_eq_error {bound : Value} (h : ∀ permits, ¬Bounds bound permits) :
    permitsOf bound = .error (.valueError ["max_concurrency must be a positive integer"]) := by
  cases bound with
  | none => exact absurd .unbounded (h none)
  | int k =>
      by_cases hk : k ≤ 0
      · exact if_pos hk
      · have hcast : ((k.toNat : Nat) : Int) = k := Int.toNat_of_nonneg (by omega)
        exact absurd (hcast ▸ .bounded (by omega)) (h (some k.toNat))
  | _ => rfl

theorem Bounds.pos {bound : Value} {permits : Option Nat} (h : Bounds bound permits) :
    permits ≠ some 0 := by
  cases h with
  | unbounded => nofun
  | bounded h =>
      intro hzero
      have := Option.some.inj hzero
      omega

variable [Sha256] (validated : Dict Value Value → Except Exn State) (g : CompiledGraph)

-- Some run answers every operation.
theorem exists_ainvoke (input : Input) : ∃ t o, Ainvoke validated g input t o := by
  unfold Ainvoke
  cases coerceState validated input with
  | error error => exact ⟨[], _, rfl, rfl⟩
  | ok state => exact ⟨_, _, _, exec_simulate (obliging fun _ => .none) _, rfl⟩

-- Every reachable pool keeps to the bound and can be run to its end. There, each task has been
-- a run of the graph on its input; if none failed, the results stand in the order of the inputs.
theorem abatch_spec (config : Option (Dict Str Value)) (inputs : List Input) :
    (∀ permits, Bounds (maxConcurrency config) permits →
      ∃ pool, abatch config inputs = .ok pool ∧
      ∀ t pool', Pool.Steps (Ainvoke validated g) pool t pool' →
        (∀ k, permits = some k → pool'.inFlight ≤ k) ∧
        (pool'.finished = false → ∃ es next, Pool.Step (Ainvoke validated g) pool' es next) ∧
        (∃ t' last, Pool.Steps (Ainvoke validated g) pool' t' last ∧ last.finished = true) ∧
        (pool'.finished = true → ∃ rs : List (Run × Except Exn State),
          List.Forall₂ (fun input r => Ainvoke validated g input r.1 r.2) inputs rs ∧
          Shuffles (rs.map Prod.fst) t ∧
          ∀ results, rs.map Prod.snd = results.map .ok →
            pool'.gathered = some (.ok results))) ∧
    ((∀ permits, ¬Bounds (maxConcurrency config) permits) →
      abatch config inputs =
        .error (.valueError ["max_concurrency must be a positive integer"])) := by
  constructor
  · intro permits hbounds
    refine ⟨.start permits inputs, ?_, fun t pool' hsteps => ?_⟩
    · rw [abatch, permitsOf_eq_ok.mpr hbounds]
      rfl
    · have hbalanced := hsteps.balanced (Pool.balanced_start permits inputs)
      have hruns := exists_ainvoke validated g
      refine ⟨?_, hbalanced.progress hbounds.pos hruns,
        hbalanced.completes hbounds.pos hruns, fun hfinished => ?_⟩
      · rintro k rfl
        exact hbalanced.le
      · obtain ⟨rs, hrs, hshuffles, htasks⟩ := (hsteps.woven (Pool.woven_start inputs)).runs hfinished
        refine ⟨rs, hrs, hshuffles, fun results hresults => ?_⟩
        exact Pool.gathered_ok (hsteps.blames fun _ => nofun) (htasks.trans (hresults ▸ rfl))
  · intro h
    rw [abatch, permitsOf_eq_error h]
    rfl

-- Three inputs of which two may run at a time, the second one still to be validated.
def throttled : List Input :=
  [.state (State.new "r"), .mapping .empty, .state (State.new "s")]

omit [Sha256] in
theorem abatch_spec_throttled :
    letI := Sha256.verbatim
    let runs := Ainvoke (fun _ => .ok (State.new "t")) .diamond
    ∃ pool, abatch (some (Dict.ofList [("max_concurrency", .int 2)])) throttled = .ok pool ∧
      (∀ t pool', Pool.Steps runs pool t pool' → pool'.inFlight ≤ 2) ∧
      ∃ t last, Pool.Steps runs pool t last ∧ last.finished = true := by
  let := Sha256.verbatim
  intro runs
  obtain ⟨pool, hpool, hsteps⟩ := (abatch_spec (fun _ => .ok (State.new "t")) .diamond
    (some (Dict.ofList [("max_concurrency", .int 2)])) throttled).1 (some 2) (.bounded (by decide))
  refine ⟨pool, hpool, fun t pool' ht => (hsteps t pool' ht).1 2 rfl, ?_⟩
  exact (hsteps [] pool .refl).2.2.1

end PerpetuaCore.Graph.LangChain
