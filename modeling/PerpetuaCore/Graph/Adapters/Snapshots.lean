import PerpetuaCore.Graph.Adapters.LangChain
import PerpetuaCore.Graph.Admission
import PerpetuaCore.Graph.Conformance

namespace PerpetuaCore.Graph.LangChain

open Interaction
open Python (Str Value Dict)

def snapshot? (observation : GraphObservation) : Option State :=
  match observation.event.kind with
  | .nodeEnd | .interrupt => some observation.state
  | _ => none

-- The states `astream` has yielded.
def snapshots (t : Run) : List State := (observations t).filterMap snapshot?

-- What `astream` yields on an input, and how it ends.
def Astream [Sha256] (validated : Dict Value Value → Except Exn State) (g : CompiledGraph) (input : Input)
    (yielded : List State) (o : Except Exn Unit) : Prop :=
  match coerceState validated input with
  | .error error => yielded = [] ∧ o = .error error
  | .ok state => ∃ t, Exec generating (run g none state) t o ∧ yielded = snapshots t

-- Every router left the state as it was handed it.
def Untouched (t : Run) : Prop :=
  ∀ source fn state reply, Event.leave (.router source fn state) reply ∈ t → (reply : Reply).left = state

-- The state yielded last.
def latest (initial : State) (t : Run) : State := (snapshots t).getLast?.getD initial

-- The run ended in an interrupt, which was yielded, or it is done, or application code raised
-- one of the stops a gate gives rise to.
def Ended (initial : State) (t : Run) : Prop :=
  ∃ last, (observations t).getLast? = some last ∧
    (last.event.kind = .interrupt ∧ (snapshots t).getLast? = some last.state ∨
      last.event.kind = .done ∧ (Untouched t →
        (latest initial t).merge (Dict.ofList [("status", "done")]) = .ok last.state) ∨
      last.event.kind = .stopped ∧
        ∃ node decision, stoppedState (latest initial t) node decision = .ok last.state)

variable {initial : State} {h t : Run}

theorem snapshots_append (s t : Run) : snapshots (s ++ t) = snapshots s ++ snapshots t := by
  rw [snapshots, observations_append, List.filterMap_append]
  rfl

theorem Untouched.of_append {s t : Run} (h : Untouched (s ++ t)) : Untouched s :=
  fun source fn state reply hm => h source fn state reply (List.mem_append_left t hm)

-- Where nothing is yielded the state yielded last stays the same.
theorem latest_append {u : Run} (hu : snapshots u = []) : latest initial (h ++ u) = latest initial h := by
  rw [latest, snapshots_append, hu, List.append_nil]
  rfl

theorem latest_emit {observation : GraphObservation} {state : State} (h' : snapshot? observation = some state) :
    latest initial (h ++ [.emit observation]) = state := by
  have hsnapshots : snapshots ([.emit observation] : Run) = [state] := by
    simp [snapshots, h']
  rw [latest, snapshots_append, hsnapshots, List.getLast?_concat]
  rfl

theorem last_emit (observation : GraphObservation) :
    (observations (h ++ [.emit observation])).getLast? = some observation := by
  rw [observations_append]
  exact List.getLast?_concat

theorem ended_interrupt {observation : GraphObservation} (hkind : observation.event.kind = .interrupt) :
    Ended initial (h ++ [.emit observation]) := by
  have hsnapshots : snapshots ([.emit observation] : Run) = [observation.state] := by
    simp [snapshots, snapshot?, hkind]
  refine ⟨observation, last_emit observation, .inl ⟨hkind, ?_⟩⟩
  rw [snapshots_append, hsnapshots]
  exact List.getLast?_concat

theorem ended_stopped {node : Str} {steps : Nat} {decision : GateDecision} {observation : GraphObservation}
    (hs : stopped (latest initial h) node steps decision = .ok observation) :
    Ended initial (h ++ [.emit observation]) := by
  obtain ⟨closed, hclosed, rfl⟩ := stopped_eq hs
  refine ⟨_, last_emit _, .inr (.inr ⟨rfl, node, decision, ?_⟩)⟩
  rw [latest_append rfl]
  exact hclosed

-- Exchanges without observations yield nothing.
theorem unyielding {α : Type} {p : Step α} {state : State} (hl : latest initial h = state) :
    Ensures acting (fun _ _ => True) p (fun _ t => latest initial t = state) h := by
  have hshown : ((observations h).filterMap snapshot?).getLast?.getD initial = state := hl
  exact (Ensures.still (P := fun shown => (shown.filterMap snapshot?).getLast?.getD initial = state)
    hshown).mono (fun _ _ hl => hl) fun _ _ _ => trivial

theorem ainvoke_of_last {last : GraphObservation} (hl : (observations t).getLast? = some last) :
    ainvoke initial t = last.state := by
  obtain ⟨front, hfront⟩ := List.getLast?_eq_some_iff.mp hl
  rw [ainvoke, hfront, List.foldl_append]
  rfl

variable {g : CompiledGraph} {source node : Str} {state : State} {steps : Nat}

abbrev Any (_ : Exn) (_ : Run) : Prop := True

theorem route_latest {edge : Edge} (hl : Untouched h → latest initial h = state) :
    Ensures generating Any (route g none source edge state steps)
      (Rule.Goes (Ended initial) fun taken t => Untouched t → latest initial t = taken.2) h := by
  refine .andThen (Q := fun asked t => asked = (none, none) ∧ t = h) (.lift (.ret ⟨rfl, rfl⟩)) ?_
  rintro _ t ⟨rfl, rfl⟩
  refine Rule.unstopped ?_
  refine .andThen (Q := fun _ t' => t' = t) (.lift (.ret rfl)) ?_
  rintro - _ rfl
  refine .andThen (Q := fun taken t => Untouched t → latest initial t = taken.2)
    (.lift (Rule.resolveEdge ?_ ?_ ?_)) ?_
  · exact fun _ _ => .ofExcept (fun _ _ => hl) fun _ _ => trivial
  · exact fun _ _ _ _ => trivial
  · intro fn reply _
    refine .ofExcept (fun target _ hu => ?_) fun _ _ => trivial
    rw [latest_append rfl, hl hu.of_append]
    exact (hu source fn state reply (by simp)).symm
  · intro taken t hl
    refine .bind (.emit (.ret fun hu => ?_))
    rw [latest_append rfl]
    exact hl hu.of_append

variable [Sha256]

theorem publishNode_latest {delta : Delta} :
    Ensures generating Any (publishNode none node state steps delta)
      (Rule.Goes (Ended initial) fun state t => latest initial t = state) h := by
  refine .andThen (Q := fun asked _ => asked = (none, none)) (.lift (.ret rfl)) ?_
  rintro _ t rfl
  refine Rule.unstopped ?_
  refine .bind (.ofExcept (fun merged _ => ?_) fun _ _ => trivial)
  refine .andThen (Q := fun _ _ => True) (.lift (.ret trivial)) fun settlement t _ => ?_
  have hshown : snapshot? (nodeEnded (steps + 1) merged (node, delta)) = some merged := rfl
  exact .bind (.emit (.bind (.ofExcept (fun _ _ => .ret (latest_emit hshown)) fun _ _ => trivial)))

theorem runNode_latest :
    Ensures generating Any (runNode g none node state steps)
      (Rule.Goes (Ended initial) fun state t => latest initial t = state) h := by
  refine .bind (.ofExcept (fun fn _ => ?_) fun _ _ => trivial)
  refine .bind (.ofExcept (fun visited _ => ?_) fun _ _ => trivial)
  refine .bind (.emit ?_)
  refine .andThen (Q := fun asked _ => asked = (none, none)) (.lift (.ret rfl)) ?_
  rintro _ t rfl
  refine Rule.unstopped ?_
  refine .andThen (Q := fun _ _ => True) (.lift (.ret trivial)) fun _ t _ => ?_
  refine .bind (.lift (Rule.invoke fun reply => ?_))
  unfold finishNode
  split
  · split_ifs
    · exact .bind (.ofExcept (fun _ _ => .bind (.emit (.ret (ended_interrupt rfl)))) fun _ _ => trivial)
    · exact .raise trivial
  · refine .bind (.ofExcept (fun delta _ => ?_) fun _ _ => trivial)
    exact .bind (.ofExcept (fun _ _ => publishNode_latest) fun _ _ => trivial)

section Region

variable {edge : FanOut} {snapshot : State} {admitted : List (Str × Delta)}

theorem publishRegion_latest {completed : Nat} {progress : steps ≤ completed} {batchId : Str} {merged : Delta}
    {provenance : Provenance} (hne : admitted ≠ []) :
    Ensures generating Any
      (publishRegion none source edge state snapshot steps completed progress batchId admitted merged provenance)
      (Rule.Goes (Ended initial) fun result t => latest initial t = result.state) h := by
  refine .andThen (Q := fun asked _ => asked = (none, none)) (.lift (.ret rfl)) ?_
  rintro _ t rfl
  refine Rule.unstopped ?_
  refine .bind (.ofExcept (fun committed _ => ?_) fun _ _ => trivial)
  refine .andThen (Q := fun _ _ => True) (.lift (.ret trivial)) fun settlement t _ => ?_
  refine .bind (.emitAll (.bind (.emit ?_)))
  refine .bind (.ofExcept (fun _ _ => .ret ?_) fun _ _ => trivial)
  show latest initial _ = committed
  rw [latest_append rfl]
  obtain ⟨front, last, rfl⟩ := (List.eq_nil_or_concat' admitted).resolve_left hne
  rw [List.map_append, ← List.append_assoc]
  have hshown : snapshot? (nodeEnded completed committed last) = some committed := rfl
  exact latest_emit hshown

theorem foldRegion_latest {completed : Nat} {progress : steps ≤ completed} {batchId : Str} (hne : admitted ≠ [])
    (hl : latest initial h = state) :
    Ensures generating Any
      (foldRegion g none source edge state snapshot steps completed progress batchId admitted)
      (Rule.Goes (Ended initial) fun result t => latest initial t = result.state) h := by
  refine .andThen (Q := fun asked t => asked = (none, none) ∧ t = h) (.lift (.ret ⟨rfl, rfl⟩)) ?_
  rintro _ t ⟨rfl, rfl⟩
  refine Rule.unstopped ?_
  refine .andThen (.lift (unyielding hl)) ?_
  rintro (decision | ⟨merged, provenance⟩) t hl
  · exact Rule.orStop nofun (fun _ _ _ hs => ended_stopped (hl ▸ hs)) fun _ _ _ => trivial
  · exact .bind (.ofExcept (fun _ _ => publishRegion_latest hne) fun _ _ => trivial)

theorem joinRegion_latest {batchId : Str} {settled : List Settled} (hne : settled ≠ [])
    (hl : latest initial h = state) :
    Ensures generating Any (joinRegion g none source edge state snapshot steps batchId settled)
      (Rule.Goes (Ended initial) fun result t => latest initial t = result.state) h := by
  refine .bind (.ofExcept (fun verdict _ => ?_) fun _ _ => trivial)
  refine Rule.orStop (fun _ => ?_) (fun _ _ _ hs => ended_stopped (hl ▸ hs)) fun _ _ _ => trivial
  split
  · exact .bind (.ofExcept (fun _ _ => .bind (.emit (.ret (ended_interrupt rfl)))) fun _ _ => trivial)
  · refine .andThen (Q := fun asked t => asked = (none, none) ∧ t = h) (.lift ?_) ?_
    · rw [askJoin_ungated]
      exact .ret ⟨rfl, rfl⟩
    rintro _ t ⟨rfl, rfl⟩
    refine Rule.unstopped ?_
    refine .andThen (Q := fun _ t' => t' = t) (.lift (.ret rfl)) ?_
    rintro - _ rfl
    refine .andThen (.lift ((unyielding hl).and (.returns (Admission.admit_nonempty hne)))) ?_
    rintro admitted t ⟨hl, hadmitted⟩
    exact foldRegion_latest hadmitted hl

theorem runRegion_latest (hl : latest initial h = state) :
    Ensures generating Any (runRegion g none source edge state steps)
      (Rule.Goes (Ended initial) fun result t => latest initial t = result.state) h := by
  refine .bind (.ofExcept (fun snapshot _ => ?_) fun _ _ => trivial)
  refine .andThen (Q := fun _ t => latest initial t = state) (.bind (.emit (.emitAll ?_))) ?_
  · have hstarts : snapshots (edge.branches.map fun name =>
        (.emit (nodeStarted steps snapshot name) : Event)) = [] := by
      rw [snapshots, observations_emits, List.filterMap_map]
      exact List.filterMap_eq_nil_iff.mpr fun _ _ => rfl
    rw [latest_append hstarts, latest_append rfl]
    exact hl
  intro _ t hl
  refine .andThen (.lift (unyielding hl)) fun batchId t hl => ?_
  refine .andThen (Q := fun asked t' => asked = (none, none) ∧ t' = t) (.lift (.ret ⟨rfl, rfl⟩)) ?_
  rintro _ t ⟨rfl, rfl⟩
  refine Rule.unstopped ?_
  refine .andThen (Q := fun settled t => settled ≠ [] ∧ latest initial t = state) ?_ ?_
  · refine .bind (.fork fun u outcomes hi => .ofExcept (fun settled hsettled => ⟨?_, ?_⟩) fun _ _ => trivial)
    · rintro rfl
      rw [results_ok hsettled] at hi
      have htwo := edge.two
      rw [← Protocol.settled_names hi] at htwo
      simp at htwo
    · have hnone : snapshots u = [] := by
        rw [snapshots, interleaved_observations hi]
        rfl
      rw [latest_append hnone]
      exact hl
  · rintro settled t ⟨hne, hl⟩
    exact joinRegion_latest hne hl

end Region

theorem followRegion_latest (hl : latest initial h = state) :
    Ensures generating Any (followRegion g none node state steps)
      (Rule.Goes (Ended initial) fun next t => latest initial t = next.1.state) h := by
  unfold followRegion
  split
  · refine .andThen (runRegion_latest hl) ?_
    rintro (_ | result) t hr
    · exact .ret hr
    · exact .ret hr
  · exact .ret hl

theorem run_ends {t : Run} (he : Exec generating (run g none initial) t (.ok ())) : Ended initial t := by
  have hrun : Ensures generating Any (run g none initial) (fun _ => Ended initial) [] := by
    refine Rule.run (I := fun _ state _ _ t => Untouched t → latest initial t = state)
      (J := fun _ state _ t => latest initial t = state) (K := fun _ _ state _ t => latest initial t = state)
      (route_latest fun _ => rfl) ?_ ?_ ?_ ?_ ?_
    · intro state steps _ h hl
      refine .bind (.ofExcept (fun done hdone => .emit ?_) fun _ _ => trivial)
      refine ⟨_, last_emit _, .inr (.inl ⟨rfl, fun hu => ?_⟩)⟩
      rw [latest_append rfl, hl hu.of_append]
      exact hdone
    · exact fun _ _ _ _ _ _ _ => trivial
    · exact fun _ _ _ _ _ _ _ _ => runNode_latest
    · exact fun _ _ _ _ hl => followRegion_latest hl
    · exact fun _ _ _ _ _ hl => route_latest fun _ => hl
  exact hrun t _ he

-- What is streamed agrees with what is invoked: an interrupted run has yielded its result, and one
-- that is done yields it but for the status, provided its routers leave the state alone.
theorem astream_agrees {validated : Dict Value Value → Except Exn State} {input : Input} {t : Run}
    (hinput : coerceState validated input = .ok initial)
    (he : Exec generating (run g none initial) t (.ok ())) :
    Astream validated g input (snapshots t) (.ok ()) ∧ ∃ result,
      Ainvoke validated g input t (.ok result) ∧ ∃ last, (observations t).getLast? = some last ∧
      (last.event.kind = .interrupt ∧ (snapshots t).getLast? = some result ∨
        last.event.kind = .done ∧ (Untouched t →
          (latest initial t).merge (Dict.ofList [("status", "done")]) = .ok result) ∨
        last.event.kind = .stopped ∧
          ∃ node decision, stoppedState (latest initial t) node decision = .ok result) := by
  obtain ⟨last, hlast, hended⟩ := run_ends he
  refine ⟨?_, last.state, ?_, last, hlast, hended⟩
  · rw [Astream, hinput]
    exact ⟨t, he, rfl⟩
  · rw [Ainvoke, hinput]
    exact ⟨_, he, by rw [ainvoke_of_last hlast]; rfl⟩

omit [Sha256] in
theorem astream_agrees_diamond :
    letI := Sha256.verbatim
    let validated := fun _ => Except.ok (State.new "s")
    ∃ t result, Astream validated .diamond (.state (State.new "s")) (snapshots t) (.ok ()) ∧
      Ainvoke validated .diamond (.state (State.new "s")) t (.ok result) ∧ (snapshots t).length = 3 := by
  let := Sha256.verbatim
  intro validated
  have hinput : coerceState validated (.state (State.new "s")) = .ok (State.new "s") := rfl
  have hrun := exec_simulate (obliging fun _ => .dict []) (run .diamond none (State.new "s"))
  have hend : ((run .diamond none (State.new "s")).simulate (obliging fun _ => .dict [])).2 = .ok () := by rfl
  rw [hend] at hrun
  obtain ⟨hstream, result, hinvoke, -⟩ := astream_agrees hinput hrun
  exact ⟨_, result, hstream, hinvoke, by decide +kernel⟩

end PerpetuaCore.Graph.LangChain
