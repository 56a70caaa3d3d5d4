import PerpetuaCore.Graph.Engine

namespace PerpetuaCore.Graph

open Interaction
open Python (Str Value Dict)

-- The exchanges in which no node is asked for, started or called.
def aside : Op → Prop
  | .beforeDispatch request | .beforeStart request => request.boundary ≠ .node
  | .enter (.node ..) | .enter (.branch ..) | .leave (.node ..) | .leave (.branch ..) => False
  | _ => True

def shows (kinds : List EventKind) (observation : GraphObservation) : Prop :=
  observation.event.kind ∈ kinds

section Calls

variable {P : Op → Prop} {gate : Option Gate} {source : Str}

theorem dispatch_asks {edge : Option Edge} {boundary : DispatchBoundary} {nodes : List Str}
    {steps : Nat} {source batchId : Option Str}
    (h : P (.beforeDispatch ⟨boundary, nodes, steps, source, batchId⟩)) :
    (dispatch gate edge boundary nodes steps source batchId).Asks P := by
  cases gate with
  | none => trivial
  | some gate =>
      unfold dispatch
      dsimp only
      split_ifs
      · trivial
      · exact .bind (.call h) fun _ => .bind (.ofExcept _) fun _ => .bind (.ofExcept _) fun _ => trivial

theorem dispatch_returns {edge : Option Edge} {boundary : DispatchBoundary} {nodes : List Str}
    {steps : Nat} {source batchId : Option Str} :
    (dispatch gate edge boundary nodes steps source batchId).Returns fun asked =>
      ∀ request, asked.2 = some request → request.boundary = boundary := by
  cases gate with
  | none => exact nofun
  | some gate =>
      unfold dispatch
      dsimp only
      split_ifs
      · exact nofun
      · refine .bind (.all _) fun _ _ => .bind (.all _) fun _ _ => .bind (.all _) fun _ _ => ?_
        rintro request ⟨⟩
        rfl

theorem beforeStart_asks {request : Option DispatchRequest}
    (h : ∀ r, request = some r → P (.beforeStart r)) : (beforeStart gate request).Asks P := by
  cases request with
  | none => trivial
  | some request =>
      unfold beforeStart
      dsimp only
      split_ifs
      · exact .bind (.call (h request rfl)) fun _ => .ofExcept _
      · trivial

theorem commit_asks [Sha256] {boundary : CommitBoundary} {nodes : List Str} {steps : Nat}
    {source batchId : Option Str} {delta : Delta} (h : ∀ request, P (.beforeCommit request)) :
    (commit gate boundary nodes steps source batchId delta).Asks P := by
  cases gate with
  | none => trivial
  | some gate =>
      exact .bind (.ofExcept _) fun _ => .bind (.call (h _)) fun _ =>
        .bind (.ofExcept _) fun _ => .bind (.ofExcept _) fun _ => trivial

theorem afterCommit_asks {request : Option CommitRequest} (h : ∀ request, P (.afterCommit request)) :
    (afterCommit gate request).Asks P := by
  cases request with
  | none => trivial
  | some request =>
      unfold afterCommit
      dsimp only
      split_ifs
      · exact .bind (.call (h request)) fun _ => .ofExcept _
      · trivial

theorem invoke_asks {callable : Callable} (henter : P (.enter callable)) (hleave : P (.leave callable)) :
    (invoke callable).Asks P :=
  .bind (.call henter) fun _ => .call hleave

theorem attemptException_asks {α : Type} {p : Step α} (hp : p.Asks P) :
    (attemptException p).Asks P := by
  refine .bind (.attempt hp) ?_
  rintro (error | value)
  · dsimp only
    split_ifs <;> trivial
  · trivial

theorem catchBoundaryStop_asks {α : Type} {p : Step α} (hp : p.Asks P) :
    (catchBoundaryStop p).Asks P := by
  refine .bind (.attempt hp) ?_
  rintro (error | value)
  · cases error <;> trivial
  · trivial

theorem admit_asks {join : Join} {settled : List Settled}
    (h : ∀ fn outcomes, P (.enter (.join source fn outcomes)) ∧ P (.leave (.join source fn outcomes))) :
    (admitBranches source join settled).Asks P := by
  cases join with
  | custom fn =>
      refine .bind (invoke_asks (h _ _).1 (h _ _).2) fun _ => ?_
      refine .bind (.ofExcept _) fun _ => .bind (.ofExcept _) fun _ => ?_
      dsimp only
      split_ifs <;> trivial
  | _ =>
      dsimp only [admitBranches]
      split_ifs <;> trivial

theorem catchBoundaryStop_returns {α : Type} {R : α → Prop} {p : Step α} (hp : p.Returns R) :
    (catchBoundaryStop p).Returns fun result => ∀ value, result = .ok value → R value := by
  refine .bind (.attempt hp) ?_
  rintro (error | value) hr
  · cases error <;> first | trivial | exact nofun
  · exact fun _ he => Except.ok.inj he ▸ hr value rfl

-- Whatever the join, it admits branches that succeeded, in branch order.
theorem admit_returns {join : Join} {settled : List Settled} :
    (admitBranches source join settled).Returns fun admitted => admitted.Sublist (succeeded settled) := by
  unfold admitBranches
  dsimp only
  split
  · split_ifs
    · exact .refl _
    · trivial
  · split_ifs
    · trivial
    · exact .refl _
  · split_ifs
    · trivial
    · exact List.take_sublist ..
  · split_ifs
    · exact .refl _
    · trivial
  · refine .bind (.all _) fun _ _ => .bind (.all _) fun _ _ => .bind (.all _) fun _ _ => ?_
    split_ifs
    · trivial
    · exact List.filter_sublist

theorem admitReducer_asks {snapshot : State} {field : Str} {reducer : Option Reducer}
    {writes : Contributions} {request : Option DispatchRequest}
    (h : ∀ r : DispatchRequest, r.boundary = .reducer → P (.beforeDispatch r) ∧ P (.beforeStart r)) :
    (admitReducer gate snapshot field reducer writes request).Asks P := by
  unfold admitReducer
  split
  · split_ifs
    · refine .bind (.ofExcept _) fun _ => .andThen (dispatch_asks (h _ rfl).1) dispatch_returns ?_
      rintro ⟨_ | decision, asked⟩ hasked
      · exact .bind (beforeStart_asks fun r hr => (h r (hasked r hr)).2) fun _ => trivial
      · trivial
    · trivial
  · trivial

theorem reduceField_asks {field : Str} {reducer : Reducer} {base : Value}
    {writes : Contributions} {declared : Bool} {inputs : Option (Value × List Value)}
    (h : ∀ fn base values, P (.enter (.reducer source field fn base values)) ∧
      P (.leave (.reducer source field fn base values))) :
    (reduceField source field reducer base writes declared inputs).Asks P := by
  cases reducer with
  | custom fn =>
      exact .bind (.ofExcept _) fun _ => .bind (invoke_asks (h _ _ _).1 (h _ _ _).2) fun _ => .ofExcept _
  | _ => exact .ofExcept _

theorem fold_asks {g : CompiledGraph} {snapshot : State} {admitted : List (Str × Delta)}
    {request : Option DispatchRequest}
    (h : ∀ r : DispatchRequest, r.boundary = .reducer → P (.beforeDispatch r) ∧ P (.beforeStart r))
    (hcall : ∀ field fn base values, P (.enter (.reducer source field fn base values)) ∧
      P (.leave (.reducer source field fn base values))) :
    (fold g gate source snapshot admitted request).Asks P := by
  refine .bind (.ofExcept _) fun fields => ?_
  generalize (Dict.empty, Dict.empty) = folded
  induction Python.sorted id fields generalizing folded with
  | nil => trivial
  | cons field rest ih =>
      exact .bind (.bind (admitReducer_asks h) fun _ => reduceField_asks (hcall field)) fun _ => ih _

theorem runBranch_asks {g : CompiledGraph} {name : Str} {snapshot : State}
    (h : ∀ fn, P (.enter (.branch source name fn snapshot)) ∧ P (.leave (.branch source name fn snapshot))) :
    (runBranch g source snapshot name).Asks P := by
  unfold runBranch
  split
  · trivial
  · refine .bind (invoke_asks (h _).1 (h _).2) fun reply => ?_
    split
    · split_ifs <;> trivial
    · trivial

theorem branchCall_asks {g : CompiledGraph} {name batchId : Str} {snapshot : State} {steps : Nat}
    (hdispatch : P (.beforeDispatch ⟨.node, [name], steps, source, batchId⟩))
    (hstart : ∀ r, P (.beforeStart r))
    (h : ∀ fn, P (.enter (.branch source name fn snapshot)) ∧ P (.leave (.branch source name fn snapshot))) :
    (branchCall g gate source batchId snapshot steps name).Asks P := by
  unfold branchCall
  split_ifs
  · refine .bind (attemptException_asks (dispatch_asks hdispatch)) fun asked => ?_
    split
    · trivial
    · trivial
    · refine .bind (attemptException_asks (beforeStart_asks fun r _ => hstart r)) fun started => ?_
      split
      · trivial
      · exact runBranch_asks h
  · exact runBranch_asks h

theorem askJoin_asks {batchId : Str} {edge : FanOut} {completed : Nat}
    (h : ∀ r : DispatchRequest, r.boundary = .join → P (.beforeDispatch r)) :
    (askJoin gate source edge completed batchId).Asks P := by
  unfold askJoin
  split
  · exact dispatch_asks (h _ rfl)
  · trivial

theorem askJoin_returns {batchId : Str} {edge : FanOut} {completed : Nat} :
    (askJoin gate source edge completed batchId).Returns fun asked =>
      ∀ request, asked.2 = some request → request.boundary = .join := by
  unfold askJoin
  split
  · exact dispatch_returns
  · exact nofun

theorem askJoin_ungated (source : Str) (edge : FanOut) (completed : Nat) (batchId : Str) :
    askJoin none source edge completed batchId = .ret (none, none) := by
  unfold askJoin
  cases edge.join <;> rfl

theorem resolveEdge_asks {g : CompiledGraph} {edge : Edge} {state : State}
    (h : ∀ fn state, P (.enter (.router source fn state)) ∧ P (.leave (.router source fn state))) :
    (resolveEdge g source edge state).Asks P := by
  cases edge with
  | static target => exact .bind (.ofExcept _) fun _ => trivial
  | fanout region =>
      unfold resolveEdge
      exact .ofExcept _
  | callable router =>
      exact .bind (invoke_asks (h _ _).1 (h _ _).2) fun _ => .bind (.ofExcept _) fun _ =>
        .bind (.ofExcept _) fun _ => trivial
  | conditional edge =>
      exact .bind (invoke_asks (h _ _).1 (h _ _).2) fun _ => .bind (.ofExcept _) fun _ =>
        .bind (.ofExcept _) fun _ => trivial

end Calls

section Schedule

variable {g : CompiledGraph} {gate : Option Gate} {source : Str} {edge : FanOut}
  {state snapshot : State} {steps completed : Nat} {batchId : Str}

abbrev aftermath : List EventKind := [.stopped, .interrupt, .nodeEnd, .superstepCommit]

theorem orStop_does {α : Type} {P : Op → Prop} {kinds : List EventKind} {node : Str}
    {decision : Option GateDecision} {next : Scheduler (Option α)} (hkind : .stopped ∈ kinds)
    (hnext : next.Asks (Does P (shows kinds))) :
    (orStop state node steps decision next).Asks (Does P (shows kinds)) := by
  cases decision with
  | none => exact hnext
  | some decision =>
      refine .andThen (.ofExcept _) (.ofExcept fun _ h => h) fun observation ho => ?_
      obtain ⟨closed, -, rfl⟩ := stopped_eq ho
      exact .bind (Does.emit hkind) fun _ => trivial

theorem publishNode_does [Sha256] {node : Str} {delta : Delta} :
    (publishNode gate node state steps delta).Asks
      (Does aside (shows [.stopped, .interrupt, .nodeEnd])) := by
  refine .bind (Does.lift (commit_asks fun _ => trivial)) fun _ => orStop_does (by decide) ?_
  refine .bind (.ofExcept _) fun _ =>
    .bind (Does.lift (.attempt (afterCommit_asks fun _ => trivial))) fun _ => ?_
  exact .bind (Does.emit (by simp [shows, nodeEnded])) fun _ => .bind (.ofExcept _) fun _ => trivial

theorem finishNode_does [Sha256] {node : Str} {reply : Reply} :
    (finishNode gate node steps reply).Asks
      (Does aside (shows [.stopped, .interrupt, .nodeEnd])) := by
  unfold finishNode
  split
  · split_ifs
    · exact .bind (.ofExcept _) fun _ => .bind (Does.emit (by simp [shows])) fun _ => trivial
    · trivial
  · exact .bind (.ofExcept _) fun _ => .bind (.ofExcept _) fun _ => publishNode_does

theorem publishRegion_does [Sha256] {progress : steps ≤ completed} {admitted : List (Str × Delta)}
    {merged : Delta} {provenance : Provenance} :
    (publishRegion gate source edge state snapshot steps completed progress batchId admitted merged
      provenance).Asks (Does aside (shows aftermath)) := by
  refine .bind (Does.lift (commit_asks fun _ => trivial)) fun _ => orStop_does (by decide) ?_
  refine .bind (.ofExcept _) fun _ => .bind (Does.lift (.attempt (afterCommit_asks fun _ => trivial))) ?_
  refine fun _ => .bind (.forM fun item _ => Does.emit ?_) fun _ => .bind (Does.emit ?_) fun _ =>
    .bind (.ofExcept _) fun _ => trivial
  · simp [shows, nodeEnded]
  · simp [shows, superstepCommitted]

theorem foldRegion_does [Sha256] {progress : steps ≤ completed} {admitted : List (Str × Delta)} :
    (foldRegion g gate source edge state snapshot steps completed progress batchId admitted).Asks
      (Does aside (shows aftermath)) := by
  refine .bind (Does.lift (dispatch_asks nofun)) fun _ => orStop_does (by decide) ?_
  refine .bind (Does.lift (catchBoundaryStop_asks (fold_asks (fun r hr => ?_) fun _ _ _ _ =>
    ⟨trivial, trivial⟩))) fun folded => ?_
  · simp [aside, hr]
  · rcases folded with decision | ⟨merged, provenance⟩
    · exact orStop_does (by decide) trivial
    · exact .bind (.ofExcept _) fun _ => publishRegion_does

-- Once its branches have settled a region asks for no node and starts none.
theorem joinRegion_does [Sha256] {settled : List Settled} :
    (joinRegion g gate source edge state snapshot steps batchId settled).Asks
      (Does aside (shows aftermath)) := by
  refine .bind (.ofExcept _) fun _ => orStop_does (by decide) ?_
  split
  · refine .bind (.ofExcept _) fun _ => .bind (Does.emit ?_) fun _ => trivial
    simp [shows]
  · refine .andThen (Does.lift (askJoin_asks fun r hr => by simp [aside, hr]))
      (Does.lift_returns askJoin_returns) fun asked hasked => ?_
    refine orStop_does (by decide) ?_
    refine .bind (Does.lift (beforeStart_asks fun r hr => by simp [aside, hasked r hr])) fun _ => ?_
    exact .bind (Does.lift (admit_asks fun _ _ => ⟨trivial, trivial⟩)) fun _ => foldRegion_does

theorem route_does {edge : Edge} :
    (route g gate source edge state steps).Asks (Does aside (shows [.stopped, .edgeSelected])) := by
  refine .andThen (Does.lift (dispatch_asks nofun)) (Does.lift_returns dispatch_returns)
    fun asked hasked => orStop_does (by decide) ?_
  refine .bind (Does.lift (beforeStart_asks fun r hr => by simp [aside, hasked r hr])) fun _ => ?_
  refine .bind (Does.lift (resolveEdge_asks fun _ _ => ⟨trivial, trivial⟩)) fun _ => ?_
  exact .bind (Does.emit (by simp [shows])) fun _ => trivial

theorem finish_does : (finish state steps).Asks (Does aside (shows [.done])) :=
  .bind (.ofExcept _) fun _ => Does.emit (by simp [shows])

end Schedule

end PerpetuaCore.Graph
