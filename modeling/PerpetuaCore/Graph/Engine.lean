import PerpetuaCore.Graph.Digest
import PerpetuaCore.Graph.Topology

namespace PerpetuaCore.Graph

open Interaction
open Python (Str Value Dict)

-- `_is_interrupt`.
def isInterrupt (exc : Exn) : Bool :=
  exc.typeName == ("Interrupt" : Str) && exc.prompt?.isSome

-- `{**state.metadata, **entries}`.
def withMetadata (state : State) (entries : List (Value × Value)) : Except Exn Value :=
  match state.get "metadata" with
  | .dict items => .ok (.dict ((Dict.ofList items).update (Dict.ofList entries)).items)
  | value => .error (.typeError ["'", .insert value.typeName, "' object is not a mapping"])

-- `state.merge({"status": status, "metadata": {**state.metadata, **entries}})`.
def closeWith (state : State) (status : String) (entries : List (Value × Value)) :
    Except Exn State := do
  let metadata ← withMetadata state entries
  state.merge (Dict.ofList [("status", status), ("metadata", metadata)])

-- `_interrupted_state`.
def interruptedState (state : State) (node : Str) (exc : Exn) : Except Exn State :=
  closeWith state "interrupted"
    [("interrupt_node", node), ("interrupt_prompt", exc.prompt?.getD .none),
      ("interrupt_payload", exc.payload)]

def stoppedState (state : State) (node : Str) (decision : GateDecision) : Except Exn State :=
  closeWith state "stopped" [("stop_node", node), ("stop_reason", decision.reason)]

theorem closeWith_eq {state closed : State} {status : String} {entries : List (Value × Value)}
    (h : closeWith state status entries = .ok closed) :
    ∃ metadata, withMetadata state entries = .ok metadata ∧
      closed = state.update (Dict.ofList [("status", status), ("metadata", metadata)]) := by
  unfold closeWith at h
  cases hm : withMetadata state entries with
  | error e => rw [hm] at h; cases h
  | ok metadata =>
      rw [hm] at h
      exact ⟨metadata, rfl, State.merge_eq_update h⟩

theorem attrs_close (state : State) (status : String) (metadata key : Value) :
    (state.update (Dict.ofList [("status", status), ("metadata", metadata)])).attrs.get? key =
      if key = ("metadata" : Value) then some metadata
      else if key = ("status" : Value) then some (status : Value) else state.attrs.get? key := by
  have hn : (([("status", status), ("metadata", metadata)] : List (Value × Value)).map
      Prod.fst).Nodup := by simp only [List.map_cons, List.map_nil]; decide
  rw [State.update, Dict.get?_update, Dict.get?_ofList hn]
  simp only [Dict.lookup_cons_ite, List.lookup_nil]
  split_ifs with hs hm <;> first | rfl | skip
  subst hs
  exact absurd hm (by decide)

theorem closeWith_status {state closed : State} {status : String} {entries : List (Value × Value)}
    (h : closeWith state status entries = .ok closed) : closed.get "status" = status := by
  obtain ⟨metadata, -, rfl⟩ := closeWith_eq h
  rw [State.get, attrs_close, if_neg (by decide), if_pos rfl, Option.getD_some]

-- `_stopped`: nothing at the boundary was published.
def stopped (state : State) (node : Str) (steps : Nat) (decision : GateDecision) :
    Except Exn GraphObservation := do
  let state ← stoppedState state node decision
  return { event := { kind := .stopped, node, steps, terminalReason := some .stopped }, state }

-- `state.merge({"nodes_visited": [*state.nodes_visited, *names]})`.
def visit (state : State) (names : List Str) : Except Exn State :=
  match (state.get "nodes_visited").iterate with
  | some visited =>
      state.merge (Dict.ofList [("nodes_visited", .list (visited ++ names.map .str))])
  | none => .error (.typeError ["Value after * must be an iterable, not ",
      .insert (state.get "nodes_visited").typeName])

theorem visit_copyable {state visited : State} {names : List Str} (h : visit state names = .ok visited) :
    visited.copyable = true := by
  unfold visit at h
  split at h
  · exact State.merge_copyable h
  · cases h

-- `copy.deepcopy(delta)`.
def deepcopy (delta : Delta) : Except Exn Delta :=
  if State.itemsCopy delta.items then .ok delta else .error (.typeError ["cannot be copied"])

-- A gated run hashes and publishes one snapshot of the delta.
def detach (gate : Option Gate) (delta : Delta) : Except Exn Delta :=
  if gate.isSome then deepcopy delta else .ok delta

theorem detach_eq {gate : Option Gate} {delta detached : Delta} (h : detach gate delta = .ok detached) :
    detached = delta := by
  unfold detach deepcopy at h
  split_ifs at h <;> exact (Except.ok.inj h).symm

def requireDelta (name : Str) (value : Value) : Except Exn Delta :=
  match value with
  | .dict items => .ok (Dict.ofList items)
  | _ => .error (.typeError ["MiniGraph node ", .repr name, " returned ",
      .insert value.typeName, "; expected dict delta"])

def nodeFor (g : CompiledGraph) (name : Str) : Except Exn Fn :=
  match g.nodes.get? name with
  | some fn => .ok fn
  | none => .error (.keyError ["MiniGraph has no node registered as ", .repr name])

theorem stopped_eq {state : State} {node : Str} {steps : Nat} {decision : GateDecision}
    {observation : GraphObservation} (h : stopped state node steps decision = .ok observation) :
    ∃ closed, stoppedState state node decision = .ok closed ∧ observation =
      { event := { kind := .stopped, node, steps, terminalReason := some .stopped },
        state := closed } := by
  unfold stopped at h
  cases hclosed : stoppedState state node decision with
  | error e => rw [hclosed] at h; cases h
  | ok closed =>
      rw [hclosed] at h
      cases h
      exact ⟨closed, rfl, rfl⟩

-- A static target runs no code, so a router is asked for only where it is callable.
def dispatch (gate : Option Gate) (edge : Option Edge) (boundary : DispatchBoundary)
    (nodes : List Str) (steps : Nat) (source batchId : Option Str := none) :
    Step (Option GateDecision × Option DispatchRequest) :=
  match gate with
  | none => .ret (none, none)
  | some _ =>
      if boundary = .router ∧ (edge.bind Edge.router?).isNone then .ret (none, none)
      else do
        let request : DispatchRequest := { boundary, nodes, steps, source, batchId }
        let reply ← Prog.call (S := Core) (.beforeDispatch request)
        let decision ← .ofExcept (checked reply)
        let stop ← .ofExcept (enforce decision (.dispatch request))
        return (stop, some request)

def HookReply.result (hook : Str) : HookReply → Except Exn Unit
  | .raised error => .error error
  | .notAwaitable => .error (.typeError ["gate ", .insert hook, " must return an awaitable"])
  | .done => .ok ()

def hasBeforeStart (gate : Option Gate) : Bool := gate.any (·.beforeStart)

def hasAfterCommit (gate : Option Gate) : Bool := gate.any (·.afterCommit)

def beforeStart (gate : Option Gate) : Option DispatchRequest → Step Unit
  | none => .ret ()
  | some request =>
      if hasBeforeStart gate then do
        let reply ← Prog.call (S := Core) (.beforeStart request)
        .ofExcept (HookReply.result "before_start" reply)
      else .ret ()

def commit [Sha256] (gate : Option Gate) (boundary : CommitBoundary) (nodes : List Str) (steps : Nat)
    (source batchId : Option Str) (delta : Delta) :
    Step (Option GateDecision × Option CommitRequest) :=
  match gate with
  | none => .ret (none, none)
  | some _ => do
      let digest ← .ofExcept (deltaDigest delta)
      let request : CommitRequest :=
        { boundary, nodes, steps, source, resultDigest := some digest, batchId }
      let reply ← Prog.call (S := Core) (.beforeCommit request)
      let decision ← .ofExcept (checked reply)
      let stop ← .ofExcept (enforce decision (.commit request))
      return (stop, some request)

def afterCommit (gate : Option Gate) : Option CommitRequest → Step Unit
  | none => .ret ()
  | some request =>
      if hasAfterCommit gate then do
        let reply ← Prog.call (S := Core) (.afterCommit request)
        .ofExcept (HookReply.result "after_commit" reply)
      else .ret ()

-- Ends the run where the gate said stop, and goes on where it allowed.
def orStop {α : Type} (state : State) (node : Str) (steps : Nat) (decision : Option GateDecision)
    (next : Scheduler (Option α)) : Scheduler (Option α) :=
  match decision with
  | none => next
  | some decision => do
      let observation ← .ofExcept (stopped state node steps decision)
      .emit observation
      return none

-- The target a resolved edge names: END or a registered node.
def checkTarget (g : CompiledGraph) : Value → Except Exn Str
  | .str [] => .error (.valueError ["MiniGraph edge resolved to an empty node name"])
  | .str target =>
      if target = END ∨ g.nodes.contains target then .ok target
      else .error (.valueError ["MiniGraph edge resolved to unknown node ", .repr target])
  | value => .error (.typeError ["MiniGraph edge resolved to ", .insert value.typeName,
      "; expected node name or END string"])

theorem checkTarget_eq_ok {g : CompiledGraph} {value : Value} {target : Str} :
    checkTarget g value = .ok target ↔
      value = .str target ∧ target ≠ [] ∧ (target = END ∨ g.nodes.contains target) := by
  unfold checkTarget
  split
  · refine ⟨nofun, ?_⟩
    rintro ⟨he, hne, -⟩
    exact absurd (Value.str.inj he).symm hne
  · rename_i name hne
    split_ifs with hknown
    · constructor
      · rintro ⟨⟩
        exact ⟨rfl, hne, hknown⟩
      · rintro ⟨he, -, -⟩
        rw [Value.str.inj he]
    · refine ⟨nofun, ?_⟩
      rintro ⟨he, -, hk⟩
      exact absurd (Value.str.inj he ▸ hk) hknown
  · rename_i hother
    refine ⟨nofun, ?_⟩
    rintro ⟨rfl, -, -⟩
    exact absurd rfl (hother target)

-- `_resolve_edge`, with the state the router leaves behind.
def resolveEdge (g : CompiledGraph) (source : Str) (edge : Edge) (state : State) :
    Step (Str × State) :=
  match edge with
  | .static target => do return (← .ofExcept (checkTarget g target), state)
  | .fanout _ => .ofExcept do return (← checkTarget g (.object "FanOut" 0 true), state)
  | .callable router | .conditional ⟨router, _⟩ => do
      let reply ← invoke (.router source router state)
      let value ← .ofExcept reply.result
      return (← .ofExcept (checkTarget g value), reply.left)

-- Asks for the edge out of `source` and takes it; `none` where the gate stops the run.
def route (g : CompiledGraph) (gate : Option Gate) (source : Str) (edge : Edge) (state : State)
    (steps : Nat) : Scheduler (Option (Str × State)) := do
  let asked ← (dispatch gate (some edge) .router [source] steps source).lift
  orStop state source steps asked.1 do
    (beforeStart gate asked.2).lift
    let taken ← (resolveEdge g source edge state).lift
    .emit { event := { kind := .edgeSelected, node := source, target := taken.1, steps },
            state := taken.2 }
    return some taken

def nodeStarted (steps : Nat) (state : State) (name : Str) : GraphObservation where
  event := { kind := .nodeStart, node := name, steps }
  state

def nodeEnded (steps : Nat) (state : State) (item : Str × Delta) : GraphObservation where
  event := { kind := .nodeEnd, node := item.1, steps }
  state
  delta := item.2

-- The commit section of a linear node. A settlement error is raised only after the
-- published delta was observed.
def publishNode [Sha256] (gate : Option Gate) (node : Str) (state : State) (steps : Nat) (delta : Delta) :
    Scheduler (Option State) := do
  let asked ← (commit gate .node [node] steps none none delta).lift
  orStop state node steps asked.1 do
    let state ← .ofExcept (state.merge delta)
    let settlement ← (afterCommit gate asked.2).attempt.lift
    .emit (nodeEnded (steps + 1) state (node, delta))
    .ofExcept settlement
    return some state

-- What a linear node's call leads to: an interrupt ends the run, any other exception
-- is raised on, a dict is published.
def finishNode [Sha256] (gate : Option Gate) (node : Str) (steps : Nat) (reply : Reply) :
    Scheduler (Option State) :=
  match reply.result with
  | .error exc =>
      if isInterrupt exc then do
        let state ← .ofExcept (interruptedState reply.left node exc)
        .emit { event := { kind := .interrupt, node, steps, terminalReason := some .interrupted },
                state }
        return none
      else .raise exc
  | .ok value => do
      let delta ← .ofExcept (requireDelta node value)
      let delta ← .ofExcept (detach gate delta)
      publishNode gate node reply.left steps delta

def runNode [Sha256] (g : CompiledGraph) (gate : Option Gate) (node : Str) (state : State) (steps : Nat) :
    Scheduler (Option State) := do
  let fn ← .ofExcept (nodeFor g node)
  let state ← .ofExcept (visit state [node])
  .emit (nodeStarted steps state node)
  let asked ← (dispatch gate none .node [node] steps).lift
  orStop state node steps asked.1 do
    (beforeStart gate asked.2).lift
    let reply ← (invoke (.node node fn state)).lift
    finishNode gate node steps reply

-- `except Exception`: cancellation passes through.
def attemptException {α : Type} (p : Step α) : Step (Except Exn α) :=
  p.attempt.bind fun
    | .ok value => .ret (.ok value)
    | .error exc => if exc.isException then .ret (.error exc) else .raise exc

-- Hands a branch its private copy of the snapshot. Deep copying a merged state succeeds
-- and yields the same value.
def runBranch (g : CompiledGraph) (source : Str) (snapshot : State) (name : Str) :
    Step Settled :=
  match nodeFor g name with
  | .error exc => .ret ⟨name, .error exc⟩
  | .ok fn => do
      let reply ← invoke (.branch source name fn snapshot)
      match reply.result with
      | .error exc => if exc.isException then return ⟨name, .error exc⟩ else .raise exc
      | .ok value => return ⟨name, requireDelta name value⟩

-- `call` in `_settle_gated`. Only a gate with a start hook is asked per branch.
def branchCall (g : CompiledGraph) (gate : Option Gate) (source : Str) (batchId : Str)
    (snapshot : State) (steps : Nat) (name : Str) : Step Settled :=
  if hasBeforeStart gate then do
    let asked ← attemptException (dispatch gate none .node [name] steps source batchId)
    match asked with
    | .error exc => return ⟨name, .error (.branchAdmissionFailed exc)⟩
    | .ok (some decision, _) => return ⟨name, .error (.branchStopped decision)⟩
    | .ok (none, request) => do
        let started ← attemptException (beforeStart gate request)
        match started with
        | .error exc => return ⟨name, .error (.startCallbackFailed exc)⟩
        | .ok () => runBranch g source snapshot name
  else runBranch g source snapshot name

-- `task.result()` for every task, in branch order: only cancellation escapes one.
def results : List (Except Exn Settled) → Except Exn (List Settled)
  | [] => .ok []
  | .error exc :: _ => .error exc
  | .ok item :: rest => do return item :: (← results rest)

theorem results_ok {outcomes : List (Except Exn Settled)} {settled : List Settled}
    (h : results outcomes = .ok settled) : outcomes = settled.map .ok := by
  induction outcomes generalizing settled with
  | nil =>
      cases h
      rfl
  | cons outcome rest ih =>
      cases outcome with
      | error exc => cases h
      | ok item =>
          simp only [results] at h
          cases hrest : results rest with
          | error exc => rw [hrest] at h; cases h
          | ok settled' =>
              rw [hrest] at h
              cases h
              rw [ih hrest, List.map_cons]

theorem results_error {outcomes : List (Except Exn Settled)} {error : Exn}
    (h : results outcomes = .error error) : .error error ∈ outcomes := by
  induction outcomes with
  | nil => cases h
  | cons outcome rest ih =>
      cases outcome with
      | error exc => exact Except.error.inj h ▸ List.mem_cons_self
      | ok item =>
          simp only [results] at h
          cases hrest : results rest with
          | error exc =>
              rw [hrest] at h
              exact List.mem_cons_of_mem _ (ih (hrest.trans (congrArg _ (Except.error.inj h))))
          | ok settled => rw [hrest] at h; cases h

def settle (g : CompiledGraph) (gate : Option Gate) (source : Str) (branches : List Str)
    (batchId : Str) (snapshot : State) (steps : Nat) : Scheduler (List Settled) := do
  let outcomes ← .fork (branches.map (branchCall g gate source batchId snapshot steps))
  .ofExcept (results outcomes)

def Exn.admissionFailure? : Exn → Option Exn
  | .branchAdmissionFailed error => some error
  | _ => none

def Exn.startFailure? : Exn → Option Exn
  | .startCallbackFailed error => some error
  | _ => none

def Exn.branchStop? : Exn → Option GateDecision
  | .branchStopped decision => some decision
  | _ => none

def Exn.isGateRefused : Exn → Bool
  | .gateRefused .. => true
  | _ => false

-- The first admission failure outranks every start failure, and these outrank a stop.
def branchVerdict (source : Str) (errors : List Exn) : Except Exn (Option GateDecision) :=
  match errors.filterMap Exn.admissionFailure? with
  | failure :: _ => .error failure
  | [] =>
      match errors.filterMap Exn.startFailure? with
      | [] => .ok (errors.filterMap Exn.branchStop?).head?
      | failures =>
          match failures.find? Exn.isGateRefused with
          | some refusal => .error refusal
          | none => .error (.group
              ["fan-out region ", .repr source, " durable start failed"] failures)

-- The carriers of what a gate kept a branch from doing.
def Exn.isWithheld (exc : Exn) : Bool :=
  exc.admissionFailure?.isSome || exc.startFailure?.isSome || exc.branchStop?.isSome

theorem not_isWithheld_of_branchVerdict {source : Str} {errors : List Exn}
    (h : branchVerdict source errors = .ok none) : ∀ exc ∈ errors, exc.isWithheld = false := by
  intro exc hexc
  simp only [branchVerdict] at h
  split at h
  · cases h
  · rename_i hadmission
    split at h
    · rename_i hstart
      have hstop := List.head?_eq_none_iff.mp (Except.ok.inj h)
      have ha := List.filterMap_eq_nil_iff.mp hadmission exc hexc
      have hs := List.filterMap_eq_nil_iff.mp hstart exc hexc
      have hb := List.filterMap_eq_nil_iff.mp hstop exc hexc
      simp [Exn.isWithheld, ha, hs, hb]
    · split at h <;> cases h

def errors (settled : List Settled) : List Exn := settled.filterMap Settled.error?

-- The branches that settled without an error, with their deltas.
def succeeded (settled : List Settled) : List (Str × Delta) :=
  settled.filterMap fun item => item.outcome.toOption.map (item.name, ·)

-- The first branch, in branch order, that was interrupted.
def firstInterrupt (settled : List Settled) : Option (Str × Exn) :=
  (settled.filterMap fun item => (item.error?.filter isInterrupt).map (item.name, ·)).head?

def Settled.view (item : Settled) : BranchOutcome :=
  { name := item.name, ok := item.ok, errorType := item.error?.map Exn.typeName }

def refusedBy (source : Str) (join : Join) (failed : List Exn) : Exn :=
  let reasons :=
    if failed.isEmpty then [.valueError [.insert join.kind, " join admitted no branch"]]
    else failed
  .group ["fan-out region ", .repr source, " refused by ", .insert join.kind, " join"] reasons

-- Every name a custom join admits must be a branch that succeeded.
def checkAdmitted (source : Str) (ok : List (Str × Delta)) : List Value → Except Exn (List Str)
  | [] => .ok []
  | .str name :: rest =>
      if (ok.map Prod.fst).contains name then do return name :: (← checkAdmitted source ok rest)
      else .error (.valueError ["custom join for ", .repr source, " admitted ", .repr name,
        ", which is not a successful branch"])
  | value :: _ =>
      if value.hashable then
        .error (.valueError ["custom join for ", .repr source, " admitted ", .repr value,
          ", which is not a successful branch"])
      else .error (.typeError ["unhashable type: '", .insert value.typeName, "'"])

-- `_admit`: the admitted branches in canonical order.
def admitBranches (source : Str) (join : Join) (settled : List Settled) : Step (List (Str × Delta)) :=
  let ok := succeeded settled
  let refuse : Step (List (Str × Delta)) := .raise (refusedBy source join (errors settled))
  match join with
  | .all => if (errors settled).isEmpty then .ret ok else refuse
  | .any => if ok.isEmpty then refuse else .ret ok
  | .firstSuccess => if ok.isEmpty then refuse else .ret (ok.take 1)
  | .quorum quorum _ => if quorum ≤ ok.length then .ret ok else refuse
  | .custom fn => do
      let answer ← invoke (.join source fn (settled.map Settled.view))
      let names ← .ofExcept answer
      let chosen ← .ofExcept (checkAdmitted source ok names)
      let admitted := ok.filter fun item => chosen.contains item.1
      if admitted.isEmpty then refuse else .ret admitted

abbrev Contributed := Dict Value Contributions

def contribute (name : Str) (contributed : Contributed) (item : Value × Value) : Contributed :=
  contributed.set item.1 ((contributed.get? item.1).getD [] ++ [(name, item.2)])

-- For each key, the branches that wrote it with their values, in branch order.
def contributions (admitted : List (Str × Delta)) : Contributed :=
  admitted.foldl (fun contributed branch =>
    branch.2.items.foldl (contribute branch.1) contributed) .empty

-- `sorted(contributions)`, each key to be read as an attribute name.
def fieldNames : List Value → Except Exn (List Str)
  | [] => .ok []
  | .str field :: rest => do return field :: (← fieldNames rest)
  | _ :: _ => .error (.typeError ["attribute name must be string"])

abbrev Provenance := Dict Str (List Str)

-- A gate with a start hook also admits each custom reducer on its own, after its inputs
-- were copied and right before it is called.
def admitReducer (gate : Option Gate) (snapshot : State) (field : Str) (reducer : Option Reducer)
    (writes : Contributions) (request : Option DispatchRequest) :
    Step (Option (Value × List Value)) :=
  match reducer, request with
  | some (.custom _), some request =>
      if hasBeforeStart gate then do
        let inputs ← .ofExcept (prepareCustomInputs (snapshot.get field) writes)
        let asked ← dispatch gate none .reducer (request.nodes ++ [field]) request.steps
          request.source request.batchId
        match asked with
        | (some decision, _) => .raise (.boundaryStopped decision)
        | (none, reducerRequest) => do
            beforeStart gate reducerRequest
            return some inputs
      else .ret none
  | _, _ => .ret none

def foldField (g : CompiledGraph) (gate : Option Gate) (source : Str) (snapshot : State)
    (request : Option DispatchRequest) (contributed : Contributed) (field : Str) : Step Value := do
  let declared := g.reducers.get? field
  let writes := (contributed.get? field).getD []
  let inputs ← admitReducer gate snapshot field declared writes request
  reduceField source field (declared.getD defaultReducer) (snapshot.get field) writes
    declared.isSome inputs

def foldFields (g : CompiledGraph) (gate : Option Gate) (source : Str) (snapshot : State)
    (request : Option DispatchRequest) (contributed : Contributed) :
    List Str → Delta × Provenance → Step (Delta × Provenance)
  | [], folded => .ret folded
  | field :: rest, (merged, provenance) => do
      let value ← foldField g gate source snapshot request contributed field
      let writers := ((contributed.get? field).getD []).map Prod.fst
      foldFields g gate source snapshot request contributed rest
        (merged.set field value, provenance.set field writers)

-- `_fold`: the admitted deltas as one, field by field in ascending order.
def fold (g : CompiledGraph) (gate : Option Gate) (source : Str) (snapshot : State)
    (admitted : List (Str × Delta)) (request : Option DispatchRequest) :
    Step (Delta × Provenance) := do
  let contributed := contributions admitted
  let fields ← .ofExcept (fieldNames contributed.keys)
  foldFields g gate source snapshot request contributed (Python.sorted id fields) (.empty, .empty)

-- `except _BoundaryStopped`.
def catchBoundaryStop {α : Type} (p : Step α) : Step (Except GateDecision α) :=
  p.attempt.bind fun
    | .ok value => .ret (.ok value)
    | .error (.boundaryStopped decision) => .ret (.error decision)
    | .error exc => .raise exc

-- A region that committed; one that was interrupted or stopped has no result, the run
-- ends there.
structure RegionResult (entered : Nat) where
  state : State
  steps : Nat
  progress : entered ≤ steps

-- The checks before a region starts, and the snapshot its branches see.
def enterRegion (g : CompiledGraph) (source : Str) (edge : FanOut) (state : State) (steps : Nat) :
    Except Exn State := do
  if g.maxSteps < steps + edge.branches.length then
    .error (.maxStepsExceeded steps source)
  else
    edge.branches.forM fun name => discard (nodeFor g name)
    if edge.thenNode = END ∨ g.nodes.contains edge.thenNode then visit state edge.branches
    else .error (.valueError ["MiniGraph fan-out resolved to unknown node ", .repr edge.thenNode])

theorem enterRegion_visit {g : CompiledGraph} {source : Str} {edge : FanOut} {state snapshot : State}
    {steps : Nat} (h : enterRegion g source edge state steps = .ok snapshot) :
    visit state edge.branches = .ok snapshot := by
  unfold enterRegion at h
  cases hnodes : edge.branches.forM fun name => discard (nodeFor g name) with
  | error e =>
      rw [hnodes] at h
      split_ifs at h <;> cases h
  | ok _ =>
      rw [hnodes] at h
      split_ifs at h
      · exact h
      · cases h

def superstepStarted (source : Str) (edge : FanOut) (steps : Nat) (snapshot : State) :
    GraphObservation where
  event := { kind := .superstepStart, node := source, target := edge.thenNode, steps,
             branches := edge.branches }
  state := snapshot

def superstepCommitted (source : Str) (edge : FanOut) (steps : Nat) (names : List Str)
    (committed : State) (merged : Delta) (provenance : Provenance) : GraphObservation where
  event := { kind := .superstepCommit, node := source, target := edge.thenNode, steps,
             branches := names }
  state := committed
  delta := merged
  provenance

def announce (source : Str) (edge : FanOut) (snapshot : State) (steps : Nat) : Scheduler Unit := do
  .emit (superstepStarted source edge steps snapshot)
  edge.branches.forM fun name => .emit (nodeStarted steps snapshot name)

def askJoin (gate : Option Gate) (source : Str) (edge : FanOut) (completed : Nat) (batchId : Str) :
    Step (Option GateDecision × Option DispatchRequest) :=
  match edge.join with
  | .custom _ => dispatch gate none .join edge.branches completed source batchId
  | _ => .ret (none, none)

-- The commit section of a region: one atomic publication, observed branch by branch.
def publishRegion [Sha256] (gate : Option Gate) (source : Str) (edge : FanOut) (state snapshot : State)
    (steps completed : Nat) (progress : steps ≤ completed) (batchId : Str)
    (admitted : List (Str × Delta)) (merged : Delta) (provenance : Provenance) :
    Scheduler (Option (RegionResult steps)) := do
  let names := admitted.map Prod.fst
  let asked ← (commit gate .region names completed source batchId merged).lift
  orStop state source steps asked.1 do
    let committed ← .ofExcept (snapshot.merge merged)
    let settlement ← (afterCommit gate asked.2).attempt.lift
    admitted.forM fun item => .emit (nodeEnded completed committed item)
    .emit (superstepCommitted source edge completed names committed merged provenance)
    .ofExcept settlement
    return some ⟨committed, completed, progress⟩

-- Folds what the join admitted and publishes it.
def foldRegion [Sha256] (g : CompiledGraph) (gate : Option Gate) (source : Str) (edge : FanOut)
    (state snapshot : State) (steps completed : Nat) (progress : steps ≤ completed) (batchId : Str)
    (admitted : List (Str × Delta)) : Scheduler (Option (RegionResult steps)) := do
  let asked ← (dispatch gate none .reducer (admitted.map Prod.fst) completed source batchId).lift
  orStop state source steps asked.1 do
    let folded ← (catchBoundaryStop (fold g gate source snapshot admitted asked.2)).lift
    match folded with
    | .error decision => orStop state source steps (some decision) (.ret none)
    | .ok (merged, provenance) => do
        let merged ← .ofExcept (detach gate merged)
        publishRegion gate source edge state snapshot steps completed progress batchId admitted
          merged provenance

-- Every branch has settled: errors, stops and interrupts first, then join and fold.
def joinRegion [Sha256] (g : CompiledGraph) (gate : Option Gate) (source : Str) (edge : FanOut)
    (state snapshot : State) (steps : Nat) (batchId : Str) (settled : List Settled) :
    Scheduler (Option (RegionResult steps)) := do
  let verdict ← .ofExcept (branchVerdict source (errors settled))
  orStop state source steps verdict do
    match firstInterrupt settled with
    | some (name, exc) => do
        let state ← .ofExcept (interruptedState snapshot name exc)
        .emit { event := { kind := .interrupt, node := name, steps,
                           terminalReason := some .interrupted, branches := edge.branches },
                state }
        return none
    | none => do
        let completed := steps + settled.countP Settled.ok
        let asked ← (askJoin gate source edge completed batchId).lift
        orStop state source steps asked.1 do
          (beforeStart gate asked.2).lift
          let admitted ← (admitBranches source edge.join settled).lift
          foldRegion g gate source edge state snapshot steps completed (Nat.le_add_right ..) batchId
            admitted

-- `_run_region`.
def runRegion [Sha256] (g : CompiledGraph) (gate : Option Gate) (source : Str) (edge : FanOut)
    (state : State) (steps : Nat) : Scheduler (Option (RegionResult steps)) := do
  let snapshot ← .ofExcept (enterRegion g source edge state steps)
  announce source edge snapshot steps
  let batchId ← (Prog.call (S := Core) .tokenUrlsafe).lift
  let asked ← (dispatch gate none .fanout edge.branches steps source (some batchId)).lift
  orStop state source steps asked.1 do
    let settled ← settle g gate source edge.branches batchId snapshot steps
    joinRegion g gate source edge state snapshot steps batchId settled

-- The region out of `node`, where its edge is one, and the edge then left to take.
def followRegion [Sha256] (g : CompiledGraph) (gate : Option Gate) (node : Str) (state : State)
    (steps : Nat) : Scheduler (Option (RegionResult steps × Edge)) :=
  match g.edgeOf node with
  | .fanout region => do
      let result ← runRegion g gate node region state steps
      return result.map (·, .static region.thenNode)
  | edge => .ret (some (⟨state, steps, le_rfl⟩, edge))

def finish (state : State) (steps : Nat) : Scheduler Unit := do
  let state ← .ofExcept (state.merge (Dict.ofList [("status", "done")]))
  .emit { event := { kind := .done, steps, terminalReason := some .done }, state }

-- The `while` loop. The fuel runs out only where the step budget has (`loop_eq`).
def loopFrom [Sha256] (g : CompiledGraph) (gate : Option Gate) :
    Nat → Str → State → Nat → Str → Scheduler Unit
  | fuel, node, state, steps, lastNode =>
      if node = END then finish state steps
      else if g.maxSteps ≤ steps then .raise (.maxStepsExceeded steps lastNode)
      else match fuel with
      | 0 => .raise (.maxStepsExceeded steps lastNode)
      | fuel + 1 => do
          let some state ← runNode g gate node state steps | return
          let some (result, edge) ← followRegion g gate node state (steps + 1) | return
          let some (target, state) ← route g gate node edge result.state result.steps | return
          loopFrom g gate fuel target state result.steps node

def loop [Sha256] (g : CompiledGraph) (gate : Option Gate) (node : Str) (state : State) (steps : Nat)
    (lastNode : Str) : Scheduler Unit :=
  loopFrom g gate (g.maxSteps - steps).toNat node state steps lastNode

theorem loopFrom_fuel [Sha256] {g : CompiledGraph} {gate : Option Gate} {fuel fuel' steps : Nat}
    {node lastNode : Str} {state : State} (h : (g.maxSteps - steps).toNat ≤ fuel)
    (h' : (g.maxSteps - steps).toNat ≤ fuel') :
    loopFrom g gate fuel node state steps lastNode = loopFrom g gate fuel' node state steps lastNode := by
  induction fuel generalizing fuel' node state steps lastNode with
  | zero =>
      have hbudget : g.maxSteps ≤ steps := by omega
      cases fuel' <;> simp only [loopFrom, if_pos hbudget]
  | succ fuel ih =>
      by_cases hbudget : g.maxSteps ≤ steps
      · cases fuel' <;> simp only [loopFrom, if_pos hbudget]
      · obtain ⟨fuel', rfl⟩ : ∃ n, fuel' = n + 1 := Nat.exists_eq_succ_of_ne_zero (by omega)
        rw [loopFrom, loopFrom, if_neg hbudget, if_neg hbudget]
        congr 2
        funext visited
        cases visited with
        | none => rfl
        | some state =>
            refine congrArg (Prog.bind _) (funext fun followed => ?_)
            cases followed with
            | none => rfl
            | some next =>
                refine congrArg (Prog.bind _) (funext fun routed => ?_)
                cases routed with
                | none => rfl
                | some target =>
                    have hprogress := next.1.progress
                    exact ih (by omega) (by omega)

-- The loop as the source has it: each round goes on with what the one before left.
theorem loop_eq [Sha256] (g : CompiledGraph) (gate : Option Gate) (node : Str) (state : State)
    (steps : Nat) (lastNode : Str) : loop g gate node state steps lastNode =
      if node = END then finish state steps
      else if g.maxSteps ≤ steps then .raise (.maxStepsExceeded steps lastNode)
      else (do
        let some state ← runNode g gate node state steps | return
        let some (result, edge) ← followRegion g gate node state (steps + 1) | return
        let some (target, state) ← route g gate node edge result.state result.steps | return
        loop g gate target state result.steps node) := by
  unfold loop
  cases hfuel : (g.maxSteps - steps).toNat with
  | zero =>
      have hbudget : g.maxSteps ≤ steps := by omega
      simp only [loopFrom, if_pos hbudget]
  | succ fuel =>
      have hbudget : ¬g.maxSteps ≤ steps := by omega
      rw [loopFrom, if_neg hbudget, if_neg hbudget]
      congr 2
      funext visited
      cases visited with
      | none => rfl
      | some state =>
          refine congrArg (Prog.bind _) (funext fun followed => ?_)
          cases followed with
          | none => rfl
          | some next =>
              refine congrArg (Prog.bind _) (funext fun routed => ?_)
              cases routed with
              | none => rfl
              | some target =>
                  have hprogress := next.1.progress
                  exact loopFrom_fuel (by omega) le_rfl

-- `_run`: the sole scheduler.
def run [Sha256] (g : CompiledGraph) (gate : Option Gate) (state : State) : Scheduler Unit := do
  let some (node, state) ← route g gate START (g.edgeOf START) state 0 | return
  loop g gate node state 0 START

-- What `ainvoke` returns after the run `t`: the state last observed.
def ainvoke (state : State) (t : Run) : State :=
  (observations t).foldl (fun _ observation => observation.state) state

end PerpetuaCore.Graph
