import PerpetuaCore.Graph.Calls
import PerpetuaCore.Interaction.Ghost

namespace PerpetuaCore.Graph.Sanitised

open Interaction
open Python (Str Value Dict)

-- What the call of a node comes to. Cancellation ends the run, whatever the join.
inductive Outcome where
  | dict
  | interrupt
  | failure
  | cancelled
  deriving DecidableEq

-- What a step that may carry a decision to stop comes to.
inductive Verdict where
  | passed
  | stopped
  | failed
  deriving DecidableEq

-- What an ungated run goes by: the routers' targets, the outcomes of nodes and branches, what
-- custom joins admit, and how folds come out; moreover what private exceptions in the settled
-- branches lead to, and whether the scheduler can make the states it goes on with.
inductive Decision where
  | routed (target : Option Str)
  | ran (outcome : Outcome)
  | settled (outcomes : List (Option Str × Outcome))
  | admitted (names : Option (List Str))
  | folded (verdict : Verdict)
  | withheld (verdict : Verdict)
  | kept (succeeded : Bool)
  deriving DecidableEq

-- The scheduler of an ungated run, with its decisions noted.
abbrev Noted (α : Type) := Prog (Gen Core (Decision ⊕ GraphObservation) Exn Settled) Exn α

def note (decision : Decision) : Noted Unit := .emit (.inl decision)

def observe (observation : GraphObservation) : Noted Unit := .emit (.inr observation)

def kept {α : Type} (x : Except Exn α) : Noted α :=
  Prog.decided (fun outcome => .kept outcome.isOk) (.ofExcept x)

def failureOf (exc : Exn) : Outcome := if isInterrupt exc then .interrupt else .failure

def outcomeOf : Except Exn Value → Outcome
  | .ok (.dict _) => .dict
  | .ok _ => .failure
  | .error exc => failureOf exc

def Settled.kind (item : Settled) : Option Str × Outcome :=
  match item.outcome with
  | .ok _ => (some item.name, .dict)
  | .error exc => (some item.name, failureOf exc)

def branchOutcome : Except Exn Settled → Option Str × Outcome
  | .ok item => Settled.kind item
  | .error _ => (none, .cancelled)

def stopVerdict {α : Type} : Except Exn (Option α) → Verdict
  | .ok none => .passed
  | .ok (some _) => .stopped
  | .error _ => .failed

def foldVerdict {α β : Type} : Except Exn (Except α β) → Verdict
  | .ok (.ok _) => .passed
  | .ok (.error _) => .stopped
  | .error _ => .failed

-- The target of an edge that runs no code is a matter of the topology.
def resolve (g : CompiledGraph) (source : Str) (edge : Edge) (state : State) :
    Noted (Str × State) :=
  match edge with
  | .static _ | .fanout _ => (resolveEdge g source edge state).lift
  | .callable _ | .conditional _ =>
      Prog.decided (fun outcome => .routed (outcome.toOption.map Prod.fst))
        (resolveEdge g source edge state)

def route (g : CompiledGraph) (source : Str) (edge : Edge) (state : State) (steps : Nat) :
    Noted (Option (Str × State)) := do
  let taken ← resolve g source edge state
  observe { event := { kind := .edgeSelected, node := source, target := taken.1, steps },
            state := taken.2 }
  return some taken

def orStop {α : Type} (state : State) (node : Str) (steps : Nat) (decision : Option GateDecision)
    (next : Noted (Option α)) : Noted (Option α) :=
  match decision with
  | none => next
  | some decision => do
      let observation ← kept (stopped state node steps decision)
      observe observation
      return none

def publishNode (node : Str) (state : State) (steps : Nat) (delta : Delta) :
    Noted (Option State) := do
  let state ← kept (state.merge delta)
  observe (nodeEnded (steps + 1) state (node, delta))
  return some state

def finishNode (node : Str) (steps : Nat) (reply : Reply) : Noted (Option State) := do
  note (.ran (outcomeOf reply.result))
  match reply.result with
  | .error exc =>
      if isInterrupt exc then do
        let state ← kept (interruptedState reply.left node exc)
        observe { event := { kind := .interrupt, node, steps, terminalReason := some .interrupted },
                  state }
        return none
      else .raise exc
  | .ok value => do
      let delta ← .ofExcept (requireDelta node value)
      publishNode node reply.left steps delta

def runNode (g : CompiledGraph) (node : Str) (state : State) (steps : Nat) :
    Noted (Option State) := do
  let fn ← .ofExcept (nodeFor g node)
  let state ← kept (visit state [node])
  observe (nodeStarted steps state node)
  let reply ← (invoke (.node node fn state)).lift
  finishNode node steps reply

def settle (g : CompiledGraph) (source : Str) (branches : List Str) (snapshot : State) :
    Noted (List Settled) := do
  let outcomes ← .fork (branches.map (runBranch g source snapshot))
  note (.settled (outcomes.map branchOutcome))
  .ofExcept (results outcomes)

def announce (source : Str) (edge : FanOut) (snapshot : State) (steps : Nat) : Noted Unit := do
  observe (superstepStarted source edge steps snapshot)
  edge.branches.forM fun name => observe (nodeStarted steps snapshot name)

-- Which branches a join other than a custom one admits follows from their outcomes.
def admitBranches (source : Str) (join : Join) (settled : List Settled) :
    Noted (List (Str × Delta)) :=
  match join with
  | .custom _ =>
      Prog.decided (fun outcome => .admitted (outcome.toOption.map (·.map Prod.fst)))
        (Graph.admitBranches source join settled)
  | _ => (Graph.admitBranches source join settled).lift

def publishRegion (source : Str) (edge : FanOut) (snapshot : State) (steps completed : Nat)
    (progress : steps ≤ completed) (admitted : List (Str × Delta)) (merged : Delta)
    (provenance : Provenance) : Noted (Option (RegionResult steps)) := do
  let names := admitted.map Prod.fst
  let committed ← kept (snapshot.merge merged)
  admitted.forM fun item => observe (nodeEnded completed committed item)
  observe (superstepCommitted source edge completed names committed merged provenance)
  return some ⟨committed, completed, progress⟩

def foldRegion (g : CompiledGraph) (source : Str) (edge : FanOut) (state snapshot : State)
    (steps completed : Nat) (progress : steps ≤ completed) (admitted : List (Str × Delta)) :
    Noted (Option (RegionResult steps)) := do
  let folded ← Prog.decided (fun outcome => .folded (foldVerdict outcome))
    (catchBoundaryStop (fold g none source snapshot admitted none))
  match folded with
  | .error decision => orStop state source steps (some decision) (.ret none)
  | .ok (merged, provenance) =>
      publishRegion source edge snapshot steps completed progress admitted merged provenance

theorem le_completed (steps : Nat) (settled : List Settled) :
    steps ≤ steps + settled.countP Settled.ok := Nat.le_add_right ..

def joinRegion (g : CompiledGraph) (source : Str) (edge : FanOut) (state snapshot : State)
    (steps : Nat) (settled : List Settled) : Noted (Option (RegionResult steps)) := do
  let verdict ← Prog.decided (fun outcome => .withheld (stopVerdict outcome))
    (.ofExcept (branchVerdict source (errors settled)))
  orStop state source steps verdict do
    match firstInterrupt settled with
    | some (name, exc) => do
        let state ← kept (interruptedState snapshot name exc)
        observe { event := { kind := .interrupt, node := name, steps,
                             terminalReason := some .interrupted, branches := edge.branches },
                  state }
        return none
    | none => do
        let completed := steps + settled.countP Settled.ok
        let admitted ← admitBranches source edge.join settled
        foldRegion g source edge state snapshot steps completed (le_completed steps settled) admitted

def runRegion (g : CompiledGraph) (source : Str) (edge : FanOut) (state : State) (steps : Nat) :
    Noted (Option (RegionResult steps)) := do
  let snapshot ← kept (enterRegion g source edge state steps)
  announce source edge snapshot steps
  let _ ← (Prog.call (S := Core) .tokenUrlsafe).lift
  let settled ← settle g source edge.branches snapshot
  joinRegion g source edge state snapshot steps settled

def followRegion (g : CompiledGraph) (node : Str) (state : State) (steps : Nat) :
    Noted (Option (RegionResult steps × Edge)) :=
  match g.edgeOf node with
  | .fanout region => do
      let result ← runRegion g node region state steps
      return result.map (·, .static region.thenNode)
  | edge => .ret (some (⟨state, steps, le_rfl⟩, edge))

def finish (state : State) (steps : Nat) : Noted Unit := do
  let state ← kept (state.merge (Dict.ofList [("status", "done")]))
  observe { event := { kind := .done, steps, terminalReason := some .done }, state }

def loopFrom (g : CompiledGraph) : Nat → Str → State → Nat → Str → Noted Unit
  | fuel, node, state, steps, lastNode =>
      if node = END then finish state steps
      else if g.maxSteps ≤ steps then .raise (.maxStepsExceeded steps lastNode)
      else match fuel with
      | 0 => .raise (.maxStepsExceeded steps lastNode)
      | fuel + 1 => do
          let some state ← runNode g node state steps | return
          let some (result, edge) ← followRegion g node state (steps + 1) | return
          let some (target, state) ← route g node edge result.state result.steps | return
          loopFrom g fuel target state result.steps node

def loop (g : CompiledGraph) (node : Str) (state : State) (steps : Nat) (lastNode : Str) :
    Noted Unit :=
  loopFrom g (g.maxSteps - steps).toNat node state steps lastNode

def run (g : CompiledGraph) (state : State) : Noted Unit := do
  let some (node, state) ← route g START (g.edgeOf START) state 0 | return
  loop g node state 0 START

section Plain

variable {α : Type} {g : CompiledGraph} {source : Str} {edge : FanOut} {state snapshot : State}
  {steps : Nat}

theorem plain_kept (x : Except Exn α) : (kept x).plain = .ofExcept x := by
  rw [kept, Prog.plain_decided, Prog.lift_ofExcept]

theorem plain_kept_bind {β : Type} {x : Except Exn α} {f : α → Noted β} {f' : α → Scheduler β}
    (h : ∀ value, (f value).plain = f' value) :
    ((kept x).bind f).plain = (Prog.ofExcept x).bind f' := by
  rw [Prog.plain_bind, plain_kept]
  exact congrArg _ (funext h)

theorem resolve_plain (edge : Edge) :
    (resolve g source edge state).plain = (resolveEdge g source edge state).lift := by
  unfold resolve
  split
  · exact Prog.plain_lift _
  · exact Prog.plain_lift _
  · exact Prog.plain_decided _ _
  · exact Prog.plain_decided _ _

theorem route_plain (edge : Edge) :
    (route g source edge state steps).plain = Graph.route g none source edge state steps := by
  rw [route, Prog.bind_eq, Prog.plain_bind, resolve_plain]
  rfl

theorem orStop_plain {node : Str} {decision : Option GateDecision} {next : Noted (Option α)}
    {next' : Scheduler (Option α)} (h : next.plain = next') :
    (orStop state node steps decision next).plain = Graph.orStop state node steps decision next' := by
  cases decision with
  | none => exact h
  | some decision => exact plain_kept_bind fun _ => rfl

theorem finish_plain : (finish state steps).plain = Graph.finish state steps :=
  plain_kept_bind fun _ => rfl

theorem announce_plain : (announce source edge snapshot steps).plain =
    Graph.announce source edge snapshot steps :=
  congrArg _ (funext fun _ => Prog.plain_emitAll _ _)

theorem admit_plain {join : Join} {settled : List Settled} :
    (admitBranches source join settled).plain = (Graph.admitBranches source join settled).lift := by
  unfold admitBranches
  split
  · exact Prog.plain_decided _ _
  · exact Prog.plain_lift _

theorem settle_plain {branches : List Str} {batchId : Str} :
    (settle g source branches snapshot).plain =
      Graph.settle g none source branches batchId snapshot steps :=
  congrArg _ (funext fun _ => Prog.plain_ofExcept _)

variable [Sha256]

theorem publishNode_plain {node : Str} {delta : Delta} :
    (publishNode node state steps delta).plain = Graph.publishNode none node state steps delta :=
  plain_kept_bind fun _ => rfl

theorem finishNode_plain {node : Str} {reply : Reply} :
    (finishNode node steps reply).plain = Graph.finishNode none node steps reply := by
  unfold finishNode Graph.finishNode
  rw [Prog.bind_eq, Prog.plain_bind]
  show Prog.plain (match reply.result with | .error _ => _ | .ok _ => _) = _
  cases reply.result with
  | error exc =>
      dsimp only
      split_ifs
      · exact plain_kept_bind fun _ => rfl
      · rfl
  | ok value =>
      dsimp only
      rw [Prog.bind_eq, Prog.plain_bind, Prog.plain_ofExcept]
      exact congrArg _ (funext fun delta => publishNode_plain)

theorem runNode_plain {node : Str} :
    (runNode g node state steps).plain = Graph.runNode g none node state steps := by
  rw [runNode, Prog.bind_eq, Prog.plain_bind, Prog.plain_ofExcept]
  refine congrArg _ (funext fun fn => plain_kept_bind fun visited => ?_)
  rw [Prog.bind_eq, Prog.plain_bind]
  refine congrArg _ (funext fun _ => ?_)
  rw [Prog.bind_eq, Prog.plain_bind, Prog.plain_lift]
  exact congrArg _ (funext fun reply => finishNode_plain)

theorem publishRegion_plain (state : State) (batchId : Str) {completed : Nat}
    {progress : steps ≤ completed} {admitted : List (Str × Delta)} {merged : Delta}
    {provenance : Provenance} :
    (publishRegion source edge snapshot steps completed progress admitted merged provenance).plain =
      Graph.publishRegion none source edge state snapshot steps completed progress batchId admitted
        merged provenance := by
  refine plain_kept_bind fun committed => ?_
  rw [Prog.bind_eq, Prog.plain_bind]
  exact congrFun (congrArg _ (Prog.plain_emitAll _ _)) _

theorem foldRegion_plain {completed : Nat} {progress : steps ≤ completed} {batchId : Str}
    {admitted : List (Str × Delta)} :
    (foldRegion g source edge state snapshot steps completed progress admitted).plain =
      Graph.foldRegion g none source edge state snapshot steps completed progress batchId admitted := by
  rw [foldRegion, Prog.bind_eq, Prog.plain_bind, Prog.plain_decided]
  refine congrArg _ (funext fun folded => ?_)
  rcases folded with decision | ⟨merged, provenance⟩
  · exact orStop_plain rfl
  · exact publishRegion_plain state batchId

theorem joinRegion_plain {settled : List Settled} {batchId : Str} :
    (joinRegion g source edge state snapshot steps settled).plain =
      Graph.joinRegion g none source edge state snapshot steps batchId settled := by
  rw [joinRegion, Graph.joinRegion, Prog.bind_eq, Prog.plain_bind, Prog.plain_decided,
    Prog.lift_ofExcept]
  refine congrArg _ (funext fun verdict => orStop_plain ?_)
  cases firstInterrupt settled with
  | some found => exact plain_kept_bind fun _ => rfl
  | none =>
      dsimp only
      rw [askJoin_ungated, Prog.bind_eq, Prog.plain_bind, admit_plain]
      exact congrArg _ (funext fun admitted => foldRegion_plain)

theorem runRegion_plain :
    (runRegion g source edge state steps).plain = Graph.runRegion g none source edge state steps := by
  refine plain_kept_bind fun entered => ?_
  rw [Prog.bind_eq, Prog.plain_bind, announce_plain]
  refine congrArg _ (funext fun _ => ?_)
  rw [Prog.bind_eq, Prog.plain_bind, Prog.plain_lift]
  refine congrArg _ (funext fun batchId => ?_)
  rw [Prog.bind_eq, Prog.plain_bind, settle_plain]
  exact congrArg _ (funext fun settled => joinRegion_plain)

theorem followRegion_plain {node : Str} :
    (followRegion g node state steps).plain = Graph.followRegion g none node state steps := by
  unfold followRegion Graph.followRegion
  generalize g.edgeOf node = edge
  cases edge with
  | fanout region =>
      dsimp only
      rw [Prog.bind_eq, Prog.plain_bind, runRegion_plain]
      rfl
  | _ => rfl

theorem loopFrom_plain {fuel : Nat} {node lastNode : Str} :
    (loopFrom g fuel node state steps lastNode).plain =
      Graph.loopFrom g none fuel node state steps lastNode := by
  induction fuel generalizing node state steps lastNode with
  | zero =>
      unfold loopFrom Graph.loopFrom
      split_ifs
      · exact finish_plain
      · rfl
      · rfl
  | succ fuel ih =>
      unfold loopFrom Graph.loopFrom
      split_ifs
      · exact finish_plain
      · rfl
      dsimp only
      rw [Prog.bind_eq, Prog.plain_bind, runNode_plain]
      refine congrArg _ (funext fun ran => ?_)
      rcases ran with _ | state
      · rfl
      dsimp only
      rw [Prog.bind_eq, Prog.plain_bind, followRegion_plain]
      refine congrArg _ (funext fun followed => ?_)
      rcases followed with _ | ⟨result, edge⟩
      · rfl
      dsimp only
      rw [Prog.bind_eq, Prog.plain_bind, route_plain]
      refine congrArg _ (funext fun routed => ?_)
      rcases routed with _ | ⟨target, state⟩
      · rfl
      exact ih

-- Without its notes this is the scheduler of an ungated run.
theorem run_plain : (run g state).plain = Graph.run g none state := by
  rw [run, Prog.bind_eq, Prog.plain_bind, route_plain]
  refine congrArg _ (funext fun routed => ?_)
  rcases routed with _ | ⟨node, state⟩
  · rfl
  · exact loopFrom_plain

end Plain

def JoinAlike : Join → Join → Prop
  | .custom _, .custom _ => True
  | join, join' => join = join'

structure RegionAlike (edge edge' : FanOut) : Prop where
  branches : edge.branches = edge'.branches
  thenNode : edge.thenNode = edge'.thenNode
  join : JoinAlike edge.join edge'.join

-- Routers may be any functions, and whichever targets they declare.
def EdgeAlike : Edge → Edge → Prop
  | .static target, .static target' => target = target'
  | .fanout region, .fanout region' => RegionAlike region region'
  | .callable _, .callable _ | .conditional _, .conditional _ => True
  | _, _ => False

-- Graphs that differ only in their functions, and in their reducers.
structure SameTopology (g g' : CompiledGraph) : Prop where
  nodes : ∀ name, g.nodes.contains name = g'.nodes.contains name
  edges : ∀ name, EdgeAlike (g.edgeOf name) (g'.edgeOf name)
  maxSteps : g.maxSteps = g'.maxSteps

section Settled

theorem failureOf_ne_dict (exc : Exn) : failureOf exc ≠ .dict := by
  unfold failureOf
  split_ifs <;> decide

theorem failureOf_eq_interrupt {exc : Exn} : failureOf exc = .interrupt ↔ isInterrupt exc = true := by
  unfold failureOf
  split_ifs with h
  · exact iff_of_true rfl h
  · exact iff_of_false (by decide) h

theorem kind_fst (item : Settled) : (Settled.kind item).1 = some item.name := by
  unfold Settled.kind
  cases item.outcome <;> rfl

theorem succeeded_names (settled : List Settled) : (succeeded settled).map Prod.fst =
    ((settled.map Settled.kind).filter (·.2 = .dict)).filterMap Prod.fst := by
  induction settled with
  | nil => rfl
  | cons item rest ih =>
      obtain ⟨name, outcome⟩ := item
      cases outcome with
      | ok delta => exact congrArg (name :: ·) ih
      | error exc =>
          have hkind : (Settled.kind ⟨name, .error exc⟩).2 ≠ .dict := failureOf_ne_dict exc
          rw [List.map_cons, List.filter_cons_of_neg (by simpa using hkind), ← ih]
          rfl

theorem countP_ok (settled : List Settled) : settled.countP Settled.ok =
    (settled.map Settled.kind).countP (·.2 = .dict) := by
  rw [List.countP_map]
  refine List.countP_congr fun item _ => ?_
  obtain ⟨name, outcome⟩ := item
  cases outcome with
  | ok delta => exact iff_of_true rfl rfl
  | error exc =>
      have hkind : (Settled.kind ⟨name, .error exc⟩).2 ≠ .dict := failureOf_ne_dict exc
      exact iff_of_false Bool.false_ne_true (by simpa using hkind)

theorem errors_isEmpty (settled : List Settled) : (errors settled).isEmpty =
    (settled.map Settled.kind).all (·.2 = .dict) := by
  induction settled with
  | nil => rfl
  | cons item rest ih =>
      obtain ⟨name, outcome⟩ := item
      cases outcome with
      | ok delta => exact ih
      | error exc =>
          have hkind : (Settled.kind ⟨name, .error exc⟩).2 ≠ .dict := failureOf_ne_dict exc
          rw [List.map_cons, List.all_cons, decide_eq_false hkind]
          rfl

theorem firstInterrupt_name (settled : List Settled) : (firstInterrupt settled).map Prod.fst =
    ((settled.map Settled.kind).filter (·.2 = .interrupt)).head?.bind Prod.fst := by
  unfold firstInterrupt
  induction settled with
  | nil => rfl
  | cons item rest ih =>
      obtain ⟨name, outcome⟩ := item
      cases outcome with
      | ok delta => exact ih
      | error exc =>
          cases hexc : isInterrupt exc with
          | true =>
              have hkind : (Settled.kind ⟨name, .error exc⟩).2 = .interrupt :=
                failureOf_eq_interrupt.mpr hexc
              rw [List.map_cons, List.filter_cons_of_pos (by simpa using hkind),
                List.filterMap_cons_some (by simp [Settled.error?, hexc]; rfl)]
              rfl
          | false =>
              have hkind : (Settled.kind ⟨name, .error exc⟩).2 ≠ .interrupt := fun h =>
                absurd (failureOf_eq_interrupt.mp h) (by simp [hexc])
              rw [List.map_cons, List.filter_cons_of_neg (by simpa using hkind),
                List.filterMap_cons_none (by simp [Settled.error?, hexc])]
              exact ih

-- Which branches settled, and how, decides what is handed on of them.
theorem results_same {outcomes outcomes' : List (Except Exn Settled)}
    (h : outcomes.map branchOutcome = outcomes'.map branchOutcome) :
    Same (fun _ _ => True) (fun settled settled' =>
      settled.map Settled.kind = settled'.map Settled.kind) (results outcomes) (results outcomes') := by
  induction outcomes generalizing outcomes' with
  | nil =>
      cases outcomes' with
      | nil => exact .ok rfl
      | cons => cases h
  | cons outcome rest ih =>
      cases outcomes' with
      | nil => cases h
      | cons outcome' rest' =>
          obtain ⟨hhead, htail⟩ := List.cons.inj h
          cases outcome with
          | error exc =>
              cases outcome' with
              | error exc' => exact .error trivial
              | ok item' =>
                  have hname := congrArg Prod.fst hhead
                  rw [branchOutcome, branchOutcome, kind_fst] at hname
                  cases hname
          | ok item =>
              cases outcome' with
              | error exc' =>
                  have hname := congrArg Prod.fst hhead
                  rw [branchOutcome, branchOutcome, kind_fst] at hname
                  cases hname
              | ok item' =>
                  refine Same.bind (ih htail) fun settled settled' hsettled => .ok ?_
                  exact congrArg₂ List.cons hhead hsettled

end Settled

-- Runs of two graphs, observed through their events.
abbrev Follows {α β : Type} (R : α → β → Prop) (p : Noted α) (q : Noted β) : Prop :=
  Tracks GraphObservation.event R p q

section Follows

variable {g g' : CompiledGraph} {source : Str} {state state' snapshot snapshot' : State}
  {steps : Nat}

theorem kept_tracks {α β : Type} {R : α → β → Prop} {x : Except Exn α} {y : Except Exn β}
    (h : ∀ value value', x = .ok value → y = .ok value' → R value value') :
    Follows R (kept x) (kept y) := by
  refine Tracks.decided_ofExcept fun hkept => ?_
  cases x with
  | error exc =>
      cases y with
      | error exc' => exact .error trivial
      | ok value' => cases hkept
  | ok value =>
      cases y with
      | error exc' => cases hkept
      | ok value' => exact .ok (h value value' rfl rfl)

theorem checkTarget_same (hg : SameTopology g g') (value : Value) :
    checkTarget g value = checkTarget g' value := by
  unfold checkTarget
  split
  · rfl
  · rw [hg.nodes]
  · rfl

theorem nodeFor_same (hg : SameTopology g g') (name : Str) :
    Same (fun _ _ => True) (fun _ _ => True) (nodeFor g name) (nodeFor g' name) := by
  have hname : name ∈ g.nodes.keys ↔ name ∈ g'.nodes.keys := by
    simpa [Dict.contains] using hg.nodes name
  rw [← Dict.get?_isSome_iff, ← Dict.get?_isSome_iff] at hname
  unfold nodeFor
  cases hfn : g.nodes.get? name <;> cases hfn' : g'.nodes.get? name
  · exact .error trivial
  · simp [hfn, hfn'] at hname
  · simp [hfn, hfn'] at hname
  · exact .ok trivial

theorem resolve_tracks (hg : SameTopology g g') {edge edge' : Edge} (he : EdgeAlike edge edge') :
    Follows (fun taken taken' => taken.1 = taken'.1) (resolve g source edge state)
      (resolve g' source edge' state') := by
  cases edge with
  | static target =>
      cases edge' with
      | static target' =>
          obtain rfl : target = target' := he
          have hresolve : ∀ (g : CompiledGraph) (state : State),
              resolveEdge g source (.static target) state =
                .ofExcept ((checkTarget g target).map (·, state)) := by
            intro g state
            unfold resolveEdge
            dsimp only
            cases checkTarget g target <;> rfl
          show Tracks GraphObservation.event _ (resolveEdge g source (.static target) state).lift
            (resolveEdge g' source (.static target) state').lift
          rw [hresolve, hresolve, Prog.lift_ofExcept, Prog.lift_ofExcept, checkTarget_same hg]
          refine Tracks.ofExcept ?_
          cases checkTarget g' target with
          | error exc => exact .error trivial
          | ok target => exact .ok rfl
      | _ => exact he.elim
  | fanout region =>
      cases edge' with
      | fanout region' =>
          refine Tracks.lift fun t o t' o' hexec hexec' => ?_
          obtain ⟨-, rfl⟩ := exec_raise hexec
          obtain ⟨-, rfl⟩ := exec_raise hexec'
          exact .error trivial
      | _ => exact he.elim
  | callable router =>
      cases edge' with
      | callable router' => exact Tracks.decided fun x y h => .of_toOption (Decision.routed.inj h)
      | _ => exact he.elim
  | conditional conditional =>
      cases edge' with
      | conditional conditional' =>
          exact Tracks.decided fun x y h => .of_toOption (Decision.routed.inj h)
      | _ => exact he.elim

theorem route_tracks (hg : SameTopology g g') {edge edge' : Edge} (he : EdgeAlike edge edge') :
    Follows (fun taken taken' => taken.map Prod.fst = taken'.map Prod.fst)
      (route g source edge state steps) (route g' source edge' state' steps) := by
  refine Tracks.bind (resolve_tracks hg he) fun taken taken' htarget => ?_
  refine Tracks.bind (Tracks.emit ?_) fun _ _ _ => Tracks.ret (congrArg some htarget)
  rw [htarget]

theorem orStop_tracks {α β : Type} {R : Option α → Option β → Prop} (hnone : R none none)
    {node : Str} {decision decision' : Option GateDecision} {next : Noted (Option α)}
    {next' : Noted (Option β)} (h : decision.isSome = decision'.isSome)
    (hnext : decision = none → Follows R next next') :
    Follows R (orStop state node steps decision next) (orStop state' node steps decision' next') := by
  rcases decision with _ | decision <;> rcases decision' with _ | decision'
  · exact hnext rfl
  · cases h
  · cases h
  have hevent : Follows (fun shown shown' => shown.event = shown'.event)
      (kept (stopped state node steps decision)) (kept (stopped state' node steps decision')) := by
    refine kept_tracks fun shown shown' hshown hshown' => ?_
    obtain ⟨closed, -, rfl⟩ := stopped_eq hshown
    obtain ⟨closed', -, rfl⟩ := stopped_eq hshown'
    rfl
  refine Tracks.bind hevent fun shown shown' h => ?_
  exact Tracks.bind (Tracks.emit h) fun _ _ _ => Tracks.ret hnone

-- A part of a run that ends the run, or goes on.
abbrev Ends {α β : Type} (value : Option α) (value' : Option β) : Prop :=
  value.isSome = value'.isSome

theorem publishNode_tracks {node : Str} {delta delta' : Delta} :
    Follows Ends (publishNode node state steps delta) (publishNode node state' steps delta') :=
  Tracks.bind (kept_tracks fun _ _ _ _ => trivial) fun _ _ _ =>
    Tracks.bind (Tracks.emit rfl) fun _ _ _ => Tracks.ret rfl

-- How a run goes on from a node depends on the kind of its outcome.
theorem finishNode_eq (node : Str) (steps : Nat) (reply : Reply) :
    (∃ delta, finishNode node steps reply =
      (note (.ran .dict)).bind fun _ => publishNode node reply.left steps delta) ∨
    (∃ exc, finishNode node steps reply = (note (.ran .interrupt)).bind fun _ =>
      (kept (interruptedState reply.left node exc)).bind fun state =>
        (observe { event := { kind := .interrupt, node, steps, terminalReason := some .interrupted },
                   state }).bind fun _ => .ret none) ∨
    ∃ exc, finishNode node steps reply = (note (.ran .failure)).bind fun _ => .raise exc := by
  unfold finishNode
  cases reply.result with
  | error exc =>
      cases hexc : isInterrupt exc with
      | true =>
          refine .inr (.inl ⟨exc, ?_⟩)
          simp only [outcomeOf, failureOf, hexc, if_true]
          rfl
      | false =>
          refine .inr (.inr ⟨exc, ?_⟩)
          simp only [outcomeOf, failureOf, hexc, Bool.false_eq_true, if_false]
          rfl
  | ok value =>
      cases value with
      | dict items => exact .inl ⟨Dict.ofList items, rfl⟩
      | _ => exact .inr (.inr ⟨_, rfl⟩)

theorem finishNode_tracks {node : Str} {reply reply' : Reply} :
    Follows Ends (finishNode node steps reply) (finishNode node steps reply') := by
  rcases finishNode_eq node steps reply with ⟨delta, h⟩ | ⟨exc, h⟩ | ⟨exc, h⟩ <;>
    rcases finishNode_eq node steps reply' with ⟨delta', h'⟩ | ⟨exc', h'⟩ | ⟨exc', h'⟩ <;>
    rw [h, h'] <;> refine Tracks.note fun hsame => ?_
  case inl.inl => exact publishNode_tracks
  case inr.inl.inr.inl =>
    refine Tracks.bind (kept_tracks fun _ _ _ _ => trivial) fun _ _ _ => ?_
    exact Tracks.bind (Tracks.emit rfl) fun _ _ _ => Tracks.ret rfl
  case inr.inr.inr.inr => exact Tracks.raise
  all_goals cases hsame

theorem runNode_tracks (hg : SameTopology g g') {node : Str} :
    Follows Ends (runNode g node state steps) (runNode g' node state' steps) := by
  refine Tracks.bind (Tracks.ofExcept (nodeFor_same hg node)) fun fn fn' _ => ?_
  refine Tracks.bind (kept_tracks fun _ _ _ _ => trivial) fun visited visited' _ => ?_
  refine Tracks.bind (Tracks.emit rfl) fun _ _ _ => ?_
  exact Tracks.act fun _ _ => Tracks.act fun reply reply' => finishNode_tracks

theorem settle_tracks {branches : List Str} :
    Follows (fun settled settled' => settled.map Settled.kind = settled'.map Settled.kind)
      (settle g source branches snapshot) (settle g' source branches snapshot') :=
  Tracks.bind Tracks.fork fun _ _ _ => Tracks.note fun h =>
    Tracks.ofExcept (results_same (Decision.settled.inj h))

theorem announce_tracks {edge edge' : FanOut} (he : RegionAlike edge edge') :
    Follows (fun _ _ => True) (announce source edge snapshot steps)
      (announce source edge' snapshot' steps) := by
  have hstarted : (superstepStarted source edge steps snapshot).event =
      (superstepStarted source edge' steps snapshot').event := by
    rw [superstepStarted, superstepStarted, he.branches, he.thenNode]
  refine Tracks.bind (Tracks.emit hstarted) fun _ _ _ => Tracks.emitAll ?_
  rw [he.branches]
  rfl

theorem ite_tracks {α β : Type} {R : α → β → Prop} {c c' : Prop} [Decidable c] [Decidable c']
    {p q : Step α} {p' q' : Step β} (h : c ↔ c') (hp : Follows R p.lift p'.lift)
    (hq : Follows R q.lift q'.lift) :
    Follows R (if c then p else q).lift (if c' then p' else q').lift := by
  by_cases hc : c
  · rw [if_pos hc, if_pos (h.mp hc)]
    exact hp
  · rw [if_neg hc, if_neg (fun hc' => hc (h.mpr hc'))]
    exact hq

theorem admit_tracks {join join' : Join} {settled settled' : List Settled}
    (hj : JoinAlike join join') (hs : settled.map Settled.kind = settled'.map Settled.kind) :
    Follows (fun admitted admitted' => admitted.map Prod.fst = admitted'.map Prod.fst)
      (admitBranches source join settled) (admitBranches source join' settled') := by
  have hnames : (succeeded settled).map Prod.fst = (succeeded settled').map Prod.fst := by
    rw [succeeded_names, succeeded_names, hs]
  have hlength : (succeeded settled).length = (succeeded settled').length := by
    simpa using congrArg List.length hnames
  have hempty : (succeeded settled).isEmpty = (succeeded settled').isEmpty := by
    rw [Bool.eq_iff_iff, List.isEmpty_iff_length_eq_zero, List.isEmpty_iff_length_eq_zero, hlength]
  cases join with
  | custom fn =>
      cases join' with
      | custom fn' => exact Tracks.decided fun x y h => .of_toOption (Decision.admitted.inj h)
      | _ => cases hj
  | all =>
      cases join' with
      | all =>
          refine ite_tracks ?_ (Tracks.ret hnames) Tracks.raise
          rw [errors_isEmpty, errors_isEmpty, hs]
      | _ => cases hj
  | any =>
      cases join' with
      | any => exact ite_tracks (by rw [hempty]) Tracks.raise (Tracks.ret hnames)
      | _ => cases hj
  | firstSuccess =>
      cases join' with
      | firstSuccess =>
          refine ite_tracks (by rw [hempty]) Tracks.raise (Tracks.ret ?_)
          rw [List.map_take, List.map_take, hnames]
      | _ => cases hj
  | quorum quorum positive =>
      cases join' with
      | quorum quorum' positive' =>
          obtain rfl := (Join.quorum.inj hj)
          exact ite_tracks (by rw [hlength]) (Tracks.ret hnames) Tracks.raise
      | _ => cases hj

abbrev SameSteps (result result' : Option (RegionResult steps)) : Prop :=
  result.map RegionResult.steps = result'.map RegionResult.steps

theorem publishRegion_tracks {edge edge' : FanOut} (he : RegionAlike edge edge')
    {completed completed' : Nat} {progress : steps ≤ completed} {progress' : steps ≤ completed'}
    (hcompleted : completed = completed') {admitted admitted' : List (Str × Delta)}
    (hnames : admitted.map Prod.fst = admitted'.map Prod.fst) {merged merged' : Delta}
    {provenance provenance' : Provenance} :
    Follows SameSteps
      (publishRegion source edge snapshot steps completed progress admitted merged provenance)
      (publishRegion source edge' snapshot' steps completed' progress' admitted' merged'
        provenance') := by
  subst hcompleted
  refine Tracks.bind (kept_tracks fun _ _ _ _ => trivial) fun committed committed' _ => ?_
  refine Tracks.bind (Tracks.emitAll ?_) fun _ _ _ => ?_
  · have hevents : ∀ (state : State) (branches : List (Str × Delta)),
        (branches.map fun item => (nodeEnded completed state item).event) =
          (branches.map Prod.fst).map fun name =>
            { kind := .nodeEnd, node := name, steps := completed } := by
      intro state branches
      rw [List.map_map]
      rfl
    rw [hevents, hevents, hnames]
  · refine Tracks.bind (Tracks.emit ?_) fun _ _ _ => Tracks.ret rfl
    rw [superstepCommitted, superstepCommitted, hnames, he.thenNode]

theorem foldRegion_tracks {edge edge' : FanOut} (he : RegionAlike edge edge')
    {completed completed' : Nat} {progress : steps ≤ completed} {progress' : steps ≤ completed'}
    (hcompleted : completed = completed') {admitted admitted' : List (Str × Delta)}
    (hnames : admitted.map Prod.fst = admitted'.map Prod.fst) :
    Follows SameSteps
      (foldRegion g source edge state snapshot steps completed progress admitted)
      (foldRegion g' source edge' state' snapshot' steps completed' progress' admitted') := by
  have hfold : Follows (fun folded folded' => folded.isOk = folded'.isOk)
      (Prog.decided (fun outcome => .folded (foldVerdict outcome))
        (catchBoundaryStop (fold g none source snapshot admitted none)))
      (Prog.decided (fun outcome => .folded (foldVerdict outcome))
        (catchBoundaryStop (fold g' none source snapshot' admitted' none))) := by
    refine Tracks.decided fun x y h => ?_
    rcases x with exc | decision | folded <;> rcases y with exc' | decision' | folded' <;>
      first | exact .error trivial | exact .ok rfl | cases h
  refine Tracks.bind hfold fun folded folded' hsame => ?_
  rcases folded with decision | folded <;> rcases folded' with decision' | folded'
  · exact orStop_tracks (R := SameSteps) rfl rfl nofun
  · cases hsame
  · cases hsame
  · exact publishRegion_tracks he hcompleted hnames

theorem joinRegion_tracks {edge edge' : FanOut} (he : RegionAlike edge edge')
    {settled settled' : List Settled} (hs : settled.map Settled.kind = settled'.map Settled.kind) :
    Follows SameSteps
      (joinRegion g source edge state snapshot steps settled)
      (joinRegion g' source edge' state' snapshot' steps settled') := by
  have hverdict : Follows Ends
      (Prog.decided (fun outcome => .withheld (stopVerdict outcome))
        (.ofExcept (branchVerdict source (errors settled))))
      (Prog.decided (fun outcome => .withheld (stopVerdict outcome))
        (.ofExcept (branchVerdict source (errors settled')))) := by
    refine Tracks.decided fun x y h => ?_
    rcases x with exc | _ | decision <;> rcases y with exc' | _ | decision' <;>
      first | exact .error trivial | exact .ok rfl | cases h
  refine Tracks.bind hverdict fun verdict verdict' hsame => ?_
  refine orStop_tracks (R := SameSteps) rfl hsame fun _ => ?_
  have hinterrupt :
      (firstInterrupt settled).map Prod.fst = (firstInterrupt settled').map Prod.fst := by
    rw [firstInterrupt_name, firstInterrupt_name, hs]
  generalize firstInterrupt settled = found at hinterrupt ⊢
  generalize firstInterrupt settled' = found' at hinterrupt ⊢
  rcases found with _ | ⟨name, exc⟩ <;> rcases found' with _ | ⟨name', exc'⟩
  · refine Tracks.bind (admit_tracks he.join hs) fun admitted admitted' hnames => ?_
    exact foldRegion_tracks he (by rw [countP_ok, countP_ok, hs]) hnames
  · cases hinterrupt
  · cases hinterrupt
  · cases hinterrupt
    refine Tracks.bind (kept_tracks fun _ _ _ _ => trivial) fun _ _ _ => ?_
    refine Tracks.bind (Tracks.emit ?_) fun _ _ _ => Tracks.ret rfl
    rw [he.branches]

theorem runRegion_tracks {edge edge' : FanOut} (he : RegionAlike edge edge') :
    Follows SameSteps
      (runRegion g source edge state steps) (runRegion g' source edge' state' steps) := by
  refine Tracks.bind (kept_tracks fun _ _ _ _ => trivial) fun entered entered' _ => ?_
  refine Tracks.bind (announce_tracks he) fun _ _ _ => ?_
  refine Tracks.bind (R := fun _ _ => True) (Tracks.act fun _ _ => Tracks.ret trivial) fun _ _ _ => ?_
  have hsettle : Follows
      (fun settled settled' => settled.map Settled.kind = settled'.map Settled.kind)
      (settle g source edge.branches entered) (settle g' source edge'.branches entered') := by
    rw [he.branches]
    exact settle_tracks
  exact Tracks.bind hsettle fun settled settled' hs => joinRegion_tracks he hs

-- As many steps taken, and the same way on.
abbrev SameCourse (followed followed' : Option (RegionResult steps × Edge)) : Prop :=
  Option.Rel (fun way way' => way.1.steps = way'.1.steps ∧ EdgeAlike way.2 way'.2) followed followed'

theorem followRegion_tracks (hg : SameTopology g g') {node : Str} :
    Follows SameCourse (followRegion g node state steps) (followRegion g' node state' steps) := by
  have hedge := hg.edges node
  unfold followRegion
  generalize g.edgeOf node = edge at hedge ⊢
  generalize g'.edgeOf node = edge' at hedge ⊢
  cases edge with
  | fanout region =>
      cases edge' with
      | fanout region' =>
          have he : RegionAlike region region' := hedge
          refine Tracks.bind (runRegion_tracks he) fun result result' hsteps => Tracks.ret ?_
          rcases result with _ | result <;> rcases result' with _ | result'
          · exact .none
          · cases hsteps
          · cases hsteps
          · exact .some ⟨Option.some.inj hsteps, he.thenNode⟩
      | _ => exact hedge.elim
  | _ =>
      cases edge' with
      | fanout region' => exact hedge.elim
      | _ => exact Tracks.ret (.some ⟨rfl, hedge⟩)

theorem finish_tracks : Follows (fun _ _ => True) (finish state steps) (finish state' steps) :=
  Tracks.bind (kept_tracks fun _ _ _ _ => trivial) fun _ _ _ => Tracks.emit rfl

theorem loopFrom_tracks (hg : SameTopology g g') {fuel : Nat} {node lastNode : Str} :
    Follows (fun _ _ => True) (loopFrom g fuel node state steps lastNode)
      (loopFrom g' fuel node state' steps lastNode) := by
  induction fuel generalizing node state state' steps lastNode with
  | zero =>
      unfold loopFrom
      rw [hg.maxSteps]
      split_ifs
      · exact finish_tracks
      · exact Tracks.raise
      · exact Tracks.raise
  | succ fuel ih =>
      unfold loopFrom
      rw [hg.maxSteps]
      split_ifs
      · exact finish_tracks
      · exact Tracks.raise
      refine Tracks.bind (runNode_tracks hg) fun ran ran' hran => ?_
      rcases ran with _ | state <;> rcases ran' with _ | state'
      · exact Tracks.ret trivial
      · cases hran
      · cases hran
      refine Tracks.bind (followRegion_tracks hg) fun followed followed' hfollowed => ?_
      rcases hfollowed with @⟨⟨result, edge⟩, ⟨result', edge'⟩, hsteps, hedge⟩ | _
      · have hsame : result'.steps = result.steps := hsteps.symm
        dsimp only
        rw [hsame]
        refine Tracks.bind (route_tracks hg hedge) fun routed routed' htarget => ?_
        rcases routed with _ | ⟨target, state⟩ <;> rcases routed' with _ | ⟨target', state'⟩
        · exact Tracks.ret trivial
        · cases htarget
        · cases htarget
        obtain rfl : target = target' := Option.some.inj htarget
        exact ih
      · exact Tracks.ret trivial

theorem run_tracks (hg : SameTopology g g') :
    Follows (fun _ _ => True) (run g state) (run g' state') := by
  refine Tracks.bind (route_tracks hg (hg.edges START)) fun routed routed' htarget => ?_
  rcases routed with _ | ⟨target, state⟩ <;> rcases routed' with _ | ⟨target', state'⟩
  · exact Tracks.ret trivial
  · cases htarget
  · cases htarget
  obtain rfl : target = target' := Option.some.inj htarget
  show Follows (fun _ _ => True) (loop g target state 0 START) (loop g' target state' 0 START)
  rw [loop, loop, hg.maxSteps]
  exact loopFrom_tracks hg

end Follows

-- What `asteps` delivers of a run.
def asteps (t : Run) : List GraphEvent := (observations t).map GraphObservation.event

-- The events of an ungated run are determined by its decisions: state and delta contents, prompts
-- and payloads, and error values have no influence on them but through these.
theorem asteps_sanitised [Sha256] (g g' : CompiledGraph) (state state' : State) :
    (∀ t o, Exec generating (Graph.run g none state) t o ↔
      ∃ u, Exec generating (run g state) u o ∧ plain u = t) ∧
    ∀ u o u' o', SameTopology g g' → Exec generating (run g state) u o →
      Exec generating (run g' state') u' o' → notes u <+: notes u' →
        notes u = notes u' ∧ asteps (plain u) = asteps (plain u') := by
  refine ⟨fun t o => ⟨fun h => ?_, ?_⟩, ?_⟩
  · rw [← run_plain] at h
    exact exec_noted h
  · rintro ⟨u, h, rfl⟩
    have hplain : (run g state).plain = Graph.run g none state := run_plain
    exact hplain ▸ exec_plain h
  · rintro u o u' o' hg h h' ⟨k, hk⟩
    obtain ⟨hshown, rfl, -⟩ := run_tracks hg u o u' o' k [] h h' (hk.trans (List.append_nil _).symm)
    exact ⟨(List.append_nil _).symm.trans hk, hshown⟩

theorem edgeAlike_refl (edge : Edge) : EdgeAlike edge edge := by
  cases edge with
  | static target => rfl
  | fanout region => exact ⟨rfl, rfl, by cases region.join <;> trivial⟩
  | _ => trivial

-- The graph `diamond` with other functions.
def rewritten : CompiledGraph where
  nodes := ⟨[("a", ⟨10, none, none⟩), ("b", ⟨11, none, none⟩), ("c", ⟨12, none, none⟩)], by decide⟩
  edges := CompiledGraph.diamond.edges
  maxSteps := 5

theorem asteps_sanitised_diamond :
    letI := Sha256.verbatim
    let u := (run .diamond (State.new "s")).simulate (obliging fun _ => .dict [])
    let u' := (run rewritten (State.new "r")).simulate
      (obliging fun name => .dict [(.str name, .int 1)])
    notes u.1 = notes u'.1 ∧ asteps (plain u.1) = asteps (plain u'.1) := by
  let := Sha256.verbatim
  intro u u'
  have hsame : SameTopology .diamond rewritten := ⟨fun _ => rfl, fun _ => edgeAlike_refl _, rfl⟩
  have hnotes : notes u.1 <+: notes u'.1 := by decide +kernel
  exact (asteps_sanitised .diamond rewritten (State.new "s") (State.new "r")).2 _ _ _ _ hsame
    (exec_simulate _ _) (exec_simulate _ _) hnotes

-- That the decisions, each seen as `view` says, determine the events.
def Determining (view : Decision → Option Decision) : Prop :=
  ∀ (g : CompiledGraph) (state state' : State) u o u' o', Exec generating (run g state) u o →
    Exec generating (run g state') u' o' → (notes u).filterMap view <+: (notes u').filterMap view →
      asteps (plain u) = asteps (plain u')

-- Whether the scheduler could make its states is left out.
def unkept : Decision → Option Decision
  | .kept _ => none
  | decision => some decision

-- What private exceptions of callables lead to is left out.
def unwithheld : Decision → Option Decision
  | .withheld _ => none
  | .folded .stopped => some (.folded .failed)
  | decision => some decision

-- A cancelled branch is one that failed.
def uncancelled : Decision → Option Decision
  | .settled outcomes => some (.settled (outcomes.map fun outcome =>
      (none, if outcome.2 = .cancelled then .failure else outcome.2)))
  | decision => some decision

-- The node or branch `name` comes to `result`; the others return no changes.
def coming (name : Str) (result : Except Exn Value) : Handler Core
  | .leave (.node name' _ state) | .leave (.branch _ name' _ state) =>
      ⟨if name' = name then result else .ok (.dict []), state⟩
  | op => obliging (fun _ => .dict []) op

-- The region of `diamond`, going on where one of its branches succeeds.
def FanOut.either : FanOut where
  branches := FanOut.pair.branches
  thenNode := END
  join := .any
  ascending := FanOut.pair.ascending
  two := FanOut.pair.two
  named := FanOut.pair.named
  continues := FanOut.pair.continues
  attainable := by simp [Join.quorum?]

def eitherBranch : CompiledGraph where
  nodes := CompiledGraph.diamond.nodes
  edges := ⟨[(START, .static "a"), ("a", .fanout FanOut.either)], CompiledGraph.diamond.edges.nodup⟩
  maxSteps := 5

-- The routing decisions, the outcomes of nodes (a dict, an interrupt or another failure), the
-- admissions of custom joins, and whether folds succeed, alone.
def stated (decision : Decision) : Option Decision :=
  (unkept decision).bind fun decision => (unwithheld decision).bind uncancelled

theorem not_determining {view : Decision → Option Decision} (g : CompiledGraph) (name : Str)
    (result result' : Except Exn Value)
    (hnotes : (notes ((run g (State.new "s")).simulate (coming name result)).1).filterMap view <+:
      (notes ((run g (State.new "s")).simulate (coming name result')).1).filterMap view)
    (hevents : asteps (plain ((run g (State.new "s")).simulate (coming name result)).1) ≠
      asteps (plain ((run g (State.new "s")).simulate (coming name result')).1)) :
    ¬Determining view :=
  fun h => hevents (h g _ _ _ _ _ _ (exec_simulate _ _) (exec_simulate _ _) hnotes)

-- A prompt that cannot be copied; a private exception of the engine; a cancelled branch.
theorem asteps_swayed :
    ¬Determining stated ∧ ¬Determining unkept ∧ ¬Determining unwithheld ∧
      ¬Determining uncancelled := by
  refine ⟨?_, ?_, ?_, ?_⟩
  · exact not_determining .diamond "a" (.error (.other "Interrupt" (some "go on?") none 0))
      (.error (.other "Interrupt" (some (.object "lock" 0 false)) none 0)) (by decide +kernel)
      (by decide +kernel)
  · exact not_determining .diamond "a" (.error (.other "Interrupt" (some "go on?") none 0))
      (.error (.other "Interrupt" (some (.object "lock" 0 false)) none 0)) (by decide +kernel)
      (by decide +kernel)
  · exact not_determining .diamond "b" (.error (.valueError []))
      (.error (.branchStopped (.stop ⟨"halt", by decide⟩))) (by decide +kernel) (by decide +kernel)
  · exact not_determining eitherBranch "b" (.error .cancelled) (.error (.valueError []))
      (by decide +kernel) (by decide +kernel)

end PerpetuaCore.Graph.Sanitised
