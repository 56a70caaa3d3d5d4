import PerpetuaCore.Graph.Calls
import PerpetuaCore.Graph.Rules

namespace PerpetuaCore.Graph.Cascade

open Interaction
open Python (Str Value Dict)

def raised {α : Type} : Except Exn α → Option Exn
  | .ok _ => none
  | .error exc => some exc

-- What the gate's answer comes to: the stop, nothing, or an exception.
def verdict (request : DispatchRequest) (reply : GateReply) : Except Exn (Option GateDecision) := do
  enforce (← checked reply) (.dispatch request)

-- Cancellation is no `Exception`, and no carrier takes it.
def carried (carrier : Exn → Exn) (exc : Exn) : Exn := if exc.isException then carrier exc else exc

-- What ends a branch's task: its dispatch, its durable start or its callable raised this.
def raisedBy : Event → Option Exn
  | .beforeDispatch request reply =>
      if request.boundary = .node then raised (verdict request reply) else none
  | .beforeStart request reply =>
      if request.boundary = .node then raised (HookReply.result "before_start" reply) else none
  | .leave (.branch ..) reply => raised (reply : Reply).result
  | _ => none

def carrier : Event → Exn → Exn
  | .beforeDispatch .. => .branchAdmissionFailed
  | .beforeStart .. => .startCallbackFailed
  | _ => id

-- The error the task settles with, or escapes with.
def taskError (e : Event) : Option Exn := (raisedBy e).map (carried (carrier e))

def nodesOf : Event → List Str
  | .beforeDispatch request _ => request.nodes
  | .beforeStart request _ => request.nodes
  | .leave (.branch _ branch _ _) _ => [branch]
  | _ => []

-- How the event makes the task of this branch end in an error.
def branchError (name : Str) (e : Event) : Option Exn :=
  if nodesOf e = [name] then taskError e else none

-- What `before_start` raised for a branch.
def startError : Event → Option Exn
  | .beforeStart request reply =>
      if request.boundary = .node then raised (HookReply.result "before_start" reply) else none
  | _ => none

-- How a task ends, by the error its events tell of.
inductive Told : Option Exn → Except Exn Settled → Prop
  | silent {item : Settled} (h : ∀ exc, item.error? = some exc →
      exc.admissionFailure? = none ∧ exc.startFailure? = none) : Told none (.ok item)
  | failed {item : Settled} {exc : Exn} (hexc : exc.isException = true)
      (h : item.error? = some exc) : Told (some exc) (.ok item)
  | cancelled {exc : Exn} (hexc : exc.isException = false) : Told (some exc) (.error exc)

variable {g : CompiledGraph} {gate : Option Gate} {source batchId name : Str} {snapshot : State}
  {steps : Nat} {h : Run}

-- What one branch's events tell of it.
structure Tells (name : Str) (s : Run) (o : Except Exn Settled) : Prop where
  told : Told (s.findSome? (branchError name)) o
  own : ∀ e ∈ s, ∀ other, other ≠ name → branchError other e = none
  ends : ∀ e ∈ s, ∀ exc, taskError e = some exc → s.findSome? (branchError name) = some exc

-- An event that ends no task, before those that tell of the branch.
theorem Tells.cons {e : Event} {s : Run} {o : Except Exn Settled} (hs : Tells name s o)
    (he : taskError e = none) : Tells name (e :: s) o := by
  have hnone : ∀ other, branchError other e = none := fun other => by
    rw [branchError, he, ite_self]
  refine ⟨?_, List.forall_mem_cons.mpr ⟨fun other _ => hnone other, hs.own⟩,
    List.forall_mem_cons.mpr ⟨fun exc hexc => ?_, fun e' he' exc hexc => ?_⟩⟩
  · rw [List.findSome?_cons, hnone]
    exact hs.told
  · cases he.symm.trans hexc
  · rw [List.findSome?_cons, hnone]
    exact hs.ends e' he' exc hexc

-- The event with which the branch's task ends.
theorem Tells.last {e : Event} {o : Except Exn Settled} (hname : nodesOf e = [name])
    (ho : Told (taskError e) o) : Tells name [e] o := by
  have hfirst : [e].findSome? (branchError name) = taskError e := by
    rw [List.findSome?_singleton, branchError, if_pos hname]
  refine ⟨hfirst ▸ ho, ?_, ?_⟩
  · refine List.forall_mem_singleton.mpr fun other hne => if_neg ?_
    rw [hname]
    simpa using Ne.symm hne
  · intro e' he' exc hexc
    obtain rfl := List.mem_singleton.mp he'
    exact hfirst.trans hexc

section Region

variable [Sha256] {edge : FanOut} {state : State}

-- Events that end no branch's task.
def Off (t : Run) : Prop := ∀ e ∈ t, taskError e = none

omit [Sha256] in
theorem Off.append {t u : Run} (ht : Off t) (hu : Off u) : Off (t ++ u) :=
  fun e he => (List.mem_append.mp he).elim (ht e) (hu e)

omit [Sha256] in
theorem Off.branchError {t : Run} (ht : Off t) (name : Str) : t.findSome? (branchError name) = none :=
  List.findSome?_eq_none_iff.mpr fun e he => by rw [Cascade.branchError, ht e he, ite_self]

end Region

-- How far what ended a branch's task goes before other branches' start failures: cancellation
-- first, a failed dispatch before a refused start. The engine's own carriers, raised by a
-- callable, pass for the failures they carry.
def rank (exc : Exn) : Event → Nat
  | .beforeDispatch .. => 2
  | .beforeStart .. => if exc.isGateRefused then 1 else 0
  | _ => if exc.isWithheld then 2 else 0

def severity (e : Event) : Nat :=
  match raisedBy e with
  | none => 0
  | some exc => if exc.isException then rank exc e else 3

-- Which event ended the task with this error, and how far that goes.
inductive Origin (e : Event) (exc : Exn) : Exn → Prop
  | cancelled (hexc : exc.isException = false) (hs : severity e = 3) : Origin e exc exc
  | dispatch (hs : severity e = 2) : Origin e exc (.branchAdmissionFailed exc)
  | start (hexc : exc.isException = true) (he : startError e = some exc)
      (hs : severity e = if exc.isGateRefused then 1 else 0) : Origin e exc (.startCallbackFailed exc)
  | call (hexc : exc.isException = true) (he : ∃ callable reply, e = .leave callable reply)
      (hs : severity e = if exc.isWithheld then 2 else 0) : Origin e exc exc

section Hidden

variable {branches : List Str} {t : Run}

end Hidden

section Durable

variable [Sha256] {edge : FanOut} {state : State}

end Durable

-- A gate that holds the branches back and whose start marker fails for `failing`.
def faltering (held failing : List Str) : Handler Core
  | .beforeDispatch request =>
      if held.any fun name => request.nodes = [name] then
        .decided (.refuse ⟨"held", List.cons_ne_nil _ _⟩)
      else .decided .allow
  | .beforeStart request =>
      if failing.any fun name => request.nodes = [name] then .raised (.other "OSError" none none 0)
      else .done
  | op => obliging (fun _ => .dict []) op

end PerpetuaCore.Graph.Cascade
