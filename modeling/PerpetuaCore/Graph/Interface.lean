import PerpetuaCore.Interaction.Eval
import PerpetuaCore.State

namespace PerpetuaCore.Graph

open Interaction
open Python (Str Value Dict)

-- A function object of the application: which one it is, and the `__module__` and
-- `__qualname__` it is known under, where these are strings.
structure Fn where
  identity : Nat
  module : Option Str := none
  qualname : Option Str := none
  deriving DecidableEq

-- What a custom join sees of one settled branch.
structure BranchOutcome where
  name : Str
  ok : Bool
  errorType : Option Str
  deriving DecidableEq

-- A callable of the application about to receive control, with the inputs it is
-- passed. `branch`, `join` and `reducer` also name the source of their region.
inductive Callable where
  | node (name : Str) (fn : Fn) (state : State)
  | branch (source name : Str) (fn : Fn) (state : State)
  | router (source : Str) (fn : Fn) (state : State)
  | join (source : Str) (fn : Fn) (outcomes : List BranchOutcome)
  | reducer (source field : Str) (fn : Fn) (base : Value) (values : List Value)

-- A router's result, or a node's, awaited where it is awaitable, and the value the
-- call leaves in the state object it was handed.
structure Reply where
  result : Except Exn Value
  left : State

inductive Op where
  | beforeDispatch (request : DispatchRequest)
  | beforeStart (request : DispatchRequest)
  | beforeCommit (request : CommitRequest)
  | afterCommit (request : CommitRequest)
  | enter (callable : Callable)
  | leave (callable : Callable)
  | tokenUrlsafe

def Callable.Answer : Callable → Type
  | .node .. | .branch .. | .router .. => Reply
  | .join .. => Except Exn (List Value)
  | .reducer .. => Except Exn Value

-- Everything the engine asks of code outside Core. Handing control to a callable
-- (`enter`) and getting its result (`leave`) are two events: others may come between.
@[reducible] def Core : Signature where
  Op := Op
  Ans
    | .beforeDispatch _ | .beforeCommit _ => GateReply
    | .beforeStart _ | .afterCommit _ => HookReply
    | .enter _ => Unit
    | .leave callable => callable.Answer
    | .tokenUrlsafe => Str

inductive EventKind where
  | nodeStart
  | nodeEnd
  | edgeSelected
  | interrupt
  | done
  | superstepStart
  | superstepCommit
  | stopped
  deriving DecidableEq

inductive TerminalReason where
  | done
  | interrupted
  | stopped
  deriving DecidableEq

structure GraphEvent where
  kind : EventKind
  node : Option Str := none
  target : Option Str := none
  steps : Nat := 0
  terminalReason : Option TerminalReason := none
  branches : List Str := []
  deriving DecidableEq

structure GraphObservation where
  event : GraphEvent
  state : State
  delta : Option Delta := none
  -- on `superstep.commit` only: state field to the branches that supplied it
  provenance : Option (Dict Str (List Str)) := none

-- One settled branch of a region: its delta or its error.
structure Settled where
  name : Str
  outcome : Except Exn Delta

def Settled.error? (item : Settled) : Option Exn :=
  match item.outcome with
  | .ok _ => none
  | .error error => some error

def Settled.ok (item : Settled) : Bool := item.error?.isNone

-- What happens in a run: an exchange with code outside Core, or an observation yielded
-- to the consumer.
abbrev Event := Entry Core GraphObservation

namespace Event

@[match_pattern] abbrev beforeDispatch (request : DispatchRequest) (reply : GateReply) : Event :=
  .act (S := Core) (.beforeDispatch request) reply

@[match_pattern] abbrev beforeStart (request : DispatchRequest) (reply : HookReply) : Event :=
  .act (S := Core) (.beforeStart request) reply

@[match_pattern] abbrev beforeCommit (request : CommitRequest) (reply : GateReply) : Event :=
  .act (S := Core) (.beforeCommit request) reply

@[match_pattern] abbrev afterCommit (request : CommitRequest) (reply : HookReply) : Event :=
  .act (S := Core) (.afterCommit request) reply

@[match_pattern] abbrev enter (callable : Callable) : Event :=
  .act (S := Core) (.enter callable) ()

@[match_pattern] abbrev leave (callable : Callable) (answer : callable.Answer) : Event :=
  .act (S := Core) (.leave callable) answer

end Event

abbrev Run := List Event

-- Programs that only call out, and the scheduler, which also yields observations and
-- runs batches of branches.
abbrev Step (α : Type) := Prog Core Exn α

abbrev Scheduler (α : Type) := Prog (Gen Core GraphObservation Exn Settled) Exn α

-- An environment without memory whose gate allows everything, and whose nodes and
-- branches return what `result` gives for their name and leave their input alone.
def obliging (result : Str → Value) : Handler Core
  | .beforeDispatch _ | .beforeCommit _ => .decided .allow
  | .beforeStart _ | .afterCommit _ => .done
  | .enter _ => ()
  | .leave (.node name _ state) | .leave (.branch _ name _ state) => ⟨.ok (result name), state⟩
  | .leave (.router _ _ state) => ⟨.ok "__end__", state⟩
  | .leave (.join _ _ outcomes) => .ok (outcomes.map fun outcome => .str outcome.name)
  | .leave (.reducer _ _ _ base _) => .ok base
  | .tokenUrlsafe => "token"

-- Passes control to a callable and waits for its answer.
def invoke (callable : Callable) : Step callable.Answer :=
  (Prog.call (S := Core) (.enter callable)).bind fun _ => Prog.call (S := Core) (.leave callable)

end PerpetuaCore.Graph
