import PerpetuaCore.Python.Value

namespace PerpetuaCore.Graph

open Python (Str Value)

inductive DispatchBoundary where
  | node
  | router
  | fanout
  | join
  | reducer
  deriving DecidableEq

inductive CommitBoundary where
  | node
  | region
  deriving DecidableEq

-- A refusal or a stop carries a nonempty reason code, an allowance none.
structure ReasonCode where
  text : Str
  nonempty : text ≠ []
  deriving DecidableEq

inductive GateDecision where
  | allow
  | refuse (reason : ReasonCode)
  | stop (reason : ReasonCode)
  deriving DecidableEq

-- `decision.reason`.
def GateDecision.reason : GateDecision → Value
  | .allow => .none
  | .refuse reason | .stop reason => .str reason.text

structure DispatchRequest where
  boundary : DispatchBoundary
  nodes : List Str
  steps : Nat
  source : Option Str := none
  batchId : Option Str := none
  deriving DecidableEq

structure CommitRequest where
  boundary : CommitBoundary
  nodes : List Str
  steps : Nat
  source : Option Str := none
  resultDigest : Option Str := none
  batchId : Option Str := none
  deriving DecidableEq

inductive Request where
  | dispatch (request : DispatchRequest)
  | commit (request : CommitRequest)
  deriving DecidableEq

-- A formatted message: literal text, a value's `repr`, or a string as it is.
inductive MessagePart where
  | text (s : Str)
  | repr (value : Value)
  | insert (s : Str)
  deriving DecidableEq

abbrev Message := List MessagePart

instance : Coe String MessagePart := ⟨fun s => .text (s : Str)⟩

-- The exceptions Core raises, the private carriers of the engine, the exceptions it
-- tells apart by name and attributes only (`other`), and cancellation, which is not
-- an `Exception`. Anything but `cancelled` may also be raised by code outside Core.
inductive Exn where
  | typeError (message : Message)
  | valueError (message : Message)
  | keyError (message : Message)
  | gateRefused (decision : GateDecision) (request : Request)
  | maxStepsExceeded (steps : Nat) (lastNode : Str)
  | reducerConflict (field : Str) (branches : List Str) (reason : Message)
  | exceptionGroup (message : Message) (exceptions : List Exn)
  | branchAdmissionFailed (error : Exn)
  | branchStopped (decision : GateDecision)
  | startCallbackFailed (error : Exn)
  | boundaryStopped (decision : GateDecision)
  | other (type : Str) (prompt payload : Option Value) (identity : Nat)
  | cancelled

namespace Exn

-- `isinstance(exc, Exception)`.
def isException : Exn → Bool
  | .cancelled => false
  | _ => true

-- `type(exc).__name__`.
def typeName : Exn → Str
  | .typeError _ => "TypeError"
  | .valueError _ => "ValueError"
  | .keyError _ => "KeyError"
  | .gateRefused .. => "GateRefused"
  | .maxStepsExceeded .. => "MaxStepsExceeded"
  | .reducerConflict .. => "ReducerConflict"
  | .exceptionGroup .. => "ExceptionGroup"
  | .branchAdmissionFailed _ => "_BranchAdmissionFailed"
  | .branchStopped _ => "_BranchStopped"
  | .startCallbackFailed _ => "_StartCallbackFailed"
  | .boundaryStopped _ => "_BoundaryStopped"
  | .other type .. => type
  | .cancelled => "CancelledError"

-- `hasattr(exc, "prompt")` with the attribute's value.
def prompt? : Exn → Option Value
  | .other _ prompt _ _ => prompt
  | _ => none

-- `getattr(exc, "payload", None)`.
def payload : Exn → Value
  | .other _ _ payload _ => payload.getD .none
  | _ => .none

-- `ExceptionGroup(message, exceptions)` refuses members that are not exceptions.
def group (message : Message) (exceptions : List Exn) : Exn :=
  if exceptions.all isException then .exceptionGroup message exceptions
  else .typeError ["Cannot nest BaseExceptions in an ExceptionGroup"]

end Exn

-- What a gate's `before_dispatch` or `before_commit` answers.
inductive GateReply where
  | raised (error : Exn)
  | decided (decision : GateDecision)
  | other (type : Str)

-- What an optional hook, `before_start` or `after_commit`, answers.
inductive HookReply where
  | raised (error : Exn)
  | notAwaitable
  | done

-- Which optional hooks the gate of an invocation has; both mandatory ones are asked always.
structure Gate where
  beforeStart : Bool
  afterCommit : Bool
  deriving DecidableEq

def checked : GateReply → Except Exn GateDecision
  | .raised error => .error error
  | .decided decision => .ok decision
  | .other type => .error (.typeError ["gate returned ", .insert type, "; expected GateDecision"])

-- A refusal raises; a stop is returned; an allowance is nothing.
def enforce (decision : GateDecision) (request : Request) : Except Exn (Option GateDecision) :=
  match decision with
  | .refuse _ => .error (.gateRefused decision request)
  | .stop _ => .ok (some decision)
  | .allow => .ok none

end PerpetuaCore.Graph
