import PerpetuaCore.Graph.Engine

namespace PerpetuaCore.Graph

open Interaction
open Python (Str Value Dict)

-- Everything but the batch id, which is drawn at random for each region.
def DispatchRequest.unbatched (request : DispatchRequest) : DispatchRequest :=
  { request with batchId := none }

def CommitRequest.unbatched (request : CommitRequest) : CommitRequest :=
  { request with batchId := none }

def Request.unbatched : Request → Request
  | .dispatch request => .dispatch request.unbatched
  | .commit request => .commit request.unbatched

mutual

def Exn.unbatched : Exn → Exn
  | .gateRefused decision request => .gateRefused decision request.unbatched
  | .exceptionGroup message exceptions => .exceptionGroup message (Exn.unbatchedAll exceptions)
  | .branchAdmissionFailed error => .branchAdmissionFailed error.unbatched
  | .startCallbackFailed error => .startCallbackFailed error.unbatched
  | .typeError message => .typeError message
  | .valueError message => .valueError message
  | .keyError message => .keyError message
  | .maxStepsExceeded steps lastNode => .maxStepsExceeded steps lastNode
  | .reducerConflict field branches reason => .reducerConflict field branches reason
  | .branchStopped decision => .branchStopped decision
  | .boundaryStopped decision => .boundaryStopped decision
  | .other type prompt payload identity => .other type prompt payload identity
  | .cancelled => .cancelled

def Exn.unbatchedAll : List Exn → List Exn
  | [] => []
  | exc :: rest => exc.unbatched :: Exn.unbatchedAll rest

end

-- The same exception, batch ids aside.
def Exn.Similar (exc exc' : Exn) : Prop := exc.unbatched = exc'.unbatched

namespace Exn.Similar

variable {exc exc' : Exn}

-- What the scheduler reads off an exception does not depend on batch ids.
theorem of_unbatched {α : Type} {f : Exn → α} (hf : ∀ exc, f exc.unbatched = f exc)
    (h : exc.Similar exc') : f exc = f exc' := by
  rw [← hf exc, h, hf exc']

theorem isException_eq (h : exc.Similar exc') : exc.isException = exc'.isException :=
  of_unbatched (fun exc => by cases exc <;> rfl) h

theorem prompt_eq (h : exc.Similar exc') : exc.prompt? = exc'.prompt? :=
  of_unbatched (fun exc => by cases exc <;> rfl) h

theorem payload_eq (h : exc.Similar exc') : exc.payload = exc'.payload :=
  of_unbatched (fun exc => by cases exc <;> rfl) h

theorem boundaryStopped_iff {decision : GateDecision} (h : exc.Similar exc') :
    exc = .boundaryStopped decision ↔ exc' = .boundaryStopped decision := by
  have hu : ∀ exc : Exn, exc.unbatched = .boundaryStopped decision ↔ exc = .boundaryStopped decision :=
    fun exc => by cases exc <;> simp [unbatched]
  rw [← hu exc, ← hu exc', h]

end Exn.Similar

theorem Exn.unbatchedAll_eq (exceptions : List Exn) :
    Exn.unbatchedAll exceptions = exceptions.map Exn.unbatched := by
  induction exceptions with
  | nil => rfl
  | cons exc rest ih => rw [unbatchedAll, ih, List.map_cons]

theorem Exn.group_unbatched (message : Message) (exceptions : List Exn) :
    Exn.group message (exceptions.map Exn.unbatched) = (Exn.group message exceptions).unbatched := by
  have hall : (exceptions.map Exn.unbatched).all Exn.isException = exceptions.all Exn.isException := by
    rw [List.all_map]
    exact List.all_congr rfl fun exc => by cases exc <;> rfl
  unfold Exn.group
  rw [hall]
  split_ifs
  · rw [Exn.unbatched, Exn.unbatchedAll_eq]
  · rfl

theorem refusedBy_unbatched (source : Str) (join : Join) (failed : List Exn) :
    refusedBy source join (failed.map Exn.unbatched) = (refusedBy source join failed).unbatched := by
  cases failed with
  | nil => rfl
  | cons exc rest =>
      simp only [refusedBy, List.isEmpty_map]
      exact Exn.group_unbatched _ (exc :: rest)

theorem branchVerdict_unbatched (source : Str) (failed : List Exn) :
    branchVerdict source (failed.map Exn.unbatched) =
      (branchVerdict source failed).mapError Exn.unbatched := by
  have hadmission : (failed.map Exn.unbatched).filterMap Exn.admissionFailure? =
      (failed.filterMap Exn.admissionFailure?).map Exn.unbatched := by
    rw [List.filterMap_map, List.map_filterMap]
    exact List.filterMap_congr fun exc _ => by cases exc <;> rfl
  have hstart : (failed.map Exn.unbatched).filterMap Exn.startFailure? =
      (failed.filterMap Exn.startFailure?).map Exn.unbatched := by
    rw [List.filterMap_map, List.map_filterMap]
    exact List.filterMap_congr fun exc _ => by cases exc <;> rfl
  have hstop : (failed.map Exn.unbatched).filterMap Exn.branchStop? =
      failed.filterMap Exn.branchStop? := by
    rw [List.filterMap_map]
    exact List.filterMap_congr fun exc _ => by cases exc <;> rfl
  have hrefused : Exn.isGateRefused ∘ Exn.unbatched = Exn.isGateRefused :=
    funext fun exc => by cases exc <;> rfl
  simp only [branchVerdict, hadmission, hstart, hstop]
  cases failed.filterMap Exn.admissionFailure? with
  | cons failure rest => rfl
  | nil =>
      cases failed.filterMap Exn.startFailure? with
      | nil => rfl
      | cons failure rest =>
          have hfind : ((failure :: rest).map Exn.unbatched).find? Exn.isGateRefused =
              ((failure :: rest).find? Exn.isGateRefused).map Exn.unbatched := by
            rw [List.find?_map, hrefused]
          have hgroup := Exn.group_unbatched
            ["fan-out region ", .repr source, " durable start failed"] (failure :: rest)
          simp only [List.map_nil, List.map_cons] at hfind hgroup ⊢
          simp only [hfind, hgroup]
          cases (failure :: rest).find? Exn.isGateRefused <;> rfl

def Settled.unbatched (item : Settled) : Settled where
  name := item.name
  outcome := item.outcome.mapError Exn.unbatched

theorem errors_unbatched (settled : List Settled) :
    errors (settled.map Settled.unbatched) = (errors settled).map Exn.unbatched := by
  rw [errors, errors, List.filterMap_map, List.map_filterMap]
  refine List.filterMap_congr fun item _ => ?_
  obtain ⟨name, error | delta⟩ := item <;> rfl

theorem succeeded_unbatched (settled : List Settled) :
    succeeded (settled.map Settled.unbatched) = succeeded settled := by
  rw [succeeded, succeeded, List.filterMap_map]
  refine List.filterMap_congr fun item _ => ?_
  obtain ⟨name, error | delta⟩ := item <;> rfl

theorem view_unbatched (settled : List Settled) :
    (settled.map Settled.unbatched).map Settled.view = settled.map Settled.view := by
  rw [List.map_map]
  refine List.map_congr_left fun item _ => ?_
  obtain ⟨name, error | delta⟩ := item
  · cases error <;> rfl
  · rfl

theorem countP_ok_unbatched (settled : List Settled) :
    (settled.map Settled.unbatched).countP Settled.ok = settled.countP Settled.ok := by
  rw [List.countP_map]
  congr 1
  funext item
  obtain ⟨name, error | delta⟩ := item <;> rfl

theorem firstInterrupt_unbatched (settled : List Settled) :
    firstInterrupt (settled.map Settled.unbatched) =
      (firstInterrupt settled).map fun item => (item.1, item.2.unbatched) := by
  have hinterrupt : ∀ exc : Exn, isInterrupt exc.unbatched = isInterrupt exc := fun exc => by
    cases exc <;> rfl
  rw [firstInterrupt, firstInterrupt, ← List.head?_map, List.filterMap_map, List.map_filterMap]
  congr 1
  refine List.filterMap_congr fun item _ => ?_
  obtain ⟨name, error | delta⟩ := item
  · simp only [Function.comp_apply, Settled.unbatched, Settled.error?, Except.mapError, Option.filter,
      hinterrupt]
    split_ifs <;> rfl
  · rfl

end PerpetuaCore.Graph
