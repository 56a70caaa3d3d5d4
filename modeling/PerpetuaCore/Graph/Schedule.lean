import PerpetuaCore.Graph.Unbatched
import PerpetuaCore.Interaction.Relational

namespace PerpetuaCore.Graph.Schedule

open Interaction
open Python (Str Value Dict)

-- An environment that answers as `handler` does, besides drawing tokens at random.
def answering (handler : Handler Core) : Environment Core :=
  fun op answer => op = .tokenUrlsafe ∨ answer = handler op

-- The two answer alike whatever the batch id, at a region's own boundaries ...
structure Regional (H H' : Handler Core) : Prop where
  dispatch : ∀ r r', r.boundary ≠ .node → r.unbatched = r'.unbatched →
    H (.beforeDispatch r) = H' (.beforeDispatch r')
  start : ∀ r r', r.boundary ≠ .node → r.unbatched = r'.unbatched →
    H (.beforeStart r) = H' (.beforeStart r')
  commit : ∀ r r', r.unbatched = r'.unbatched → H (.beforeCommit r) = H' (.beforeCommit r')
  settlement : ∀ r r', r.unbatched = r'.unbatched → H (.afterCommit r) = H' (.afterCommit r')
  join : ∀ source fn outcomes, H (.leave (.join source fn outcomes)) = H' (.leave (.join source fn outcomes))
  reducer : ∀ source field fn base values,
    H (.leave (.reducer source field fn base values)) = H' (.leave (.reducer source field fn base values))

-- ... and for each branch.
structure Branchwise (H H' : Handler Core) : Prop where
  dispatch : ∀ r r', r.boundary = .node → r.unbatched = r'.unbatched →
    H (.beforeDispatch r) = H' (.beforeDispatch r')
  start : ∀ r r', r.boundary = .node → r.unbatched = r'.unbatched →
    H (.beforeStart r) = H' (.beforeStart r')
  branch : ∀ source name fn state,
    H (.leave (.branch source name fn state)) = H' (.leave (.branch source name fn state))

variable {H H' : Handler Core} {α β : Type}

abbrev StepsAlike (H H' : Handler Core) (R : α → β → Prop) (p : Step α) (q : Step β) : Prop :=
  Alike (acting (O := GraphObservation)) acting (answering H) (answering H') Exn.Similar R p q

abbrev RunsAlike (H H' : Handler Core) (R : α → β → Prop) (p : Scheduler α) (q : Scheduler β) : Prop :=
  Alike (generating (O := GraphObservation)) generating (answering H) (answering H') Exn.Similar R p q

-- An operation other than a draw, answered the same on both sides.
theorem answered {op op' : Op} {R : Core.Ans op → Core.Ans op' → Prop} (h : R (H op) (H' op'))
    (hop : op ≠ .tokenUrlsafe := by nofun) (hop' : op' ≠ .tokenUrlsafe := by nofun) :
    StepsAlike H H' R (.call (S := Core) op) (.call (S := Core) op') := by
  refine .act fun answer answer' ha ha' => ?_
  rcases ha with ha | rfl
  · exact absurd ha hop
  · rcases ha' with ha' | rfl
    · exact absurd ha' hop'
    · exact h

theorem invoke_alike {callable : Callable} (h : H (.leave callable) = H' (.leave callable)) :
    StepsAlike H H' Eq (invoke callable) (invoke callable) :=
  .bind (answered (R := fun _ _ => True) trivial) fun _ _ _ => answered h

theorem same_refl (x : Except Exn α) : Same Exn.Similar Eq x x := by
  cases x with
  | ok value => exact .ok rfl
  | error error => exact .error rfl

theorem same_of_mapError {x y : Except Exn α} (h : x.mapError Exn.unbatched = y.mapError Exn.unbatched) :
    Same Exn.Similar Eq x y := by
  cases x with
  | error error =>
      cases y with
      | error error' => exact .error (Except.error.inj h)
      | ok value => cases h
  | ok value =>
      cases y with
      | error error => cases h
      | ok value' => exact .ok (Except.ok.inj h)

-- The same request to the gate, batch ids aside.
def Corresponds (boundary : DispatchBoundary) : Option DispatchRequest → Option DispatchRequest → Prop :=
  Option.Rel fun r r' => r.boundary = boundary ∧ r.unbatched = r'.unbatched

theorem enforce_same {decision : GateDecision} {r r' : Request} (hr : r.unbatched = r'.unbatched) :
    Same Exn.Similar Eq (enforce decision r) (enforce decision r') := by
  cases decision with
  | allow => exact .ok rfl
  | refuse reason => exact .error (by simp [Exn.Similar, Exn.unbatched, hr])
  | stop reason => exact .ok rfl

theorem dispatch_alike {gate : Option Gate} {edge : Option Edge} {boundary : DispatchBoundary}
    {nodes : List Str} {steps : Nat} {source b b' : Option Str}
    (hH : ∀ r r', r.boundary = boundary → r.unbatched = r'.unbatched →
      H (.beforeDispatch r) = H' (.beforeDispatch r')) :
    StepsAlike H H' (fun x y => x.1 = y.1 ∧ Corresponds boundary x.2 y.2)
      (dispatch gate edge boundary nodes steps source b)
      (dispatch gate edge boundary nodes steps source b') := by
  unfold dispatch
  split
  · exact .ret ⟨rfl, .none⟩
  · split_ifs
    · exact .ret ⟨rfl, .none⟩
    · refine .bind (answered (R := fun (x y : GateReply) => x = y)
        (hH ⟨boundary, nodes, steps, source, b⟩ ⟨boundary, nodes, steps, source, b'⟩ rfl rfl)) ?_
      rintro reply _ rfl
      refine .bind (.ofExcept (same_refl _)) ?_
      rintro decision _ rfl
      refine .bind (.ofExcept (enforce_same rfl)) ?_
      rintro stop _ rfl
      exact .ret ⟨rfl, .some ⟨rfl, rfl⟩⟩

theorem beforeStart_alike {gate : Option Gate} {boundary : DispatchBoundary}
    {request request' : Option DispatchRequest} (h : Corresponds boundary request request')
    (hH : ∀ r r', r.boundary = boundary → r.unbatched = r'.unbatched →
      H (.beforeStart r) = H' (.beforeStart r')) :
    StepsAlike H H' Eq (beforeStart gate request) (beforeStart gate request') := by
  cases h with
  | none => exact .ret rfl
  | some hr =>
      unfold beforeStart
      split_ifs
      · refine .bind (answered (R := fun (x y : HookReply) => x = y) (hH _ _ hr.1 hr.2)) ?_
        rintro reply _ rfl
        exact .ofExcept (same_refl _)
      · exact .ret rfl

-- The region's own boundaries.
theorem regional_dispatch {gate : Option Gate} {edge : Option Edge}
    {boundary : DispatchBoundary} {nodes : List Str} {steps : Nat} {source b b' : Option Str}
    (hH : Regional H H') (hboundary : boundary ≠ .node) :
    StepsAlike H H' (fun x y => x.1 = y.1 ∧ Corresponds boundary x.2 y.2)
      (dispatch gate edge boundary nodes steps source b)
      (dispatch gate edge boundary nodes steps source b') :=
  dispatch_alike fun r r' hr => hH.dispatch r r' (hr ▸ hboundary)

theorem regional_beforeStart {gate : Option Gate} {boundary : DispatchBoundary}
    {request request' : Option DispatchRequest} (hH : Regional H H') (hboundary : boundary ≠ .node)
    (h : Corresponds boundary request request') :
    StepsAlike H H' Eq (beforeStart gate request) (beforeStart gate request') :=
  beforeStart_alike h fun r r' hr => hH.start r r' (hr ▸ hboundary)

def CommitCorresponds : Option CommitRequest → Option CommitRequest → Prop :=
  Option.Rel fun r r' => r.unbatched = r'.unbatched

theorem commit_alike [Sha256] {gate : Option Gate} {boundary : CommitBoundary} {nodes : List Str}
    {steps : Nat} {source b b' : Option Str} {delta : Delta} (hH : Regional H H') :
    StepsAlike H H' (fun x y => x.1 = y.1 ∧ CommitCorresponds x.2 y.2)
      (commit gate boundary nodes steps source b delta)
      (commit gate boundary nodes steps source b' delta) := by
  unfold commit
  split
  · exact .ret ⟨rfl, .none⟩
  · refine .bind (.ofExcept (same_refl _)) ?_
    rintro digest _ rfl
    refine .bind (answered (R := fun (x y : GateReply) => x = y)
      (hH.commit ⟨boundary, nodes, steps, source, some digest, b⟩
        ⟨boundary, nodes, steps, source, some digest, b'⟩ rfl)) ?_
    rintro reply _ rfl
    refine .bind (.ofExcept (same_refl _)) ?_
    rintro decision _ rfl
    refine .bind (.ofExcept (enforce_same rfl)) ?_
    rintro stop _ rfl
    exact .ret ⟨rfl, .some rfl⟩

theorem settlement_alike {gate : Option Gate} {request request' : Option CommitRequest}
    (hH : Regional H H') (h : CommitCorresponds request request') :
    StepsAlike H H' (Same Exn.Similar Eq) (afterCommit gate request).attempt
      (afterCommit gate request').attempt := by
  refine .attempt ?_
  cases h with
  | none => exact .ret rfl
  | some hr =>
      unfold afterCommit
      split_ifs
      · refine .bind (answered (R := fun (x y : HookReply) => x = y) (hH.settlement _ _ hr)) ?_
        rintro reply _ rfl
        exact .ofExcept (same_refl _)
      · exact .ret rfl

theorem orStop_alike {R : Option α → Option α → Prop} {state : State} {node : Str} {steps : Nat}
    {decision : Option GateDecision} {p q : Scheduler (Option α)} (hnone : R none none)
    (h : RunsAlike H H' R p q) :
    RunsAlike H H' R (orStop state node steps decision p) (orStop state node steps decision q) := by
  cases decision with
  | none => exact h
  | some decision =>
      refine .bind (.ofExcept (same_refl _)) ?_
      rintro observation _ rfl
      exact .bind .emit fun _ _ _ => .ret hnone

section Branches

theorem attemptException_alike {R : α → α → Prop} {p q : Step α} (h : StepsAlike H H' R p q) :
    StepsAlike H H' (Same Exn.Similar R) (attemptException p) (attemptException q) := by
  refine .bind (.attempt h) ?_
  rintro _ _ (hv | hx)
  · exact .ret (.ok hv)
  · dsimp only
    rw [hx.isException_eq]
    split_ifs
    · exact .ret (.error hx)
    · exact .raise hx

-- Branches that settled alike.
abbrev SettledAlike (item item' : Settled) : Prop := item.unbatched = item'.unbatched

variable {g : CompiledGraph} {gate : Option Gate} {source name : Str} {snapshot : State} {steps : Nat}

theorem withheld_alike {exc exc' : Exn} (carrier : Exn → Exn)
    (hcarrier : ∀ exc, (carrier exc).unbatched = carrier exc.unbatched) (h : exc.Similar exc') :
    SettledAlike ⟨name, .error (carrier exc)⟩ ⟨name, .error (carrier exc')⟩ := by
  simp only [SettledAlike, Settled.unbatched, Except.mapError, hcarrier]
  rw [h]

theorem runBranch_alike (hH : Branchwise H H') :
    StepsAlike H H' SettledAlike (runBranch g source snapshot name) (runBranch g source snapshot name) := by
  unfold runBranch
  split
  · exact .ret rfl
  · refine .bind (invoke_alike (hH.branch ..)) ?_
    rintro reply _ rfl
    split
    · split_ifs
      · exact .ret rfl
      · exact .raise rfl
    · exact .ret rfl

theorem branchCall_alike {b b' : Str} (hH : Branchwise H H') :
    StepsAlike H H' SettledAlike (branchCall g gate source b snapshot steps name)
      (branchCall g gate source b' snapshot steps name) := by
  unfold branchCall
  split_ifs
  · refine .bind (attemptException_alike (dispatch_alike hH.dispatch)) ?_
    rintro _ _ (⟨hdecision, hrequest⟩ | hx)
    · rename_i asked asked'
      obtain ⟨decision, request⟩ := asked
      obtain ⟨_, request'⟩ := asked'
      obtain rfl : decision = _ := hdecision
      cases decision with
      | some decision => exact .ret rfl
      | none =>
          refine .bind (attemptException_alike (beforeStart_alike hrequest hH.start)) ?_
          rintro _ _ (_ | hx)
          · exact runBranch_alike hH
          · exact .ret (withheld_alike .startCallbackFailed (fun _ => rfl) hx)
    · exact .ret (withheld_alike .branchAdmissionFailed (fun _ => rfl) hx)
  · exact runBranch_alike hH

theorem results_same {outcomes outcomes' : List (Except Exn Settled)}
    (h : List.Forall₂ (Same Exn.Similar SettledAlike) outcomes outcomes') :
    Same Exn.Similar (fun settled settled' => settled.map Settled.unbatched = settled'.map Settled.unbatched)
      (results outcomes) (results outcomes') := by
  induction h with
  | nil => exact .ok rfl
  | cons hitem _ ih =>
      cases hitem with
      | error hx => exact .error hx
      | ok hitem =>
          refine Same.bind ih fun rest rest' hrest => .ok ?_
          rw [List.map_cons, List.map_cons, hitem, hrest]

theorem settle_alike {branches : List Str} {b b' : Str}
    (h : ∀ name ∈ branches, StepsAlike H H' SettledAlike (branchCall g gate source b snapshot steps name)
      (branchCall g gate source b' snapshot steps name)) :
    RunsAlike H H' (fun settled settled' => settled.map Settled.unbatched = settled'.map Settled.unbatched)
      (settle g gate source branches b snapshot steps)
      (settle g gate source branches b' snapshot steps) := by
  refine .bind (.fork (R := SettledAlike) ?_) fun _ _ ho => .ofExcept (results_same ho)
  rw [List.forall₂_map_left_iff, List.forall₂_map_right_iff]
  exact List.forall₂_same.mpr h

end Branches

section Region

variable {g : CompiledGraph} {gate : Option Gate} {source : Str} {snapshot : State} {steps : Nat}
  {settled settled' : List Settled}

theorem admit_alike {join : Join} (hH : Regional H H')
    (h : settled.map Settled.unbatched = settled'.map Settled.unbatched) :
    StepsAlike H H' Eq (admitBranches source join settled) (admitBranches source join settled') := by
  have hok : succeeded settled = succeeded settled' := by
    rw [← succeeded_unbatched, h, succeeded_unbatched]
  have hfailed : (errors settled).map Exn.unbatched = (errors settled').map Exn.unbatched := by
    rw [← errors_unbatched, h, errors_unbatched]
  have hempty : (errors settled).isEmpty = (errors settled').isEmpty := by
    rw [← List.isEmpty_map (f := Exn.unbatched), hfailed, List.isEmpty_map]
  have hviews : settled.map Settled.view = settled'.map Settled.view := by
    rw [← view_unbatched, h, view_unbatched]
  have hrefuse : StepsAlike H H' (α := List (Str × Delta)) Eq (.raise (refusedBy source join (errors settled)))
      (.raise (refusedBy source join (errors settled'))) := by
    refine .raise ?_
    rw [Exn.Similar, ← refusedBy_unbatched, hfailed, refusedBy_unbatched]
  unfold admitBranches
  dsimp only
  rw [← hok, ← hempty, ← hviews]
  split
  · split_ifs
    · exact .ret rfl
    · exact hrefuse
  · split_ifs
    · exact hrefuse
    · exact .ret rfl
  · split_ifs
    · exact hrefuse
    · exact .ret rfl
  · split_ifs
    · exact .ret rfl
    · exact hrefuse
  · refine .bind (invoke_alike (hH.join ..)) ?_
    rintro answer _ rfl
    refine .bind (.ofExcept (same_refl _)) ?_
    rintro names _ rfl
    refine .bind (.ofExcept (same_refl _)) ?_
    rintro chosen _ rfl
    split_ifs
    · exact hrefuse
    · exact .ret rfl

-- What admits a custom reducer on its own copies the region's request, batch id included.
theorem admitReducer_alike {field : Str} {reducer : Option Reducer} {writes : Contributions}
    {request request' : Option DispatchRequest} (hH : Regional H H')
    (h : Corresponds .reducer request request') :
    StepsAlike H H' Eq (admitReducer gate snapshot field reducer writes request)
      (admitReducer gate snapshot field reducer writes request') := by
  rcases reducer with _ | _ | _ | _ | _ | _ | fn
  case some.custom =>
    cases h with
    | none => exact .ret rfl
    | @some r r' hr =>
        obtain ⟨boundary, nodes, steps, source, batchId⟩ := r
        obtain ⟨boundary', nodes', steps', source', batchId'⟩ := r'
        obtain ⟨rfl, hr⟩ := hr
        obtain ⟨rfl, rfl, rfl, rfl, -⟩ := DispatchRequest.mk.inj hr
        unfold admitReducer
        dsimp only
        split_ifs
        · refine .bind (.ofExcept (same_refl _)) ?_
          rintro inputs _ rfl
          refine .bind (regional_dispatch hH nofun) ?_
          rintro ⟨decision, request⟩ ⟨_, request'⟩ ⟨hdecision, hrequest⟩
          obtain rfl : decision = _ := hdecision
          cases decision with
          | some decision => exact .raise rfl
          | none =>
              refine .bind (regional_beforeStart hH (by nofun) hrequest) fun _ _ _ => ?_
              exact .ret rfl
        · exact .ret rfl
  all_goals cases h <;> exact .ret rfl

theorem reduceField_alike {field : Str} {reducer : Reducer} {base : Value} {writes : Contributions}
    {declared : Bool} {inputs : Option (Value × List Value)} (hH : Regional H H') :
    StepsAlike H H' Eq (reduceField source field reducer base writes declared inputs)
      (reduceField source field reducer base writes declared inputs) := by
  rcases reducer with _ | _ | _ | _ | _ | fn
  case custom =>
    refine .bind (.ofExcept (same_refl _)) ?_
    rintro copies _ rfl
    refine .bind (invoke_alike (hH.reducer ..)) ?_
    rintro answer _ rfl
    exact .ofExcept (same_refl _)
  all_goals exact .ofExcept (same_refl _)

theorem foldField_alike {field : Str} {contributed : Contributed}
    {request request' : Option DispatchRequest} (hH : Regional H H')
    (h : Corresponds .reducer request request') :
    StepsAlike H H' Eq (foldField g gate source snapshot request contributed field)
      (foldField g gate source snapshot request' contributed field) := by
  refine .bind (admitReducer_alike hH h) ?_
  rintro inputs _ rfl
  exact reduceField_alike hH

theorem foldFields_alike {contributed : Contributed} {fields : List Str} {folded : Delta × Provenance}
    {request request' : Option DispatchRequest} (hH : Regional H H')
    (h : Corresponds .reducer request request') :
    StepsAlike H H' Eq (foldFields g gate source snapshot request contributed fields folded)
      (foldFields g gate source snapshot request' contributed fields folded) := by
  induction fields generalizing folded with
  | nil => exact .ret rfl
  | cons field rest ih =>
      refine .bind (foldField_alike hH h) ?_
      rintro value _ rfl
      exact ih

theorem fold_alike {admitted : List (Str × Delta)} {request request' : Option DispatchRequest}
    (hH : Regional H H') (h : Corresponds .reducer request request') :
    StepsAlike H H' Eq (fold g gate source snapshot admitted request)
      (fold g gate source snapshot admitted request') := by
  refine .bind (.ofExcept (same_refl _)) ?_
  rintro fields _ rfl
  exact foldFields_alike hH h

theorem catchBoundaryStop_alike {p q : Step α} (h : StepsAlike H H' Eq p q) :
    StepsAlike H H' Eq (catchBoundaryStop p) (catchBoundaryStop q) := by
  refine .bind (.attempt h) ?_
  rintro _ _ (rfl | hx)
  · exact .ret rfl
  · rename_i exc exc'
    by_cases hstop : ∃ decision, exc = .boundaryStopped decision
    · obtain ⟨decision, rfl⟩ := hstop
      rw [hx.boundaryStopped_iff.mp rfl]
      exact .ret rfl
    · have hstop' : ¬∃ decision, exc' = .boundaryStopped decision := by
        rintro ⟨decision, hd⟩
        exact hstop ⟨decision, hx.boundaryStopped_iff.mpr hd⟩
      split
      · cases ‹Except.error exc = Except.ok _›
      · exact absurd ⟨_, Except.error.inj ‹_›⟩ hstop
      · split
        · cases ‹Except.error exc' = Except.ok _›
        · exact absurd ⟨_, Except.error.inj ‹_›⟩ hstop'
        · rename_i hexc _ _ _ hexc'
          rw [← Except.error.inj hexc, ← Except.error.inj hexc']
          exact .raise hx

variable [Sha256] {edge : FanOut} {state : State}

theorem publishRegion_alike {completed : Nat} {progress : steps ≤ completed} {b b' : Str}
    {admitted : List (Str × Delta)} {merged : Delta} {provenance : Provenance} (hH : Regional H H') :
    RunsAlike H H' Eq
      (publishRegion gate source edge state snapshot steps completed progress b admitted merged provenance)
      (publishRegion gate source edge state snapshot steps completed progress b' admitted merged
        provenance) := by
  refine .bind (.lift (commit_alike hH)) ?_
  rintro ⟨decision, request⟩ ⟨_, request'⟩ ⟨hdecision, hrequest⟩
  obtain rfl : decision = _ := hdecision
  refine orStop_alike rfl ?_
  refine .bind (.ofExcept (same_refl _)) ?_
  rintro committed _ rfl
  refine .bind (.lift (settlement_alike hH hrequest)) fun settlement settlement' hs => ?_
  refine .bind .emitAll fun _ _ _ => .bind .emit fun _ _ _ => ?_
  exact .bind (.ofExcept hs) fun _ _ _ => .ret rfl

theorem foldRegion_alike {completed : Nat} {progress : steps ≤ completed} {b b' : Str}
    {admitted : List (Str × Delta)} (hH : Regional H H') :
    RunsAlike H H' Eq
      (foldRegion g gate source edge state snapshot steps completed progress b admitted)
      (foldRegion g gate source edge state snapshot steps completed progress b' admitted) := by
  refine .bind (.lift (regional_dispatch hH nofun)) ?_
  rintro ⟨decision, request⟩ ⟨_, request'⟩ ⟨hdecision, hrequest⟩
  obtain rfl : decision = _ := hdecision
  refine orStop_alike rfl ?_
  refine .bind (.lift (catchBoundaryStop_alike (fold_alike hH hrequest))) ?_
  rintro (decision | ⟨merged, provenance⟩) _ rfl
  · exact orStop_alike rfl (.ret rfl)
  · refine .bind (.ofExcept (same_refl _)) ?_
    rintro merged _ rfl
    exact publishRegion_alike hH

omit [Sha256] in
theorem askJoin_alike {completed : Nat} {b b' : Str} (hH : Regional H H') :
    StepsAlike H H' (fun x y => x.1 = y.1 ∧ Corresponds .join x.2 y.2)
      (askJoin gate source edge completed b) (askJoin gate source edge completed b') := by
  unfold askJoin
  split
  · exact regional_dispatch hH nofun
  · exact .ret ⟨rfl, .none⟩

omit [Sha256] in
theorem interruptedState_similar {name : Str} {exc exc' : Exn} (h : exc.Similar exc') :
    interruptedState state name exc = interruptedState state name exc' := by
  rw [interruptedState, interruptedState, h.prompt_eq, h.payload_eq]

theorem joinRegion_alike {b b' : Str} (hH : Regional H H')
    (h : settled.map Settled.unbatched = settled'.map Settled.unbatched) :
    RunsAlike H H' Eq (joinRegion g gate source edge state snapshot steps b settled)
      (joinRegion g gate source edge state snapshot steps b' settled') := by
  have hverdict : (branchVerdict source (errors settled)).mapError Exn.unbatched =
      (branchVerdict source (errors settled')).mapError Exn.unbatched := by
    rw [← branchVerdict_unbatched, ← errors_unbatched, h, errors_unbatched, branchVerdict_unbatched]
  have hcount : settled.countP Settled.ok = settled'.countP Settled.ok := by
    rw [← countP_ok_unbatched, h, countP_ok_unbatched]
  refine .bind (.ofExcept (same_of_mapError hverdict)) ?_
  rintro verdict _ rfl
  refine orStop_alike rfl ?_
  have hfirst : (firstInterrupt settled).map (fun item => (item.1, item.2.unbatched)) =
      (firstInterrupt settled').map fun item => (item.1, item.2.unbatched) := by
    rw [← firstInterrupt_unbatched, h, firstInterrupt_unbatched]
  cases hfound : firstInterrupt settled with
  | some item =>
      cases hfound' : firstInterrupt settled' with
      | none => simp [hfound, hfound'] at hfirst
      | some item' =>
          obtain ⟨name, exc⟩ := item
          obtain ⟨name', exc'⟩ := item'
          rw [hfound, hfound'] at hfirst
          obtain ⟨rfl, hx⟩ := Prod.mk.inj (Option.some.inj hfirst)
          dsimp only
          rw [interruptedState_similar hx]
          refine .bind (.ofExcept (same_refl _)) ?_
          rintro closed _ rfl
          exact .bind .emit fun _ _ _ => .ret rfl
  | none =>
      cases hfound' : firstInterrupt settled' with
      | some item' => simp [hfound, hfound'] at hfirst
      | none =>
          simp only [← hcount]
          refine .bind (.lift (askJoin_alike hH)) ?_
          rintro ⟨decision, request⟩ ⟨_, request'⟩ ⟨hdecision, hrequest⟩
          obtain rfl : decision = _ := hdecision
          refine orStop_alike rfl ?_
          refine .bind (.lift (regional_beforeStart hH (by nofun) hrequest)) fun _ _ _ => ?_
          refine .bind (.lift (admit_alike hH h)) ?_
          rintro admitted _ rfl
          exact foldRegion_alike hH

-- Regions whose branches settle alike show the same and end the same.
theorem runRegion_alike (hH : Regional H H')
    (hbranches : ∀ b b' snapshot, enterRegion g source edge state steps = .ok snapshot →
      ∀ name ∈ edge.branches, StepsAlike H H' SettledAlike
        (branchCall g gate source b snapshot steps name) (branchCall g gate source b' snapshot steps name)) :
    RunsAlike H H' Eq (runRegion g gate source edge state steps)
      (runRegion g gate source edge state steps) := by
  refine .bind (R := fun snapshot snapshot' => snapshot = snapshot' ∧
    enterRegion g source edge state steps = .ok snapshot) (.ofExcept ?_) ?_
  · cases enterRegion g source edge state steps with
    | error error => exact .error rfl
    | ok snapshot => exact .ok ⟨rfl, rfl⟩
  rintro snapshot _ ⟨rfl, hsnapshot⟩
  refine .bind (.bind .emit fun _ _ _ => .emitAll) fun _ _ _ => ?_
  refine .bind (.lift (.act (R := fun _ _ => True) fun _ _ _ _ => trivial)) fun b b' _ => ?_
  refine .bind (.lift (regional_dispatch hH nofun)) ?_
  rintro ⟨decision, request⟩ ⟨_, request'⟩ ⟨hdecision, -⟩
  obtain rfl : decision = _ := hdecision
  refine orStop_alike rfl ?_
  refine .bind (settle_alike (hbranches b b' snapshot hsnapshot)) fun settled settled' hsettled => ?_
  exact joinRegion_alike hH hsettled

-- The two runs of a region show the same, and end the same but for batch ids.
def Indistinguishable (t t' : Run) (o o' : Except Exn (Option (RegionResult steps))) : Prop :=
  observations t = observations t' ∧ Same Exn.Similar Eq o o'

-- Schedule independence: neither the authoring order of the branches nor the order in which
-- they take their turns matters, only what each branch settles with.
theorem region_independent {branches branches' : List Str} {thenNode : Str} {join : Join}
    {edge edge' : FanOut} {t t' : Run} {o o' : Except Exn (Option (RegionResult steps))}
    (hperm : branches.Perm branches') (hedge : FanOut.new branches thenNode join = .ok edge)
    (hedge' : FanOut.new branches' thenNode join = .ok edge')
    (he : Exec generating (runRegion g gate source edge state steps) t o) (ht : Meets (answering H) t)
    (he' : Exec generating (runRegion g gate source edge' state steps) t' o')
    (ht' : Meets (answering H') t') (hH : Regional H H') :
    (Branchwise H H' → Indistinguishable t t' o o') ∧
    ((∀ b b' snapshot, enterRegion g source edge state steps = .ok snapshot → ∀ name ∈ edge.branches,
      StepsAlike H H' SettledAlike (branchCall g gate source b snapshot steps name)
        (branchCall g gate source b' snapshot steps name)) → Indistinguishable t t' o o') := by
  rw [FanOut.new_perm hperm, hedge'] at hedge
  obtain rfl := Except.ok.inj hedge
  constructor
  · intro hbranch
    exact runRegion_alike hH (fun _ _ _ _ _ _ => branchCall_alike hbranch) t o t' o' he ht he' ht'
  · intro hbranches
    exact runRegion_alike hH hbranches t o t' o' he ht he' ht'

-- `handler` with a token of its own.
def drawing (token : Str) (handler : Handler Core) : Handler Core
  | .tokenUrlsafe => token
  | op => handler op

omit [Sha256] in
theorem meets_drawing {token : Str} {t : Run} (h : Obeys (drawing token H) t) :
    Meets (answering H) t := by
  intro op answer hm
  have ha := h op answer hm
  cases op with
  | tokenUrlsafe => exact .inl rfl
  | _ => exact .inr ha

omit [Sha256] in
theorem region_independent_pair :
    letI := Sha256.verbatim
    let result := fun name : Str => Value.dict [("retry_count", .int name.length)]
    let region := runRegion .diamond (some ⟨true, true⟩) "a" .pair (State.new "s") 1
    let first := region.simulate (drawing "first" (obliging result))
    let second := region.simulate (drawing "second" (obliging result))
    Indistinguishable first.1 second.1 first.2 second.2 := by
  let := Sha256.verbatim
  intro result region first second
  have hregional : Regional (obliging result) (obliging result) :=
    ⟨fun _ _ _ _ => rfl, fun _ _ _ _ => rfl, fun _ _ _ => rfl, fun _ _ _ => rfl, fun _ _ _ => rfl,
      fun _ _ _ _ _ => rfl⟩
  have hbranchwise : Branchwise (obliging result) (obliging result) :=
    ⟨fun _ _ _ _ => rfl, fun _ _ _ _ => rfl, fun _ _ _ _ => rfl⟩
  have hwritten : FanOut.new ["c", "b"] END .all = .ok .pair := rfl
  have hsorted : FanOut.new ["b", "c"] END .all = .ok .pair := rfl
  exact (region_independent (.swap ..) hwritten hsorted (exec_simulate _ _)
    (meets_drawing (obeys_simulate _ _)) (exec_simulate _ _) (meets_drawing (obeys_simulate _ _))
    hregional).1 hbranchwise

end Region

end PerpetuaCore.Graph.Schedule
