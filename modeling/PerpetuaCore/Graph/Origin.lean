import PerpetuaCore.Graph.Calls
import PerpetuaCore.Graph.Rules
import PerpetuaCore.Python.Raising

namespace PerpetuaCore.Graph

open Interaction
open Python (Str Value Dict)

-- The errors by which the scheduler reports that a name or a target is none of the graph's.
def Exn.isStructural : Exn → Bool
  | .keyError (.text head :: _) => head = "MiniGraph has no node registered as "
  | .valueError (.text head :: _) =>
      head = "MiniGraph edge resolved to an empty node name" ||
        head = "MiniGraph edge resolved to unknown node " ||
        head = "MiniGraph fan-out resolved to unknown node "
  | .typeError (.text head :: _) => head = "MiniGraph edge resolved to "
  | _ => false

-- The errors only the scheduler's own checks give rise to.
def Exn.isOwn : Exn → Bool
  | .maxStepsExceeded .. => true
  | error => error.isStructural

-- Neither one of the scheduler's own errors nor the carrier it opens again.
def Exn.isPlain (error : Exn) : Bool := !error.isOwn && error.admissionFailure?.isNone

theorem Exn.not_isOwn_of_isPlain {error : Exn} (h : error.isPlain = true) : error.isOwn = false := by
  rw [Exn.isPlain, Bool.and_eq_true] at h
  exact (Bool.not_eq_true' _).mp h.1

def Callable.raised? : (callable : Callable) → callable.Answer → Option Exn
  | .node .., reply | .branch .., reply | .router .., reply =>
      match Reply.result reply with
      | .error error => some error
      | .ok _ => none
  | .join .., .error error | .reducer .., .error error => some error
  | .join .., .ok _ | .reducer .., .ok _ => none

-- The exception by which code outside Core may end the run. That of a branch is kept for the
-- join, unless it is the engine's own carrier.
def Event.raised? : Event → Option Exn
  | .beforeDispatch _ (.raised error) | .beforeCommit _ (.raised error)
  | .beforeStart _ (.raised error) | .afterCommit _ (.raised error) => some error
  | .leave (.branch source name fn state) reply =>
      (Callable.raised? (.branch source name fn state) reply).bind Exn.admissionFailure?
  | .leave callable answer => callable.raised? answer
  | _ => none

namespace Origin

theorem unraised {t : Run} (h : t.all (fun event => (Event.raised? event).isNone) = true)
    (error : Exn) : ∀ event ∈ t, event.raised? ≠ some error := by
  intro event hm he
  have hnone := List.all_eq_true.mp h event hm
  rw [he] at hnone
  cases hnone

-- An error of the scheduler's own kind, but raised by code outside Core in `t`.
def Borrowed (t : Run) (error : Exn) : Prop :=
  error.isOwn = true → ∃ event ∈ t, event.raised? = some error

theorem Borrowed.mono {s t : Run} {error : Exn} (h : Borrowed s error) (hs : s ⊆ t) :
    Borrowed t error :=
  fun hown => (h hown).imp fun _ he => he.imp_left (hs ·)

theorem borrowed_of_raised {t : Run} {event : Event} {error : Exn} (hm : event ∈ t)
    (h : event.raised? = some error) : Borrowed t error :=
  fun _ => ⟨event, hm, h⟩

theorem borrowed_of_not_own {t : Run} {error : Exn} (h : error.isOwn = false) : Borrowed t error :=
  fun hown => absurd (h.symm.trans hown) Bool.false_ne_true

theorem borrowed_of_plain {t : Run} {error : Exn} (h : error.isPlain = true) : Borrowed t error :=
  borrowed_of_not_own (Exn.not_isOwn_of_isPlain h)

theorem group_plain (message : Message) (exceptions : List Exn) :
    (Exn.group message exceptions).isPlain = true := by
  unfold Exn.group
  split_ifs <;> rfl

-- Code of Core that calls nobody and checks no names.
def Harmless {α : Type} (x : Except Exn α) : Prop := ∀ error, x = .error error → error.isPlain = true

theorem Harmless.bind {α β : Type} {x : Except Exn α} {f : α → Except Exn β} (hx : Harmless x)
    (hf : ∀ a, x = .ok a → Harmless (f a)) : Harmless (x >>= f) := by
  cases x with
  | error error => exact fun _ he => Except.error.inj he ▸ hx error rfl
  | ok a => exact hf a rfl

theorem harmless_ok {α : Type} (a : α) : Harmless (Except.ok a : Except Exn α) := nofun

theorem harmless_error {α : Type} {error : Exn} (h : error.isPlain = true) :
    Harmless (Except.error error : Except Exn α) :=
  fun _ he => Except.error.inj he ▸ h

theorem harmless_ite {α : Type} {c : Prop} [Decidable c] {x y : Except Exn α} (hx : Harmless x)
    (hy : Harmless y) : Harmless (if c then x else y) := by
  split_ifs
  · exact hx
  · exact hy

theorem harmless_merge (state : State) (delta : Delta) : Harmless (state.merge delta) :=
  harmless_ite (harmless_ok _) (harmless_error rfl)

theorem harmless_visit (state : State) (names : List Str) : Harmless (visit state names) := by
  unfold visit
  split
  · exact harmless_merge _ _
  · exact harmless_error rfl

theorem harmless_closeWith (state : State) (status : String) (entries : List (Value × Value)) :
    Harmless (closeWith state status entries) := by
  refine .bind ?_ fun _ _ => harmless_merge _ _
  unfold withMetadata
  split
  · exact harmless_ok _
  · exact harmless_error rfl

theorem harmless_stopped (state : State) (node : Str) (steps : Nat) (decision : GateDecision) :
    Harmless (stopped state node steps decision) :=
  .bind (harmless_closeWith _ _ _) fun _ _ => harmless_ok _

theorem harmless_deepcopy (delta : Delta) : Harmless (deepcopy delta) :=
  harmless_ite (harmless_ok _) (harmless_error rfl)

theorem harmless_detach (gate : Option Gate) (delta : Delta) : Harmless (detach gate delta) :=
  harmless_ite (harmless_deepcopy _) (harmless_ok _)

theorem harmless_digest [Sha256] (delta : Delta) : Harmless (deltaDigest delta) := by
  unfold deltaDigest
  split
  · exact harmless_error rfl
  · exact harmless_ok _

theorem harmless_requireDelta (name : Str) (value : Value) : Harmless (requireDelta name value) := by
  unfold requireDelta
  split
  · exact harmless_ok _
  · exact harmless_error rfl

theorem harmless_enforce (decision : GateDecision) (request : Request) :
    Harmless (enforce decision request) := by
  cases decision with
  | refuse => exact harmless_error rfl
  | _ => exact harmless_ok _

theorem harmless_checkAdmitted (source : Str) (ok : List (Str × Delta)) (names : List Value) :
    Harmless (checkAdmitted source ok names) := by
  induction names with
  | nil => exact harmless_ok _
  | cons value rest ih =>
      cases value with
      | str name => exact harmless_ite (.bind ih fun _ _ => harmless_ok _) (harmless_error rfl)
      | _ => exact harmless_ite (harmless_error rfl) (harmless_error rfl)

theorem harmless_fieldNames (keys : List Value) : Harmless (fieldNames keys) := by
  induction keys with
  | nil => exact harmless_ok _
  | cons key rest ih =>
      cases key with
      | str field => exact .bind ih fun _ _ => harmless_ok _
      | _ => exact harmless_error rfl

theorem harmless_prepare (base : Value) (contributions : Contributions) :
    Harmless (prepareCustomInputs base contributions) :=
  harmless_ite (harmless_ok _) (harmless_error rfl)

theorem harmless_requireList (field : Str) (who : Message) (value : Value) (kind : Str) :
    Harmless (requireList field who value kind) := by
  unfold requireList
  split
  · exact harmless_ok _
  · exact harmless_ok _
  · exact harmless_error rfl

theorem harmless_rejectConflict (field : Str) (writes : Contributions) (declared : Bool) :
    Harmless (rejectConflict field writes declared) := by
  cases writes with
  | nil => exact harmless_error rfl
  | cons => exact harmless_ite (harmless_error rfl) (harmless_ok _)

theorem harmless_concatFrom (field : Str) (result : List Value) (writes : Contributions) :
    Harmless (concatFrom field result writes) := by
  induction writes generalizing result with
  | nil => exact harmless_ok _
  | cons item rest ih => exact .bind (harmless_requireList _ _ _ _) fun _ _ => ih _

theorem harmless_unionFrom (field : Str) (result : List Value) (writes : Contributions) :
    Harmless (unionFrom field result writes) := by
  induction writes generalizing result with
  | nil => exact harmless_ok _
  | cons item rest ih => exact .bind (harmless_requireList _ _ _ _) fun _ _ => ih _

theorem harmless_unionDictItems (field name : Str) (items : List (Value × Value)) (written : Written)
    (result : Dict Value Value) : Harmless (unionDictItems field name items written result) := by
  induction items generalizing written result with
  | nil => exact harmless_ok _
  | cons item rest ih =>
      unfold unionDictItems
      split
      · exact harmless_ite (ih _ _) (harmless_error rfl)
      · exact ih _ _

theorem harmless_unionDictFrom (field : Str) (writes : List (Str × List (Value × Value)))
    (written : Written) (result : Dict Value Value) :
    Harmless (unionDictFrom field writes written result) := by
  induction writes generalizing written result with
  | nil => exact harmless_ok _
  | cons item rest ih => exact .bind (harmless_unionDictItems _ _ _ _ _) fun _ _ => ih _ _

theorem harmless_unionDict (field : Str) (base : Value) (writes : List (Str × List (Value × Value))) :
    Harmless (unionDict field base writes) := by
  unfold unionDict
  dsimp only
  split
  · exact .bind (harmless_unionDictFrom _ _ _ _) fun _ _ => harmless_ok _
  · exact .bind (harmless_unionDictFrom _ _ _ _) fun _ _ => harmless_ok _
  · exact harmless_error rfl

theorem harmless_union (field : Str) (base : Value) (writes : Contributions) :
    Harmless (union field base writes) := by
  refine harmless_ite (harmless_unionDict _ _ _) (harmless_ite ?_ (harmless_error rfl))
  exact .bind (harmless_requireList _ _ _ _) fun _ _ => .bind (harmless_unionFrom _ _ _) fun _ _ =>
    harmless_ok _

theorem harmless_concat (field : Str) (base : Value) (writes : Contributions) :
    Harmless (concat field base writes) :=
  .bind (harmless_requireList _ _ _ _) fun _ _ => .bind (harmless_concatFrom _ _ _) fun _ _ =>
    harmless_ok _

section Steps

variable {α : Type} {g : CompiledGraph} {gate : Option Gate} {source : Str} {h : Run}
  {Q : α → Run → Prop}

-- A step raises errors of code outside Core, or errors of its own that are not the scheduler's.
abbrev Borrows : Exn → Run → Prop := fun error t => Borrowed t error

theorem Harmless.ensures {x : Except Exn α} (hx : Harmless x) (hq : ∀ value, x = .ok value → Q value h) :
    Ensures acting Borrows (.ofExcept x) Q h :=
  .ofExcept hq fun error he => borrowed_of_plain (hx error he)

theorem Harmless.generates {x : Except Exn α} (hx : Harmless x) (hq : ∀ value, x = .ok value → Q value h) :
    Ensures generating Borrows (.ofExcept x : Scheduler α) Q h :=
  .ofExcept hq fun error he => borrowed_of_plain (hx error he)

theorem checked_borrows {request : DispatchRequest} {reply : GateReply} {Q : GateDecision → Run → Prop}
    (hq : ∀ decision, Q decision (h ++ [.beforeDispatch request reply])) :
    Ensures acting Borrows (.ofExcept (checked reply)) Q
      (h ++ [.beforeDispatch request reply]) := by
  cases reply with
  | raised error =>
      refine .raise ?_
      exact borrowed_of_raised (List.mem_append_right _ List.mem_cons_self) rfl
  | decided decision => exact .ret (hq decision)
  | other type => exact .raise (borrowed_of_plain rfl)

theorem dispatch_borrows {edge : Option Edge} {boundary : DispatchBoundary} {nodes : List Str}
    {steps : Nat} {source batchId : Option Str} :
    Ensures acting Borrows
      (dispatch gate edge boundary nodes steps source batchId) (fun _ _ => True) h := by
  cases gate with
  | none => exact .ret trivial
  | some gate =>
      unfold dispatch
      dsimp only
      split_ifs
      · exact .ret trivial
      · refine .bind (.act fun reply => .bind (checked_borrows fun decision => ?_))
        exact .bind ((harmless_enforce _ _).ensures fun _ _ => .ret trivial)

theorem beforeStart_borrows {request : Option DispatchRequest} :
    Ensures acting Borrows (beforeStart gate request) (fun _ _ => True) h := by
  cases request with
  | none => exact .ret trivial
  | some request =>
      unfold beforeStart
      dsimp only
      split_ifs
      · refine .bind (.act fun reply => ?_)
        cases reply with
        | raised error =>
            exact .raise (borrowed_of_raised (List.mem_append_right _ List.mem_cons_self) rfl)
        | notAwaitable => exact .raise (borrowed_of_plain rfl)
        | done => exact .ret trivial
      · exact .ret trivial

theorem commit_borrows [Sha256] {boundary : CommitBoundary} {nodes : List Str} {steps : Nat}
    {source batchId : Option Str} {delta : Delta} :
    Ensures acting Borrows (commit gate boundary nodes steps source batchId delta) (fun _ _ => True) h := by
  cases gate with
  | none => exact .ret trivial
  | some gate =>
      refine .bind ((harmless_digest delta).ensures fun digest _ => .bind (.act fun reply => ?_))
      rcases reply with error | decision | type
      · exact .raise (borrowed_of_raised (List.mem_append_right _ List.mem_cons_self) rfl)
      · exact .bind (.ret (.bind ((harmless_enforce _ _).ensures fun _ _ => .ret trivial)))
      · exact .raise (borrowed_of_plain rfl)

theorem afterCommit_borrows {request : Option CommitRequest} :
    Ensures acting Borrows (afterCommit gate request).attempt
      (fun settlement t => ∀ error, settlement = .error error → Borrowed t error) h := by
  apply Ensures.attempt
  cases request with
  | none => exact .ret nofun
  | some request =>
      unfold afterCommit
      dsimp only
      split_ifs
      · refine .bind (.act fun reply => ?_)
        cases reply with
        | raised error =>
            refine .raise fun _ he => Except.error.inj he ▸ ?_
            exact borrowed_of_raised (List.mem_append_right _ List.mem_cons_self) rfl
        | notAwaitable => exact .raise fun _ he => Except.error.inj he ▸ borrowed_of_plain rfl
        | done => exact .ret nofun
      · exact .ret nofun

theorem attemptException_borrows {p : Step α} (hp : Ensures acting Borrows p (fun _ _ => True) h) :
    Ensures acting Borrows (attemptException p)
      (fun result t => ∀ error, result = .error error → Borrowed t error) h := by
  refine Rule.attemptException (hp.mono (fun value t _ => nofun) fun error t hb => ?_)
  split_ifs
  · exact fun _ he => Except.error.inj he ▸ hb
  · exact hb

-- What a settled branch hands on to the verdict was raised by code outside Core.
def Handed (item : Settled) (t : Run) : Prop :=
  ∀ error failure, item.outcome = .error error → error.admissionFailure? = some failure →
    Borrowed t failure

theorem handed_of_plain {name : Str} {error : Exn} (hp : error.admissionFailure? = none) :
    Handed ⟨name, .error error⟩ h := by
  intro exc failure he hf
  cases he
  rw [hp] at hf
  cases hf

theorem isOwn_of_not_exception {error : Exn} (he : ¬error.isException = true) :
    error.isOwn = false := by
  cases error <;> first | rfl | exact absurd rfl he

theorem nodeFor_error {name : Str} {error : Exn} (he : nodeFor g name = .error error) :
    g.nodes.get? name = none ∧
      error = .keyError ["MiniGraph has no node registered as ", .repr name] := by
  unfold nodeFor at he
  cases hget : g.nodes.get? name with
  | none =>
      rw [hget] at he
      exact ⟨rfl, (Except.error.inj he).symm⟩
  | some fn =>
      rw [hget] at he
      cases he

-- Why a region was not entered.
theorem enterRegion_error {edge : FanOut} {state : State} {steps : Nat} {error : Exn}
    (he : enterRegion g source edge state steps = .error error) :
    error = .maxStepsExceeded steps source ∨
      (∃ name ∈ edge.branches, nodeFor g name = .error error) ∨
      (¬(edge.thenNode = END ∨ g.nodes.contains edge.thenNode) ∧ error =
        .valueError ["MiniGraph fan-out resolved to unknown node ", .repr edge.thenNode]) ∨
      error.isPlain = true := by
  unfold enterRegion at he
  by_cases hbudget : g.maxSteps < steps + edge.branches.length
  · rw [if_pos hbudget] at he
    exact .inl (Except.error.inj he).symm
  rw [if_neg hbudget] at he
  cases hnodes : edge.branches.forM fun name => discard (nodeFor g name) with
  | error exc =>
      rw [hnodes] at he
      obtain rfl : exc = error := Except.error.inj he
      obtain ⟨name, hname, hfailed⟩ := Python.forM_eq_error hnodes
      refine .inr (.inl ⟨name, hname, ?_⟩)
      cases hnode : nodeFor g name with
      | error exc' =>
          rw [hnode] at hfailed
          have hexc : (Except.error exc' : Except Exn PUnit) = .error exc := hfailed
          rw [Except.error.inj hexc]
      | ok fn =>
          rw [hnode] at hfailed
          cases hfailed
  | ok _ =>
      rw [hnodes] at he
      dsimp only [Bind.bind, Except.bind] at he
      by_cases hthen : edge.thenNode = END ∨ g.nodes.contains edge.thenNode
      · rw [if_pos hthen] at he
        exact .inr (.inr (.inr (harmless_visit _ _ _ he)))
      · rw [if_neg hthen] at he
        exact .inr (.inr (.inl ⟨hthen, (Except.error.inj he).symm⟩))

theorem runBranch_borrows {name : Str} {snapshot : State} :
    Ensures acting Borrows (runBranch g source snapshot name) Handed h := by
  unfold runBranch
  split
  · rename_i exc he
    obtain ⟨-, rfl⟩ := nodeFor_error he
    exact .ret (handed_of_plain rfl)
  · rename_i fn _
    refine .bind (Rule.invoke fun reply => ?_)
    split
    · rename_i exc hresult
      split_ifs with hexc
      · refine .ret fun error failure he hf => ?_
        cases he
        refine @borrowed_of_raised _ (.leave (.branch source name fn snapshot) reply) _ (by simp) ?_
        simp [Event.raised?, Callable.raised?, hresult, hf]
      · exact .raise (borrowed_of_not_own (isOwn_of_not_exception hexc))
    · refine .ret fun error failure he hf => ?_
      have hplain := harmless_requireDelta _ _ error he
      simp [Exn.isPlain, hf] at hplain

theorem branchCall_borrows {name batchId : Str} {snapshot : State} {steps : Nat} :
    Ensures acting Borrows (branchCall g gate source batchId snapshot steps name) Handed h := by
  unfold branchCall
  split_ifs
  · refine .andThen (attemptException_borrows dispatch_borrows) fun asked t hasked => ?_
    split
    · refine .ret fun error failure he hf => ?_
      cases he
      exact Option.some.inj hf ▸ hasked _ rfl
    · exact .ret (handed_of_plain rfl)
    · refine .andThen (attemptException_borrows beforeStart_borrows) fun started t _ => ?_
      split
      · exact .ret (handed_of_plain rfl)
      · exact runBranch_borrows
  · exact runBranch_borrows

theorem branchVerdict_borrows {settled : List Settled} {error : Exn}
    (hs : ∀ item ∈ settled, Handed item h)
    (hv : branchVerdict source (errors settled) = .error error) : Borrowed h error := by
  unfold branchVerdict at hv
  split at hv
  · rename_i failure rest hfailures
    obtain rfl := Except.error.inj hv
    have hm : failure ∈ (errors settled).filterMap Exn.admissionFailure? :=
      hfailures ▸ List.mem_cons_self
    obtain ⟨exc, hexc, hfailure⟩ := List.mem_filterMap.mp hm
    obtain ⟨item, hitem, hsome⟩ := List.mem_filterMap.mp hexc
    refine hs item hitem exc failure ?_ hfailure
    unfold Settled.error? at hsome
    split at hsome
    · cases hsome
    · rename_i exc' ho
      rw [ho, Option.some.inj hsome]
  · split at hv
    · cases hv
    · split at hv
      · rename_i refusal hfind
        obtain rfl := Except.error.inj hv
        have hrefused := List.find?_some hfind
        cases refusal with
        | gateRefused decision request => exact borrowed_of_plain rfl
        | _ => cases hrefused
      · exact Except.error.inj hv ▸ borrowed_of_plain (group_plain _ _)

theorem admit_borrows {join : Join} {settled : List Settled} :
    Ensures acting Borrows (admitBranches source join settled) (fun _ _ => True) h := by
  have hrefused : ∀ t, Borrowed t (refusedBy source join (errors settled)) :=
    fun t => borrowed_of_plain (group_plain _ _)
  unfold admitBranches
  dsimp only
  split
  · split_ifs
    · exact .ret trivial
    · exact .raise (hrefused _)
  · split_ifs
    · exact .raise (hrefused _)
    · exact .ret trivial
  · split_ifs
    · exact .raise (hrefused _)
    · exact .ret trivial
  · split_ifs
    · exact .ret trivial
    · exact .raise (hrefused _)
  · rename_i fn
    refine .bind (Rule.invoke fun answer => ?_)
    refine .bind (.ofExcept (fun names _ => ?_) fun error he => ?_)
    · refine .bind ((harmless_checkAdmitted _ _ _).ensures fun chosen _ => ?_)
      split_ifs
      · exact .raise (hrefused _)
      · exact .ret trivial
    · refine @borrowed_of_raised _ (.leave (.join source fn (settled.map Settled.view)) answer) _
        (by simp) ?_
      subst he
      rfl

theorem admitReducer_borrows {snapshot : State} {field : Str} {reducer : Option Reducer}
    {writes : Contributions} {request : Option DispatchRequest} :
    Ensures acting Borrows (admitReducer gate snapshot field reducer writes request) (fun _ _ => True) h := by
  unfold admitReducer
  split
  · split_ifs
    · refine .bind ((harmless_prepare _ _).ensures fun inputs _ => ?_)
      refine .andThen dispatch_borrows ?_
      rintro ⟨_ | decision, asked⟩ t -
      · exact .andThen beforeStart_borrows fun _ _ _ => .ret trivial
      · exact .raise (borrowed_of_plain rfl)
    · exact .ret trivial
  · exact .ret trivial

theorem reduceField_borrows {field : Str} {reducer : Reducer} {base : Value} {writes : Contributions}
    {declared : Bool} {inputs : Option (Value × List Value)} :
    Ensures acting Borrows (reduceField source field reducer base writes declared inputs)
      (fun _ _ => True) h := by
  have hother : ∀ x : Option Value, Harmless (x.elim (.error (.other "IndexError" none none 0)) .ok) := by
    rintro (_ | value)
    · exact harmless_error rfl
    · exact harmless_ok _
  cases reducer with
  | rejectConflict => exact (harmless_rejectConflict _ _ _).ensures fun _ _ => trivial
  | first => exact (hother _).ensures fun _ _ => trivial
  | last => exact (hother _).ensures fun _ _ => trivial
  | concat => exact (harmless_concat _ _ _).ensures fun _ _ => trivial
  | union => exact (harmless_union _ _ _).ensures fun _ _ => trivial
  | custom fn =>
      have hinputs : Harmless (inputs.elim (prepareCustomInputs base writes) .ok) := by
        cases inputs with
        | none => exact harmless_prepare _ _
        | some => exact harmless_ok _
      refine .bind (hinputs.ensures fun copies _ => .bind (Rule.invoke fun answer => ?_))
      refine .ofExcept (fun _ _ => trivial) fun error he => ?_
      refine @borrowed_of_raised _ (.leave (.reducer source field fn copies.1 copies.2) answer) _
        (by simp) ?_
      subst he
      rfl

theorem fold_borrows {snapshot : State} {admitted : List (Str × Delta)}
    {request : Option DispatchRequest} :
    Ensures acting Borrows (fold g gate source snapshot admitted request) (fun _ _ => True) h := by
  refine .bind ((harmless_fieldNames _).ensures fun fields _ => ?_)
  generalize (Dict.empty, Dict.empty) = folded
  induction Python.sorted id fields generalizing folded h with
  | nil => exact .ret trivial
  | cons field rest ih =>
      refine .bind (.bind (.mono admitReducer_borrows (fun inputs t _ => ?_) fun _ _ hb => hb))
      exact .mono reduceField_borrows (fun _ _ _ => ih _) fun _ _ hb => hb

end Steps

section Scheduler

variable {α : Type} {g : CompiledGraph} {gate : Option Gate} {source : Str} {edge : FanOut}
  {state snapshot : State} {steps completed : Nat} {batchId : Str} {F : Exn → Run → Prop} {h : Run}

theorem orStop_raises {node : Str} {decision : Option GateDecision} {next : Scheduler (Option α)}
    (hF : ∀ error t, Borrowed t error → F error t)
    (hnext : Ensures generating F next (fun _ _ => True) h) :
    Ensures generating F (orStop state node steps decision next) (fun _ _ => True) h := by
  cases decision with
  | none => exact hnext
  | some decision =>
      refine .mono ?_ (fun _ _ ht => ht) hF
      exact .bind ((harmless_stopped _ _ _ _).generates fun _ _ => .bind (.emit (.ret trivial)))

theorem orStop_borrows {node : Str} {decision : Option GateDecision} {next : Scheduler (Option α)}
    (hnext : Ensures generating Borrows next (fun _ _ => True) h) :
    Ensures generating Borrows (orStop state node steps decision next) (fun _ _ => True) h :=
  orStop_raises (fun _ _ hb => hb) hnext

theorem settle_borrows {names : List Str} :
    Ensures generating Borrows (settle g gate source names batchId snapshot steps)
      (fun settled t => ∀ item ∈ settled, Handed item t) h := by
  refine .bind (.fork fun t outcomes hi => ?_)
  have hcall : ∀ outcome ∈ outcomes, match outcome with
      | .ok item => Handed item (h ++ t)
      | .error error => Borrowed (h ++ t) error := by
    intro outcome ho
    obtain ⟨p, hp, s, hs, hsub⟩ := hi.exists_of_outcome ho
    obtain ⟨name, -, rfl⟩ := List.mem_map.mp hp
    have hcalled := @branchCall_borrows g gate source h name batchId snapshot steps s outcome hs
    have hgrown : h ++ s ⊆ h ++ t := (hsub.append_left h).subset
    cases outcome with
    | ok item => exact fun error failure he hf => (hcalled error failure he hf).mono hgrown
    | error error => exact Borrowed.mono hcalled hgrown
  refine .ofExcept (fun settled hr item hitem => ?_) fun error he => ?_
  · rw [results_ok hr] at hcall
    exact hcall (.ok item) (List.mem_map_of_mem hitem)
  · exact hcall (.error error) (results_error he)

section Commit

variable [Sha256]

theorem publishNode_borrows {node : Str} {delta : Delta} :
    Ensures generating Borrows (publishNode gate node state steps delta) (fun _ _ => True) h := by
  refine .andThen (.lift commit_borrows) fun asked t _ => orStop_borrows ?_
  refine .bind ((harmless_merge _ _).generates fun merged _ => ?_)
  refine .andThen (.lift afterCommit_borrows) fun settlement u hsettlement => .bind (.emit ?_)
  refine .bind (.ofExcept (fun _ _ => .ret trivial) fun error he => ?_)
  exact (hsettlement error he).mono (List.subset_append_left u _)

theorem finishNode_borrows {node : Str} {reply : Reply}
    (hr : ∀ error, reply.result = .error error → Borrowed h error) :
    Ensures generating Borrows (finishNode gate node steps reply) (fun _ _ => True) h := by
  unfold finishNode
  split
  · rename_i exc hresult
    split_ifs
    · exact .bind ((harmless_closeWith _ _ _).generates fun _ _ => .bind (.emit (.ret trivial)))
    · exact .raise (hr exc hresult)
  · exact .bind ((harmless_requireDelta _ _).generates fun _ _ =>
      .bind ((harmless_detach _ _).generates fun _ _ => publishNode_borrows))

theorem publishRegion_borrows {progress : steps ≤ completed} {admitted : List (Str × Delta)}
    {merged : Delta} {provenance : Provenance} :
    Ensures generating Borrows
      (publishRegion gate source edge state snapshot steps completed progress batchId admitted merged
        provenance) (fun _ _ => True) h := by
  refine .andThen (.lift commit_borrows) fun asked t _ => orStop_borrows ?_
  refine .bind ((harmless_merge _ _).generates fun committed _ => ?_)
  refine .andThen (.lift afterCommit_borrows) fun settlement u hsettlement => ?_
  refine .bind (.emitAll (.bind (.emit ?_)))
  refine .bind (.ofExcept (fun _ _ => .ret trivial) fun error he => (hsettlement error he).mono ?_)
  exact List.subset_append_of_subset_left _ (List.subset_append_left u _)

theorem foldRegion_borrows {progress : steps ≤ completed} {admitted : List (Str × Delta)} :
    Ensures generating Borrows
      (foldRegion g gate source edge state snapshot steps completed progress batchId admitted)
      (fun _ _ => True) h := by
  refine .andThen (.lift dispatch_borrows) fun asked t _ => orStop_borrows ?_
  refine .andThen (Q := fun _ _ => True) (.lift (Rule.catchBoundaryStop (fold_borrows.mono
    (fun _ _ _ => trivial) fun _ _ hb => ⟨hb, fun _ _ => trivial⟩))) ?_
  rintro (decision | ⟨merged, provenance⟩) u -
  · exact orStop_borrows (.ret trivial)
  · exact .bind ((harmless_detach _ _).generates fun _ _ => publishRegion_borrows)

theorem joinRegion_borrows {settled : List Settled} (hs : ∀ item ∈ settled, Handed item h) :
    Ensures generating Borrows
      (joinRegion g gate source edge state snapshot steps batchId settled) (fun _ _ => True) h := by
  refine .bind (.ofExcept (fun verdict _ => orStop_borrows ?_) fun error he =>
    branchVerdict_borrows hs he)
  split
  · exact .bind ((harmless_closeWith _ _ _).generates fun _ _ => .bind (.emit (.ret trivial)))
  · have hjoin : Ensures acting Borrows (askJoin gate source edge
        (steps + settled.countP Settled.ok) batchId) (fun _ _ => True) h := by
      unfold askJoin
      split
      · exact dispatch_borrows
      · exact .ret trivial
    refine .andThen (.lift hjoin) fun asked t _ => orStop_borrows ?_
    refine .andThen (.lift beforeStart_borrows) fun _ u _ => ?_
    exact .andThen (.lift admit_borrows) fun _ _ _ => foldRegion_borrows

-- What ends a run, apart from errors that code outside Core may raise: a name that is no node,
theorem runNode_raises {node : Str} (hF : ∀ error t, Borrowed t error → F error t)
    (hmissing : ∀ error, nodeFor g node = .error error → F error h) :
    Ensures generating F (runNode g gate node state steps) (fun _ _ => True) h := by
  refine .bind (.ofExcept (fun fn _ => ?_) hmissing)
  refine Ensures.mono (F := Borrows) (Q := fun _ _ => True) ?_ (fun _ _ ht => ht) hF
  refine .bind ((harmless_visit _ _).generates fun visited _ => .bind (.emit ?_))
  refine .andThen (.lift dispatch_borrows) fun asked t _ => orStop_borrows ?_
  refine .andThen (.lift beforeStart_borrows) fun _ u _ => .bind (.lift (Rule.invoke fun reply => ?_))
  refine finishNode_borrows fun error he => ?_
  refine @borrowed_of_raised _ (.leave (.node node fn visited) reply) _ (by simp) ?_
  simp [Event.raised?, Callable.raised?, he]

-- a region that may not be entered,
theorem followRegion_raises {node : Str} (hF : ∀ error t, Borrowed t error → F error t)
    (henter : ∀ region, g.edgeOf node = .fanout region → ∀ error,
      enterRegion g node region state steps = .error error → F error h) :
    Ensures generating F (followRegion g gate node state steps) (fun _ _ => True) h := by
  unfold followRegion
  split
  · rename_i region hregion
    refine .andThen (Q := fun _ _ => True) ?_ fun _ _ _ => .ret trivial
    refine .bind (.ofExcept (fun entered _ => ?_) (henter region hregion))
    refine Ensures.mono (F := Borrows) ?_ (fun _ _ ht => ht) hF
    refine .bind (.bind (.emit (.emitAll ?_)))
    refine .bind (.lift (.act fun batchId => ?_))
    refine .andThen (.lift dispatch_borrows) fun asked t _ => orStop_borrows ?_
    exact .andThen settle_borrows fun settled u hs => joinRegion_borrows hs
  · exact .ret trivial

omit [Sha256] in
-- or an edge that leads nowhere.
theorem route_raises {edge : Edge} (hF : ∀ error t, Borrowed t error → F error t)
    (hstatic : ∀ target, edge = .static target → ∀ error t,
      checkTarget g (.str target) = .error error → F error t)
    (hfanout : ∀ region, edge = .fanout region → ∀ error t,
      checkTarget g (.object "FanOut" 0 true) = .error error → F error t)
    (hrouter : ∀ fn reply value, edge.router? = some fn → reply.result = .ok value →
      ∀ error t, checkTarget g value = .error error →
        F error (t ++ [.enter (.router source fn state), .leave (.router source fn state) reply])) :
    Ensures generating F (route g gate source edge state steps) (fun _ _ => True) h := by
  refine .andThen (Ensures.mono (.lift dispatch_borrows) (fun _ _ ht => ht) hF) fun asked t _ => ?_
  refine orStop_raises hF ?_
  refine .andThen (Ensures.mono (.lift beforeStart_borrows) (fun _ _ ht => ht) hF) fun _ u _ => ?_
  refine .andThen (Q := fun _ _ => True) (.lift (Rule.resolveEdge ?_ ?_ ?_)) fun _ _ _ =>
    .bind (.emit (.ret trivial))
  · exact fun target he => .ofExcept (fun _ _ => trivial) fun error hc => hstatic target he error _ hc
  · exact fun region he error hc => hfanout region he error _ hc
  · intro fn reply hfn
    refine .ofExcept (fun _ _ => trivial) fun error hc => ?_
    cases hresult : reply.result with
    | error exc =>
        rw [hresult] at hc
        obtain rfl := Except.error.inj hc
        refine hF _ _ (@borrowed_of_raised _ (.leave (.router source fn state) reply) _ (by simp) ?_)
        simp [Event.raised?, Callable.raised?, hresult]
    | ok value =>
        rw [hresult] at hc
        exact hrouter fn reply value hfn hresult error u hc

omit [Sha256] in
theorem finish_borrows : Ensures generating Borrows (finish state steps) (fun _ _ => True) h :=
  .bind ((harmless_merge _ _).generates fun _ _ => .emit trivial)

end Commit

end Scheduler

end Origin

end PerpetuaCore.Graph
