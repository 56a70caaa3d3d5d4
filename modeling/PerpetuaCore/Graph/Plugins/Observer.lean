import PerpetuaCore.Graph.Engine
import PerpetuaCore.Interaction.Consumer
import PerpetuaCore.Interaction.History

namespace PerpetuaCore.Graph.Observer

open Interaction
open Python (Str Value Dict)

-- An object with `on_observation`: the delivery or a plugin.
structure Listener where
  identity : Nat
  deriving DecidableEq

-- What a listener's call comes to, awaited where it is awaitable, and the value the call leaves
-- in the payload it was handed.
structure Response where
  result : Except Exn Unit
  left : GraphObservation

inductive HostOp where
  | onObservation (listener : Listener) (payload : GraphObservation)
  | aclose

-- What the dispatcher asks of its listeners, and of an iterator that has not ended yet.
@[reducible] def Host : Signature where
  Op := HostOp
  Ans
    | .onObservation .. => Response
    | .aclose => Except Exn Unit

-- An error raised unchanged, or a `BaseExceptionGroup` of it and the cleanup's.
inductive Failure where
  | raised (error : Exn)
  | group (primary cleanup : Exn)

def detachable (observation : GraphObservation) : Bool :=
  observation.state.copyable && observation.delta.all fun delta => State.itemsCopy delta.items

-- `_detached_observation`: a deep copy, a value of its own.
def detachedObservation (observation : GraphObservation) : Except Exn GraphObservation :=
  if detachable observation then .ok observation else .error (.typeError ["cannot be copied"])

-- One listener after the other, each with its own copy. The first error ends it.
def notify (observation : GraphObservation) : List Listener → Prog Host Failure (Except Exn Unit)
  | [] => .ret (.ok ())
  | listener :: rest =>
      match detachedObservation observation with
      | .error error => .ret (.error error)
      | .ok payload => do
          let response ← Prog.call (S := Host) (.onObservation listener payload)
          match response.result with
          | .error error => .ret (.error error)
          | .ok () => notify observation rest

def closed (primary : Exn) : Except Exn Unit → Failure
  | .ok () => .raised primary
  | .error cleanup => .group primary cleanup

-- The loop's body with `except BaseException`: the iterator is closed before the error is raised.
def onObservation (listeners : List Listener) (_ : State) (observation : GraphObservation) :
    Prog Host Failure State := do
  let outcome ← notify observation listeners
  match outcome with
  | .ok () => return observation.state
  | .error primary => do
      let reply ← Prog.call (S := Host) .aclose
      .raise (closed primary reply)

-- Delivery first, then the plugins in registration order.
def receivers (plugins : List Listener) (delivery : Option Listener) : List Listener :=
  delivery.toList ++ plugins

-- `run_with_plugins`. To close an iterator that has ended is to do nothing.
def runWithPlugins [Sha256] (g : CompiledGraph) (state : State) (plugins : List Listener)
    (delivery : Option Listener) (gate : Option Gate) :
    Prog (Draining Core Host GraphObservation Exn Settled) Failure State :=
  (run g gate state).drain (onObservation (receivers plugins delivery)) .raised state

-- What happens in a dispatched run.
abbrev Turns := List (Turn Core Host GraphObservation)

def call? : Turn Core Host GraphObservation → Option (Listener × GraphObservation)
  | .outer (.onObservation listener payload) _ => some (listener, payload)
  | _ => none

-- The calls made, with their payloads.
def calls (t : Turns) : List (Listener × GraphObservation) := t.filterMap call?

-- The error a listener's call raised.
def failure? : Turn Core Host GraphObservation → Option Exn
  | .outer (.onObservation ..) response =>
      match (response : Response).result with
      | .ok () => none
      | .error error => some error
  | _ => none

theorem failure?_of_error {listener : Listener} {payload : GraphObservation} {response : Response}
    {error : Exn} (h : response.result = .error error) :
    failure? (.outer (.onObservation listener payload) response) = some error := by
  simp only [failure?, h]

-- Every listener has received every one of these observations, in order.
def delivered (listeners : List Listener) (shown : List GraphObservation) :
    List (Listener × GraphObservation) :=
  shown.flatMap fun observation => listeners.map (·, observation)

@[simp] theorem calls_append (s t : Turns) : calls (s ++ t) = calls s ++ calls t :=
  List.filterMap_append

@[simp] theorem calls_inner (event : Event) (t : Turns) : calls (.inner event :: t) = calls t := rfl

theorem delivered_append (listeners : List Listener) (shown shown' : List GraphObservation) :
    delivered listeners (shown ++ shown') = delivered listeners shown ++ delivered listeners shown' :=
  List.flatMap_append

-- How the turn of one observation goes: all listeners hear of it, the copy fails for the first
-- one, or the one after `front` fails.
inductive Heard (observation : GraphObservation) (listeners : List Listener) (b : Trace Host Empty) :
    Except Exn Unit → Prop
  | all (hcalls : calls (outward b) = listeners.map (·, observation))
      (hfine : ∀ turn ∈ (outward b : Turns), failure? turn = none)
      (hcopies : listeners ≠ [] → detachable observation = true) : Heard observation listeners b (.ok ())
  | uncopied (hnone : b = []) (hcopy : detachable observation = false) (hsome : listeners ≠ []) :
      Heard observation listeners b (.error (.typeError ["cannot be copied"]))
  | failed {front back : List Listener} {listener : Listener} {before : Trace Host Empty}
      {response : Response} {error : Exn} (hlisteners : listeners = front ++ listener :: back)
      (hb : b = before ++ [.act (S := Host) (.onObservation listener observation) response])
      (hcalls : calls (outward before) = front.map (·, observation))
      (hfine : ∀ turn ∈ (outward before : Turns), failure? turn = none)
      (hcopy : detachable observation = true) (hresponse : response.result = .error error) :
      Heard observation listeners b (.error error)

theorem notify_nil (observation : GraphObservation) : notify observation [] = .ret (.ok ()) := by
  unfold notify
  rfl

-- What follows a listener's response.
def answered (observation : GraphObservation) (rest : List Listener) (response : Response) :
    Prog Host Failure (Except Exn Unit) :=
  match response.result with
  | .error error => .ret (.error error)
  | .ok () => notify observation rest

theorem notify_cons {observation : GraphObservation} {listener : Listener} {rest : List Listener}
    (h : detachable observation = true) :
    notify observation (listener :: rest) =
      .ask (S := Host) (.onObservation listener observation) (answered observation rest) := by
  unfold notify detachedObservation
  rw [if_pos h]
  rfl

theorem notify_uncopied {observation : GraphObservation} {listener : Listener}
    {rest : List Listener} (h : detachable observation = false) :
    notify observation (listener :: rest) = .ret (.error (.typeError ["cannot be copied"])) := by
  unfold notify detachedObservation
  rw [if_neg (Bool.eq_false_iff.mp h)]

-- A listener more that heard of the observation, and did not fail.
theorem Heard.cons {observation : GraphObservation} {listener : Listener} {rest : List Listener}
    {b : Trace Host Empty} {response : Response} {outcome : Except Exn Unit}
    (hcopy : detachable observation = true) (hresponse : response.result = .ok ())
    (h : Heard observation rest b outcome) :
    Heard observation (listener :: rest)
      (.act (S := Host) (.onObservation listener observation) response :: b) outcome := by
  have hcall : failure? (.outer (.onObservation listener observation) response) = none := by
    simp only [failure?, hresponse]
  cases h with
  | all hcalls hfine _ =>
      refine .all (congrArg ((listener, observation) :: ·) hcalls) ?_ fun _ => hcopy
      exact List.forall_mem_cons.mpr ⟨hcall, hfine⟩
  | uncopied _ hnot _ => exact absurd (hcopy.symm.trans hnot) (by decide)
  | @failed front back failing before response' error hlisteners hb hcalls hfine _ hresponse' =>
      have hlisteners : listener :: rest = (listener :: front) ++ failing :: back :=
        congrArg (listener :: ·) hlisteners
      subst hb
      refine .failed hlisteners (List.cons_append ..).symm
        (congrArg ((listener, observation) :: ·) hcalls) ?_ hcopy hresponse'
      exact List.forall_mem_cons.mpr ⟨hcall, hfine⟩

theorem exec_notify {observation : GraphObservation} {listeners : List Listener}
    {b : Trace Host Empty} {o : Except Failure (Except Exn Unit)}
    (he : Exec acting (notify observation listeners) b o) :
    ∃ outcome, o = .ok outcome ∧ Heard observation listeners b outcome := by
  induction listeners generalizing b with
  | nil =>
      rw [notify_nil] at he
      obtain ⟨rfl, rfl⟩ := exec_ret he
      exact ⟨_, rfl, .all rfl (by simp) fun hne => absurd rfl hne⟩
  | cons listener rest ih =>
      by_cases hcopy : detachable observation = true
      · rw [notify_cons hcopy] at he
        cases he with
        | @ask _ _ s t response _ hop hnext =>
            obtain rfl : s = [.act (S := Host) (.onObservation listener observation) response] := hop
            unfold answered at hnext
            cases hresponse : (response : Response).result with
            | error error =>
                rw [hresponse] at hnext
                obtain ⟨rfl, rfl⟩ := exec_ret hnext
                have hlisteners : listener :: rest = [] ++ listener :: rest := rfl
                exact ⟨_, rfl, .failed hlisteners (List.nil_append _).symm rfl (by simp) hcopy hresponse⟩
            | ok _ =>
                rw [hresponse] at hnext
                obtain ⟨outcome, rfl, hheard⟩ := ih hnext
                exact ⟨outcome, rfl, hheard.cons hcopy hresponse⟩
      · rw [notify_uncopied (Bool.eq_false_iff.mpr hcopy)] at he
        obtain ⟨rfl, rfl⟩ := exec_ret he
        exact ⟨_, rfl, .uncopied rfl (Bool.eq_false_iff.mpr hcopy) (List.cons_ne_nil _ _)⟩

-- The turn of one observation: handled by all, or closed after the error.
theorem exec_onObservation {listeners : List Listener} {final : State}
    {observation : GraphObservation} {b : Trace Host Empty} {o : Except Failure State}
    (he : Exec acting (onObservation listeners final observation) b o) :
    Heard observation listeners b (.ok ()) ∧ o = .ok observation.state ∨
    ∃ before error reply, Heard observation listeners before (.error error) ∧
      b = before ++ [.act (S := Host) .aclose reply] ∧ o = .error (closed error reply) := by
  rcases exec_bind he with ⟨before, u, outcome, rfl, hnotify, hrest⟩ | ⟨error, hnotify, -⟩
  · obtain ⟨outcome', houtcome, hheard⟩ := exec_notify hnotify
    obtain rfl := Except.ok.inj houtcome
    cases outcome with
    | ok _ =>
        obtain ⟨rfl, rfl⟩ := exec_ret hrest
        exact .inl ⟨(List.append_nil before).symm ▸ hheard, rfl⟩
    | error error =>
        cases hrest with
        | @ask _ _ s t reply _ hop hnext =>
            obtain rfl : s = [.act (S := Host) .aclose reply] := hop
            obtain ⟨rfl, rfl⟩ := exec_raise hnext
            exact .inr ⟨before, error, reply, hheard, rfl, rfl⟩
  · obtain ⟨outcome, houtcome, -⟩ := exec_notify hnotify
    cases houtcome

-- All observations so far were delivered, and none of the calls failed.
structure Delivered (listeners : List Listener) (shown : List GraphObservation) (t : Turns) :
    Prop where
  calls : calls t = delivered listeners shown
  fine : ∀ turn ∈ t, failure? turn = none
  copies : listeners ≠ [] → ∀ observation ∈ shown, detachable observation = true

theorem lockstep_delivered {listeners : List Listener} {held held' : State} {s : Run} {t : Turns}
    (h : Lockstep (onObservation listeners) held s t held') :
    Delivered listeners (observations s) t ∧
      held' = (observations s).foldl (fun _ observation => observation.state) held := by
  induction h with
  | nil held => exact ⟨⟨rfl, by simp, by simp⟩, rfl⟩
  | act _ ih =>
      obtain ⟨⟨hcalls, hfine, hcopies⟩, hheld⟩ := ih
      exact ⟨⟨hcalls, List.forall_mem_cons.mpr ⟨rfl, hfine⟩, hcopies⟩, hheld⟩
  | @emit observation held mid held' b s t hhandled _ ih =>
      obtain ⟨⟨hcalls, hfine, hcopies⟩, hheld⟩ := ih
      rcases exec_onObservation hhandled with ⟨hheard, hmid⟩ | ⟨_, _, _, _, _, herror⟩
      · obtain rfl := Except.ok.inj hmid
        cases hheard with
        | all hcalls' hfine' hcopies' =>
            refine ⟨⟨?_, ?_, fun hne => ?_⟩, hheld⟩
            · rw [calls_inner, calls_append, hcalls, hcalls']
              rfl
            · refine List.forall_mem_cons.mpr ⟨rfl, fun turn hm => ?_⟩
              rcases List.mem_append.mp hm with hm | hm
              · exact hfine' turn hm
              · exact hfine turn hm
            · exact List.forall_mem_cons.mpr ⟨hcopies' hne, hcopies hne⟩
      · cases herror

-- A listener is only told of what has been observed.
def Heeds (past : Turns) (turn : Turn Core Host GraphObservation) : Prop :=
  ∀ call, call? turn = some call → call.2 ∈ observations (pulled past)

theorem Heeds.mono {past past' : Turns} {turn : Turn Core Host GraphObservation}
    (h : Heeds past turn) (hp : pulled past ⊆ pulled past') : Heeds past' turn :=
  fun call hcall => emit_mem_iff.mp (hp (emit_mem_iff.mpr (h call hcall)))

theorem always_heeds {t : Turns} (h : Always Heeds t) :
    ∀ call ∈ calls t, call.2 ∈ observations (pulled t) := by
  intro call hm
  obtain ⟨turn, hturn, hcall⟩ := List.mem_filterMap.mp hm
  obtain ⟨past, post, rfl⟩ := List.append_of_mem hturn
  rw [pulled_append, observations_append]
  exact List.mem_append_left _ (h past turn post rfl call hcall)

theorem Heard.told {observation : GraphObservation} {listeners : List Listener}
    {b : Trace Host Empty} {outcome : Except Exn Unit} (h : Heard observation listeners b outcome) :
    ∀ call ∈ calls (outward b), call.2 = observation := by
  intro call hm
  cases h with
  | all hcalls _ _ =>
      rw [hcalls] at hm
      obtain ⟨listener, -, rfl⟩ := List.mem_map.mp hm
      rfl
  | uncopied hnone _ _ =>
      subst hnone
      cases hm
  | failed _ hb hcalls _ _ _ =>
      subst hb
      rw [outward_append, calls_append, hcalls] at hm
      rcases List.mem_append.mp hm with hm | hm
      · obtain ⟨listener, -, rfl⟩ := List.mem_map.mp hm
        rfl
      · obtain rfl := List.mem_singleton.mp hm
        rfl

-- The calls of one turn, after its observation.
theorem exec_onObservation_heeds {listeners : List Listener} {final : State}
    {observation : GraphObservation} {b : Trace Host Empty} {o : Except Failure State}
    (he : Exec acting (onObservation listeners final observation) b o) :
    Always (fun past => Heeds (.inner (.emit observation) :: past)) (outward b) := by
  have htold : ∀ call ∈ calls (outward b), call.2 = observation := by
    rcases exec_onObservation he with ⟨hheard, -⟩ | ⟨before, error, reply, hheard, rfl, -⟩
    · exact hheard.told
    · intro call hm
      rw [outward_append, calls_append] at hm
      rcases List.mem_append.mp hm with hm | hm
      · exact hheard.told call hm
      · cases hm
  intro past turn post hb call hcall
  have hm : call ∈ calls (outward b) := List.mem_filterMap.mpr ⟨turn, by rw [hb]; simp, hcall⟩
  rw [htold call hm]
  exact List.mem_cons_self

theorem lockstep_heeds {listeners : List Listener} {held held' : State} {s : Run} {t : Turns}
    (h : Lockstep (onObservation listeners) held s t held') : Always Heeds t := by
  induction h with
  | nil => exact always_nil
  | act _ ih =>
      refine always_cons.mpr ⟨nofun, ih.mono fun past turn _ hheeds => hheeds.mono ?_⟩
      exact List.subset_cons_self _ _
  | emit hhandled _ ih =>
      refine always_cons.mpr ⟨nofun, always_append.mpr ⟨exec_onObservation_heeds hhandled, ?_⟩⟩
      refine ih.mono fun past turn _ hheeds => hheeds.mono ?_
      rw [pulled_cons, pulled_append, pulled_outward]
      exact List.subset_cons_self _ _

section Run

variable [Sha256] {g : CompiledGraph} {gate : Option Gate} {state : State} {plugins : List Listener}
  {delivery : Option Listener} {t : Turns} {o : Except Failure State}

theorem run_heeds (he : Exec draining (runWithPlugins g state plugins delivery gate) t o) :
    Always Heeds t := by
  cases exec_drain he with
  | returned _ hstep => exact lockstep_heeds hstep
  | raised _ hstep => exact lockstep_heeds hstep
  | failed _ hstep hfailed ht =>
      subst ht
      refine always_append.mpr ⟨lockstep_heeds hstep, always_cons.mpr ⟨nofun, ?_⟩⟩
      refine (exec_onObservation_heeds hfailed).mono fun past turn _ hheeds => hheeds.mono ?_
      rw [pulled_append]
      exact List.subset_append_right _ _

-- What was pulled from the scheduler is how one of its runs begins.
theorem pulled_begins (he : Exec draining (runWithPlugins g state plugins delivery gate) t o) :
    ∃ more r, Exec generating (run g gate state) (pulled t ++ more) r := by
  cases exec_drain he with
  | returned hrun _ => exact ⟨[], _, (List.append_nil (pulled t)).symm ▸ hrun⟩
  | raised hrun _ => exact ⟨[], _, (List.append_nil (pulled t)).symm ▸ hrun⟩
  | failed hrun hstep _ ht =>
      rw [ht, pulled_append, hstep.pulled_eq, pulled_cons, pulled_outward]
      exact ⟨_, _, hrun.exec (exec_simulate (obliging fun _ => .none) _)⟩

-- What a run with `ainvoke` would have come to: the same state, or the same error.
def invoked (state : State) (t : Run) : Except Exn Unit → Except Failure State
  | .ok () => .ok (ainvoke state t)
  | .error error => .error (.raised error)

-- The scheduler ran to its end, and every listener heard everything.
def Completes (g : CompiledGraph) (gate : Option Gate) (state : State) (listeners : List Listener)
    (t : Turns) (o : Except Failure State) : Prop :=
  (∃ r, Exec generating (run g gate state) (pulled t) r ∧ o = invoked state (pulled t) r) ∧
    calls t = delivered listeners (observations (pulled t))

-- The scheduler was left where it had yielded `observation`, of which `heard` were told, and
-- the error was raised once the iterator was closed.
def Closes (g : CompiledGraph) (gate : Option Gate) (state : State) (listeners heard : List Listener)
    (observation : GraphObservation) (error : Exn) (t after : Turns) (o : Except Failure State) : Prop :=
  ∃ s rest reply, pulled t = s ++ [.emit observation] ∧
    Reaches generating (run g gate state) (pulled t) rest ∧
    calls t = delivered listeners (observations s) ++ heard.map (·, observation) ∧
    after = [.outer (C := Host) .aclose reply] ∧ o = .error (closed error reply)

-- What becomes of a dispatched run: it is complete, or it was closed after the error of a
-- listener or of a copy.
structure Dispatches (g : CompiledGraph) (gate : Option Gate) (state : State)
    (listeners : List Listener) (t : Turns) (o : Except Failure State) : Prop where
  complete : (∀ turn ∈ t, failure? turn = none) → (listeners ≠ [] →
    ∀ observation ∈ observations (pulled t), detachable observation = true) →
    Completes g gate state listeners t o
  failed : ∀ before listener payload response after error,
    t = before ++ .outer (C := Host) (.onObservation listener payload) response :: after →
    (response : Response).result = .error error → ∃ front back,
      listeners = front ++ listener :: back ∧
      Closes g gate state listeners (front ++ [listener]) payload error t after o
  uncopied : ∀ observation ∈ observations (pulled t), detachable observation = false →
    listeners ≠ [] → ∃ before after, t = before ++ after ∧
      Closes g gate state listeners [] observation (.typeError ["cannot be copied"]) t after o

theorem dispatches_of_completes {listeners : List Listener}
    (hc : Completes g gate state listeners t o)
    (hd : Delivered listeners (observations (pulled t)) t) : Dispatches g gate state listeners t o where
  complete := fun _ _ => hc
  failed := by
    rintro before listener payload response after error rfl herror
    have hnone := hd.fine _ (List.mem_append_right _ List.mem_cons_self)
    exact absurd (hnone.symm.trans (failure?_of_error herror)) nofun
  uncopied := by
    intro observation hm hcopy hne
    exact absurd ((hd.copies hne observation hm).symm.trans hcopy) (by decide)

-- The turn of the last observation ended in an error.
theorem dispatches_of_heard {listeners : List Listener} {s : Run} {u : Turns} {held' : State}
    {rest : Scheduler Unit} {observation : GraphObservation} {before : Trace Host Empty} {error : Exn}
    {reply : Except Exn Unit} (hrun : Reaches generating (run g gate state) (s ++ [.emit observation]) rest)
    (hstep : Lockstep (onObservation listeners) state s u held')
    (hheard : Heard observation listeners before (.error error))
    (ht : t = u ++ .inner (.emit observation) ::
      outward (before ++ [.act (S := Host) .aclose reply])) :
    Dispatches g gate state listeners t (.error (closed error reply)) := by
  have hpulled : pulled t = s ++ [.emit observation] := by
    rw [ht, pulled_append, hstep.pulled_eq, pulled_cons, pulled_outward]
  obtain ⟨hcalls, hfine, hcopies⟩ := (lockstep_delivered hstep).1
  have hcloses : ∀ heard, calls (outward before) = heard.map (·, observation) →
      Closes g gate state listeners heard observation error t [.outer (C := Host) .aclose reply]
        (.error (closed error reply)) := by
    intro heard hheard
    refine ⟨s, rest, reply, hpulled, hpulled ▸ hrun, ?_, rfl, rfl⟩
    rw [ht, calls_append, calls_inner, outward_append, calls_append, hcalls, hheard]
    exact congrArg _ (List.append_nil _)
  have hlast : observation ∈ observations (pulled t) := by
    rw [hpulled, observations_append]
    exact List.mem_append_right _ List.mem_cons_self
  rw [outward_append] at ht
  cases hheard with
  | uncopied hnone hcopy hne =>
      subst hnone
      refine ⟨fun _ hall => ?_, ?_, fun observation' hm hcopy' _ => ?_⟩
      · exact absurd ((hall hne observation hlast).symm.trans hcopy) (by decide)
      · rintro front listener payload response after error rfl herror
        have hm : .outer (C := Host) (.onObservation listener payload) response ∈
            u ++ .inner (.emit observation) :: (outward [] ++
              outward [.act (S := Host) .aclose reply]) :=
          ht ▸ List.mem_append_right _ List.mem_cons_self
        rcases List.mem_append.mp hm with hm | hm
        · exact absurd ((hfine _ hm).symm.trans (failure?_of_error herror)) nofun
        · simp at hm
      · rw [hpulled, observations_append] at hm
        rcases List.mem_append.mp hm with hm | hm
        · exact absurd ((hcopies hne observation' hm).symm.trans hcopy') (by decide)
        · obtain rfl := List.mem_singleton.mp hm
          refine ⟨u ++ [.inner (.emit observation')], _, ?_, hcloses [] rfl⟩
          rw [ht, List.append_assoc]
          rfl
  | @failed front back listener before response _ hlisteners hb hheard hfine' hcopy hresponse =>
      subst hb
      have ht : t = (u ++ .inner (.emit observation) :: outward before) ++
          .outer (C := Host) (.onObservation listener observation) response ::
            [.outer (C := Host) .aclose reply] := by
        rw [ht, outward_append]
        simp
      have hfine : ∀ turn ∈ u ++ .inner (.emit observation) :: outward before,
          ¬failure? turn ≠ none := by
        intro turn hm
        rcases List.mem_append.mp hm with hm | hm
        · exact not_not.mpr (hfine turn hm)
        · rcases List.mem_cons.mp hm with rfl | hm
          · exact not_not.mpr rfl
          · exact not_not.mpr (hfine' turn hm)
      refine ⟨fun hall _ => ?_, ?_, fun observation' hm hcopy' hne => ?_⟩
      · have hnone := hall _ (ht ▸ List.mem_append_right _ List.mem_cons_self)
        exact absurd (hnone.symm.trans (failure?_of_error hresponse)) nofun
      · intro past listener' payload response' after error' ht' herror
        obtain ⟨rfl, hturn, rfl⟩ := split_unique (p := fun turn => failure? turn ≠ none)
          (ht.symm.trans ht') hfine (by simp [failure?]) (by rw [failure?_of_error herror]; nofun)
        cases hturn
        obtain rfl := Except.error.inj (herror.symm.trans hresponse)
        refine ⟨front, back, hlisteners, hcloses _ ?_⟩
        rw [outward_append, calls_append, hheard, List.map_append]
        rfl
      · rw [hpulled, observations_append] at hm
        rcases List.mem_append.mp hm with hm | hm
        · exact absurd ((hcopies hne observation' hm).symm.trans hcopy') (by decide)
        · obtain rfl := List.mem_singleton.mp hm
          exact absurd (hcopy.symm.trans hcopy') (by decide)

-- Plugin dispatch is complete, ordered and fail-closed.
theorem run_dispatches
    (he : Exec draining (runWithPlugins g state plugins delivery gate) t o) :
    Dispatches g gate state (receivers plugins delivery) t o := by
  cases exec_drain he with
  | returned hrun hstep =>
      obtain ⟨hd, rfl⟩ := lockstep_delivered hstep
      exact dispatches_of_completes ⟨⟨_, hrun, rfl⟩, hd.calls⟩ hd
  | raised hrun hstep =>
      have hd := (lockstep_delivered hstep).1
      exact dispatches_of_completes ⟨⟨_, hrun, rfl⟩, hd.calls⟩ hd
  | failed hrun hstep hfailed ht =>
      rcases exec_onObservation hfailed with ⟨-, herror⟩ | ⟨before, error, reply, hheard, rfl, herror⟩
      · cases herror
      · obtain rfl := Except.error.inj herror
        exact dispatches_of_heard hrun hstep hheard ht

end Run

-- Listeners that only listen, but for one that fails at the end of a node.
def faltering (identity : Nat) : Handler Host
  | .onObservation listener payload =>
      if listener.identity = identity ∧ payload.event.kind = .nodeEnd then
        ⟨.error (.other "RuntimeError" none none 0), payload⟩
      else ⟨.ok (), payload⟩
  | .aclose => .ok ()

-- The second of three listeners fails on the third observation.
theorem run_dispatches_faltering :
    letI := Sha256.verbatim
    let run := (runWithPlugins .diamond (State.new "s") [⟨1⟩, ⟨2⟩] (some ⟨0⟩) none).eval
      ((obliging fun _ => .dict []).draining (faltering 1))
    ((calls run.1).length = 8 ∧ (run.1.filterMap failure?).length = 1) ∧
      Dispatches .diamond none (State.new "s") [⟨0⟩, ⟨1⟩, ⟨2⟩] run.1 run.2 := by
  let := Sha256.verbatim
  intro run
  have hrun := exec_draining (obliging fun _ => .dict []) (faltering 1)
    (runWithPlugins .diamond (State.new "s") [⟨1⟩, ⟨2⟩] (some ⟨0⟩) none)
  exact ⟨by decide +kernel, run_dispatches hrun⟩

-- A state no deep copy can be made of.
def locked : State :=
  (State.new "s").update (Dict.ofList [("scratchpad", .dict [("lock", .object "Lock" 1 false)])])

theorem locked_unheard :
    ¬∀ [Sha256] (g : CompiledGraph) (gate : Option Gate) (state : State) (plugins : List Listener)
        (delivery : Option Listener) (t : Turns) (o : Except Failure State),
      Exec draining (runWithPlugins g state plugins delivery gate) t o →
      (∀ turn ∈ t, failure? turn = none) →
        Completes g gate state (receivers plugins delivery) t o := by
  intro h
  let := Sha256.verbatim
  have hrun := exec_draining (obliging fun _ => .dict []) (faltering 1)
    (runWithPlugins .diamond locked [⟨0⟩] none none)
  have hfine : ∀ turn ∈ ((runWithPlugins .diamond locked [⟨0⟩] none none).eval
      ((obliging fun _ => .dict []).draining (faltering 1))).1, failure? turn = none := by
    decide +kernel
  have hcalls := congrArg List.length (h .diamond none locked [⟨0⟩] none _ _ hrun hfine).2
  exact absurd hcalls (by decide +kernel)

end PerpetuaCore.Graph.Observer
