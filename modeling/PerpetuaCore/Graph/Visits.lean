import PerpetuaCore.Graph.Calls
import PerpetuaCore.Graph.Rules

namespace PerpetuaCore.Graph.Visits

open Interaction
open Python (Str Value Dict)

-- `[*visited, *names]`; the field as it was where no node was entered.
def extended (visited : Value) (names : List Str) : Value :=
  if names = [] then visited else .list (visited.iterate.getD [] ++ names.map .str)

theorem extended_append (visited : Value) (names names' : List Str) :
    extended visited (names ++ names') = extended (extended visited names) names' := by
  cases names with
  | nil => rfl
  | cons name rest =>
      cases names' <;> simp [extended, Value.iterate]

-- The nodes a run has announced, in order.
def starts (shown : List GraphObservation) : List Str :=
  shown.filterMap fun observation =>
    if observation.event.kind = .nodeStart then observation.event.node else none

theorem starts_append (shown shown' : List GraphObservation) :
    starts (shown ++ shown') = starts shown ++ starts shown' :=
  List.filterMap_append

theorem starts_branches {steps : Nat} {snapshot : State} (names : List Str) :
    starts (names.map (nodeStarted steps snapshot)) = names := by
  rw [starts, List.filterMap_map]
  exact List.filterMap_some

-- An observation that announces no node.
theorem starts_other {observation : GraphObservation} (h : observation.event.kind ≠ .nodeStart) :
    starts [observation] = [] := by
  simp [starts, h]

def writes (result : Except Exn Value) : Bool :=
  match result with
  | .ok (.dict items) => (Dict.ofList items).contains "nodes_visited"
  | _ => false

-- No delta writes the field, and what is handed the run's own state leaves it there as it is.
def keeps : Event → Bool
  | .leave (.node _ _ state) reply =>
      decide ((reply : Reply).left.get "nodes_visited" = state.get "nodes_visited") &&
        !writes (reply : Reply).result
  | .leave (.router _ _ state) reply =>
      decide ((reply : Reply).left.get "nodes_visited" = state.get "nodes_visited")
  | .leave (.branch ..) reply => !writes (reply : Reply).result
  | _ => true

def Kept (t : Run) : Prop := ∀ e ∈ t, keeps e = true

theorem Kept.left {s t : Run} (h : Kept (s ++ t)) : Kept s :=
  fun e he => h e (List.mem_append_left t he)

-- `state` has been visited by the nodes announced so far.
def Visited (init state : State) (t : Run) : Prop :=
  Kept t → state.get "nodes_visited" = extended (init.get "nodes_visited") (starts (observations t))

-- The last observations announce a region, and stop the run in it: the state returned is as
-- if it had never been entered.
def Abandoned (init : State) (t : Run) : Prop :=
  ∃ before source edge snapshot steps stop,
    observations t = before ++ superstepStarted source edge steps snapshot ::
      (edge.branches.map (nodeStarted steps snapshot) ++ [stop]) ∧
    stop.event.kind = .stopped ∧
    stop.state.get "nodes_visited" = extended (init.get "nodes_visited") (starts before)

-- How the run has ended.
def Closes (init : State) (t : Run) : Prop :=
  Kept t → (ainvoke init t).get "nodes_visited" =
    extended (init.get "nodes_visited") (starts (observations t)) ∨ Abandoned init t

variable {g : CompiledGraph} {gate : Option Gate} {source : Str} {edge : FanOut}
  {init state snapshot : State} {steps : Nat} {h : Run}

theorem Visited.acts (hv : Visited init state h) (t : Run) (ht : observations t = []) :
    Visited init state (h ++ t) := by
  intro hk
  rw [observations_append, ht, List.append_nil]
  exact hv hk.left

theorem Visited.emit {observation : GraphObservation} {state' : State} {names : List Str}
    (hv : Visited init state h) (hnames : starts [observation] = names)
    (hget : state'.get "nodes_visited" = extended (state.get "nodes_visited") names) :
    Visited init state' (h ++ [.emit observation]) := by
  intro hk
  rw [observations_append, observations_emit, observations_nil, starts_append, hnames, extended_append,
    ← hv hk.left]
  exact hget

theorem Visited.shows {observation : GraphObservation} {state' : State} (hv : Visited init state h)
    (hkind : observation.event.kind ≠ .nodeStart)
    (hget : state'.get "nodes_visited" = state.get "nodes_visited") :
    Visited init state' (h ++ [.emit observation]) :=
  hv.emit (starts_other hkind) hget

theorem ainvoke_emit {observation : GraphObservation} :
    ainvoke init (h ++ [.emit observation]) = observation.state := by
  simp [ainvoke]

theorem Visited.closes {observation : GraphObservation} (hv : Visited init state h)
    (hkind : observation.event.kind ≠ .nodeStart)
    (hget : observation.state.get "nodes_visited" = state.get "nodes_visited") :
    Closes init (h ++ [.emit observation]) := by
  intro hk
  rw [ainvoke_emit]
  exact .inl (hv.shows hkind hget hk)

-- Nothing is promised of a run that raises.
abbrev Raises (_ : Exn) (_ : Run) : Prop := True

-- What no exchange changes is still so once a step has acted.
theorem silently {α : Type} {I : Run → Prop} {p : Step α}
    (hi : ∀ t, observations t = [] → I (h ++ t)) :
    Ensures generating Raises (p.lift : Scheduler α) (fun _ => I) h := by
  intro t o he
  have ht := hi t (exec_acting_observations (exec_lift he))
  cases o with
  | ok => exact ht
  | error => trivial

theorem visit_extends {names : List Str} (hn : names ≠ []) (h : visit state names = .ok snapshot) :
    snapshot.get "nodes_visited" = extended (state.get "nodes_visited") names := by
  unfold visit at h
  split at h
  · rename_i visited hvisited
    rw [State.merge_eq_update h, State.get_update, Dict.get?_ofList (by simp), extended, if_neg hn,
      hvisited]
    rfl
  · cases h

theorem merge_visited {merged : State} {delta : Delta}
    (hd : delta.get? ("nodes_visited" : Value) = none) (h : state.merge delta = .ok merged) :
    merged.get "nodes_visited" = state.get "nodes_visited" := by
  rw [State.merge_eq_update h, State.get_update, hd, Option.getD_none]

theorem closeWith_visited {closed : State} {status : String} {entries : List (Value × Value)}
    (h : closeWith state status entries = .ok closed) :
    closed.get "nodes_visited" = state.get "nodes_visited" := by
  obtain ⟨metadata, -, rfl⟩ := closeWith_eq h
  rw [State.get, State.get, attrs_close, if_neg (by decide), if_neg (by decide)]

theorem stopped_visited {node : Str} {decision : GateDecision} {observation : GraphObservation}
    (h : stopped state node steps decision = .ok observation) :
    observation.event.kind = .stopped ∧
      observation.state.get "nodes_visited" = state.get "nodes_visited" := by
  obtain ⟨closed, hclosed, rfl⟩ := stopped_eq h
  exact ⟨rfl, closeWith_visited hclosed⟩

theorem orStop_closes {α : Type} {node : Str} {decision : Option GateDecision}
    {next : Scheduler (Option α)} {R : α → Run → Prop} (hv : Visited init state h)
    (hnext : Ensures generating Raises next (Rule.Goes (Closes init) R) h) :
    Ensures generating Raises (orStop state node steps decision next)
      (Rule.Goes (Closes init) R) h := by
  refine Rule.orStop (fun _ => hnext) (fun d observation _ ho => ?_) fun _ _ _ => trivial
  obtain ⟨hkind, hget⟩ := stopped_visited ho
  exact hv.closes (by rw [hkind]; exact nofun) hget

theorem resolveEdge_visited {node : Str} {edge : Edge} (hv : Visited init state h) :
    Ensures acting Raises (resolveEdge g node edge state)
      (fun taken => Visited init taken.2) h := by
  have hrouter : ∀ fn (reply : Reply), Visited init reply.left
      (h ++ [Event.enter (.router node fn state), Event.leave (.router node fn state) reply]) := by
    intro fn reply hk
    have hleft : reply.left.get "nodes_visited" = state.get "nodes_visited" :=
      of_decide_eq_true (hk (Event.leave (.router node fn state) reply) (by simp))
    rw [hleft]
    exact hv.acts [Event.enter (.router node fn state), Event.leave (.router node fn state) reply] rfl hk
  cases edge with
  | static target => exact .bind (.ofExcept (fun _ _ => .ret hv) fun _ _ => trivial)
  | fanout region => exact .raise trivial
  | callable router | conditional edge =>
      refine .bind (Rule.invoke fun reply => ?_)
      refine .bind (.ofExcept (fun _ _ => ?_) fun _ _ => trivial)
      exact .bind (.ofExcept (fun _ _ => .ret (hrouter _ reply)) fun _ _ => trivial)

theorem route_closes {node : Str} {edge : Edge} (hv : Visited init state h) :
    Ensures generating Raises (route g gate node edge state steps)
      (Rule.Goes (Closes init) fun next => Visited init next.2) h := by
  refine .andThen (silently hv.acts) fun asked t hv => orStop_closes hv ?_
  refine .andThen (silently hv.acts) fun _ t hv => ?_
  refine .andThen (.lift (resolveEdge_visited hv)) fun taken t hv => ?_
  exact .bind (.emit (.ret (hv.shows nofun rfl)))

-- A delta that is about to be published on `state`.
structure Publishing (init state : State) (delta : Delta) (t : Run) : Prop where
  visited : Visited init state t
  unwritten : Kept t → delta.get? ("nodes_visited" : Value) = none

theorem Publishing.acts {delta : Delta} (hp : Publishing init state delta h) (t : Run)
    (ht : observations t = []) : Publishing init state delta (h ++ t) :=
  ⟨hp.visited.acts t ht, fun hk => hp.unwritten hk.left⟩

theorem unwritten_of_keeps {items : List (Value × Value)} (h : writes (.ok (.dict items)) = false) :
    (Dict.ofList items).get? ("nodes_visited" : Value) = none := by
  rw [Dict.get?_eq_none_iff, ← Dict.contains_iff]
  exact ne_true_of_eq_false h

section Node

variable [Sha256]

theorem publishNode_closes {node : Str} {delta : Delta} (hp : Publishing init state delta h) :
    Ensures generating Raises (publishNode gate node state steps delta)
      (Rule.Goes (Closes init) (Visited init)) h := by
  refine .andThen (silently hp.acts) fun asked t hp => orStop_closes hp.visited ?_
  refine .bind (.ofExcept (fun merged hm => ?_) fun _ _ => trivial)
  refine .andThen (silently hp.acts) fun settlement t hp => ?_
  refine .bind (.emit (.bind (.ofExcept (fun _ _ => .ret fun hk => ?_) fun _ _ => trivial)))
  exact hp.visited.shows nofun (merge_visited (hp.unwritten hk.left) hm) hk

theorem finishNode_closes {node : Str} {reply : Reply} (hv : Visited init reply.left h)
    (hw : Kept h → writes reply.result = false) :
    Ensures generating Raises (finishNode gate node steps reply)
      (Rule.Goes (Closes init) (Visited init)) h := by
  unfold finishNode
  split
  · split_ifs
    · refine .bind (.ofExcept (fun closed hclosed => ?_) fun _ _ => trivial)
      exact .bind (.emit (.ret (hv.closes nofun (closeWith_visited hclosed))))
    · exact .raise trivial
  · rename_i value hvalue
    refine .bind (.ofExcept (fun delta hdelta => ?_) fun _ _ => trivial)
    refine .bind (.ofExcept (fun detached hdetach => ?_) fun _ _ => trivial)
    obtain rfl := detach_eq hdetach
    unfold requireDelta at hdelta
    split at hdelta
    · obtain rfl := Except.ok.inj hdelta
      exact publishNode_closes ⟨hv, fun hk => unwritten_of_keeps (hvalue ▸ hw hk)⟩
    · cases hdelta

theorem runNode_closes {node : Str} (hv : Visited init state h) :
    Ensures generating Raises (runNode g gate node state steps)
      (Rule.Goes (Closes init) (Visited init)) h := by
  refine .bind (.ofExcept (fun fn _ => ?_) fun _ _ => trivial)
  refine .bind (.ofExcept (fun visited hvisit => ?_) fun _ _ => trivial)
  have hname : starts [nodeStarted steps visited node] = [node] := rfl
  have hstart : Visited init visited (h ++ [.emit (nodeStarted steps visited node)]) :=
    hv.emit hname (visit_extends (List.cons_ne_nil _ _) hvisit)
  refine .bind (.emit (.andThen (silently hstart.acts) fun asked t hv => orStop_closes hv ?_))
  refine .andThen (silently hv.acts) fun _ t hv => .bind (.lift (Rule.invoke fun reply => ?_))
  have hkept : Kept (t ++ [Event.enter (.node node fn visited), Event.leave (.node node fn visited) reply]) →
      reply.left.get "nodes_visited" = visited.get "nodes_visited" ∧ writes reply.result = false := by
    intro hk
    simpa [keeps] using hk (Event.leave (.node node fn visited) reply) (by simp)
  refine finishNode_closes (fun hk => ?_) fun hk => (hkept hk).2
  rw [(hkept hk).1]
  exact hv.acts [Event.enter (.node node fn visited), Event.leave (.node node fn visited) reply] rfl hk

end Node

-- A branch that settled without an error left with the delta it settled with.
theorem runBranch_unwritten {name : Str} :
    Ensures acting Raises (runBranch g source snapshot name)
      (fun item t => Kept t → ∀ delta, item.outcome = .ok delta →
        delta.get? ("nodes_visited" : Value) = none) h := by
  unfold runBranch
  cases nodeFor g name with
  | error exc => exact .ret nofun
  | ok fn =>
      refine .bind (Rule.invoke fun reply => ?_)
      split
      · split_ifs
        · exact .ret nofun
        · exact .raise trivial
      · rename_i value hvalue
        refine .ret fun hk delta hdelta => ?_
        have hkept : writes reply.result = false := by
          simpa [keeps] using hk (Event.leave (.branch source name fn snapshot) reply) (by simp)
        unfold requireDelta at hdelta
        split at hdelta
        · obtain rfl := Except.ok.inj hdelta
          exact unwritten_of_keeps (hvalue ▸ hkept)
        · cases hdelta

theorem branchCall_unwritten {batchId name : Str} :
    Ensures acting Raises (branchCall g gate source batchId snapshot steps name)
      (fun item t => Kept t → ∀ delta, item.outcome = .ok delta →
        delta.get? ("nodes_visited" : Value) = none) h := by
  have hany : ∀ {α : Type} (p : Step α) (h : Run), Ensures acting Raises p (fun _ _ => True) h :=
    fun p _ => .returns (.all p)
  unfold branchCall
  split_ifs
  · refine .andThen (hany _ _) ?_
    rintro (exc | ⟨_ | decision, request⟩) t -
    · exact .ret nofun
    · refine .andThen (hany _ _) ?_
      rintro (exc | _) t -
      · exact .ret nofun
      · exact runBranch_unwritten
    · exact .ret nofun
  · exact runBranch_unwritten

theorem interleaved_unwritten {names : List Str} {batchId : Str} {u : Run}
    {os : List (Except Exn Settled)} (hk : Kept u)
    (hi : Interleaved acting (names.map (branchCall g gate source batchId snapshot steps)) u os) :
    ∀ item delta, .ok item ∈ os → item.outcome = .ok delta →
      delta.get? ("nodes_visited" : Value) = none := by
  induction names generalizing u os with
  | nil =>
      cases hi
      exact nofun
  | cons name rest ih =>
      cases hi with
      | @cons _ _ s t _ o os hs ht hu =>
          intro item delta hmem hdelta
          have hks : Kept s := fun e he => hk e (hu.sublist_left.subset he)
          have hkt : Kept t := fun e he => hk e (hu.sublist_right.subset he)
          rcases List.mem_cons.mp hmem with rfl | hmem
          · exact branchCall_unwritten (h := []) s _ hs hks delta hdelta
          · exact ih hkt ht item delta hmem hdelta

-- No field of the folded delta comes from anywhere but the admitted deltas.
theorem contributions_unwritten {admitted : List (Str × Delta)} {key : Value}
    (h : ∀ item ∈ admitted, item.2.get? key = none) : (contributions admitted).get? key = none := by
  have hbranch : ∀ (name : Str) (items : List (Value × Value)) (contributed : Contributed),
      key ∉ items.map Prod.fst → contributed.get? key = none →
      (items.foldl (contribute name) contributed).get? key = none := by
    intro name items
    induction items with
    | nil => exact fun _ _ hc => hc
    | cons item rest ih =>
        intro contributed hnot hc
        rw [List.map_cons, List.mem_cons, not_or] at hnot
        refine ih _ hnot.2 ?_
        rw [contribute, Dict.get?_set, if_neg hnot.1]
        exact hc
  have hall : ∀ contributed : Contributed, contributed.get? key = none →
      (admitted.foldl (fun contributed branch =>
        branch.2.items.foldl (contribute branch.1) contributed) contributed).get? key = none := by
    induction admitted with
    | nil => exact fun _ hc => hc
    | cons item rest ih =>
        intro contributed hc
        obtain ⟨hitem, hrest⟩ := List.forall_mem_cons.mp h
        exact ih hrest _ (hbranch _ _ _ (Dict.get?_eq_none_iff.mp hitem) hc)
  exact hall .empty rfl

theorem mem_keys_of_fieldNames {keys : List Value} {fields : List Str} {field : Str}
    (h : fieldNames keys = .ok fields) (hf : field ∈ fields) : .str field ∈ keys := by
  induction keys generalizing fields with
  | nil =>
      cases h
      cases hf
  | cons key rest ih =>
      cases key with
      | str name =>
          simp only [fieldNames] at h
          cases hrest : fieldNames rest with
          | error exc => rw [hrest] at h; cases h
          | ok fields' =>
              rw [hrest] at h
              cases h
              rcases List.mem_cons.mp hf with rfl | hf
              · exact List.mem_cons_self
              · exact List.mem_cons_of_mem _ (ih hrest hf)
      | _ => cases h

theorem foldFields_unwritten {request : Option DispatchRequest} {contributed : Contributed}
    {fields : List Str} {folded : Delta × Provenance} {field : Str} (hf : field ∉ fields)
    (h : folded.1.get? (.str field) = none) :
    (foldFields g gate source snapshot request contributed fields folded).Returns fun folded =>
      folded.1.get? (.str field) = none := by
  induction fields generalizing folded with
  | nil => exact h
  | cons name rest ih =>
      rw [List.mem_cons, not_or] at hf
      refine .bind (.all _) fun value _ => ih hf.2 ?_
      rw [Dict.get?_set, if_neg (fun he => hf.1 (Value.str.inj he))]
      exact h

theorem fold_unwritten {admitted : List (Str × Delta)} {request : Option DispatchRequest} {field : Str}
    (h : ∀ item ∈ admitted, item.2.get? (.str field) = none) :
    (fold g gate source snapshot admitted request).Returns fun folded =>
      folded.1.get? (.str field) = none := by
  refine .bind (.ofExcept (R := fun fields => field ∉ fields) fun fields hfields hmem => ?_) fun fields hf =>
    foldFields_unwritten (fun hm => hf (Python.mem_sorted.mp hm)) rfl
  exact Dict.get?_eq_none_iff.mp (contributions_unwritten h) (mem_keys_of_fieldNames hfields hmem)

-- A region has been announced on `state`; its branches see `snapshot`.
structure Announced (init : State) (source : Str) (edge : FanOut) (state snapshot : State) (steps : Nat)
    (t : Run) : Prop where
  shown : ∃ before, observations t = before ++ superstepStarted source edge steps snapshot ::
      edge.branches.map (nodeStarted steps snapshot) ∧
    (Kept t → state.get "nodes_visited" = extended (init.get "nodes_visited") (starts before))
  visited : Visited init snapshot t

theorem Announced.acts (ha : Announced init source edge state snapshot steps h) (t : Run)
    (ht : observations t = []) : Announced init source edge state snapshot steps (h ++ t) := by
  obtain ⟨before, hshown, hbefore⟩ := ha.shown
  refine ⟨⟨before, ?_, fun hk => hbefore hk.left⟩, ha.visited.acts t ht⟩
  rw [observations_append, ht, List.append_nil, hshown]

theorem announce_announced (hv : Visited init state h) (hsnapshot : visit state edge.branches = .ok snapshot) :
    Ensures generating Raises (announce source edge snapshot steps)
      (fun _ => Announced init source edge state snapshot steps) h := by
  refine .bind (.emit (.emitAll ⟨⟨observations h, ?_, fun hk => hv hk.left.left⟩, fun hk => ?_⟩))
  · simp
  · have hbranches : edge.branches ≠ [] := by
      have htwo := edge.two
      rintro hnil
      simp [hnil] at htwo
    have hopening : starts (observations [(.emit (superstepStarted source edge steps snapshot) : Event)]) = [] :=
      starts_other nofun
    rw [observations_append, observations_append, starts_append, starts_append, hopening, List.append_nil,
      observations_emits, starts_branches, extended_append, ← hv hk.left.left]
    exact visit_extends hbranches hsnapshot

theorem orStop_abandons {α : Type} {decision : Option GateDecision} {next : Scheduler (Option α)}
    {R : α → Run → Prop} (ha : Announced init source edge state snapshot steps h)
    (hnext : decision = none → Ensures generating Raises next (Rule.Goes (Closes init) R) h) :
    Ensures generating Raises (orStop state source steps decision next)
      (Rule.Goes (Closes init) R) h := by
  refine Rule.orStop hnext (fun d observation _ ho hk => .inr ?_) fun _ _ _ => trivial
  obtain ⟨hkind, hget⟩ := stopped_visited ho
  obtain ⟨before, hshown, hbefore⟩ := ha.shown
  refine ⟨before, source, edge, snapshot, steps, observation, ?_, hkind, ?_⟩
  · rw [observations_append, hshown, observations_emit, observations_nil, List.append_assoc,
      List.cons_append]
  · rw [hget, hbefore hk.left]

-- The region's deltas leave the field alone, too.
structure Settling (init : State) (source : Str) (edge : FanOut) (state snapshot : State) (steps : Nat)
    (deltas : List Delta) (t : Run) : Prop where
  announced : Announced init source edge state snapshot steps t
  unwritten : Kept t → ∀ delta ∈ deltas, delta.get? ("nodes_visited" : Value) = none

theorem Settling.acts {deltas : List Delta}
    (hs : Settling init source edge state snapshot steps deltas h) (t : Run)
    (ht : observations t = []) : Settling init source edge state snapshot steps deltas (h ++ t) :=
  ⟨hs.announced.acts t ht, fun hk => hs.unwritten hk.left⟩

section Region

variable [Sha256] {completed : Nat} {batchId : Str} {admitted : List (Str × Delta)}

theorem publishRegion_closes {progress : steps ≤ completed} {merged : Delta} {provenance : Provenance}
    (hs : Settling init source edge state snapshot steps [merged] h) :
    Ensures generating Raises
      (publishRegion gate source edge state snapshot steps completed progress batchId admitted merged
        provenance)
      (Rule.Goes (Closes init) fun result => Visited init result.state) h := by
  refine .andThen (silently hs.acts) fun asked t hs => orStop_abandons hs.announced fun _ => ?_
  refine .bind (.ofExcept (fun committed hm => ?_) fun _ _ => trivial)
  refine .andThen (silently hs.acts) fun settlement t hs => ?_
  refine .bind (.emitAll (.bind (.emit (.bind (.ofExcept (fun _ _ => .ret fun hk => ?_) fun _ _ => trivial)))))
  have hget := merge_visited (hs.unwritten hk.left.left merged (List.mem_singleton_self _)) hm
  have hended : starts (admitted.map (nodeEnded completed committed)) = [] := by
    rw [starts, List.filterMap_map]
    exact List.filterMap_eq_nil_iff.mpr fun _ _ => rfl
  have hcommit : starts (observations [(.emit (superstepCommitted source edge completed
      (admitted.map Prod.fst) committed merged provenance) : Event)]) = [] := starts_other nofun
  rw [observations_append, observations_append, starts_append, starts_append, hcommit,
    observations_emits, hended, List.append_nil, List.append_nil, ← hs.announced.visited hk.left.left]
  exact hget

theorem foldRegion_closes {progress : steps ≤ completed}
    (hs : Settling init source edge state snapshot steps (admitted.map Prod.snd) h) :
    Ensures generating Raises
      (foldRegion g gate source edge state snapshot steps completed progress batchId admitted)
      (Rule.Goes (Closes init) fun result => Visited init result.state) h := by
  refine .andThen (silently hs.acts) fun asked t hs => orStop_abandons hs.announced fun _ => ?_
  have hfold : Ensures acting Raises (catchBoundaryStop (fold g gate source snapshot admitted asked.2))
      (fun folded t => Settling init source edge state snapshot steps (admitted.map Prod.snd) t ∧
        ∀ result, folded = .ok result → Kept t → result.1.get? ("nodes_visited" : Value) = none) t := by
    intro u o he
    have hu := hs.acts u (exec_acting_observations he)
    cases o with
    | error => trivial
    | ok folded =>
        refine ⟨hu, fun result hr hk => ?_⟩
        have hunwritten : ∀ item ∈ admitted, item.2.get? (.str "nodes_visited") = none :=
          fun item hitem => hu.unwritten hk item.2 (List.mem_map_of_mem hitem)
        exact Ensures.returns (h := t) (catchBoundaryStop_returns (fold_unwritten hunwritten)) u _ he result hr
  refine .andThen (.lift hfold) ?_
  rintro (decision | ⟨merged, provenance⟩) t ⟨hs, hfolded⟩
  · exact orStop_abandons hs.announced nofun
  · refine .bind (.ofExcept (fun detached hdetach => ?_) fun _ _ => trivial)
    obtain rfl := detach_eq hdetach
    refine publishRegion_closes ⟨hs.announced, fun hk delta hdelta => ?_⟩
    obtain rfl := List.mem_singleton.mp hdelta
    exact hfolded _ rfl hk

theorem joinRegion_closes {settled : List Settled}
    (hs : Settling init source edge state snapshot steps ((succeeded settled).map Prod.snd) h) :
    Ensures generating Raises
      (joinRegion g gate source edge state snapshot steps batchId settled)
      (Rule.Goes (Closes init) fun result => Visited init result.state) h := by
  refine .bind (.ofExcept (fun verdict _ => orStop_abandons hs.announced fun _ => ?_) fun _ _ => trivial)
  split
  · refine .bind (.ofExcept (fun closed hclosed => ?_) fun _ _ => trivial)
    exact .bind (.emit (.ret (hs.announced.visited.closes nofun (closeWith_visited hclosed))))
  · refine .andThen (silently hs.acts) fun asked t hs => orStop_abandons hs.announced fun _ => ?_
    refine .andThen (silently hs.acts) fun _ t hs => ?_
    refine .andThen ((silently hs.acts).and (.lift (.returns admit_returns))) fun admitted t hadmit => ?_
    obtain ⟨hs, hsub⟩ := hadmit
    refine foldRegion_closes ⟨hs.announced, fun hk delta hdelta => ?_⟩
    exact hs.unwritten hk delta ((hsub.map Prod.snd).subset hdelta)

theorem runRegion_closes (hv : Visited init state h) :
    Ensures generating Raises (runRegion g gate source edge state steps)
      (Rule.Goes (Closes init) fun result => Visited init result.state) h := by
  refine .bind (.ofExcept (fun snapshot hsnapshot => ?_) fun _ _ => trivial)
  have hvisit := enterRegion_visit hsnapshot
  refine .andThen (announce_announced hv hvisit) fun _ t ha => ?_
  refine .andThen (silently ha.acts) fun batchId t ha => ?_
  refine .andThen (silently ha.acts) fun asked t ha => orStop_abandons ha fun _ => ?_
  refine .bind (.bind (.fork fun u outcomes hi => .ofExcept (fun settled hr => ?_) fun _ _ => trivial))
  refine joinRegion_closes ⟨ha.acts u (interleaved_observations hi), fun hk delta hdelta => ?_⟩
  have hku : Kept u := fun e he => hk e (List.mem_append_right t he)
  obtain ⟨⟨name, delta⟩, hsucceeded, rfl⟩ := List.mem_map.mp hdelta
  obtain ⟨item, hitem, hoption⟩ := List.mem_filterMap.mp hsucceeded
  refine interleaved_unwritten hku hi item delta ?_ ?_
  · rw [results_ok hr]
    exact List.mem_map_of_mem hitem
  · cases ho : item.outcome with
    | error exc => simp [ho, Except.toOption] at hoption
    | ok value =>
        rw [ho] at hoption
        cases hoption
        rfl

theorem followRegion_closes {node : Str} (hv : Visited init state h) :
    Ensures generating Raises (followRegion g gate node state steps)
      (Rule.Goes (Closes init) fun next => Visited init next.1.state) h := by
  unfold followRegion
  split
  · refine .andThen (runRegion_closes hv) ?_
    rintro (_ | result) t hq
    · exact .ret hq
    · exact .ret hq
  · exact .ret hv

omit [Sha256] in
theorem finish_closes (hv : Visited init state h) :
    Ensures generating Raises (finish state steps) (fun _ => Closes init) h := by
  refine .bind (.ofExcept (fun closed hclosed => ?_) fun _ _ => trivial)
  refine .emit (hv.closes nofun (merge_visited ?_ hclosed))
  decide

-- A run that returns has visited exactly the nodes it announced, in order, but for the branches
-- of a region it was stopped in.
theorem run_visits {t : Run} (he : Exec generating (run g gate state) t (.ok ())) (hk : Kept t) :
    (ainvoke state t).get "nodes_visited" =
      extended (state.get "nodes_visited") (starts (observations t)) ∨
    ∃ before source edge snapshot steps stop,
      observations t = before ++ superstepStarted source edge steps snapshot ::
        (edge.branches.map (nodeStarted steps snapshot) ++ [stop]) ∧
      stop.event.kind = .stopped ∧
      (ainvoke state t).get "nodes_visited" = extended (state.get "nodes_visited") (starts before) := by
  have hstart : Visited state state [] := fun _ => rfl
  have hrun : Ensures generating Raises (run g gate state) (fun _ => Closes state) [] := by
    refine Rule.run (I := fun _ at_ _ _ => Visited state at_) (J := fun _ at_ _ => Visited state at_)
      (K := fun _ _ at_ _ => Visited state at_) (route_closes hstart) ?_ ?_ ?_ ?_ ?_
    · exact fun _ _ _ _ hv => finish_closes hv
    · exact fun _ _ _ _ _ _ _ => trivial
    · exact fun _ _ _ _ _ hv _ _ => runNode_closes hv
    · exact fun _ _ _ _ hv => followRegion_closes hv
    · exact fun _ _ _ _ _ hv => route_closes hv
  refine (hrun t _ he hk).imp_right ?_
  rintro ⟨before, source, edge, snapshot, steps, stop, hshown, hkind, hget⟩
  refine ⟨before, source, edge, snapshot, steps, stop, hshown, hkind, ?_⟩
  have hlast : ainvoke state t = stop.state := by
    rw [List.nil_append] at hshown
    simp [ainvoke, hshown]
  rw [hlast]
  exact hget

omit [Sha256] in
theorem run_visits_diamond :
    letI := Sha256.verbatim
    let t := ((run .diamond (some ⟨true, true⟩) (State.new "s")).simulate
      (obliging fun _ => .dict [("retry_count", .int 1)])).1
    (ainvoke (State.new "s") t).get "nodes_visited" =
        extended ((State.new "s").get "nodes_visited") (starts (observations t)) ∨
      ∃ before source edge snapshot steps stop,
        observations t = before ++ superstepStarted source edge steps snapshot ::
          (edge.branches.map (nodeStarted steps snapshot) ++ [stop]) ∧
        stop.event.kind = .stopped ∧
        (ainvoke (State.new "s") t).get "nodes_visited" =
          extended ((State.new "s").get "nodes_visited") (starts before) := by
  let := Sha256.verbatim
  intro t
  have hrun := exec_simulate (obliging fun _ => .dict [("retry_count", .int 1)])
    (run .diamond (some ⟨true, true⟩) (State.new "s"))
  exact run_visits hrun (List.all_eq_true.mp (by decide +kernel))

end Region

-- A gate that stops the run where a region's branches are dispatched.
def holding : Handler Core
  | .beforeDispatch ⟨.fanout, _, _, _, _⟩ => .decided (.stop ⟨"paused", List.cons_ne_nil _ _⟩)
  | op => obliging (fun _ => .dict []) op

-- The branches were announced, and the state returned does not know of them.
theorem stopped_region_unvisited :
    ¬∀ [Sha256] (g : CompiledGraph) (gate : Option Gate) (state : State) (t : Run),
      Exec generating (run g gate state) t (.ok ()) → Kept t →
        (ainvoke state t).get "nodes_visited" =
          extended (state.get "nodes_visited") (starts (observations t)) := by
  intro h
  let := Sha256.verbatim
  have hrun := exec_simulate holding (run .diamond (some ⟨false, false⟩) (State.new "s"))
  have hvisited := h _ _ _ _ hrun (List.all_eq_true.mp (by decide +kernel))
  revert hvisited
  decide +kernel

end PerpetuaCore.Graph.Visits
