import PerpetuaCore.Graph.Lineage

namespace PerpetuaCore.Graph.Frame

open Interaction
open Python (Str Value Dict)
open Ledger (publishes)
open Lineage (Built Descending spares leaves)

-- What the scheduler itself writes.
def kernelFields : List Str := ["nodes_visited", "status", "metadata"]

section Made

variable [Sha256] {g : CompiledGraph} {gate : Option Gate} {init state : State} {t t' : Run}

-- The scheduler made the state of `init`; at the end of a run it has closed it, too.
def Made (g : CompiledGraph) (gate : Option Gate) (init : State) (t : Run) (state : State) : Prop :=
  ∃ base, Built g gate init t base ∧ (state = base ∨ Ledger.Closes base state)

theorem Made.mono (h : Made g gate init t state) (ht : t ⊆ t') : Made g gate init t' state := by
  obtain ⟨base, hbuilt, hclosed⟩ := h
  exact ⟨base, hbuilt.mono ht, hclosed⟩

omit [Sha256] in
theorem closeWith_get {closed : State} {status : String} {entries : List (Value × Value)} {field : Str}
    (hfield : field ∉ kernelFields) (h : closeWith state status entries = .ok closed) :
    closed.get field = state.get field := by
  obtain ⟨metadata, -, rfl⟩ := closeWith_eq h
  have hstatus : Value.str field ≠ ("status" : Value) :=
    fun he => hfield (Value.str.inj he ▸ by simp [kernelFields])
  have hmetadata : Value.str field ≠ ("metadata" : Value) :=
    fun he => hfield (Value.str.inj he ▸ by simp [kernelFields])
  rw [State.get, State.get, attrs_close, if_neg hmetadata, if_neg hstatus]

omit [Sha256] in
theorem closes_get {closed : State} {field : Str} (hfield : field ∉ kernelFields)
    (h : Ledger.Closes state closed) : closed.get field = state.get field := by
  cases h with
  | stopped h => exact closeWith_get hfield h
  | interrupted h => exact closeWith_get hfield h
  | done h =>
      have hstatus : ("status" : Value) ≠ Value.str field :=
        fun he => hfield (Value.str.inj he ▸ by simp [kernelFields])
      rw [State.merge_eq_update h, State.get_update, Dict.get?_ofList (by simp)]
      simp [Dict.lookup_cons_ite, Ne.symm hstatus]

-- Of any other field only what the callables return or change in place shows.
theorem Made.get_eq {field : Str} (h : Made g gate init t state) (hfield : field ∉ kernelFields)
    (hspares : ∀ e ∈ t, spares field e = true) (hleaves : ∀ e ∈ t, leaves field e = true) :
    state.get field = init.get field := by
  obtain ⟨base, hbuilt, hclosed⟩ := h
  have hvisited : field ≠ "nodes_visited" := fun he => hfield (he ▸ by simp [kernelFields])
  have hbase := hbuilt.get_eq hvisited hspares hleaves
  rcases hclosed with rfl | hcloses
  · exact hbase
  · exact (closes_get hfield hcloses).trans hbase

end Made

section Shown

variable [Sha256] {g : CompiledGraph} {gate : Option Gate} {init state snapshot : State}
  {states : List State} {observation : GraphObservation} {steps : Nat} {h : Run}

-- Given that what is published descends from `init`, so does all else that is shown.
def Shown (g : CompiledGraph) (gate : Option Gate) (init : State) (t : Run) : Prop :=
  Descending g gate init t → ∀ observation ∈ observations t, Made g gate init t observation.state

-- The scheduler holds these states.
def Holding (g : CompiledGraph) (gate : Option Gate) (init : State) (states : List State)
    (t : Run) : Prop :=
  Descending g gate init t → (∀ observation ∈ observations t, Made g gate init t observation.state) ∧
    ∀ state ∈ states, Built g gate init t state

theorem Holding.shown (hh : Holding g gate init states h) : Shown g gate init h :=
  fun hd => (hh hd).1

theorem Holding.acts (hh : Holding g gate init states h) (u : Run) (hu : observations u = []) :
    Holding g gate init states (h ++ u) := by
  intro hd
  obtain ⟨hshown, hbuilt⟩ := hh (always_append.mp hd).1
  have hsub := List.subset_append_left h u
  refine ⟨fun observation hm => ?_, fun state hm => (hbuilt state hm).mono hsub⟩
  rw [observations_append, hu, List.append_nil] at hm
  exact (hshown observation hm).mono hsub

theorem Holding.emit {states' : List State} (hh : Holding g gate init states h)
    (hnext : Descending g gate init (h ++ [.emit observation]) →
      (∀ state ∈ states, Built g gate init (h ++ [.emit observation]) state) →
        Made g gate init (h ++ [.emit observation]) observation.state ∧
          ∀ state ∈ states', Built g gate init (h ++ [.emit observation]) state) :
    Holding g gate init states' (h ++ [.emit observation]) := by
  intro hd
  obtain ⟨hshown, hbuilt⟩ := hh (always_append.mp hd).1
  have hsub : h ⊆ h ++ [.emit observation] := List.subset_append_left ..
  obtain ⟨hmade, hbuilt'⟩ := hnext hd fun state hm => (hbuilt state hm).mono hsub
  refine ⟨fun observation' hm => ?_, hbuilt'⟩
  rw [observations_append, observations_emit, observations_nil] at hm
  rcases List.mem_append.mp hm with hm | hm
  · exact (hshown observation' hm).mono hsub
  · exact List.mem_singleton.mp hm ▸ hmade

-- A state held is shown.
theorem Holding.shows (hh : Holding g gate init states h) (hm : observation.state ∈ states) :
    Holding g gate init states (h ++ [.emit observation]) :=
  hh.emit fun _ hbuilt => ⟨⟨_, hbuilt _ hm, .inl rfl⟩, hbuilt⟩

-- A state held is closed.
theorem Holding.closes (hh : Holding g gate init states h) (hm : state ∈ states)
    (hc : Ledger.Closes state observation.state) : Shown g gate init (h ++ [.emit observation]) :=
  (hh.emit fun _ hbuilt => ⟨⟨_, hbuilt _ hm, .inr hc⟩, hbuilt⟩).shown

-- What was published is held from now on.
theorem Holding.publishes (hh : Holding g gate init states h)
    (hp : publishes observation.event.kind = true) :
    Holding g gate init (observation.state :: states) (h ++ [.emit observation]) := by
  refine hh.emit fun hd hbuilt => ?_
  have hpublished : Built g gate init (h ++ [.emit observation]) observation.state :=
    ((always_snoc.mp hd).2 observation rfl hp).built.mono (List.subset_append_left ..)
  exact ⟨⟨_, hpublished, .inl rfl⟩, List.forall_mem_cons.mpr ⟨hpublished, hbuilt⟩⟩

theorem Holding.mono {states' : List State} (hh : Holding g gate init states h)
    (hbuilt : ∀ t, (∀ state ∈ states, Built g gate init t state) →
      ∀ state ∈ states', Built g gate init t state) :
    Holding g gate init states' h :=
  fun hd => ⟨(hh hd).1, hbuilt h (hh hd).2⟩

theorem Holding.visit {names : List Str} {visited : State} (hh : Holding g gate init states h)
    (hm : state ∈ states) (hv : visit state names = .ok visited) :
    Holding g gate init (visited :: states) h :=
  hh.mono fun _ hbuilt => List.forall_mem_cons.mpr ⟨(hbuilt state hm).visit hv, hbuilt⟩

theorem Holding.only (hh : Holding g gate init states h) (hm : state ∈ states) :
    Holding g gate init [state] h :=
  hh.mono fun _ hbuilt => List.forall_mem_singleton.mpr (hbuilt state hm)

abbrev Raises (g : CompiledGraph) (gate : Option Gate) (init : State) (_ : Exn) : Run → Prop :=
  Shown g gate init

theorem silently {α : Type} {p : Step α} (hh : Holding g gate init states h) :
    Ensures generating (Raises g gate init) (p.lift : Scheduler α)
      (fun _ => Holding g gate init states) h := by
  intro t o he
  have ht := hh.acts t (exec_acting_observations (exec_lift he))
  cases o with
  | ok => exact ht
  | error => exact ht.shown

theorem orStop_shown {α : Type} {node : Str} {decision : Option GateDecision}
    {next : Scheduler (Option α)} {R : α → Run → Prop} (hh : Holding g gate init states h)
    (hm : state ∈ states)
    (hnext : decision = none → Ensures generating (Raises g gate init) next
      (Rule.Goes (Shown g gate init) R) h) :
    Ensures generating (Raises g gate init) (orStop state node steps decision next)
      (Rule.Goes (Shown g gate init) R) h := by
  refine Rule.orStop hnext (fun d observation _ ho => ?_) fun _ _ _ => hh.shown
  obtain ⟨closed, hclosed, rfl⟩ := stopped_eq ho
  exact hh.closes hm (.stopped hclosed)

theorem route_shown {source : Str} {edge : Edge} (hh : Holding g gate init [state] h) :
    Ensures generating (Raises g gate init) (route g gate source edge state steps)
      (Rule.Goes (Shown g gate init) fun next => Holding g gate init [next.2]) h := by
  refine .andThen (silently hh) fun asked t hh =>
    orStop_shown hh (List.mem_singleton_self _) fun _ => ?_
  refine .andThen (silently hh) fun _ t hh => ?_
  have htaken : Ensures acting (Raises g gate init) (resolveEdge g source edge state)
      (fun taken => Holding g gate init [taken.2]) t := by
    refine Rule.resolveEdge (fun target _ => .ofExcept (fun _ _ => hh) fun _ _ => hh.shown)
      (fun _ _ _ _ => hh.shown) fun fn reply _ => ?_
    have hcalled := hh.acts
      [Event.enter (.router source fn state), Event.leave (.router source fn state) reply] rfl
    refine .ofExcept (fun _ _ hd => ?_) fun _ _ => hcalled.shown
    obtain ⟨hshown, hbuilt⟩ := hcalled hd
    have hleft : Event.leave (.router source fn state) reply ∈
        t ++ [Event.enter (.router source fn state), Event.leave (.router source fn state) reply] := by
      simp
    exact ⟨hshown, List.forall_mem_singleton.mpr
      ((hbuilt state (List.mem_singleton_self _)).router hleft)⟩
  refine .andThen (.lift htaken) fun taken t hh => ?_
  exact .bind (.emit (.ret (hh.shows (List.mem_singleton_self _))))

theorem publishNode_shown {node : Str} {delta : Delta} (hh : Holding g gate init [state] h) :
    Ensures generating (Raises g gate init) (publishNode gate node state steps delta)
      (Rule.Goes (Shown g gate init) fun state => Holding g gate init [state]) h := by
  refine .andThen (silently hh) fun asked t hh =>
    orStop_shown hh (List.mem_singleton_self _) fun _ => ?_
  refine .bind (.ofExcept (fun merged _ => ?_) fun _ _ => hh.shown)
  refine .andThen (silently hh) fun settlement t hh => ?_
  have hpublished : Holding g gate init (merged :: [state])
      (t ++ [.emit (nodeEnded (steps + 1) merged (node, delta))]) := hh.publishes rfl
  refine .bind (.emit (.bind (.ofExcept (fun _ _ => .ret ?_) fun _ _ => hpublished.shown)))
  exact hpublished.only List.mem_cons_self

theorem finishNode_shown {node : Str} {reply : Reply} (hh : Holding g gate init [reply.left] h) :
    Ensures generating (Raises g gate init) (finishNode gate node steps reply)
      (Rule.Goes (Shown g gate init) fun state => Holding g gate init [state]) h := by
  unfold finishNode
  split
  · split_ifs
    · refine .bind (.ofExcept (fun closed hclosed => ?_) fun _ _ => hh.shown)
      exact .bind (.emit (.ret (hh.closes (List.mem_singleton_self _) (.interrupted hclosed))))
    · exact .raise hh.shown
  · refine .bind (.ofExcept (fun _ _ => ?_) fun _ _ => hh.shown)
    exact .bind (.ofExcept (fun _ _ => publishNode_shown hh) fun _ _ => hh.shown)

theorem runNode_shown {node : Str} (hh : Holding g gate init [state] h) :
    Ensures generating (Raises g gate init) (runNode g gate node state steps)
      (Rule.Goes (Shown g gate init) fun state => Holding g gate init [state]) h := by
  refine .bind (.ofExcept (fun fn _ => ?_) fun _ _ => hh.shown)
  refine .bind (.ofExcept (fun visited hv => ?_) fun _ _ => hh.shown)
  have hvisited := (hh.visit (List.mem_singleton_self _) hv).only List.mem_cons_self
  have hstarted : Holding g gate init [visited] (h ++ [.emit (nodeStarted steps visited node)]) :=
    hvisited.shows (List.mem_singleton_self _)
  refine .bind (.emit (.andThen (silently hstarted) fun asked t hh =>
    orStop_shown hh (List.mem_singleton_self _) fun _ => ?_))
  refine .andThen (silently hh) fun _ t hh => .bind (.lift (Rule.invoke fun reply => ?_))
  have hcalled := hh.acts
    [Event.enter (.node node fn visited), Event.leave (.node node fn visited) reply] rfl
  refine finishNode_shown fun hd => ?_
  obtain ⟨hshown, hbuilt⟩ := hcalled hd
  have hleft : Event.leave (.node node fn visited) reply ∈
      t ++ [Event.enter (.node node fn visited), Event.leave (.node node fn visited) reply] := by
    simp
  exact ⟨hshown, List.forall_mem_singleton.mpr
    ((hbuilt visited (List.mem_singleton_self _)).node hleft)⟩

section Region

variable {source batchId : Str} {edge : FanOut} {completed : Nat} {admitted : List (Str × Delta)}

theorem Holding.showsAll {β : Type} {f : β → GraphObservation} {xs : List β}
    (hh : Holding g gate init states h) (hm : ∀ x ∈ xs, (f x).state ∈ states) :
    Holding g gate init states (h ++ xs.map fun x => .emit (f x)) := by
  induction xs generalizing h with
  | nil => rwa [List.map_nil, List.append_nil]
  | cons x rest ih =>
      have hfirst : Holding g gate init states (h ++ [.emit (f x)]) := hh.shows (hm x List.mem_cons_self)
      have hrest := ih hfirst fun y hy => hm y (List.mem_cons_of_mem x hy)
      rwa [List.append_assoc] at hrest

theorem Holding.publishesAll {f : Str × Delta → GraphObservation} {xs : List (Str × Delta)}
    (hh : Holding g gate init states h) (hp : ∀ x ∈ xs, Ledger.publishes (f x).event.kind = true) :
    Holding g gate init states (h ++ xs.map fun x => .emit (f x)) := by
  induction xs generalizing h with
  | nil => rwa [List.map_nil, List.append_nil]
  | cons x rest ih =>
      have hfirst : Holding g gate init states (h ++ [.emit (f x)]) :=
        (hh.publishes (hp x List.mem_cons_self)).mono fun _ hbuilt state hm =>
          hbuilt state (List.mem_cons_of_mem _ hm)
      have hrest := ih hfirst fun y hy => hp y (List.mem_cons_of_mem x hy)
      rwa [List.append_assoc] at hrest

theorem publishRegion_shown {progress : steps ≤ completed} {merged : Delta} {provenance : Provenance}
    (hh : Holding g gate init [snapshot, state] h) :
    Ensures generating (Raises g gate init)
      (publishRegion gate source edge state snapshot steps completed progress batchId admitted merged
        provenance)
      (Rule.Goes (Shown g gate init) fun result => Holding g gate init [result.state]) h := by
  refine .andThen (silently hh) fun asked t hh => orStop_shown hh (by simp) fun _ => ?_
  refine .bind (.ofExcept (fun committed _ => ?_) fun _ _ => hh.shown)
  refine .andThen (silently hh) fun settlement t hh => ?_
  have hended : Holding g gate init [snapshot, state]
      (t ++ admitted.map fun item => .emit (nodeEnded completed committed item)) :=
    hh.publishesAll fun _ _ => rfl
  have hcommitted : Holding g gate init (committed :: [snapshot, state])
      (t ++ (admitted.map fun item => .emit (nodeEnded completed committed item)) ++
        [.emit (superstepCommitted source edge completed (admitted.map Prod.fst) committed merged
          provenance)]) := hended.publishes rfl
  refine .bind (.emitAll (.bind (.emit (.bind (.ofExcept (fun _ _ => ?_) fun _ _ =>
    hcommitted.shown)))))
  exact .ret (hcommitted.only List.mem_cons_self)

theorem foldRegion_shown {progress : steps ≤ completed} (hh : Holding g gate init [snapshot, state] h) :
    Ensures generating (Raises g gate init)
      (foldRegion g gate source edge state snapshot steps completed progress batchId admitted)
      (Rule.Goes (Shown g gate init) fun result => Holding g gate init [result.state]) h := by
  refine .andThen (silently hh) fun asked t hh => orStop_shown hh (by simp) fun _ => ?_
  refine .andThen (silently hh) ?_
  rintro (decision | ⟨merged, provenance⟩) t hh
  · exact orStop_shown hh (by simp) nofun
  · exact .bind (.ofExcept (fun _ _ => publishRegion_shown hh) fun _ _ => hh.shown)

theorem joinRegion_shown {settled : List Settled} (hh : Holding g gate init [snapshot, state] h) :
    Ensures generating (Raises g gate init)
      (joinRegion g gate source edge state snapshot steps batchId settled)
      (Rule.Goes (Shown g gate init) fun result => Holding g gate init [result.state]) h := by
  refine .bind (.ofExcept (fun verdict _ => orStop_shown hh (by simp) fun _ => ?_) fun _ _ => hh.shown)
  split
  · refine .bind (.ofExcept (fun closed hclosed => ?_) fun _ _ => hh.shown)
    exact .bind (.emit (.ret (hh.closes List.mem_cons_self (.interrupted hclosed))))
  · refine .andThen (silently hh) fun asked t hh => orStop_shown hh (by simp) fun _ => ?_
    refine .andThen (silently hh) fun _ t hh => .andThen (silently hh) fun _ t hh => ?_
    exact foldRegion_shown hh

theorem runRegion_shown (hh : Holding g gate init [state] h) :
    Ensures generating (Raises g gate init) (runRegion g gate source edge state steps)
      (Rule.Goes (Shown g gate init) fun result => Holding g gate init [result.state]) h := by
  refine .bind (.ofExcept (fun snapshot hsnapshot => ?_) fun _ _ => hh.shown)
  have hentered := hh.visit (List.mem_singleton_self _) (enterRegion_visit hsnapshot)
  have hopened : Holding g gate init [snapshot, state]
      (h ++ [.emit (superstepStarted source edge steps snapshot)]) := hentered.shows List.mem_cons_self
  have hannounced : Holding g gate init [snapshot, state]
      (h ++ [.emit (superstepStarted source edge steps snapshot)] ++
        edge.branches.map fun name => .emit (nodeStarted steps snapshot name)) :=
    hopened.showsAll fun _ _ => List.mem_cons_self
  refine .bind (.bind (.emit (.emitAll ?_)))
  refine .andThen (silently hannounced) fun batchId t hh => ?_
  refine .andThen (silently hh) fun asked t hh => orStop_shown hh (by simp) fun _ => ?_
  refine .bind (.bind (.fork fun u outcomes hi => ?_))
  have hforked := hh.acts u (interleaved_observations hi)
  exact .ofExcept (fun _ _ => joinRegion_shown hforked) fun _ _ => hforked.shown

theorem followRegion_shown {node : Str} (hh : Holding g gate init [state] h) :
    Ensures generating (Raises g gate init) (followRegion g gate node state steps)
      (Rule.Goes (Shown g gate init) fun next => Holding g gate init [next.1.state]) h := by
  unfold followRegion
  split
  · refine .andThen (runRegion_shown hh) ?_
    rintro (_ | result) t hq
    · exact .ret hq
    · exact .ret hq
  · exact .ret hh

end Region

theorem finish_shown (hh : Holding g gate init [state] h) :
    Ensures generating (Raises g gate init) (finish state steps) (fun _ => Shown g gate init) h :=
  .bind (.ofExcept (fun _ hclosed => .emit (hh.closes (List.mem_singleton_self _) (.done hclosed)))
    fun _ _ => hh.shown)

-- Nothing else is shown of a run.
theorem run_shown {t : Run} {o : Except Exn Unit} (he : Exec generating (run g gate init) t o) :
    ∀ observation ∈ observations t, Made g gate init t observation.state := by
  have hstart : Holding g gate init [init] [] :=
    fun _ => ⟨nofun, List.forall_mem_singleton.mpr .init⟩
  have hrun : Ensures generating (Raises g gate init) (run g gate init)
      (fun _ => Shown g gate init) [] := by
    refine Rule.run (I := fun _ state _ _ => Holding g gate init [state])
      (J := fun _ state _ => Holding g gate init [state])
      (K := fun _ _ state _ => Holding g gate init [state]) (route_shown hstart) ?_ ?_ ?_ ?_ ?_
    · exact fun _ _ _ _ hh => finish_shown hh
    · exact fun _ _ _ _ _ hh _ => hh.shown
    · exact fun _ _ _ _ _ hh _ _ => runNode_shown hh
    · exact fun _ _ _ _ hh => followRegion_shown hh
    · exact fun _ _ _ _ _ hh => route_shown hh
  have hend := hrun t o he
  cases o <;> exact hend (Lineage.run_descends he)

end Shown

end PerpetuaCore.Graph.Frame
