import PerpetuaCore.Graph.Rules

namespace PerpetuaCore.Graph.Region

open Interaction
open Python (Str Value Dict)

-- The value a state's metadata has under a key.
def metadataAt (state : State) (key : Value) : Option Value :=
  match state.get "metadata" with
  | .dict items => (Dict.ofList items).get? key
  | _ => none

-- The metadata keys a run is closed with.
def closingKeys : TerminalReason → List Value
  | .done => []
  | .stopped => ["stop_node", "stop_reason"]
  | .interrupted => ["interrupt_node", "interrupt_prompt", "interrupt_payload"]

def bookkeepingFields : List Value := ["status", "nodes_visited", "metadata"]

-- `closed` differs from `state` in the scheduler's own fields only, and in its metadata
-- only under the keys for `reason`.
structure Untouched (reason : TerminalReason) (state closed : State) : Prop where
  fields : ∀ key, key ∉ bookkeepingFields → closed.attrs.get? key = state.attrs.get? key
  metadata : ∀ key, key ∉ closingKeys reason → metadataAt closed key = metadataAt state key

-- Nothing of the region was published, and a terminal observation shows that.
def Aborted (state : State) (shown : List GraphObservation) : Prop :=
  ∀ observation ∈ shown, observation.event.kind ≠ .nodeEnd ∧
    observation.event.kind ≠ .superstepCommit ∧
    ∀ reason ∈ observation.event.terminalReason, Untouched reason state observation.state

-- `merged` is what folding the deltas of the branches `names` into the region's snapshot returned
-- in the run.
def Folds (g : CompiledGraph) (gate : Option Gate) (source : Str) (edge : FanOut) (state : State)
    (t : Run) (names : List Str) (merged : Delta) : Prop :=
  ∃ snapshot admitted request provenance before u after, visit state edge.branches = .ok snapshot ∧
    admitted.map Prod.fst = names ∧ t = before ++ u ++ after ∧
    Exec acting (fold g gate source snapshot admitted request) u (.ok (merged, provenance))

-- The region was published by its one superstep commit, the last observation, whose state
-- holds the whole folded delta.
def Committed (folds : List Str → Delta → Prop) (shown : List GraphObservation) (committed : State) :
    Prop :=
  ∃ before observation merged, shown = before ++ [observation] ∧
    (∀ earlier ∈ before, earlier.event.kind ≠ .superstepCommit ∧ earlier.event.terminalReason = none) ∧
    observation.event.kind = .superstepCommit ∧ observation.event.terminalReason = none ∧
    observation.delta = some merged ∧ folds observation.event.branches merged ∧
    observation.state = committed ∧
    ∀ key value, merged.get? key = some value → committed.attrs.get? key = some value

variable {g : CompiledGraph} {gate : Option Gate} {source : Str} {edge : FanOut} {h : Run}
  {state snapshot : State}

theorem Folds.append {names : List Str} {merged : Delta}
    (hf : Folds g gate source edge state h names merged) (t : Run) :
    Folds g gate source edge state (h ++ t) names merged := by
  obtain ⟨snapshot, admitted, request, provenance, before, u, after, hv, hnames, rfl, he⟩ := hf
  refine ⟨snapshot, admitted, request, provenance, before, u, after ++ t, hv, hnames, ?_, he⟩
  rw [List.append_assoc (before ++ u)]

theorem annotated_untouched {closed : State} {status : String} {reason : TerminalReason}
    {entries : List (Value × Value)} (hentries : entries.map Prod.fst = closingKeys reason)
    (hn : (closingKeys reason).Nodup)
    (h : closeWith state status entries = .ok closed) : Untouched reason state closed := by
  obtain ⟨metadata, hm, rfl⟩ := closeWith_eq h
  unfold withMetadata at hm
  split at hm
  · rename_i items hitems
    obtain rfl := Except.ok.inj hm
    constructor
    · intro key hkey
      simp only [bookkeepingFields, List.mem_cons, List.not_mem_nil, or_false, not_or] at hkey
      rw [attrs_close, if_neg hkey.2.2, if_neg hkey.1]
    · intro key hkey
      have hlookup : entries.lookup key = none := by
        refine (Dict.get?_eq_none_iff (d := ⟨entries, hentries ▸ hn⟩)).mpr ?_
        rwa [Dict.keys, hentries]
      simp only [metadataAt, State.get, attrs_close, if_true, Option.getD_some]
      rw [← State.get, hitems]
      simp [Dict.get?_ofList (hentries ▸ hn), hlookup]
  · cases hm

theorem stopped_untouched {node : Str} {steps : Nat} {decision : GateDecision}
    {observation : GraphObservation} (h : stopped state node steps decision = .ok observation) :
    observation.event.kind = .stopped ∧ observation.event.terminalReason = some .stopped ∧
      Untouched .stopped state observation.state := by
  obtain ⟨closed, hclosed, rfl⟩ := stopped_eq h
  exact ⟨rfl, rfl, annotated_untouched rfl (by decide) hclosed⟩

theorem attrs_visit {names : List Str} (h : visit state names = .ok snapshot) (key : Value)
    (hkey : key ≠ ("nodes_visited" : Value)) : snapshot.attrs.get? key = state.attrs.get? key := by
  unfold visit at h
  split at h
  · rename_i items _
    rw [State.merge_eq_update h, State.update, Dict.get?_update, Dict.get?_ofList (by simp)]
    simp [Dict.lookup_cons_ite, hkey]
  · cases h

-- A branch interrupt closes the snapshot, which differs from the state before the region
-- in `nodes_visited` only.
theorem interrupted_untouched {names : List Str} {node : Str} {exc : Exn} {closed : State}
    (hv : visit state names = .ok snapshot) (h : interruptedState snapshot node exc = .ok closed) :
    Untouched .interrupted state closed := by
  have hu : Untouched .interrupted snapshot closed := annotated_untouched rfl (by decide) h
  constructor
  · intro key hkey
    have hne : key ≠ ("nodes_visited" : Value) := fun he => hkey (by simp [he, bookkeepingFields])
    rw [hu.fields key hkey, attrs_visit hv key hne]
  · intro key hkey
    have hmetadata : snapshot.get "metadata" = state.get "metadata" := by
      rw [State.get, State.get, attrs_visit hv _ (by decide)]
    rw [hu.metadata key hkey, metadataAt, metadataAt, hmetadata]

theorem Aborted.snoc {shown : List GraphObservation} {observation : GraphObservation}
    (ha : Aborted state shown) (hkind : observation.event.kind ≠ .nodeEnd)
    (hcommit : observation.event.kind ≠ .superstepCommit)
    (hreason : ∀ reason ∈ observation.event.terminalReason,
      Untouched reason state observation.state) : Aborted state (shown ++ [observation]) := by
  intro o ho
  rcases List.mem_append.mp ho with ho | ho
  · exact ha o ho
  · obtain rfl := List.mem_singleton.mp ho
    exact ⟨hkind, hcommit, hreason⟩

-- How a region has ended, by what it showed and what it returns.
def Atomic {steps : Nat} (g : CompiledGraph) (gate : Option Gate) (source : Str) (edge : FanOut)
    (state : State) (t : Run) : Except Exn (Option (RegionResult steps)) → Prop
  | .error _ => Aborted state (observations t) ∨
      ∃ committed, Committed (Folds g gate source edge state t) (observations t) committed
  | .ok none => Aborted state (observations t)
  | .ok (some result) => Committed (Folds g gate source edge state t) (observations t) result.state

-- Nothing shown so far ends the run, and nothing is published yet.
def Open (shown : List GraphObservation) : Prop :=
  ∀ observation ∈ shown, observation.event.kind ≠ .nodeEnd ∧
    observation.event.kind ≠ .superstepCommit ∧ observation.event.terminalReason = none

theorem Open.aborted {shown : List GraphObservation} (ho : Open shown) : Aborted state shown := by
  intro observation hm
  obtain ⟨hend, hcommit, hreason⟩ := ho observation hm
  refine ⟨hend, hcommit, fun reason hr => ?_⟩
  rw [hreason] at hr
  cases hr

abbrev Raises (g : CompiledGraph) (gate : Option Gate) (source : Str) (edge : FanOut)
    (state : State) (_ : Exn) (t : Run) : Prop :=
  Aborted state (observations t) ∨
    ∃ committed, Committed (Folds g gate source edge state t) (observations t) committed

theorem Open.raises {error : Exn} (ho : Open (observations h)) :
    Raises g gate source edge state error h :=
  .inl ho.aborted

theorem still {α : Type} {p : Step α} (ho : Open (observations h)) :
    Ensures acting (Raises g gate source edge state) p (fun _ t => Open (observations t)) h :=
  (Ensures.still ho).mono (fun _ _ ho => ho) fun _ _ ho => ho.raises

theorem still_folded {α : Type} {p : Step α} {names : List Str} {merged : Delta}
    (ho : Open (observations h)) (hf : Folds g gate source edge state h names merged) :
    Ensures acting (Raises g gate source edge state) p
      (fun _ t => Open (observations t) ∧ Folds g gate source edge state t names merged) h := by
  intro t o he
  have hstill : Ensures acting (Raises g gate source edge state) p
      (fun _ t => Open (observations t)) h := still ho
  have hend := hstill t o he
  cases o with
  | ok value => exact ⟨hend, hf.append t⟩
  | error error => exact hend

theorem orStop_atomic {steps at_ : Nat} {node : Str} {decision : Option GateDecision}
    {next : Scheduler (Option (RegionResult steps))} (ho : Open (observations h))
    (hnext : decision = none → Ensures generating (Raises g gate source edge state) next
      (fun result t => Atomic g gate source edge state t (.ok result)) h) :
    Ensures generating (Raises g gate source edge state) (orStop state node at_ decision next)
      (fun result t => Atomic g gate source edge state t (.ok result)) h := by
  refine Rule.orStop hnext (fun d observation _ hobs => ?_) fun d error _ => ho.raises
  obtain ⟨hkind, hreason, hu⟩ := stopped_untouched hobs
  unfold Atomic
  rw [observations_append]
  refine ho.aborted.snoc (by simp [hkind]) (by simp [hkind]) fun reason hr => ?_
  rw [hreason] at hr
  cases hr
  exact hu

theorem announce_open {steps : Nat} :
    Ensures generating (Raises g gate source edge state) (announce source edge snapshot steps)
      (fun _ t => Open (observations t)) [] := by
  refine .bind (.emit (.emitAll ?_))
  intro observation ho
  simp only [observations_emits, observations_emit, List.nil_append, List.singleton_append,
    List.mem_cons, List.mem_map] at ho
  rcases ho with rfl | ⟨name, _, rfl⟩
  · simp [superstepStarted]
  · simp [nodeStarted]

variable [Sha256]

theorem publishRegion_atomic {steps completed : Nat} {progress : steps ≤ completed} {batchId : Str}
    {admitted : List (Str × Delta)} {merged : Delta} {provenance : Provenance}
    (ho : Open (observations h))
    (hf : Folds g gate source edge state h (admitted.map Prod.fst) merged) :
    Ensures generating (Raises g gate source edge state)
      (publishRegion gate source edge state snapshot steps completed progress batchId admitted merged
        provenance) (fun result t => Atomic g gate source edge state t (.ok result)) h := by
  refine .andThen (.lift (still_folded ho hf)) fun asked t ⟨ho, hf⟩ => ?_
  refine orStop_atomic ho fun _ => ?_
  refine .bind (.ofExcept (fun committed hm => ?_) fun _ _ => ho.raises)
  refine .andThen (.lift (still_folded ho hf)) fun settlement t ⟨ho, hf⟩ => ?_
  refine .bind (.emitAll (.bind (.emit ?_)))
  have hcommitted : Committed (Folds g gate source edge state (t ++
      admitted.map (fun item => .emit (nodeEnded completed committed item)) ++
      [.emit (superstepCommitted source edge completed (admitted.map Prod.fst) committed merged
        provenance)])) (observations (t ++
      admitted.map (fun item => .emit (nodeEnded completed committed item)) ++
      [.emit (superstepCommitted source edge completed (admitted.map Prod.fst) committed merged
        provenance)])) committed := by
    refine ⟨observations t ++ admitted.map (nodeEnded completed committed),
      superstepCommitted source edge completed (admitted.map Prod.fst) committed merged provenance,
      merged, by simp, ?_, rfl, rfl, rfl, (hf.append _).append _, rfl, fun key value hget => ?_⟩
    · intro earlier he
      rcases List.mem_append.mp he with he | he
      · exact ⟨(ho earlier he).2.1, (ho earlier he).2.2⟩
      · obtain ⟨item, _, rfl⟩ := List.mem_map.mp he
        exact ⟨nofun, rfl⟩
    · rw [State.merge_eq_update hm]
      simp [State.update, hget]
  exact .bind (.ofExcept (fun _ _ => .ret hcommitted) fun _ _ => .inr ⟨committed, hcommitted⟩)

-- The fold's result is the delta that is published, if its boundaries let it through.
omit [Sha256] in
theorem fold_open {admitted : List (Str × Delta)} {request : Option DispatchRequest}
    (hv : visit state edge.branches = .ok snapshot) (ho : Open (observations h)) :
    Ensures acting (Raises g gate source edge state)
      (catchBoundaryStop (fold g gate source snapshot admitted request))
      (fun result t => Open (observations t) ∧ ∀ merged provenance, result = .ok (merged, provenance) →
        Folds g gate source edge state t (admitted.map Prod.fst) merged) h := by
  refine Rule.catchBoundaryStop fun t o he => ?_
  have hstill : Ensures acting (Raises g gate source edge state)
      (fold g gate source snapshot admitted request) (fun _ t => Open (observations t)) h := still ho
  have hend := hstill t o he
  have hopen : Open (observations (h ++ t)) := by
    rwa [observations_append, exec_acting_observations he, List.append_nil]
  cases o with
  | error error => exact ⟨hend, fun _ _ => ⟨hopen, nofun⟩⟩
  | ok result =>
      refine ⟨hopen, ?_⟩
      rintro merged provenance ⟨⟩
      exact ⟨snapshot, admitted, request, provenance, h, t, [], hv, rfl, by simp, he⟩

theorem foldRegion_atomic {steps completed : Nat} {progress : steps ≤ completed} {batchId : Str}
    {admitted : List (Str × Delta)} (hv : visit state edge.branches = .ok snapshot)
    (ho : Open (observations h)) :
    Ensures generating (Raises g gate source edge state)
      (foldRegion g gate source edge state snapshot steps completed progress batchId admitted)
      (fun result t => Atomic g gate source edge state t (.ok result)) h := by
  refine .andThen (.lift (still ho)) fun asked t ho => ?_
  refine orStop_atomic ho fun _ => ?_
  refine .andThen (.lift (fold_open hv ho)) ?_
  rintro (decision | ⟨merged, provenance⟩) t ⟨ho, hf⟩
  · exact orStop_atomic ho nofun
  · refine .bind (.ofExcept (fun detached hdetach => ?_) fun _ _ => ho.raises)
    obtain rfl := detach_eq hdetach
    exact publishRegion_atomic ho (hf _ _ rfl)

theorem joinRegion_atomic {steps : Nat} {batchId : Str} {settled : List Settled}
    (hv : visit state edge.branches = .ok snapshot) (ho : Open (observations h)) :
    Ensures generating (Raises g gate source edge state)
      (joinRegion g gate source edge state snapshot steps batchId settled)
      (fun result t => Atomic g gate source edge state t (.ok result)) h := by
  refine .bind (.ofExcept (fun verdict _ => ?_) fun _ _ => ho.raises)
  refine orStop_atomic ho fun _ => ?_
  split
  · refine .bind (.ofExcept (fun closed hclosed => ?_) fun _ _ => ho.raises)
    refine .bind (.emit (.ret ?_))
    unfold Atomic
    rw [observations_append]
    refine ho.aborted.snoc nofun nofun ?_
    rintro reason ⟨⟩
    exact interrupted_untouched hv hclosed
  · refine .andThen (.lift (still ho)) fun asked t ho => ?_
    refine orStop_atomic ho fun _ => ?_
    refine .andThen (.lift (still ho)) fun _ t ho => ?_
    exact .andThen (.lift (still ho)) fun admitted t ho => foldRegion_atomic hv ho

theorem runRegion_ends {steps : Nat} {t : Run} {o : Except Exn (Option (RegionResult steps))}
    (he : Exec generating (runRegion g gate source edge state steps) t o) :
    Atomic g gate source edge state t o := by
  have hrun : Ensures generating (Raises g gate source edge state)
      (runRegion g gate source edge state steps)
      (fun result t => Atomic g gate source edge state t (.ok result)) [] := by
    have hnil : Open (observations ([] : Run)) := by simp [Open]
    refine .bind (.ofExcept (fun snapshot hs => ?_) fun _ _ => hnil.raises)
    refine .andThen announce_open fun _ t ho => ?_
    refine .andThen (.lift (still ho)) fun batchId t ho => ?_
    refine .andThen (.lift (still ho)) fun asked t ho => ?_
    refine orStop_atomic ho fun _ => ?_
    refine .andThen (.andThen (.fork_still ho) fun outcomes t ho =>
      .ofExcept (fun _ _ => ho) fun _ _ => ho.raises) fun settled t ho => ?_
    exact joinRegion_atomic (enterRegion_visit hs) ho
  have hend := hrun t o he
  cases o <;> exact hend

-- Region atomicity: without a superstep commit nothing of the region shows in a node end,
-- in a terminal state or in a result; with one the whole delta that the fold returned is in the
-- state.
theorem region_atomic {steps : Nat} {t : Run} {o : Except Exn (Option (RegionResult steps))}
    (he : Exec generating (runRegion g gate source edge state steps) t o) :
    ((∀ observation ∈ observations t, observation.event.kind ≠ .superstepCommit) →
      (∀ observation ∈ observations t, observation.event.kind ≠ .nodeEnd ∧
        ∀ reason ∈ observation.event.terminalReason, Untouched reason state observation.state) ∧
      ∀ result, o ≠ .ok (some result)) ∧
    ((∃ observation ∈ observations t, observation.event.kind = .superstepCommit) →
      ∃ before observation merged, observations t = before ++ [observation] ∧
        (∀ earlier ∈ before, earlier.event.kind ≠ .superstepCommit) ∧
        observation.event.kind = .superstepCommit ∧ observation.delta = some merged ∧
        Folds g gate source edge state t observation.event.branches merged ∧
        (∀ key value, merged.get? key = some value →
          observation.state.attrs.get? key = some value) ∧
        ∀ result, o = .ok (some result) → result.state = observation.state) := by
  have hend := runRegion_ends he
  have hcases : (Aborted state (observations t) ∧ ∀ result, o ≠ .ok (some result)) ∨
      ∃ committed, Committed (Folds g gate source edge state t) (observations t) committed ∧
        ∀ result, o = .ok (some result) → result.state = committed := by
    rcases o with error | _ | result
    · rcases hend with ha | ⟨committed, hc⟩
      · exact .inl ⟨ha, nofun⟩
      · exact .inr ⟨committed, hc, nofun⟩
    · exact .inl ⟨hend, nofun⟩
    · refine .inr ⟨result.state, hend, ?_⟩
      rintro _ ⟨⟩
      rfl
  constructor
  · intro hnone
    rcases hcases with ⟨ha, ho⟩ | ⟨committed, ⟨before, last, merged, hshown, _, hkind, _⟩, _⟩
    · exact ⟨fun observation hm => ⟨(ha observation hm).1, (ha observation hm).2.2⟩, ho⟩
    · exact absurd hkind (hnone last (by simp [hshown]))
  · rintro ⟨observation, hm, hkind⟩
    rcases hcases with ⟨ha, _⟩ |
      ⟨_, ⟨before, last, merged, hshown, hbefore, hlast, _, hd, hfolds, rfl, hall⟩, ho⟩
    · exact absurd hkind (ha observation hm).2.1
    · exact ⟨before, last, merged, hshown, fun e he => (hbefore e he).1, hlast, hd, hfolds, hall, ho⟩

omit [Sha256] in
theorem region_atomic_pair :
    letI := Sha256.verbatim
    let shown := observations ((runRegion .diamond (some ⟨true, true⟩) "a" .pair (State.new "s") 1).simulate
      (obliging fun _ => .dict [("retry_count", .int 1)])).1
    ∃ before observation merged, shown = before ++ [observation] ∧
      observation.event.kind = .superstepCommit ∧ observation.delta = some merged ∧
      ∀ key value, merged.get? key = some value → observation.state.attrs.get? key = some value := by
  let := Sha256.verbatim
  intro shown
  obtain ⟨before, observation, merged, hshown, -, hkind, hd, -, hall, -⟩ :=
    (region_atomic (exec_simulate (obliging fun _ => .dict [("retry_count", .int 1)])
      (runRegion .diamond (some ⟨true, true⟩) "a" .pair (State.new "s") 1))).2 (by decide)
  exact ⟨before, observation, merged, hshown, hkind, hd, hall⟩

end PerpetuaCore.Graph.Region
