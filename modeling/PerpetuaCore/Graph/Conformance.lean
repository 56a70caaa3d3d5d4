import PerpetuaCore.Graph.Calls
import PerpetuaCore.Graph.Protocol

namespace PerpetuaCore.Graph.Protocol

open Interaction
open Python (Str Value Dict)

variable {g : CompiledGraph} {gate : Option Gate} {h : Run} {shown shown' : List GraphObservation}
  {L : List Shape → Prop} {k : Nat}

-- The contract of a stretch of the scheduler that shows words of `L`.
def Cuts (g : CompiledGraph) (L : List Shape → Prop) (k : Nat) (shown : List GraphObservation)
    (_ : Exn) (t : Run) : Prop :=
  Cut g L k shown (observations t)

def Shows {α : Type} (g : CompiledGraph) (L : List Shape → Prop) (k : Nat)
    (shown : List GraphObservation) (R : α → List Shape → Prop) : Option α → Run → Prop
  | none, t => Halted g L k shown (observations t)
  | some value, t =>
      ∃ full, L full ∧ full.length ≤ k ∧ R value full ∧ Stretch g shown full (observations t)

theorem still {α : Type} {p : Step α} (hshown : observations h = shown')
    (hc : Cut g L k shown shown') :
    Ensures acting (Cuts g L k shown) p (fun _ t => observations t = shown') h :=
  (Ensures.still (P := (· = shown')) hshown).mono (fun _ _ ho => ho) fun _ _ ho => by
    rw [Cuts, ho]
    exact hc

theorem cuts {error : Exn} (hshown : observations h = shown') (hc : Cut g L k shown shown') :
    Cuts g L k shown error h := by
  rw [Cuts, hshown]
  exact hc

theorem stopped_closing {state : State} {node : Str} {steps : Nat} {decision : GateDecision}
    {observation : GraphObservation} {word : List GraphObservation}
    (hobs : stopped state node steps decision = .ok observation) :
    Closing word .stopped observation ∧ observation.event.steps = steps := by
  obtain ⟨closed, hclosed, rfl⟩ := stopped_eq hobs
  exact ⟨⟨rfl, rfl, closeWith_status hclosed, nofun, nofun⟩, rfl⟩

theorem orStop_shows {α : Type} {state : State} {node : Str} {steps : Nat}
    {decision : Option GateDecision} {next : Scheduler (Option α)} {R : α → List Shape → Prop}
    (hshown : observations h = shown') (hc : Cut g L k shown shown')
    (hsteps : (steps : Int) ≤ g.maxSteps)
    (hnext : decision = none →
      Ensures generating (Cuts g L k shown) next (Shows g L k shown R) h) :
    Ensures generating (Cuts g L k shown) (orStop state node steps decision next)
      (Shows g L k shown R) h := by
  refine Rule.orStop hnext (fun d observation _ hobs => ?_) fun d error _ => cuts hshown hc
  have ⟨hclosing, hat⟩ : Closing shown' .stopped observation ∧ _ := stopped_closing hobs
  exact ⟨shown', observation, .stopped, by simp [hshown], hc, hclosing, hat ▸ hsteps⟩

-- One more plain observation.
theorem Stretch.snoc {xs : List Shape} {observation : GraphObservation}
    (hs : Stretch g shown xs shown') (hp : Plain g observation) :
    Stretch g shown (xs ++ [shape observation]) (shown' ++ [observation]) :=
  hs.trans ⟨[observation], rfl, rfl, by simpa using hp⟩

abbrev Edges (source : Str) (full : List Shape) : Prop := ∃ target, full = [selected source target]

theorem route_shows {source : Str} {edge : Edge} {state : State} {steps : Nat}
    (hshown : observations h = shown) (hsteps : (steps : Int) ≤ g.maxSteps) :
    Ensures generating (Cuts g (Edges source) 1 shown) (route g gate source edge state steps)
      (Shows g (Edges source) 1 shown fun taken full => full = [selected source taken.1]) h := by
  have hc : Cut g (Edges source) 1 shown shown := .empty ⟨_, END, rfl⟩
  refine .andThen (.lift (still hshown hc)) fun asked t hshown => ?_
  refine orStop_shows hshown hc hsteps fun _ => ?_
  refine .andThen (.lift (still hshown hc)) fun _ t hshown => ?_
  refine .andThen (.lift (still hshown hc)) fun taken t hshown => ?_
  refine .bind (.emit (.ret ⟨_, ⟨taken.1, rfl⟩, le_rfl, rfl, ?_⟩))
  rw [observations_append, hshown]
  exact Stretch.refl.snoc ⟨rfl, hsteps⟩

section Node

variable {node : Str} {state : State} {steps : Nat}

abbrev Visits (node : Str) (full : List Shape) : Prop := full = [started node, ended node]

abbrev NodeCuts (g : CompiledGraph) (node : Str) (shown : List GraphObservation) : Exn → Run → Prop :=
  Cuts g (Visits node) 2 shown

abbrev NodeShows (g : CompiledGraph) (node : Str) (shown : List GraphObservation) :
    Option State → Run → Prop :=
  Shows g (Visits node) 2 shown fun _ _ => True

-- The node was started, and nothing was shown since.
theorem started_cut (hs : Stretch g shown [started node] shown') :
    Cut g (Visits node) 2 shown shown' :=
  ⟨_, _, rfl, ⟨[ended node], rfl⟩, by simp, hs⟩

variable [Sha256]

theorem publishNode_shows {delta : Delta} (hshown : observations h = shown')
    (hs : Stretch g shown [started node] shown') (hsteps : (steps : Int) < g.maxSteps) :
    Ensures generating (NodeCuts g node shown) (publishNode gate node state steps delta)
      (NodeShows g node shown) h := by
  have hc := started_cut hs
  refine .andThen (.lift (still hshown hc)) fun asked t hshown => ?_
  refine orStop_shows hshown hc hsteps.le fun _ => ?_
  refine .bind (.ofExcept (fun merged _ => ?_) fun _ _ => cuts hshown hc)
  refine .andThen (.lift (still hshown hc)) fun settlement t hshown => ?_
  have hended : Stretch g shown [started node, ended node]
      (observations (t ++ [.emit (nodeEnded (steps + 1) merged (node, delta))])) := by
    rw [observations_append, hshown]
    exact hs.snoc ⟨rfl, Int.add_one_le_of_lt hsteps⟩
  refine .bind (.emit (.bind (.ofExcept (fun _ _ => ?_) fun _ _ => ?_)))
  · exact .ret ⟨_, rfl, by simp, trivial, hended⟩
  · exact hended.cut rfl (by simp)

theorem finishNode_shows {reply : Reply} (hshown : observations h = shown')
    (hs : Stretch g shown [started node] shown') (hsteps : (steps : Int) < g.maxSteps) :
    Ensures generating (NodeCuts g node shown) (finishNode gate node steps reply)
      (NodeShows g node shown) h := by
  have hc := started_cut hs
  unfold finishNode
  split
  · split_ifs
    · refine .bind (.ofExcept (fun closed hclosed => ?_) fun _ _ => cuts hshown hc)
      refine .bind (.emit (.ret ⟨shown', _, .interrupted, by rw [observations_append, hshown]; rfl, hc, ?_,
        hsteps.le⟩))
      have hlast : Stretch g shown ([] ++ [started node]) shown' := hs
      exact ⟨rfl, rfl, closeWith_status hclosed, nofun, fun _ => ⟨node, hlast.last⟩⟩
    · exact .raise (cuts hshown hc)
  · refine .bind (.ofExcept (fun _ _ => ?_) fun _ _ => cuts hshown hc)
    refine .bind (.ofExcept (fun _ _ => ?_) fun _ _ => cuts hshown hc)
    exact publishNode_shows hshown hs hsteps

theorem runNode_shows (hshown : observations h = shown) (hsteps : (steps : Int) < g.maxSteps) :
    Ensures generating (NodeCuts g node shown) (runNode g gate node state steps)
      (NodeShows g node shown) h := by
  have hempty : Cut g (Visits node) 2 shown shown := .empty ⟨_, rfl⟩
  refine .bind (.ofExcept (fun fn _ => ?_) fun _ _ => cuts hshown hempty)
  refine .bind (.ofExcept (fun visited _ => ?_) fun _ _ => cuts hshown hempty)
  have hs : Stretch g shown [started node] (shown ++ [nodeStarted steps visited node]) :=
    Stretch.refl.snoc ⟨rfl, hsteps.le⟩
  have hc := started_cut hs
  refine .bind (.emit ?_)
  have hshown' : observations (h ++ [.emit (nodeStarted steps visited node)]) =
      shown ++ [nodeStarted steps visited node] := by rw [observations_append, hshown]; rfl
  refine .andThen (.lift (still hshown' hc)) fun asked t hshown => ?_
  refine orStop_shows hshown hc hsteps.le fun _ => ?_
  refine .andThen (.lift (still hshown hc)) fun _ t hshown => ?_
  refine .andThen (.lift (still hshown hc)) fun reply t hshown => ?_
  exact finishNode_shows hshown hs hsteps

end Node

section Region

variable {source : Str} {edge : FanOut} {state snapshot : State} {steps : Nat}

-- What a region shows before its branches run.
def opening (source : Str) (edge : FanOut) : List Shape :=
  (.superstepStart, some source, some edge.thenNode) :: edge.branches.map started

def superstepLength (g : CompiledGraph) : Nat := 2 + 2 * g.maxSteps.toNat

abbrev RegionCuts (g : CompiledGraph) (source : Str) (shown : List GraphObservation) :
    Exn → Run → Prop :=
  Cuts g (Superstep g source) (superstepLength g) shown

abbrev RegionShows (g : CompiledGraph) (source : Str) (shown : List GraphObservation) :
    Option (RegionResult steps) → Run → Prop :=
  Shows g (Superstep g source) (superstepLength g) shown
    fun result _ => (result.steps : Int) ≤ g.maxSteps

-- A region may only be entered where the step budget covers all of its branches.
structure Fits (g : CompiledGraph) (source : Str) (edge : FanOut) (steps : Nat) : Prop where
  hedge : g.edgeOf source = .fanout edge
  budget : (steps + edge.branches.length : Int) ≤ g.maxSteps

theorem enterRegion_fits (hedge : g.edgeOf source = .fanout edge)
    (h : enterRegion g source edge state steps = .ok snapshot) : Fits g source edge steps := by
  refine ⟨hedge, ?_⟩
  by_contra hover
  rw [enterRegion, if_pos (Int.not_le.mp hover)] at h
  cases h

theorem Fits.steps_le (hf : Fits g source edge steps) : (steps : Int) ≤ g.maxSteps := by
  have := hf.budget
  omega

theorem Fits.superstep (hf : Fits g source edge steps) {admitted : List Str}
    (hadmitted : admitted.Sublist edge.branches) :
    Superstep g source (opening source edge ++ (admitted.map ended ++
      [(.superstepCommit, some source, some edge.thenNode)])) := by
  have hs := Superstep.region hf.hedge hadmitted
  simpa [opening] using hs

theorem Fits.length_le (hf : Fits g source edge steps) {admitted : List Str}
    (hadmitted : admitted.Sublist edge.branches) :
    (opening source edge ++ (admitted.map ended ++
      [(EventKind.superstepCommit, some source, some edge.thenNode)])).length ≤ superstepLength g := by
  have hlength := hadmitted.length_le
  have hbudget := hf.budget
  simp only [opening, superstepLength, List.length_append, List.length_cons, List.length_map,
    List.length_nil]
  omega

-- The region was opened, and nothing was shown since.
theorem Fits.cut (hf : Fits g source edge steps)
    (hs : Stretch g shown (opening source edge) shown') :
    Cut g (Superstep g source) (superstepLength g) shown shown' := by
  have hnone := List.nil_sublist edge.branches
  have hlength := hf.length_le hnone
  rw [List.length_append] at hlength
  exact ⟨_, _, hf.superstep hnone, List.prefix_append .., (Nat.le_add_right ..).trans hlength, hs⟩

-- The last branch in ascending order was started last.
theorem opening_last (hs : Stretch g shown (opening source edge) shown') :
    ∃ name, shown'.getLast?.map shape = some (started name) := by
  have hne : edge.branches ≠ [] := by
    have htwo := edge.two
    rintro hnil
    simp [hnil] at htwo
  obtain ⟨init, last, hbranches⟩ := List.eq_nil_or_concat' edge.branches |>.resolve_left hne
  have hlast : Stretch g shown (((.superstepStart, some source, some edge.thenNode) ::
      init.map started) ++ [started last]) shown' := by
    rw [opening, hbranches, List.map_append] at hs
    exact hs
  exact ⟨last, hlast.last⟩

theorem announce_shows (hf : Fits g source edge steps) (hshown : observations h = shown) :
    Ensures generating (RegionCuts g source shown) (announce source edge snapshot steps)
      (fun _ t => Stretch g shown (opening source edge) (observations t)) h := by
  refine .bind (.emit (.emitAll ⟨superstepStarted source edge steps snapshot ::
    edge.branches.map (nodeStarted steps snapshot), by simp [hshown], ?_, ?_⟩))
  · simp [opening, shape, superstepStarted, nodeStarted, started, Function.comp_def]
  · intro observation ho
    rcases List.mem_cons.mp ho with rfl | ho
    · exact ⟨rfl, hf.steps_le⟩
    · obtain ⟨name, _, rfl⟩ := List.mem_map.mp ho
      exact ⟨rfl, hf.steps_le⟩

-- Every branch settles under its own name.
theorem branchCall_name {batchId name : Str} :
    Ensures acting (fun _ _ => True) (branchCall g gate source batchId snapshot steps name)
      (fun item _ => item.name = name) h := by
  have hrun : ∀ h, Ensures acting (fun _ _ => True) (runBranch g source snapshot name)
      (fun item _ => item.name = name) h := fun h =>
    Rule.runBranch (fun _ hname => hname) (fun _ _ _ hname => hname) fun _ _ _ => trivial
  unfold branchCall
  split_ifs
  · refine .andThen (Q := fun _ _ => True) (fun t o _ => by cases o <;> trivial) ?_
    rintro (error | ⟨_ | decision, request⟩) t _
    · exact .ret rfl
    · refine .andThen (Q := fun _ _ => True) (fun t o _ => by cases o <;> trivial) ?_
      rintro (error | _) t _
      · exact .ret rfl
      · exact hrun t
    · exact .ret rfl
  · exact hrun h

theorem settled_names {branches : List Str} {batchId : Str} {settled : List Settled} {t : Run}
    (ht : Interleaved acting (branches.map (branchCall g gate source batchId snapshot steps)) t
      (settled.map .ok)) : settled.map Settled.name = branches := by
  obtain ⟨runs, hruns, houtcomes, -⟩ := ht.runs
  rw [List.forall₂_map_left_iff] at hruns
  clear ht
  induction hruns generalizing settled with
  | nil => simpa using houtcomes
  | @cons name run branches runs hrun _ ih =>
      cases settled with
      | nil => cases houtcomes
      | cons item rest =>
          obtain ⟨hitem, hrest⟩ := List.cons.inj houtcomes
          have hname := branchCall_name (h := []) _ _ hrun
          rw [← hitem] at hname
          rw [List.map_cons, ih hrest, hname]

theorem settle_shows {branches : List Str} {batchId : Str} (hshown : observations h = shown')
    (hc : Cut g L k shown shown') :
    Ensures generating (Cuts g L k shown) (settle g gate source branches batchId snapshot steps)
      (fun settled t => observations t = shown' ∧ settled.map Settled.name = branches) h := by
  refine .bind (.fork fun t outcomes ht => .ofExcept (fun settled hsettled => ?_) fun _ _ => ?_)
  · refine ⟨by simp [hshown, interleaved_observations ht], ?_⟩
    rw [results_ok hsettled] at ht
    exact settled_names ht
  · exact cuts (by simp [hshown, interleaved_observations ht]) hc

theorem succeeded_names {settled : List Settled} :
    ((succeeded settled).map Prod.fst).Sublist (settled.map Settled.name) := by
  induction settled with
  | nil => exact .slnil
  | cons item rest ih =>
      obtain ⟨name, outcome⟩ := item
      cases outcome with
      | error error => exact ih.cons _
      | ok delta => exact ih.cons_cons _

-- Whatever the join, the admitted branches are in branch order.
theorem admit_names {join : Join} {settled : List Settled} :
    Ensures acting (fun _ _ => True) (admitBranches source join settled)
      (fun admitted _ => (admitted.map Prod.fst).Sublist (settled.map Settled.name)) h :=
  .returns (admit_returns.mono fun _ hs => (hs.map _).trans succeeded_names)

variable [Sha256]

theorem publishRegion_shows {completed : Nat} {progress : steps ≤ completed} {batchId : Str}
    {admitted : List (Str × Delta)} {merged : Delta} {provenance : Provenance}
    (hf : Fits g source edge steps) (hshown : observations h = shown')
    (hs : Stretch g shown (opening source edge) shown')
    (hcompleted : (completed : Int) ≤ g.maxSteps)
    (hadmitted : (admitted.map Prod.fst).Sublist edge.branches) :
    Ensures generating (RegionCuts g source shown)
      (publishRegion gate source edge state snapshot steps completed progress batchId admitted merged
        provenance) (RegionShows g source shown) h := by
  have hc := hf.cut hs
  refine .andThen (.lift (still hshown hc)) fun asked t hshown => ?_
  refine orStop_shows hshown hc hf.steps_le fun _ => ?_
  refine .bind (.ofExcept (fun committed _ => ?_) fun _ _ => cuts hshown hc)
  refine .andThen (.lift (still hshown hc)) fun settlement t hshown => ?_
  refine .bind (.emitAll (.bind (.emit ?_)))
  have hwhole : Stretch g shown (opening source edge ++ ((admitted.map Prod.fst).map ended ++
      [(.superstepCommit, some source, some edge.thenNode)]))
      (observations (t ++ admitted.map (fun item => .emit (nodeEnded completed committed item)) ++
        [.emit (superstepCommitted source edge completed (admitted.map Prod.fst) committed merged
          provenance)])) := by
    refine hs.trans ⟨admitted.map (nodeEnded completed committed) ++ [superstepCommitted source edge
      completed (admitted.map Prod.fst) committed merged provenance], by simp [hshown], ?_, ?_⟩
    · simp [shape, superstepCommitted, nodeEnded, ended, Function.comp_def]
    · intro observation ho
      rcases List.mem_append.mp ho with ho | ho
      · obtain ⟨item, _, rfl⟩ := List.mem_map.mp ho
        exact ⟨rfl, hcompleted⟩
      · obtain rfl := List.mem_singleton.mp ho
        exact ⟨rfl, hcompleted⟩
  refine .bind (.ofExcept (fun _ _ => ?_) fun _ _ => ?_)
  · exact .ret ⟨_, hf.superstep hadmitted, hf.length_le hadmitted, hcompleted, hwhole⟩
  · exact hwhole.cut (hf.superstep hadmitted) (hf.length_le hadmitted)

theorem foldRegion_shows {completed : Nat} {progress : steps ≤ completed} {batchId : Str}
    {admitted : List (Str × Delta)} (hf : Fits g source edge steps)
    (hshown : observations h = shown') (hs : Stretch g shown (opening source edge) shown')
    (hcompleted : (completed : Int) ≤ g.maxSteps)
    (hadmitted : (admitted.map Prod.fst).Sublist edge.branches) :
    Ensures generating (RegionCuts g source shown)
      (foldRegion g gate source edge state snapshot steps completed progress batchId admitted)
      (RegionShows g source shown) h := by
  have hc := hf.cut hs
  refine .andThen (.lift (still hshown hc)) fun asked t hshown => ?_
  refine orStop_shows hshown hc hf.steps_le fun _ => ?_
  refine .andThen (.lift (still hshown hc)) ?_
  rintro (decision | ⟨merged, provenance⟩) t hshown
  · exact orStop_shows hshown hc hf.steps_le nofun
  · refine .bind (.ofExcept (fun _ _ => ?_) fun _ _ => cuts hshown hc)
    exact publishRegion_shows hf hshown hs hcompleted hadmitted

theorem joinRegion_shows {batchId : Str} {settled : List Settled} (hf : Fits g source edge steps)
    (hshown : observations h = shown') (hs : Stretch g shown (opening source edge) shown')
    (hnames : settled.map Settled.name = edge.branches) :
    Ensures generating (RegionCuts g source shown)
      (joinRegion g gate source edge state snapshot steps batchId settled)
      (RegionShows g source shown) h := by
  have hc := hf.cut hs
  refine .bind (.ofExcept (fun verdict _ => ?_) fun _ _ => cuts hshown hc)
  refine orStop_shows hshown hc hf.steps_le fun _ => ?_
  split
  · refine .bind (.ofExcept (fun closed hclosed => ?_) fun _ _ => cuts hshown hc)
    refine .bind (.emit (.ret ⟨shown', _, .interrupted, by rw [observations_append, hshown]; rfl, hc, ?_,
      hf.steps_le⟩))
    exact ⟨rfl, rfl, closeWith_status hclosed, nofun, fun _ => opening_last hs⟩
  · -- Every branch was charged on entry, so those that succeeded are within the budget.
    have hcompleted : ((steps + settled.countP Settled.ok : Nat) : Int) ≤ g.maxSteps := by
      have hcount : settled.countP Settled.ok ≤ settled.length := List.countP_le_length
      have hlength : settled.length = edge.branches.length := by rw [← hnames, List.length_map]
      have hbudget := hf.budget
      omega
    refine .andThen (.lift (still hshown hc)) fun asked t hshown => ?_
    refine orStop_shows hshown hc hf.steps_le fun _ => ?_
    refine .andThen (.lift (still hshown hc)) fun _ t hshown => ?_
    refine .andThen (.lift ((still hshown hc).and admit_names)) fun admitted t ⟨hshown, hadmitted⟩ => ?_
    exact foldRegion_shows hf hshown hs hcompleted (hnames ▸ hadmitted)

theorem runRegion_shows (hedge : g.edgeOf source = .fanout edge) (hshown : observations h = shown) :
    Ensures generating (RegionCuts g source shown) (runRegion g gate source edge state steps)
      (RegionShows g source shown) h := by
  have hempty : Cut g (Superstep g source) (superstepLength g) shown shown :=
    .empty (superstep_exists g source)
  refine .bind (.ofExcept (fun snapshot hsnapshot => ?_) fun _ _ => cuts hshown hempty)
  have hf := enterRegion_fits hedge hsnapshot
  refine .andThen (announce_shows hf hshown) fun _ t hs => ?_
  have hc := hf.cut hs
  refine .andThen (.lift (still rfl hc)) fun batchId t hshown => ?_
  refine .andThen (.lift (still hshown hc)) fun asked t hshown => ?_
  refine orStop_shows hshown hc hf.steps_le fun _ => ?_
  refine .andThen (settle_shows hshown hc) fun settled t ⟨hshown, hnames⟩ => ?_
  exact joinRegion_shows hf hshown hs hnames

theorem followRegion_shows {node : Str} (hshown : observations h = shown)
    (hsteps : (steps : Int) ≤ g.maxSteps) :
    Ensures generating (RegionCuts g node shown) (followRegion g gate node state steps)
      (Shows g (Superstep g node) (superstepLength g) shown
        fun next _ => (next.1.steps : Int) ≤ g.maxSteps) h := by
  unfold followRegion
  split
  · rename_i region hedge
    refine .andThen (runRegion_shows hedge hshown) ?_
    rintro (_ | result) t hr
    · exact .ret hr
    · exact .ret hr
  · rename_i hedge
    refine .ret ⟨[], .none hedge, by simp [superstepLength], hsteps, ?_⟩
    rw [hshown]
    exact .refl

end Region

section Loop

variable {state : State} {steps : Nat} {node : Str}

-- How the loop ends: with one terminal observation, or raising.
def Terminated (g : CompiledGraph) (shown : List GraphObservation) : Prop :=
  ∃ word observation reason, shown = word ++ [observation] ∧ Partial g word ∧
    Closing word reason observation ∧ (observation.event.steps : Int) ≤ g.maxSteps

abbrev Loops (g : CompiledGraph) (_ : Exn) (t : Run) : Prop := Partial g (observations t)

theorem At.halted (ha : At g node steps shown) (hn : node ≠ END) (hsteps : (steps : Int) < g.maxSteps)
    (hk : k ≤ roundLength g) (hh : Halted g (RoundOf g node) k shown shown') : Terminated g shown' := by
  obtain ⟨word, observation, reason, hshown, hc, hclosing, hat⟩ := hh
  exact ⟨word, observation, reason, hshown, ha.cut hn hsteps hk hc, hclosing, hat⟩

theorem finish_terminated (ha : At g END steps (observations h)) (hsteps : (steps : Int) ≤ g.maxSteps) :
    Ensures generating (Loops g) (finish state steps) (fun _ t => Terminated g (observations t)) h := by
  have hp := ha.toPartial hsteps
  refine .bind (.ofExcept (fun closed hclosed => ?_) fun _ _ => hp)
  refine .emit ⟨observations h, _, .done, by rw [observations_append]; rfl, hp, ?_, hsteps⟩
  have hstatus : closed.get "status" = "done" := by
    rw [State.merge_eq_update hclosed, State.get_update]
    rfl
  exact ⟨rfl, rfl, hstatus, fun _ => ha.last, nofun⟩

-- What follows a superstep in its round.
theorem superstep_round {superstep : List Shape} (hs : Superstep g node superstep) :
    ∃ rest, RoundOf g node ([started node, ended node] ++ (superstep ++ rest)) :=
  ⟨[selected node END], END, .mk hs⟩

theorem visits_round {full : List Shape} (hfull : Visits node full) :
    ∃ rest, RoundOf g node ([] ++ (full ++ rest)) := by
  obtain ⟨superstep, hs⟩ := superstep_exists g node
  obtain ⟨rest, hround⟩ := superstep_round hs
  subst hfull
  exact ⟨superstep ++ rest, hround⟩

theorem edges_round {superstep full : List Shape} (hs : Superstep g node superstep)
    (hfull : Edges node full) :
    ∃ rest, RoundOf g node ([started node, ended node] ++ superstep ++ (full ++ rest)) := by
  obtain ⟨target, rfl⟩ := hfull
  exact ⟨[], target, by simpa using Round.mk hs⟩

theorem loopFrom_terminated [Sha256] {fuel : Nat} {lastNode : Str}
    (ha : At g node steps (observations h)) (hsteps : (steps : Int) ≤ g.maxSteps) :
    Ensures generating (Loops g) (loopFrom g gate fuel node state steps lastNode)
      (fun _ t => Terminated g (observations t)) h := by
  induction fuel generalizing h node state steps lastNode with
  | zero =>
      unfold loopFrom
      split_ifs with hn
      · exact finish_terminated (hn ▸ ha) hsteps
      · exact .raise (ha.toPartial hsteps)
      · exact .raise (ha.toPartial hsteps)
  | succ fuel ih =>
      unfold loopFrom
      split_ifs with hn hbudget
      · exact finish_terminated (hn ▸ ha) hsteps
      · exact .raise (ha.toPartial hsteps)
      have hsteps : (steps : Int) < g.maxSteps := by omega
      have hvisits : ([] : List Shape).length + 2 ≤ roundLength g := by
        simp only [List.length_nil, roundLength]
        omega
      refine .andThen ((runNode_shows rfl hsteps).mono (fun _ _ hq => hq) fun _ t hc =>
        ha.cut hn hsteps le_rfl (Stretch.refl.thenCut hc hvisits fun _ => visits_round)) ?_
      rintro (_ | state) t hr
      · exact .ret (ha.halted hn hsteps le_rfl (Stretch.refl.thenHalted hr hvisits fun _ => visits_round))
      obtain ⟨_, rfl, -, -, hvisited⟩ := hr
      have hregion : [started node, ended node].length + superstepLength g ≤ roundLength g := by
        simp only [List.length_cons, List.length_nil, superstepLength, roundLength]
        omega
      refine .andThen ((followRegion_shows rfl (Int.add_one_le_of_lt hsteps)).mono (fun _ _ hq => hq)
        fun _ t hc => ha.cut hn hsteps le_rfl (hvisited.thenCut hc hregion fun _ => superstep_round)) ?_
      rintro (_ | ⟨result, edge⟩) t hr
      · exact .ret (ha.halted hn hsteps le_rfl (hvisited.thenHalted hr hregion fun _ => superstep_round))
      obtain ⟨superstep, hs, hlength, hresult, hfollowed⟩ := hr
      have hround := hvisited.trans hfollowed
      have hedge : ([started node, ended node] ++ superstep).length + 1 ≤ roundLength g := by
        simp only [List.length_append, List.length_cons, List.length_nil, superstepLength,
          roundLength] at hlength ⊢
        omega
      refine .andThen ((route_shows rfl hresult).mono (fun _ _ hq => hq)
        fun _ t hc => ha.cut hn hsteps le_rfl (hround.thenCut hc hedge fun _ => edges_round hs)) ?_
      rintro (_ | ⟨target, state⟩) t hr
      · exact .ret (ha.halted hn hsteps le_rfl (hround.thenHalted hr hedge fun _ => edges_round hs))
      obtain ⟨_, -, -, rfl, hrouted⟩ := hr
      have hnext : Round g node target ([started node, ended node] ++ superstep ++ [selected node target]) := by
        simpa using Round.mk hs
      refine ih (ha.next hn hnext ?_ (hround.trans hrouted) result.progress) hresult
      rw [List.length_append, List.length_singleton]
      exact hedge

theorem edges_word {entry : Str} (hshown : shown.map shape = [selected START entry])
    (rest : List Shape) (hrest : Rounds g entry rest) : Word g (shown.map shape ++ rest) :=
  ⟨entry, rest, by rw [hshown]; rfl, hrest⟩

-- Before any round: at most the selection of the entry node was shown.
theorem entry_partial (hc : Cut g (Edges START) 1 [] shown) : Partial g shown := by
  obtain ⟨full, xs, ⟨entry, rfl⟩, ⟨ys, hxs⟩, hlength, hs⟩ := hc
  obtain ⟨rest, hrest⟩ := rounds_exist g entry
  refine ⟨⟨ys ++ rest, entry, rest, ?_, hrest⟩, hs.plain (by simp), ?_⟩
  · rw [hs.shapes, List.map_nil, List.nil_append, ← List.append_assoc, hxs]
    rfl
  · rw [hs.length_eq, List.length_nil]
    omega

theorem run_terminated [Sha256] {t : Run} {o : Except Exn Unit} (hmax : 0 ≤ g.maxSteps)
    (he : Exec generating (run g gate state) t o) :
    match o with
    | .ok _ => Terminated g (observations t)
    | .error _ => Partial g (observations t) := by
  have hrun : Ensures generating (Loops g) (run g gate state)
      (fun _ t => Terminated g (observations t)) [] := by
    have hentry : Ensures generating (Cuts g (Edges START) 1 [])
        (route g gate START (g.edgeOf START) state 0) _ [] := route_shows rfl hmax
    refine .andThen (hentry.mono (fun _ _ hq => hq) fun _ t hc => entry_partial hc) ?_
    rintro (_ | ⟨entry, state⟩) t hr
    · obtain ⟨word, observation, reason, hshown, hc, hclosing, hat⟩ := hr
      exact .ret ⟨word, observation, reason, hshown, entry_partial hc, hclosing, hat⟩
    obtain ⟨_, -, -, rfl, hs⟩ := hr
    refine loopFrom_terminated ⟨edges_word (by simpa using hs.shapes), hs.plain (by simp), ?_, ?_⟩ hmax
    · have hlast : Stretch g [] ([] ++ [selected START entry]) (observations t) := hs
      exact ⟨START, hlast.last⟩
    · simp [hs.length_eq]
  have hend := hrun t o he
  cases o <;> exact hend

-- The observation protocol: initial parts of the round grammar, closed by at most one
-- terminal observation; a run that returns has one, and its state is the result.
theorem run_follows [Sha256] {t : Run} {o : Except Exn Unit} (hmax : 0 ≤ g.maxSteps)
    (he : Exec generating (run g gate state) t o) :
    ∃ word terminal, observations t = word ++ terminal ∧ Follows g word terminal ∧
      (o = .ok () → ∃ observation, terminal = [observation] ∧ ainvoke state t = observation.state) ∧
      (observations t).length ≤ 2 + g.maxSteps.toNat * roundLength g ∧
      ∀ observation ∈ observations t, (observation.event.steps : Int) ≤ g.maxSteps := by
  have hend := run_terminated hmax he
  cases o with
  | error error =>
      have hp : Partial g (observations t) := hend
      refine ⟨_, [], (List.append_nil _).symm, ⟨hp.grammar, fun o ho => (hp.plain o ho).running,
        Nat.zero_le 1, by simp⟩, nofun, hp.length.trans (by omega), fun o ho => (hp.plain o ho).steps⟩
  | ok value =>
      obtain ⟨word, observation, reason, hshown, hp, hclosing, hat⟩ := hend
      refine ⟨word, [observation], hshown, ⟨hp.grammar, fun o ho => (hp.plain o ho).running, le_rfl, ?_⟩,
        fun _ => ⟨observation, rfl, ?_⟩, ?_, ?_⟩
      · intro o ho
        obtain rfl := List.mem_singleton.mp ho
        exact ⟨reason, hclosing⟩
      · simp [ainvoke, hshown]
      · have hlength := hp.length
        rw [hshown, List.length_append, List.length_singleton]
        omega
      · intro o ho
        rw [hshown] at ho
        rcases List.mem_append.mp ho with ho | ho
        · exact (hp.plain o ho).steps
        · obtain rfl := List.mem_singleton.mp ho
          exact hat

theorem run_follows_diamond :
    letI := Sha256.verbatim
    let t := ((run .diamond (some ⟨true, true⟩) (State.new "s")).simulate
      (obliging fun _ => .dict [("retry_count", .int 1)])).1
    ∃ word terminal, observations t = word ++ terminal ∧ Follows .diamond word terminal ∧
      ∃ observation, terminal = [observation] ∧ ainvoke (State.new "s") t = observation.state := by
  let := Sha256.verbatim
  intro t
  obtain ⟨word, terminal, hshown, hf, hreturn, -⟩ := run_follows (by decide)
    (exec_simulate (obliging fun _ => .dict [("retry_count", .int 1)])
      (run .diamond (some ⟨true, true⟩) (State.new "s")))
  exact ⟨word, terminal, hshown, hf, hreturn rfl⟩

end Loop

end PerpetuaCore.Graph.Protocol
