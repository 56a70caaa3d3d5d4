import PerpetuaCore.Graph.Calls
import PerpetuaCore.Graph.Describe
import PerpetuaCore.Graph.Lint
import PerpetuaCore.Graph.Rules

namespace PerpetuaCore.Graph.Course

open Interaction
open Python (Str Value Dict Worklist)

-- Names that no edge and no router leads out of: every router among them declares its targets.
structure Enclosed (g : CompiledGraph) (R : Str → Prop) : Prop where
  start : R START
  static : ∀ source target, R source → g.edges.get? source = some (.static target) → R target
  callable : ∀ source router, R source → g.edges.get? source ≠ some (.callable router)
  conditional : ∀ source edge, R source → g.edges.get? source = some (.conditional edge) →
    edge.declaredTargets ≠ [] ∧ ∀ target ∈ edge.declaredTargets, R target
  fanout : ∀ source region, R source → g.edges.get? source = some (.fanout region) →
    R region.thenNode ∧ ∀ branch ∈ region.branches, R branch

-- Every router that declares targets returned one of them, where it returned.
def Declared (g : CompiledGraph) (t : Run) : Prop :=
  ∀ source fn state reply, Event.leave (.router source fn state) reply ∈ t →
    ∀ edge, g.edges.get? source = some (.conditional edge) → edge.declaredTargets ≠ [] →
      ∀ value, reply.result = .ok value → ∃ target ∈ edge.declaredTargets, value = .str target

theorem Declared.left {g : CompiledGraph} {s t : Run} (h : Declared g (s ++ t)) : Declared g s :=
  fun source fn state reply hm => h source fn state reply (List.mem_append_left t hm)

variable {g : CompiledGraph} {R : Str → Prop} {gate : Option Gate} {source : Str} {edge : FanOut}
  {state snapshot : State} {steps : Nat} {h : Run}

-- Where an edge leads from `source`, a name of an enclosure.
inductive Way (g : CompiledGraph) (R : Str → Prop) (source : Str) : Edge → Prop
  | default (hnone : g.edges.get? source = none) : Way g R source (.static END)
  | static {target : Str} (hsome : g.edges.get? source ≠ none) (ht : R target) :
      Way g R source (.static target)
  | conditional {edge : ConditionalEdge} (hget : g.edges.get? source = some (.conditional edge))
      (hne : edge.declaredTargets ≠ []) (ht : ∀ target ∈ edge.declaredTargets, R target) :
      Way g R source (.conditional edge)
  | fanout (region : FanOut) : Way g R source (.fanout region)

theorem Enclosed.way (he : Enclosed g R) (hr : R source) : Way g R source (g.edgeOf source) := by
  unfold CompiledGraph.edgeOf
  cases hget : g.edges.get? source with
  | none => exact .default hget
  | some edge =>
      cases edge with
      | static target => exact .static (hget ▸ Option.some_ne_none _) (he.static source target hr hget)
      | callable router => exact absurd hget (he.callable source router hr)
      | conditional edge =>
          obtain ⟨hne, ht⟩ := he.conditional source edge hr hget
          exact .conditional hget hne ht
      | fanout region => exact .fanout region

-- An observation of a run within the enclosure: it starts a node there, or leaves a name by
-- an edge of its own.
structure Inside (g : CompiledGraph) (R : Str → Prop) (observation : GraphObservation) : Prop where
  started : observation.event.kind = .nodeStart → ∀ name, observation.event.node = some name → R name
  unfinished : observation.event.kind ≠ .done
  left : observation.event.kind = .edgeSelected → ∀ source, observation.event.node = some source →
    g.edges.get? source ≠ none

def Underway (g : CompiledGraph) (R : Str → Prop) (t : Run) : Prop :=
  ∀ observation ∈ observations t, Inside g R observation

abbrev quietKinds : List EventKind := [.nodeEnd, .interrupt, .superstepStart, .superstepCommit, .stopped]

theorem inside_of_quiet {observation : GraphObservation} (h : shows quietKinds observation) :
    Inside g R observation := by
  have hkind : ∀ kind ∉ quietKinds, observation.event.kind ≠ kind := fun kind hk he => hk (he ▸ h)
  exact ⟨fun he => absurd he (hkind _ (by decide)), hkind _ (by decide),
    fun he => absurd he (hkind _ (by decide))⟩

theorem inside_started {name : Str} (hr : R name) : Inside g R (nodeStarted steps state name) :=
  ⟨fun _ _ hname => Option.some.inj hname ▸ hr, nofun, nofun⟩

theorem Underway.append {t : Run} (hu : Underway g R h)
    (ht : ∀ observation ∈ observations t, Inside g R observation) : Underway g R (h ++ t) := by
  unfold Underway
  rw [observations_append]
  exact List.forall_mem_append.mpr ⟨hu, ht⟩

-- A name without an edge was just left, for END.
def Exits (g : CompiledGraph) (R : Str → Prop) (t : Run) : Prop :=
  ∃ before selected source, observations t = before ++ [selected] ∧
    (∀ observation ∈ before, Inside g R observation) ∧ selected.event.kind = .edgeSelected ∧
    selected.event.node = some source ∧ g.edges.get? source = none

def Held (g : CompiledGraph) (R : Str → Prop) (t : Run) : Prop := Declared g t → Underway g R t

-- Where a run has got to when it raises.
def Broken (g : CompiledGraph) (R : Str → Prop) (_ : Exn) (t : Run) : Prop :=
  Declared g t → Underway g R t ∨ Exits g R t

-- Where a run has got to when it ends: it was interrupted or stopped, or is done.
def Ended (g : CompiledGraph) (R : Str → Prop) (t : Run) : Prop :=
  Declared g t → Underway g R t ∨ ∃ s observation, observations t = observations s ++ [observation] ∧
    observation.event.kind = .done ∧ (R END ∧ Underway g R s ∨ Exits g R s)

theorem quietly {α : Type} {P : Op → Prop} {kinds : List EventKind} {p : Scheduler α}
    (hp : p.Asks (Does P (shows kinds))) (hkinds : kinds ⊆ quietKinds) (hh : Held g R h) :
    Ensures generating (Broken g R) p (fun _ => Held g R) h := by
  intro t o he
  obtain ⟨-, hshown⟩ := Does.events he hp
  have ht : Held g R (h ++ t) := fun hd =>
    (hh hd.left).append fun observation ho => inside_of_quiet (hkinds (hshown observation ho))
  cases o with
  | ok value => exact ht
  | error exc => exact fun hd => .inl (ht hd)

theorem silently {α : Type} {p : Step α} (hh : Held g R h) :
    Ensures generating (Broken g R) (p.lift : Scheduler α) (fun _ => Held g R) h := by
  refine Ensures.lift fun t o he => ?_
  have ht : Held g R (h ++ t) := fun hd =>
    (hh hd.left).append (by simp [exec_acting_observations he])
  cases o with
  | ok value => exact ht
  | error exc => exact fun hd => .inl (ht hd)

-- What is claimed of declared runs only may be proved assuming that the run has been one so far.
theorem assuming {α : Type} {p : Scheduler (Option α)} {K : α → Run → Prop}
    (hk : ∀ value t, ¬Declared g t → K value t)
    (hp : Declared g h → Ensures generating (Broken g R) p (Rule.Goes (Ended g R) K) h) :
    Ensures generating (Broken g R) p (Rule.Goes (Ended g R) K) h := by
  by_cases hd : Declared g h
  · exact hp hd
  intro t o _
  have hnot : ¬Declared g (h ++ t) := fun hd' => hd hd'.left
  match o with
  | .error _ => exact fun hd' => absurd hd' hnot
  | .ok none => exact fun hd' => absurd hd' hnot
  | .ok (some value) => exact hk value _ hnot

theorem orStop_held {α : Type} {node : Str} {decision : Option GateDecision}
    {next : Scheduler (Option α)} {K : α → Run → Prop} (hh : Held g R h)
    (hnext : Ensures generating (Broken g R) next (Rule.Goes (Ended g R) K) h) :
    Ensures generating (Broken g R) (orStop state node steps decision next)
      (Rule.Goes (Ended g R) K) h := by
  refine Rule.orStop (fun _ => hnext) (fun d observation _ ho hd => .inl ?_) fun _ _ _ hd => .inl (hh hd)
  obtain ⟨closed, -, rfl⟩ := stopped_eq ho
  refine (hh hd.left).append fun observation hm => ?_
  obtain rfl := List.mem_singleton.mp hm
  exact inside_of_quiet (by simp [shows])

-- What the scheduler is about to run: a name of the enclosure, or END by default.
def Next (g : CompiledGraph) (R : Str → Prop) (node : Str) (t : Run) : Prop :=
  Declared g t → R node ∧ Underway g R t ∨ node = END ∧ Exits g R t

-- How a target taken from `source` continues the run.
def Goal (g : CompiledGraph) (R : Str → Prop) (source target : Str) : Prop :=
  g.edges.get? source = none ∧ target = END ∨ g.edges.get? source ≠ none ∧ R target

theorem selected_next {target : Str} {observation : GraphObservation} (hh : Held g R h)
    (ht : Declared g h → Goal g R source target) (hkind : observation.event.kind = .edgeSelected)
    (hnode : observation.event.node = some source) : Next g R target (h ++ [.emit observation]) := by
  intro hd
  have hu := hh hd.left
  rcases ht hd.left with ⟨hnone, rfl⟩ | ⟨hsome, hr⟩
  · exact .inr ⟨rfl, observations h, observation, source, observations_append _ _, hu, hkind, hnode, hnone⟩
  · refine .inl ⟨hr, hu.append fun observation' hm => ?_⟩
    obtain rfl := List.mem_singleton.mp hm
    refine ⟨fun he => ?_, fun he => ?_, fun _ source' hs => ?_⟩
    · cases hkind.symm.trans he
    · cases hkind.symm.trans he
    · exact Option.some.inj (hnode.symm.trans hs) ▸ hsome

theorem resolveEdge_goal {e : Edge} (hw : Way g R source e) (hh : Held g R h) :
    Ensures acting (Broken g R) (resolveEdge g source e state)
      (fun taken t => Held g R t ∧ (Declared g t → Goal g R source taken.1)) h := by
  have hcalled : ∀ {fn reply}, Held g R
      (h ++ [Event.enter (.router source fn state), Event.leave (.router source fn state) reply]) :=
    fun hd => (hh hd.left).append nofun
  refine Rule.resolveEdge (fun target he => ?_) (fun _ _ _ _ hd => .inl (hh hd)) fun fn reply hfn => ?_
  · refine .ofExcept (fun taken htaken => ⟨hh, fun _ => ?_⟩) fun _ _ hd => .inl (hh hd)
    obtain ⟨ht, -⟩ := checkTarget_eq_ok.mp htaken
    obtain rfl := Value.str.inj ht
    subst he
    cases hw with
    | default hnone => exact .inl ⟨hnone, rfl⟩
    | static hsome ht => exact .inr ⟨hsome, ht⟩
  · refine .ofExcept (fun taken htaken => ⟨hcalled, fun hd => ?_⟩) fun _ _ hd => .inl (hcalled hd)
    obtain ⟨value, hvalue, htaken⟩ := Python.bind_eq_ok.mp htaken
    obtain ⟨ht, -⟩ := checkTarget_eq_ok.mp htaken
    cases hw with
    | conditional hget hne ht' =>
        obtain ⟨target, hm, he⟩ := hd source fn state reply (by simp) _ hget hne value hvalue
        obtain rfl := Value.str.inj (ht.symm.trans he)
        exact .inr ⟨hget ▸ Option.some_ne_none _, ht' _ hm⟩
    | _ => cases hfn

theorem route_next {e : Edge} (hw : Way g R source e) (hh : Held g R h) :
    Ensures generating (Broken g R) (route g gate source e state steps)
      (Rule.Goes (Ended g R) fun next => Next g R next.1) h := by
  refine .andThen (silently hh) fun asked t hh => orStop_held hh ?_
  refine .andThen (silently hh) fun _ t hh => ?_
  refine .andThen (.lift (resolveEdge_goal hw hh)) fun taken t hgoal => ?_
  exact .bind (.emit (.ret (selected_next hgoal.1 hgoal.2 rfl rfl)))

section Scheduler

variable [Sha256]

theorem runNode_held {node : Str} (hr : R node) (hh : Held g R h) :
    Ensures generating (Broken g R) (runNode g gate node state steps)
      (Rule.Goes (Ended g R) fun _ => Held g R) h := by
  have hbroken : ∀ error, Broken g R error h := fun _ hd => .inl (hh hd)
  refine .bind (.ofExcept (fun fn _ => ?_) fun _ _ => hbroken _)
  refine .bind (.ofExcept (fun visited _ => .bind (.emit ?_)) fun _ _ => hbroken _)
  have hstarted : Held g R (h ++ [.emit (nodeStarted steps visited node)]) := fun hd =>
    (hh hd.left).append fun observation hm => List.mem_singleton.mp hm ▸ inside_started hr
  refine .andThen (silently hstarted) fun asked t hh => orStop_held hh ?_
  refine .andThen (silently hh) fun _ t hh => ?_
  refine .andThen (silently hh) fun reply t hh => ?_
  refine (quietly finishNode_does (by decide) hh).mono ?_ fun _ _ hf => hf
  rintro (_ | state) t hh
  · exact fun hd => .inl (hh hd)
  · exact hh

theorem runRegion_held (hr : ∀ branch ∈ edge.branches, R branch) (hh : Held g R h) :
    Ensures generating (Broken g R) (runRegion g gate source edge state steps)
      (Rule.Goes (Ended g R) fun _ => Held g R) h := by
  refine .bind (.ofExcept (fun snapshot _ => ?_) fun _ _ hd => .inl (hh hd))
  refine .bind (.bind (.emit (.emitAll ?_)))
  have hannounced : Held g R ((h ++ [.emit (superstepStarted source edge steps snapshot)]) ++
      edge.branches.map fun name => .emit (nodeStarted steps snapshot name)) := by
    intro hd
    refine ((hh hd.left.left).append fun observation hm => ?_).append fun observation hm => ?_
    · obtain rfl := List.mem_singleton.mp hm
      exact inside_of_quiet (by simp [shows, superstepStarted])
    · rw [observations_emits] at hm
      obtain ⟨name, hname, rfl⟩ := List.mem_map.mp hm
      exact inside_started (hr name hname)
  refine .andThen (silently hannounced) fun batchId t hh => ?_
  refine .andThen (silently hh) fun asked t hh => orStop_held hh ?_
  refine .bind (.bind (.fork fun u outcomes hi => ?_))
  have hforked : Held g R (t ++ u) := fun hd =>
    (hh hd.left).append (by simp [interleaved_observations hi])
  refine .ofExcept (fun settled _ => ?_) fun _ _ hd => .inl (hforked hd)
  refine (quietly joinRegion_does (by decide) hforked).mono ?_ fun _ _ hf => hf
  rintro (_ | result) t hh
  · exact fun hd => .inl (hh hd)
  · exact hh

theorem followRegion_way {node : Str} (he : Enclosed g R) (hr : R node) (hh : Held g R h) :
    Ensures generating (Broken g R) (followRegion g gate node state steps)
      (Rule.Goes (Ended g R) fun next t => Way g R node next.2 ∧ Held g R t) h := by
  unfold followRegion
  split
  · rename_i region hregion
    have hget : g.edges.get? node = some (.fanout region) := by
      unfold CompiledGraph.edgeOf at hregion
      cases hget : g.edges.get? node with
      | none => rw [hget] at hregion; cases hregion
      | some e => rw [hget] at hregion; exact congrArg some hregion
    obtain ⟨hthen, hbranches⟩ := he.fanout node region hr hget
    refine .andThen (runRegion_held hbranches hh) ?_
    rintro (_ | result) t hq
    · exact .ret hq
    · exact .ret ⟨.static (hget ▸ Option.some_ne_none _) hthen, hq⟩
  · exact .ret ⟨he.way hr, hh⟩

omit [Sha256] in
theorem finish_ended (hn : Next g R END h) :
    Ensures generating (Broken g R) (finish state steps) (fun _ => Ended g R) h := by
  refine .bind (.ofExcept (fun closed _ => .emit fun hd => .inr ⟨h, _, observations_append _ _, rfl, ?_⟩)
    fun _ _ hd => (hn hd).imp And.right And.right)
  exact (hn hd.left).imp id And.right

-- A run starts nodes of the enclosure only, and is done only by reaching END there or by
-- leaving a name without an edge.
theorem run_ended (he : Enclosed g R) :
    Ensures generating (Broken g R) (run g gate state) (fun _ => Ended g R) [] := by
  refine Rule.run (I := fun node _ _ _ => Next g R node)
    (J := fun node _ _ t => Declared g t → R node ∧ Underway g R t)
    (K := fun node e _ _ t => Declared g t → Way g R node e ∧ Underway g R t)
    (route_next (he.way he.start) fun _ => nofun) ?_ ?_ ?_ ?_ ?_
  · exact fun _ _ _ _ hn => finish_ended hn
  · exact fun _ _ _ _ _ hn _ hd => (hn hd).imp And.right And.right
  · intro node state steps lastNode h hn hend _
    refine assuming (fun _ _ hnot hd => absurd hd hnot) fun hd => ?_
    obtain ⟨hr, hu⟩ := (hn hd).resolve_right fun hexit => hend hexit.1
    refine (runNode_held hr fun _ => hu).mono ?_ fun _ _ hf => hf
    rintro (_ | state) t hq
    · exact hq
    · exact fun hd => ⟨hr, hq hd⟩
  · intro node state steps h hj
    refine assuming (fun _ _ hnot hd => absurd hd hnot) fun hd => ?_
    obtain ⟨hr, hu⟩ := hj hd
    refine (followRegion_way he hr fun _ => hu).mono ?_ fun _ _ hf => hf
    rintro (_ | next) t hq
    · exact hq
    · exact fun hd => ⟨hq.1, hq.2 hd⟩
  · intro node e state steps h hk
    refine assuming (fun _ _ hnot hd => absurd hd hnot) fun hd => ?_
    obtain ⟨hw, hu⟩ := hk hd
    exact route_next hw fun _ => hu

end Scheduler

theorem Exits.inside {t : Run} {observation : GraphObservation} (hx : Exits g R t)
    (hm : observation ∈ observations t) (hkind : observation.event.kind ≠ .edgeSelected) :
    Inside g R observation := by
  obtain ⟨before, selected, source, hshown, hbefore, hselected, -⟩ := hx
  rw [hshown] at hm
  rcases List.mem_append.mp hm with hm | hm
  · exact hbefore observation hm
  · exact absurd (List.mem_singleton.mp hm ▸ hselected) hkind

-- A name without an edge was left.
def Defaulted (g : CompiledGraph) (t : Run) : Prop :=
  ∃ observation ∈ observations t, observation.event.kind = .edgeSelected ∧
    ∃ source, observation.event.node = some source ∧ g.edges.get? source = none

def Finished (t : Run) : Prop := ∃ observation ∈ observations t, observation.event.kind = .done

theorem Underway.undefaulted {t : Run} (hu : Underway g R t) : ¬Defaulted g t := by
  rintro ⟨observation, hm, hkind, source, hnode, hnone⟩
  exact (hu observation hm).left hkind source hnode hnone

theorem Underway.unfinished {t : Run} (hu : Underway g R t) : ¬Finished t := by
  rintro ⟨observation, hm, hkind⟩
  exact (hu observation hm).unfinished hkind

theorem Exits.unfinished {t : Run} (hx : Exits g R t) : ¬Finished t := by
  rintro ⟨observation, hm, hkind⟩
  exact (hx.inside hm (hkind ▸ nofun)).unfinished hkind

theorem Exits.defaulted {t : Run} (hx : Exits g R t) : Defaulted g t := by
  obtain ⟨before, selected, source, hshown, -, hkind, hnode, hnone⟩ := hx
  exact ⟨selected, hshown ▸ List.mem_append_right _ List.mem_cons_self, hkind, source, hnode, hnone⟩

variable {t : Run}

theorem Ended.starts_inside (hended : Ended g R t) (hd : Declared g t) {observation : GraphObservation}
    (hm : observation ∈ observations t) (hkind : observation.event.kind = .nodeStart) :
    Inside g R observation := by
  rcases hended hd with hu | ⟨s, last, hshown, hlast, hs⟩
  · exact hu observation hm
  rw [hshown] at hm
  rcases List.mem_append.mp hm with hm | hm
  · rcases hs with ⟨-, hu⟩ | hx
    · exact hu observation hm
    · exact hx.inside hm (hkind ▸ nofun)
  · cases (List.mem_singleton.mp hm ▸ hlast).symm.trans hkind

theorem Broken.starts_inside {error : Exn} (hbroken : Broken g R error t) (hd : Declared g t)
    {observation : GraphObservation} (hm : observation ∈ observations t)
    (hkind : observation.event.kind = .nodeStart) : Inside g R observation := by
  rcases hbroken hd with hu | hx
  · exact hu observation hm
  · exact hx.inside hm (hkind ▸ nofun)

-- Where END lies outside, only leaving a name without an edge makes a run done.
theorem Ended.finished_iff (hended : Ended g R t) (hd : Declared g t) (hend : ¬R END) :
    Finished t ↔ Defaulted g t := by
  rcases hended hd with hu | ⟨s, last, hshown, hlast, hs⟩
  · exact iff_of_false hu.unfinished hu.undefaulted
  · have hx : Exits g R s := hs.resolve_left fun hreached => hend hreached.1
    obtain ⟨observation, hm, hkind, hsource⟩ := hx.defaulted
    exact iff_of_true ⟨last, hshown ▸ List.mem_append_right _ List.mem_cons_self, hlast⟩
      ⟨observation, hshown ▸ List.mem_append_left _ hm, hkind, hsource⟩

theorem Broken.unfinished {error : Exn} (hbroken : Broken g R error t) (hd : Declared g t) :
    ¬Finished t :=
  (hbroken hd).elim Underway.unfinished Exits.unfinished

end PerpetuaCore.Graph.Course
