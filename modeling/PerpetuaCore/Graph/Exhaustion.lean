import PerpetuaCore.Graph.Origin
import PerpetuaCore.Graph.Visits

namespace PerpetuaCore.Graph.Exhaustion

open Interaction
open Visits (starts starts_append starts_branches starts_other)
open Python (Str Value Dict)

-- A node callable, in the loop or as a branch, returns a dict.
def completes : Event → Bool
  | .leave (.node ..) reply | .leave (.branch ..) reply =>
      match (reply : Reply).result with
      | .ok (.dict _) => true
      | _ => false
  | _ => false

-- The node of the latest `node.start`, or START where there was none.
def lastStarted (t : Run) : Str := (starts (observations t)).getLast?.getD START

-- The run has just left a fan-out region whose last branch is another name than its source.
def LeavesRegion (g : CompiledGraph) (t : Run) : Prop :=
  ∃ shown selected source region, observations t = shown ++ [selected] ∧
    selected.event.kind = .edgeSelected ∧ selected.event.node = some source ∧
    g.edgeOf source = .fanout region ∧ region.branches.getLast? ≠ some source

-- Exchanges in which no node callable returns.
def mute : Op → Prop
  | .leave (.node ..) | .leave (.branch ..) => False
  | _ => True

theorem mute_of_aside {op : Op} (h : aside op) : mute op := by
  cases op with
  | leave callable => cases callable <;> exact h
  | _ => trivial

theorem completes_mute {op : Op} {answer : Core.Ans op} (h : mute op) :
    completes (.act (S := Core) op answer) = false := by
  cases op with
  | leave callable => cases callable <;> first | rfl | exact h.elim
  | _ => rfl

-- From `s` to `t` no node was completed, and none was announced.
def Idle (s t : Run) : Prop :=
  t.countP completes = s.countP completes ∧ starts (observations t) = starts (observations s)

variable {g : CompiledGraph} {gate : Option Gate} {source : Str} {edge : FanOut}
  {state snapshot : State} {steps : Nat} {h : Run}

-- Whatever is not announced and does not return leaves the account as it is.
theorem idly {α : Type} {p : Scheduler α}
    (hp : p.Asks (Does mute fun observation => observation.event.kind ≠ .nodeStart)) :
    Ensures generating (fun _ _ => True) p (fun _ t => Idle h t) h := by
  intro t o he
  obtain ⟨hacts, hshown⟩ := Does.events he hp
  have hcount : t.countP completes = 0 := by
    refine List.countP_eq_zero.mpr fun e hm hc => ?_
    cases e with
    | emit observation => cases hc
    | act op answer => exact absurd hc (by simp [completes_mute (hacts op answer hm)])
  have hstarts : starts (observations t) = [] := by
    refine List.filterMap_eq_nil_iff.mpr fun observation ho => ?_
    rw [if_neg (hshown observation ho)]
  cases o with
  | ok value =>
      refine ⟨by rw [List.countP_append, hcount, Nat.add_zero], ?_⟩
      rw [observations_append, starts_append, hstarts, List.append_nil]
  | error => trivial

theorem idly_lift {α : Type} {p : Step α} (hp : p.Asks mute) :
    Ensures generating (fun _ _ => True) (p.lift : Scheduler α) (fun _ t => Idle h t) h :=
  idly (Does.lift hp)

theorem idly_aside {α : Type} {kinds : List EventKind} {p : Scheduler α}
    (hp : p.Asks (Does aside (shows kinds))) (hkinds : .nodeStart ∉ kinds) :
    Ensures generating (fun _ _ => True) p (fun _ t => Idle h t) h :=
  idly (Does.mono hp (fun _ => mute_of_aside) fun _ hs he => hkinds (he ▸ hs))

-- The run shows an observation of this kind last.
def Shows (kind : EventKind) (t : Run) : Prop :=
  ∃ shown observation, observations t = shown ++ [observation] ∧ observation.event.kind = kind

section Node

variable [Sha256] {node : Str}

theorem publishNode_shows {delta : Delta} :
    Ensures generating (fun _ _ => True) (publishNode gate node state steps delta)
      (fun next t => next.isSome → Shows .nodeEnd t) h := by
  refine .andThen (Q := fun _ _ => True) (fun t o _ => by cases o <;> trivial) fun asked t _ => ?_
  refine Rule.orStop (fun _ => ?_) (fun _ _ _ _ => nofun) fun _ _ _ => trivial
  refine .bind (.ofExcept (fun merged _ => ?_) fun _ _ => trivial)
  refine .andThen (Q := fun _ _ => True) (fun t o _ => by cases o <;> trivial) fun settlement u _ => ?_
  refine .bind (.emit (.bind (.ofExcept (fun _ _ => .ret fun _ => ?_) fun _ _ => trivial)))
  exact ⟨observations u, _, by rw [observations_append]; rfl, rfl⟩

theorem finishNode_shows {reply : Reply} :
    Ensures generating (fun _ _ => True) (finishNode gate node steps reply)
      (fun next t => next.isSome →
        (∃ items, reply.result = .ok (.dict items)) ∧ Shows .nodeEnd t) h := by
  unfold finishNode
  split
  · split_ifs
    · exact .bind (.ofExcept (fun _ _ => .bind (.emit (.ret nofun))) fun _ _ => trivial)
    · exact .raise trivial
  · rename_i value hresult
    refine .bind (.ofExcept (fun delta hd => ?_) fun _ _ => trivial)
    refine .bind (.ofExcept (fun detached _ => ?_) fun _ _ => trivial)
    refine publishNode_shows.mono (fun next t hs hsome => ⟨?_, hs hsome⟩) fun _ _ hx => hx
    unfold requireDelta at hd
    split at hd
    · exact ⟨_, hresult⟩
    · cases hd

theorem runNode_counts :
    Ensures generating (fun _ _ => True) (runNode g gate node state steps)
      (fun next t => next.isSome → t.countP completes = h.countP completes + 1 ∧
        starts (observations t) = starts (observations h) ++ [node] ∧ Shows .nodeEnd t) h := by
  refine .bind (.ofExcept (fun fn _ => ?_) fun _ _ => trivial)
  refine .bind (.ofExcept (fun visited _ => .bind (.emit ?_)) fun _ _ => trivial)
  have hannounced : starts (observations (h ++ [.emit (nodeStarted steps visited node)])) =
      starts (observations h) ++ [node] := by
    rw [observations_append, starts_append]
    rfl
  refine .andThen (idly_lift (dispatch_asks trivial)) fun asked t ht => ?_
  refine Rule.orStop (fun _ => ?_) (fun _ _ _ _ => nofun) fun _ _ _ => trivial
  refine .andThen (idly_lift (beforeStart_asks fun _ _ => trivial)) fun _ u hu => ?_
  refine .bind (.lift (Rule.invoke fun reply => ?_))
  refine ((idly_aside finishNode_does (by decide)).and finishNode_shows).mono ?_ fun _ _ hx => hx
  rintro next v ⟨hidle, hshows⟩ hsome
  obtain ⟨⟨items, hresult⟩, hended⟩ := hshows hsome
  refine ⟨?_, ?_, hended⟩
  · rw [hidle.1, List.countP_append, hu.1, ht.1, List.countP_append]
    simp [completes, hresult]
  · rw [hidle.2, observations_append, observations_act, observations_act, observations_nil,
      List.append_nil, hu.2, ht.2, hannounced]

end Node

theorem runBranch_counts {name : Str} (hh : h.countP completes = 0) :
    Ensures acting (fun _ _ => True) (runBranch g source snapshot name)
      (fun item t => t.countP completes = if item.ok then 1 else 0) h := by
  unfold runBranch
  split
  · exact .ret (by simpa [Settled.ok, Settled.error?] using hh)
  · refine .bind (Rule.invoke fun reply => ?_)
    split
    · rename_i hresult
      split_ifs
      · refine .ret ?_
        simp [hh, completes, hresult, Settled.ok, Settled.error?, List.countP_append]
      · exact .raise trivial
    · rename_i value hresult
      refine .ret ?_
      cases value <;>
        simp [hh, completes, hresult, Settled.ok, Settled.error?, requireDelta, List.countP_append]

theorem stays_mute {α : Type} {p : Step α} (hp : p.Asks mute) (hh : h.countP completes = 0) :
    Ensures acting (fun _ _ => True) p (fun _ t => t.countP completes = 0) h := by
  refine Ensures.mono (.asks hp (I := fun t => t.countP completes = 0) (fun t op answer hop ht => ?_) hh)
    (fun _ _ ht => ht) fun _ _ _ => trivial
  rw [List.countP_append, ht, List.countP_singleton, completes_mute hop]
  rfl

theorem branchCall_counts {batchId name : Str} {t : Run} {item : Settled}
    (he : Exec acting (branchCall g gate source batchId snapshot steps name) t (.ok item)) :
    t.countP completes = if item.ok then 1 else 0 := by
  have hnone : ([] : Run).countP completes = 0 := rfl
  have hcall : Ensures acting (fun _ _ => True)
      (branchCall g gate source batchId snapshot steps name)
      (fun item t => t.countP completes = if item.ok then 1 else 0) [] := by
    unfold branchCall
    split_ifs
    · refine .andThen (stays_mute (attemptException_asks (dispatch_asks trivial)) hnone) ?_
      rintro (exc | ⟨_ | decision, request⟩) t ht
      · exact .ret ht
      · refine .andThen
          (stays_mute (attemptException_asks (beforeStart_asks fun _ _ => trivial)) ht) ?_
        rintro (exc | _) u hu
        · exact .ret hu
        · exact runBranch_counts hu
      · exact .ret ht
    · exact runBranch_counts hnone
  exact hcall t (.ok item) he

section Region

variable [Sha256] {completed : Nat} {batchId : Str}

-- A region that committed counts the branches that returned a dict.
abbrev Counted {entered : Nat} (completed : Nat) : Option (RegionResult entered) → Prop :=
  fun next => ∀ result, next = some result → result.steps = completed

omit [Sha256] in
theorem orStop_returns {α : Type} {node : Str} {decision : Option GateDecision} {R : Option α → Prop}
    {next : Scheduler (Option α)} (hnone : R none) (hnext : next.Returns R) :
    (orStop state node steps decision next).Returns R := by
  cases decision with
  | none => exact hnext
  | some decision => exact .bind (.all _) fun _ _ => .bind (.all _) fun _ _ => hnone

theorem publishRegion_returns {progress : steps ≤ completed} {admitted : List (Str × Delta)}
    {merged : Delta} {provenance : Provenance} :
    (publishRegion gate source edge state snapshot steps completed progress batchId admitted merged
      provenance).Returns (Counted completed) := by
  refine .bind (.all _) fun _ _ => orStop_returns nofun ?_
  refine .bind (.all _) fun _ _ => .bind (.all _) fun _ _ => .bind (.all _) fun _ _ =>
    .bind (.all _) fun _ _ => .bind (.all _) fun _ _ => ?_
  rintro result ⟨⟩
  rfl

theorem foldRegion_returns {progress : steps ≤ completed} {admitted : List (Str × Delta)} :
    (foldRegion g gate source edge state snapshot steps completed progress batchId admitted).Returns
      (Counted completed) := by
  refine .bind (.all _) fun _ _ => orStop_returns nofun (.bind (.all _) ?_)
  rintro (decision | ⟨merged, provenance⟩) -
  · exact orStop_returns nofun nofun
  · exact .bind (.all _) fun _ _ => publishRegion_returns

theorem joinRegion_returns {settled : List Settled} :
    (joinRegion g gate source edge state snapshot steps batchId settled).Returns
      (Counted (steps + settled.countP Settled.ok)) := by
  refine .bind (.all _) fun _ _ => orStop_returns nofun ?_
  split
  · exact .bind (.all _) fun _ _ => .bind (.all _) fun _ _ => nofun
  · exact .bind (.all _) fun _ _ => orStop_returns nofun
      (.bind (.all _) fun _ _ => .bind (.all _) fun _ _ => foldRegion_returns)

theorem runRegion_counts (hh : h.countP completes = steps) :
    Ensures generating (fun _ _ => True) (runRegion g gate source edge state steps)
      (fun next t => ∀ result, next = some result → t.countP completes = result.steps ∧
        starts (observations t) = starts (observations h) ++ edge.branches) h := by
  refine .bind (.ofExcept (fun entered _ => .bind (.bind (.emit (.emitAll ?_)))) fun _ _ => trivial)
  have hannounced : starts (observations ((h ++ [.emit (superstepStarted source edge steps entered)]) ++
      edge.branches.map fun name => .emit (nodeStarted steps entered name))) =
      starts (observations h) ++ edge.branches := by
    rw [observations_append, starts_append, observations_emits, observations_append, starts_append]
    have hopen : starts [superstepStarted source edge steps entered] = [] := rfl
    have hbranches := @starts_branches steps entered edge.branches
    simpa [hopen] using hbranches
  have hcount : List.countP completes ((h ++ [.emit (superstepStarted source edge steps entered)]) ++
      edge.branches.map fun name => .emit (nodeStarted steps entered name)) = steps := by
    rw [List.countP_append, List.countP_append, hh, List.countP_map]
    have hquiet : ∀ names : List Str,
        names.countP (completes ∘ fun name => Entry.emit (nodeStarted steps entered name)) = 0 :=
      fun names => List.countP_eq_zero.mpr fun name _ => Bool.false_ne_true
    rw [hquiet]
    rfl
  refine .andThen (idly_lift (.call trivial)) fun batchId t ht => ?_
  refine .andThen (idly_lift (dispatch_asks trivial)) fun asked u hu => ?_
  refine Rule.orStop (fun _ => ?_) (fun _ _ _ _ => nofun) fun _ _ _ => trivial
  refine .bind (.bind (.fork fun v outcomes hi => .ofExcept (fun settled hr => ?_) fun _ _ => trivial))
  have hsettled : v.countP completes = settled.countP Settled.ok := by
    refine hi.countP_eq (fun p hp s item hs => ?_) (results_ok hr)
    obtain ⟨name, -, rfl⟩ := List.mem_map.mp hp
    exact branchCall_counts hs
  refine ((idly_aside joinRegion_does (by decide)).and (.returns joinRegion_returns)).mono ?_
    fun _ _ hx => hx
  rintro next w ⟨hidle, hresult⟩ result hnext
  constructor
  · rw [hidle.1, List.countP_append, hu.1, ht.1, hcount, hsettled, hresult result hnext]
  · rw [hidle.2, observations_append, interleaved_observations hi, List.append_nil, hu.2, ht.2,
      hannounced]

end Region

-- The name announced last where `node` has had its turn.
def lastEntered (g : CompiledGraph) (node : Str) : Str :=
  match g.edgeOf node with
  | .fanout region => region.branches.getLast?.getD node
  | _ => node

-- What the scheduler's own error says is so, unless the run has just left a region.
def Reports (g : CompiledGraph) (error : Exn) (t : Run) : Prop :=
  ∀ steps last, error = .maxStepsExceeded steps last → (∀ event ∈ t, event.raised? ≠ some error) →
    ((steps = t.countP completes ∧ last = lastStarted t) ↔ ¬LeavesRegion g t)

theorem reports_of_borrowed {error : Exn} {t : Run} (hb : Origin.Borrowed t error) :
    Reports g error t := by
  rintro steps last rfl hown
  obtain ⟨event, hm, hraised⟩ := hb rfl
  exact absurd hraised (hown event hm)

theorem reports_of_other {error : Exn} {t : Run} (hne : ∀ steps last, error ≠ .maxStepsExceeded steps last) :
    Reports g error t :=
  fun steps last he => absurd he (hne steps last)

-- A round is over: the node counted last was left by an edge.
structure Left (g : CompiledGraph) (steps : Nat) (lastNode : Str) (t : Run) : Prop where
  counted : t.countP completes = steps
  entered : lastStarted t = lastEntered g lastNode
  selected : ∃ shown selected, observations t = shown ++ [selected] ∧
    selected.event.kind = .edgeSelected ∧ selected.event.node = some lastNode

-- A node was just completed.
structure Ran (steps : Nat) (node : Str) (t : Run) : Prop where
  counted : t.countP completes = steps
  started : lastStarted t = node
  ended : Shows .nodeEnd t

theorem Left.reports {lastNode : Str} (hl : Left g steps lastNode h) :
    Reports g (.maxStepsExceeded steps lastNode) h := by
  rintro _ _ ⟨⟩ -
  obtain ⟨shown, selected, hshown, hkind, hnode⟩ := hl.selected
  have hleaves : LeavesRegion g h ↔ lastNode ≠ lastEntered g lastNode := by
    constructor
    · rintro ⟨shown', selected', source, region, hshown', -, hnode', hedge, hlast⟩
      obtain ⟨-, ⟨⟩⟩ := List.append_inj' (hshown.symm.trans hshown') rfl
      obtain rfl := Option.some.inj (hnode.symm.trans hnode')
      have hsome : region.branches.getLast? ≠ none := by
        rw [Ne, List.getLast?_eq_none_iff]
        exact fun hnil => by simpa [hnil] using region.two
      simp only [lastEntered, hedge]
      cases hget : region.branches.getLast? with
      | none => exact absurd hget hsome
      | some name => exact fun he => hlast (hget.trans (congrArg some he.symm))
    · intro hne
      unfold lastEntered at hne
      split at hne
      · rename_i region hedge
        refine ⟨shown, selected, lastNode, region, hshown, hkind, hnode, hedge, fun hlast => hne ?_⟩
        rw [hlast, Option.getD_some]
      · exact absurd rfl hne
  rw [hleaves, hl.counted, hl.entered, not_not]
  exact and_iff_right rfl

theorem Ran.reports {node : Str} (hr : Ran steps node h) :
    Reports g (.maxStepsExceeded steps node) h := by
  rintro _ _ ⟨⟩ -
  refine iff_of_true ⟨hr.counted.symm, hr.started.symm⟩ ?_
  rintro ⟨shown, selected, source, region, hshown, hkind, -⟩
  obtain ⟨shown', ended, hshown', hended⟩ := hr.ended
  obtain ⟨-, ⟨⟩⟩ := List.append_inj' (hshown.symm.trans hshown') rfl
  exact absurd (hkind.symm.trans hended) (by decide)

theorem enterRegion_exhausted {last : Str} {completed : Nat}
    (he : enterRegion g source edge state steps = .error (.maxStepsExceeded completed last)) :
    completed = steps ∧ last = source := by
  rcases Origin.enterRegion_error he with he | ⟨name, -, hnode⟩ | ⟨-, he⟩ | hplain
  · cases he
    exact ⟨rfl, rfl⟩
  · cases (Origin.nodeFor_error hnode).2
  · cases he
  · cases hplain

theorem route_selects {edge : Edge} :
    Ensures generating (fun _ _ => True) (route g gate source edge state steps)
      (fun next t => next.isSome → ∃ shown selected, observations t = shown ++ [selected] ∧
        selected.event.kind = .edgeSelected ∧ selected.event.node = some source) h := by
  refine .andThen (Q := fun _ _ => True) (fun t o _ => by cases o <;> trivial) fun asked t _ => ?_
  refine Rule.orStop (fun _ => ?_) (fun _ _ _ _ => nofun) fun _ _ _ => trivial
  refine .andThen (Q := fun _ _ => True) (fun t o _ => by cases o <;> trivial) fun _ u _ => ?_
  refine .andThen (Q := fun _ _ => True) (fun t o _ => by cases o <;> trivial) fun taken v _ => ?_
  exact .bind (.emit (.ret fun _ => ⟨observations v, _, by rw [observations_append]; rfl, rfl, rfl⟩))

theorem route_fanout {region : FanOut} :
    (route g gate source (.fanout region) state steps).Returns (· = none) := by
  refine .bind (.all _) fun _ _ => orStop_returns rfl ?_
  refine .bind (.all _) fun _ _ => .bind (R := fun _ => False) ?_ nofun
  exact trivial

section Run

theorem lastStarted_append {t : Run} {names : List Str} {last : Str}
    (hs : starts (observations t) = starts (observations h) ++ names) (hl : names.getLast? = some last) :
    lastStarted t = last := by
  rw [lastStarted, hs, List.getLast?_append, hl]
  rfl

theorem Idle.lastStarted_eq {t : Run} (hi : Idle h t) : lastStarted t = lastStarted h := by
  rw [lastStarted, lastStarted, hi.2]

theorem route_raises {edge : Edge} :
    Ensures generating (Reports g) (route g gate source edge state steps) (fun _ _ => True) h := by
  have htarget : ∀ {value : Value} {error : Exn}, checkTarget g value = .error error →
      ∀ t, Reports g error t := by
    intro value error hc t
    refine reports_of_other fun completed last he => ?_
    unfold checkTarget at hc
    split at hc
    · cases he ▸ hc
    · split_ifs at hc
      cases he ▸ hc
    · cases he ▸ hc
  refine Origin.route_raises (fun _ _ hb => reports_of_borrowed hb) ?_ ?_ ?_
  · exact fun _ _ _ t hc => htarget hc t
  · exact fun _ _ _ t hc => htarget hc t
  · exact fun _ _ _ _ _ _ _ hc => htarget hc _

theorem route_left {edge : Edge} (hcounted : h.countP completes = steps)
    (hentered : lastStarted h = lastEntered g source) :
    Ensures generating (Reports g) (route g gate source edge state steps)
      (Rule.Goes (fun _ => True) fun _ => Left g steps source) h := by
  refine (route_raises.and ((idly_aside route_does (by decide)).and route_selects)).mono ?_
    fun _ _ hx => hx
  rintro (_ | next) t ⟨-, hidle, hselects⟩
  · trivial
  · exact ⟨hidle.1.trans hcounted, hidle.lastStarted_eq.trans hentered, hselects rfl⟩

variable [Sha256]

theorem runNode_ran {node lastNode : Str} (hl : Left g steps lastNode h) :
    Ensures generating (Reports g) (runNode g gate node state steps)
      (Rule.Goes (fun _ => True) fun _ => Ran (steps + 1) node) h := by
  have hraises : Ensures generating (Reports g) (runNode g gate node state steps) (fun _ _ => True) h := by
    refine Origin.runNode_raises (fun _ _ hb => reports_of_borrowed hb) fun error he => ?_
    obtain ⟨-, rfl⟩ := Origin.nodeFor_error he
    exact reports_of_other nofun
  refine (hraises.and runNode_counts).mono ?_ fun _ _ hx => hx
  rintro (_ | next) t ⟨-, hcounts⟩
  · trivial
  · obtain ⟨hcounted, hstarts, hended⟩ := hcounts rfl
    exact ⟨hcounted.trans (congrArg (· + 1) hl.counted), lastStarted_append hstarts rfl, hended⟩

theorem followRegion_entered {node : Str} (hr : Ran steps node h) :
    Ensures generating (Reports g) (followRegion g gate node state steps)
      (Rule.Goes (fun _ => True) fun next t =>
        t.countP completes = next.1.steps ∧ lastStarted t = lastEntered g node) h := by
  have hraises : Ensures generating (Reports g) (followRegion g gate node state steps)
      (fun _ _ => True) h := by
    refine Origin.followRegion_raises (fun _ _ hb => reports_of_borrowed hb) fun region _ error he => ?_
    rintro completed last rfl
    obtain ⟨rfl, rfl⟩ := enterRegion_exhausted he
    exact hr.reports completed last rfl
  have hcounts : Ensures generating (fun _ _ => True) (followRegion g gate node state steps)
      (Rule.Goes (fun _ => True) fun next t =>
        t.countP completes = next.1.steps ∧ lastStarted t = lastEntered g node) h := by
    unfold followRegion
    split
    · rename_i region hregion
      refine .andThen (runRegion_counts hr.counted) ?_
      rintro (_ | result) t hresult
      · exact .ret trivial
      · obtain ⟨hcounted, hstarts⟩ := hresult result rfl
        refine .ret ⟨hcounted, ?_⟩
        obtain ⟨last, hlast⟩ : ∃ last, region.branches.getLast? = some last := by
          refine Option.ne_none_iff_exists'.mp fun hnone => ?_
          have htwo := region.two
          rw [List.getLast?_eq_none_iff.mp hnone] at htwo
          exact absurd htwo (by decide)
        rw [lastStarted_append hstarts hlast]
        simp only [lastEntered, hregion, hlast, Option.getD_some]
    · rename_i hother
      refine .ret ⟨hr.counted, hr.started.trans ?_⟩
      unfold lastEntered
      split
      · rename_i region hregion
        exact absurd hregion (hother region)
      · rfl
  refine (hraises.and hcounts).mono ?_ fun _ _ hx => hx
  rintro (_ | next) t ⟨-, hq⟩
  · trivial
  · exact hq

theorem run_reports {t : Run} {o : Except Exn Unit} (he : Exec generating (run g gate state) t o) :
    ∀ error, o = .error error → Reports g error t := by
  have hstart : Ensures generating (Reports g) (route g gate START (g.edgeOf START) state 0)
      (Rule.Goes (fun _ => True) fun _ => Left g 0 START) [] := by
    by_cases hregion : ∃ region, g.edgeOf START = .fanout region
    · obtain ⟨region, hregion⟩ := hregion
      rw [hregion]
      refine (route_raises.and (.returns route_fanout)).mono ?_ fun _ _ hx => hx
      rintro _ t ⟨-, rfl⟩
      trivial
    · refine route_left rfl (Eq.symm ?_)
      unfold lastEntered
      split
      · rename_i region hedge
        exact absurd ⟨region, hedge⟩ hregion
      · rfl
  have hrun : Ensures generating (Reports g) (run g gate state) (fun _ _ => True) [] := by
    refine Rule.run (I := fun _ _ steps lastNode => Left g steps lastNode)
      (J := fun node _ steps => Ran steps node)
      (K := fun node _ _ steps t => t.countP completes = steps ∧ lastStarted t = lastEntered g node)
      hstart ?_ ?_ ?_ ?_ ?_
    · exact fun _ _ _ _ _ => Origin.finish_borrows.mono (fun _ _ ht => ht)
        fun _ _ hb => reports_of_borrowed hb
    · exact fun _ _ _ _ _ hl _ => hl.reports
    · exact fun _ _ _ _ _ hl _ _ => runNode_ran hl
    · exact fun _ _ _ _ hr => followRegion_entered hr
    · exact fun _ _ _ _ _ hk => route_left hk.1 hk.2
  have hend := hrun t o he
  rintro error rfl
  exact hend

-- The step count of the scheduler's own MaxStepsExceeded is right, and the node it names is the
-- one announced last, but for a run that has just left a region.
theorem maxSteps_reported {t : Run} {last : Str}
    (he : Exec generating (run g gate state) t (.error (.maxStepsExceeded steps last)))
    (hown : ∀ event ∈ t, event.raised? ≠ some (.maxStepsExceeded steps last)) :
    (steps = t.countP completes ∧ last = lastStarted t) ↔ ¬LeavesRegion g t :=
  run_reports he _ rfl steps last rfl hown

end Run

-- One entry node, then a region of two branches, then one node more.
def continued (maxSteps : Int) : CompiledGraph where
  nodes := ⟨[("a", ⟨4, none, none⟩), ("b", ⟨5, none, none⟩), ("c", ⟨6, none, none⟩),
    ("e", ⟨7, none, none⟩)], by decide⟩
  edges := ⟨[(START, .static "a"), ("a", .fanout { FanOut.pair with
    thenNode := "e", continues := List.cons_ne_nil _ _ })], by decide⟩
  maxSteps := maxSteps

-- The region does not fit into the budget.
theorem maxSteps_reported_region :
    letI := Sha256.verbatim
    let t := ((run (continued 2) none (State.new "s")).simulate (obliging fun _ => .dict [])).1
    (1 = t.countP completes ∧ START ≠ lastStarted t) ∧
      ((1 = t.countP completes ∧ ("a" : Str) = lastStarted t) ↔ ¬LeavesRegion (continued 2) t) := by
  let := Sha256.verbatim
  intro t
  have hrun := exec_simulate (obliging fun _ => .dict []) (run (continued 2) none (State.new "s"))
  have hexhausted : ((run (continued 2) none (State.new "s")).simulate (obliging fun _ => .dict [])).2 =
      .error (.maxStepsExceeded 1 "a") := by rfl
  have hown : t.all (fun event => (Event.raised? event).isNone) = true := by decide +kernel
  exact ⟨by decide +kernel, maxSteps_reported (hexhausted ▸ hrun) (Origin.unraised hown _)⟩

-- The region has just been left: its last branch was announced after its source.
theorem maxSteps_misreported :
    ¬∀ [Sha256] (g : CompiledGraph) (gate : Option Gate) (state : State) (t : Run) (steps : Nat)
        (last : Str), Exec generating (run g gate state) t (.error (.maxStepsExceeded steps last)) →
      (∀ event ∈ t, event.raised? ≠ some (.maxStepsExceeded steps last)) →
        steps = t.countP completes ∧ last = lastStarted t := by
  intro h
  let := Sha256.verbatim
  have hrun := exec_simulate (obliging fun _ => .dict []) (run (continued 3) none (State.new "s"))
  have hexhausted : ((run (continued 3) none (State.new "s")).simulate (obliging fun _ => .dict [])).2 =
      .error (.maxStepsExceeded 3 "a") := by rfl
  have hown : (((run (continued 3) none (State.new "s")).simulate (obliging fun _ => .dict [])).1.all
      fun event => (Event.raised? event).isNone) = true := by decide +kernel
  have hlast : lastStarted
      ((run (continued 3) none (State.new "s")).simulate (obliging fun _ => .dict [])).1 = "c" := by
    decide +kernel
  have hreports := h (continued 3) none (State.new "s") _ 3 "a" (hexhausted ▸ hrun)
    (Origin.unraised hown _)
  exact absurd (hreports.2.trans hlast) (by decide)

end PerpetuaCore.Graph.Exhaustion
