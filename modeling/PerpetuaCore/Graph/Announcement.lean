import PerpetuaCore.Graph.Conformance
import PerpetuaCore.Graph.Folding
import PerpetuaCore.Graph.Guard

namespace PerpetuaCore.Graph.Announcement

open Interaction
open Python (Str Value Dict)
open Guard (entering?)

-- Nothing is shown, and only these callables receive control.
def Calm (among : Callable → Prop) (window : Run) : Prop :=
  observations window = [] ∧ ∀ e ∈ window, ∀ c ∈ entering? e, among c

-- The consumer was shown these observations last, and since then there was calm.
def Shown (shown : List GraphObservation) (among : Callable → Prop) (past : Run) : Prop :=
  ∃ before window, past = before ++ shown.map .emit ++ window ∧ Calm among window

-- The observations that announce a region with all its branches.
def opening (source : Str) (edge : FanOut) (steps : Nat) (snapshot : State) : List GraphObservation :=
  superstepStarted source edge steps snapshot :: edge.branches.map (nodeStarted steps snapshot)

def isBranch (source : Str) (snapshot : State) (names : Str → Prop) : Callable → Prop
  | .branch region name _ state => region = source ∧ state = snapshot ∧ names name
  | _ => False

def isJoin (source : Str) : Callable → Prop
  | .join region .. => region = source
  | _ => False

def isReducer (source : Str) (fields : Str → Prop) : Callable → Prop
  | .reducer region field .. => region = source ∧ fields field
  | _ => False

-- What a router is handed: the initial state, or the one its node was last seen to publish.
def Routable (initial : State) (source : Str) (state : State) (past : Run) : Prop :=
  (source = START ∧ state = initial ∧ Calm (fun _ => False) past) ∨
    ∃ steps delta, Shown [nodeEnded steps state (source, delta)] (fun _ => False) past

-- The state a callable is handed is what the consumer was shown last, and it was not called since:
-- a node is handed that of its own start, a branch that of the opening of its region. A join is
-- asked about the branches of the opening, and a reducer extends the value its field has there;
-- what the branches made of it is not shown before these are called.
def Announced (initial : State) (past : Run) : Callable → Prop
  | .node name _ state => ∃ steps, Shown [nodeStarted steps state name] (fun _ => False) past
  | .router source _ state => Routable initial source state past
  | .branch source name _ state => ∃ edge steps, name ∈ edge.branches ∧
      Shown (opening source edge steps state) (isBranch source state (· ≠ name)) past
  | .join source _ outcomes => ∃ edge steps snapshot, outcomes.map BranchOutcome.name = edge.branches ∧
      Shown (opening source edge steps snapshot) (isBranch source snapshot fun _ => True) past
  | .reducer source field _ base _ => ∃ edge steps snapshot, base = snapshot.get field ∧
      Shown (opening source edge steps snapshot) (fun c => isBranch source snapshot (fun _ => True) c ∨
        isJoin source c ∨ isReducer source (· ≠ field) c) past

-- So far every callable was announced.
def Told (initial : State) (t : Run) : Prop :=
  Always (fun past e => ∀ c ∈ entering? e, Announced initial past c) t

-- The exchanges in which no callable receives control.
def outside : Op → Prop
  | .enter _ => False
  | _ => True

-- What such exchanges leave as it is.
def Lasts (W : Run → Prop) : Prop := ∀ t e, entering? e = none → observations [e] = [] → W t → W (t ++ [e])

-- A linear node was last seen to publish this state.
def Published (initial : State) (node : Str) (state : State) (steps : Nat) (t : Run) : Prop :=
  Told initial t ∧ ∃ delta, Shown [nodeEnded steps state (node, delta)] (fun _ => False) t

variable {initial : State} {h : Run} {shown : List GraphObservation} {among among' : Callable → Prop}

theorem Calm.append {s t : Run} (hs : Calm among s) (ht : Calm among t) : Calm among (s ++ t) := by
  refine ⟨by rw [observations_append, hs.1, ht.1]; rfl, fun e he => ?_⟩
  rcases List.mem_append.mp he with he | he
  · exact hs.2 e he
  · exact ht.2 e he

theorem Calm.mono {s : Run} (hs : Calm among s) (h : ∀ c, among c → among' c) : Calm among' s :=
  ⟨hs.1, fun e he c hc => h c (hs.2 e he c hc)⟩

theorem calm_nil : Calm among [] := ⟨rfl, by simp⟩

theorem Shown.append {t : Run} (hs : Shown shown among h) (ht : Calm among t) :
    Shown shown among (h ++ t) := by
  obtain ⟨before, window, rfl, hw⟩ := hs
  exact ⟨before, window ++ t, List.append_assoc .., hw.append ht⟩

theorem Shown.mono (hs : Shown shown among h) (hc : ∀ c, among c → among' c) : Shown shown among' h := by
  obtain ⟨before, window, rfl, hw⟩ := hs
  exact ⟨before, window, rfl, hw.mono hc⟩

theorem shown_emits : Shown shown among (h ++ shown.map .emit) :=
  ⟨h, [], (List.append_nil _).symm, calm_nil⟩

theorem lasts_shown : Lasts (Shown shown among) := fun _ _ he ho hs =>
  hs.append ⟨ho, by simp [he]⟩

theorem lasts_routable {source : Str} {state : State} : Lasts (Routable initial source state) := by
  rintro t e he ho (⟨hstart, hstate, hcalm⟩ | ⟨steps, delta, hs⟩)
  · exact .inl ⟨hstart, hstate, hcalm.append ⟨ho, by simp [he]⟩⟩
  · exact .inr ⟨steps, delta, lasts_shown t e he ho hs⟩

theorem Told.snoc {e : Event} (ht : Told initial h) (he : entering? e = none) : Told initial (h ++ [e]) :=
  always_snoc.mpr ⟨ht, by simp [he]⟩

theorem Told.emits (ht : Told initial h) (shown : List GraphObservation) :
    Told initial (h ++ shown.map .emit) := by
  refine always_append.mpr ⟨ht, fun pre e post he c hc => ?_⟩
  have hm : e ∈ shown.map (Entry.emit : GraphObservation → Event) := by simp [he]
  obtain ⟨observation, -, rfl⟩ := List.mem_map.mp hm
  cases hc

theorem Told.enter (ht : Told initial h) (callable : Callable) (ha : Announced initial h callable)
    (answer : callable.Answer) : Told initial (h ++ [.enter callable, .leave callable answer]) := by
  refine always_append.mpr ⟨ht, always_cons.mpr ⟨?_, always_cons.mpr ⟨?_, always_nil⟩⟩⟩
  · rintro c ⟨⟩
    simpa using ha
  · rintro c ⟨⟩

-- Exchanges with the gate take nothing away from what is known.
theorem aside_told {α : Type} {W : Run → Prop} {p : Step α} (hp : p.Asks outside) (hw : Lasts W)
    (ht : Told initial h) (hi : W h) :
    Ensures acting (fun _ => Told initial) p (fun _ t => Told initial t ∧ W t) h := by
  refine (Ensures.asks (I := fun t => Told initial t ∧ W t) hp ?_ ⟨ht, hi⟩).mono (fun _ _ hi => hi)
    fun _ _ hi => hi.1
  rintro t op answer hop ⟨ht, hw'⟩
  have he : entering? (.act op answer) = none := by
    cases op with
    | enter callable => cases hop
    | _ => rfl
  exact ⟨ht.snoc he, hw t _ he rfl hw'⟩

theorem outside_dispatch {gate : Option Gate} {edge : Option Edge} {boundary : DispatchBoundary}
    {nodes : List Str} {steps : Nat} {source batchId : Option Str} :
    (dispatch gate edge boundary nodes steps source batchId).Asks outside :=
  dispatch_asks trivial

theorem outside_beforeStart {gate : Option Gate} {request : Option DispatchRequest} :
    (beforeStart gate request).Asks outside :=
  beforeStart_asks fun _ _ => trivial

theorem orStop_told {α : Type} {Q : Run → Prop} {R : α → Run → Prop} {state : State} {node : Str}
    {steps : Nat} {decision : Option GateDecision} {next : Scheduler (Option α)} (ht : Told initial h)
    (hq : ∀ t, Told initial t → Q t)
    (hnext : Ensures generating (fun _ => Told initial) next (Rule.Goes Q R) h) :
    Ensures generating (fun _ => Told initial) (orStop state node steps decision next) (Rule.Goes Q R) h :=
  Rule.orStop (fun _ => hnext) (fun _ _ _ _ => hq _ (ht.snoc rfl)) fun _ _ _ => ht

section Linear

variable {g : CompiledGraph} {gate : Option Gate} {source node : Str} {state : State} {steps : Nat}

theorem route_told {edge : Edge} (ht : Told initial h)
    (hr : edge.router? ≠ none → Routable initial source state h) :
    Ensures generating (fun _ => Told initial) (route g gate source edge state steps)
      (Rule.Goes (Told initial) fun _ => Told initial) h := by
  have hlasts : Lasts fun t => edge.router? ≠ none → Routable initial source state t :=
    fun t e he ho hr hedge => lasts_routable t e he ho (hr hedge)
  refine .andThen (.lift (aside_told outside_dispatch hlasts ht hr)) ?_
  rintro ⟨decision, request⟩ t ⟨ht, hr⟩
  refine orStop_told ht (fun _ ht => ht) ?_
  refine .andThen (.lift (aside_told outside_beforeStart hlasts ht hr)) ?_
  rintro - t ⟨ht, hr⟩
  refine .andThen (Q := fun _ => Told initial) (.lift (Rule.resolveEdge ?_ ?_ ?_)) ?_
  · exact fun _ _ => .ofExcept (fun _ _ => ht) fun _ _ => ht
  · exact fun _ _ _ _ => ht
  · intro fn reply hfn
    have ht' := ht.enter (.router source fn state) (hr (hfn ▸ nofun)) reply
    exact .ofExcept (fun _ _ => ht') fun _ _ => ht'
  · exact fun taken t ht => .bind (.emit (.ret (ht.snoc rfl)))

variable [Sha256]

theorem publishNode_told {delta : Delta} (ht : Told initial h) :
    Ensures generating (fun _ => Told initial) (publishNode gate node state steps delta)
      (Rule.Goes (Told initial) fun state => Published initial node state (steps + 1)) h := by
  have hlasts : Lasts fun _ => True := fun _ _ _ _ _ => trivial
  refine .andThen (.lift (aside_told (commit_asks fun _ => trivial) hlasts ht trivial)) ?_
  rintro ⟨decision, request⟩ t ⟨ht, -⟩
  refine orStop_told ht (fun _ ht => ht) ?_
  refine .bind (.ofExcept (fun merged _ => ?_) fun _ _ => ht)
  refine .andThen (.lift (aside_told (.attempt (afterCommit_asks fun _ => trivial)) hlasts ht trivial)) ?_
  rintro settlement t ⟨ht, -⟩
  refine .bind (.emit (.bind (.ofExcept (fun _ _ => ?_) fun _ _ => ht.snoc rfl)))
  exact .ret ⟨ht.snoc rfl, delta, shown_emits⟩

theorem finishNode_told {reply : Reply} (ht : Told initial h) :
    Ensures generating (fun _ => Told initial) (finishNode gate node steps reply)
      (Rule.Goes (Told initial) fun state => Published initial node state (steps + 1)) h := by
  unfold finishNode
  split
  · split_ifs
    · exact .bind (.ofExcept (fun _ _ => .bind (.emit (.ret (ht.snoc rfl)))) fun _ _ => ht)
    · exact .raise ht
  · refine .bind (.ofExcept (fun _ _ => ?_) fun _ _ => ht)
    exact .bind (.ofExcept (fun _ _ => publishNode_told ht) fun _ _ => ht)

theorem runNode_told (ht : Told initial h) :
    Ensures generating (fun _ => Told initial) (runNode g gate node state steps)
      (Rule.Goes (Told initial) fun state => Published initial node state (steps + 1)) h := by
  refine .bind (.ofExcept (fun fn _ => ?_) fun _ _ => ht)
  refine .bind (.ofExcept (fun visited _ => ?_) fun _ _ => ht)
  refine .bind (.emit ?_)
  have hshown : Shown [nodeStarted steps visited node] (fun _ => False)
      (h ++ [.emit (nodeStarted steps visited node)]) := shown_emits
  refine .andThen (.lift (aside_told outside_dispatch lasts_shown (ht.snoc rfl) hshown)) ?_
  rintro ⟨decision, request⟩ t ⟨ht, hshown⟩
  refine orStop_told ht (fun _ ht => ht) ?_
  refine .andThen (.lift (aside_told outside_beforeStart lasts_shown ht hshown)) ?_
  rintro - t ⟨ht, hshown⟩
  refine .bind (.lift (Rule.invoke fun reply => finishNode_told ?_))
  exact ht.enter (.node node fn visited) ⟨steps, hshown⟩ reply

end Linear

section Region

variable {g : CompiledGraph} {gate : Option Gate} {source : Str} {edge : FanOut} {state snapshot : State}
  {steps : Nat}

-- A branch is called once, as itself.
structure OnlyEnters (source : Str) (snapshot : State) (name : Str) (t : Run) : Prop where
  own : ∀ e ∈ t, ∀ c ∈ entering? e, isBranch source snapshot (· = name) c
  once : t.Pairwise fun e e' => entering? e = none ∨ entering? e' = none

theorem branchCall_enters {batchId name : Str} :
    Ensures acting (fun _ => OnlyEnters source snapshot name)
      (branchCall g gate source batchId snapshot steps name)
      (fun _ => OnlyEnters source snapshot name) [] := by
  have hquiet : ∀ t : Run, (∀ e ∈ t, entering? e = none) → OnlyEnters source snapshot name t := by
    intro t ht
    refine ⟨fun e he c hc => ?_, List.pairwise_of_forall_mem_list fun e he _ _ => .inl (ht e he)⟩
    rw [ht e he] at hc
    cases hc
  have hcalled : ∀ (t : Run) fn reply, (∀ e ∈ t, entering? e = none) → OnlyEnters source snapshot name
      (t ++ [.enter (.branch source name fn snapshot), .leave (.branch source name fn snapshot) reply]) := by
    intro t fn reply ht
    constructor
    · intro e he c hc
      rcases List.mem_append.mp he with he | he
      · exact (hquiet t ht).own e he c hc
      · simp only [List.mem_cons, List.not_mem_nil, or_false] at he
        rcases he with rfl | rfl <;> cases hc
        exact ⟨rfl, rfl, rfl⟩
    · refine List.pairwise_append.mpr ⟨(hquiet t ht).once, ?_, fun e he _ _ => .inl (ht e he)⟩
      simp [entering?]
  have hrun : ∀ t : Run, (∀ e ∈ t, entering? e = none) →
      Ensures acting (fun _ => OnlyEnters source snapshot name) (runBranch g source snapshot name)
        (fun _ => OnlyEnters source snapshot name) t := fun t ht =>
    Rule.runBranch (fun _ _ => hquiet t ht) (fun fn reply _ _ => hcalled t fn reply ht)
      fun fn reply _ => hcalled t fn reply ht
  have hkeep : ∀ {α : Type} {p : Step α} (t : Run), p.Asks outside → (∀ e ∈ t, entering? e = none) →
      Ensures acting (fun _ => OnlyEnters source snapshot name) p
        (fun _ t => ∀ e ∈ t, entering? e = none) t := by
    intro α p t hp ht
    refine (Ensures.asks hp (fun t op answer hop ht e he => ?_) ht).mono (fun _ _ ht => ht)
      fun _ t ht => hquiet t ht
    rcases List.mem_append.mp he with he | he
    · exact ht e he
    · obtain rfl := List.mem_singleton.mp he
      cases op with
      | enter callable => cases hop
      | _ => rfl
  unfold branchCall
  split_ifs
  · refine .andThen (hkeep [] (attemptException_asks outside_dispatch) (by simp)) ?_
    rintro (error | ⟨_ | decision, request⟩) t ht
    · exact .ret (hquiet t ht)
    · refine .andThen (hkeep t (attemptException_asks outside_beforeStart) ht) ?_
      rintro (error | _) t ht
      · exact .ret (hquiet t ht)
      · exact hrun t ht
    · exact .ret (hquiet t ht)
  · exact hrun [] (by simp)

theorem isBranch_cross {a b : Str} {c c' : Callable} (hab : a ≠ b)
    (hc : isBranch source snapshot (· = a) c) (hc' : isBranch source snapshot (· = b) c') (name : Str)
    (hname : isBranch source snapshot (· = name) c') : isBranch source snapshot (· ≠ name) c := by
  cases c <;> cases c' <;> first | exact False.elim hc | exact False.elim hc' | skip
  obtain ⟨hsource, hstate, rfl⟩ := hc
  exact ⟨hsource, hstate, fun he => hab (he.trans (hname.2.2.symm.trans hc'.2.2))⟩

-- Whatever the interleaving, the branches are each called at most once, on the snapshot.
theorem interleaved_told {batchId : Str} {u : Run} {outcomes : List (Except Exn Settled)}
    (ht : Told initial h) (hs : Shown (opening source edge steps snapshot) (fun _ => False) h)
    (hi : Interleaved acting (edge.branches.map (branchCall g gate source batchId snapshot steps)) u outcomes) :
    Told initial (h ++ u) ∧
      Shown (opening source edge steps snapshot) (isBranch source snapshot fun _ => True) (h ++ u) := by
  have hrun : ∀ name s o, Exec acting (branchCall g gate source batchId snapshot steps name) s o →
      OnlyEnters source snapshot name s := by
    intro name s o he
    have hb := branchCall_enters s o he
    cases o <;> exact hb
  have hown : ∀ e ∈ u, ∀ c ∈ entering? e, ∃ name ∈ edge.branches, isBranch source snapshot (· = name) c := by
    intro e he c hc
    obtain ⟨p, hp, s, o, -, hexec, hes⟩ := hi.exists_of_mem he
    obtain ⟨name, hname, rfl⟩ := List.mem_map.mp hp
    exact ⟨name, hname, (hrun name s o hexec).own e hes c hc⟩
  have honce : u.Pairwise fun e e' => ∀ c ∈ entering? e, ∀ c' ∈ entering? e', ∀ name,
      isBranch source snapshot (· = name) c' → isBranch source snapshot (· ≠ name) c := by
    refine hi.pairwise ?_ ?_
    · intro p hp s o he
      obtain ⟨name, -, rfl⟩ := List.mem_map.mp hp
      refine (hrun name s o he).once.imp fun hne c hc c' hc' => ?_
      rcases hne with hne | hne
      · rw [hne] at hc; cases hc
      · rw [hne] at hc'; cases hc'
    · have hnodup : edge.branches.Nodup := edge.ascending.imp fun h => h.ne
      refine List.pairwise_map.mpr (hnodup.imp fun {a b} hab s t o o' hs ht e he e' he' => ?_)
      have ha := (hrun a s o hs).own
      have hb := (hrun b t o' ht).own
      exact ⟨fun c hc c' hc' => isBranch_cross hab (ha e he c hc) (hb e' he' c' hc'),
        fun c hc c' hc' => isBranch_cross hab.symm (hb e' he' c hc) (ha e he c' hc')⟩
  have hquiet := interleaved_observations hi
  constructor
  · refine always_append.mpr ⟨ht, ?_⟩
    rintro pre e post rfl c hc
    obtain ⟨name, hname, hbranch⟩ := hown e (by simp) c hc
    cases c with
    | branch region name' fn state =>
        obtain ⟨rfl, rfl, rfl⟩ := hbranch
        refine ⟨edge, steps, hname, (hs.mono fun _ => False.elim).append ⟨?_, fun e' he' c' hc' => ?_⟩⟩
        · rw [observations_append] at hquiet
          exact (List.append_eq_nil_iff.mp hquiet).1
        · have hbefore := (List.pairwise_append.mp honce).2.2 e' he' e List.mem_cons_self
          exact hbefore c' hc' _ hc name' ⟨rfl, rfl, rfl⟩
    | _ => cases hbranch
  · refine (hs.mono fun _ => False.elim).append ⟨hquiet, fun e he c hc => ?_⟩
    obtain ⟨name, -, hbranch⟩ := hown e he c hc
    cases c with
    | branch => exact ⟨hbranch.1, hbranch.2.1, trivial⟩
    | _ => cases hbranch

theorem settle_told {batchId : Str} (ht : Told initial h)
    (hs : Shown (opening source edge steps snapshot) (fun _ => False) h) :
    Ensures generating (fun _ => Told initial) (settle g gate source edge.branches batchId snapshot steps)
      (fun settled t => settled.map Settled.name = edge.branches ∧ Told initial t ∧
        Shown (opening source edge steps snapshot) (isBranch source snapshot fun _ => True) t) h := by
  refine .bind (.fork fun u outcomes hi => ?_)
  have htold := interleaved_told ht hs hi
  refine .ofExcept (fun settled hsettled => ⟨?_, htold⟩) fun _ _ => htold.1
  rw [results_ok hsettled] at hi
  exact Protocol.settled_names hi

-- What may have been called of a region once its branches have settled.
def amongJoin (source : Str) (snapshot : State) (c : Callable) : Prop :=
  isBranch source snapshot (fun _ => True) c ∨ isJoin source c

def amongFold (source : Str) (snapshot : State) (fields : Str → Prop) (c : Callable) : Prop :=
  isBranch source snapshot (fun _ => True) c ∨ isJoin source c ∨ isReducer source fields c

theorem admit_told {settled : List Settled} (hnames : settled.map Settled.name = edge.branches)
    (ht : Told initial h)
    (hs : Shown (opening source edge steps snapshot) (isBranch source snapshot fun _ => True) h) :
    Ensures acting (fun _ => Told initial) (admitBranches source edge.join settled)
      (fun _ t => Told initial t ∧ Shown (opening source edge steps snapshot) (amongJoin source snapshot) t) h := by
  have hs' : Shown (opening source edge steps snapshot) (amongJoin source snapshot) h := hs.mono fun _ => .inl
  unfold admitBranches
  cases edge.join with
  | custom fn =>
      refine .bind (Rule.invoke fun answer => ?_)
      have hviews : (settled.map Settled.view).map BranchOutcome.name = edge.branches := by
        rw [← hnames, List.map_map]
        rfl
      have ht' := ht.enter (.join source fn (settled.map Settled.view))
        ⟨edge, steps, snapshot, hviews, hs⟩ answer
      have hjoined : Shown (opening source edge steps snapshot) (amongJoin source snapshot)
          (h ++ [.enter (.join source fn (settled.map Settled.view)),
            .leave (.join source fn (settled.map Settled.view)) answer]) := by
        refine hs'.append ⟨rfl, ?_⟩
        simp [entering?, amongJoin, isJoin]
      refine .bind (.ofExcept (fun names _ => ?_) fun _ _ => ht')
      refine .bind (.ofExcept (fun chosen _ => ?_) fun _ _ => ht')
      dsimp only
      split_ifs
      · exact .raise ht'
      · exact .ret ⟨ht', hjoined⟩
  | _ =>
      dsimp only
      split_ifs
      · first | exact .ret ⟨ht, hs'⟩ | exact .raise ht
      · first | exact .ret ⟨ht, hs'⟩ | exact .raise ht

theorem foldField_told {contributed : Contributed} {request : Option DispatchRequest} {field : Str}
    {fields : Str → Prop} (hfield : ¬fields field) (ht : Told initial h)
    (hs : Shown (opening source edge steps snapshot) (amongFold source snapshot fields) h) :
    Ensures acting (fun _ => Told initial) (foldField g gate source snapshot request contributed field)
      (fun _ t => Told initial t ∧ Shown (opening source edge steps snapshot)
        (amongFold source snapshot fun other => fields other ∨ other = field) t) h := by
  have hwiden : ∀ c, amongFold source snapshot fields c →
      amongFold source snapshot (fun other => fields other ∨ other = field) c := by
    rintro c (hb | hj | hr)
    · exact .inl hb
    · exact .inr (.inl hj)
    · cases c with
      | reducer => exact .inr (.inr ⟨hr.1, .inl hr.2⟩)
      | _ => cases hr
  refine .andThen (((aside_told (admitReducer_asks fun _ _ => ⟨trivial, trivial⟩) lasts_shown ht hs).and
    (.returns Folding.admitReducer_inputs))) ?_
  rintro inputs t ⟨⟨ht, hs⟩, hinputs⟩
  unfold reduceField
  split
  · exact .ofExcept (fun _ _ => ⟨ht, hs.mono hwiden⟩) fun _ _ => ht
  · exact .ofExcept (fun _ _ => ⟨ht, hs.mono hwiden⟩) fun _ _ => ht
  · exact .ofExcept (fun _ _ => ⟨ht, hs.mono hwiden⟩) fun _ _ => ht
  · exact .ofExcept (fun _ _ => ⟨ht, hs.mono hwiden⟩) fun _ _ => ht
  · exact .ofExcept (fun _ _ => ⟨ht, hs.mono hwiden⟩) fun _ _ => ht
  · rename_i fn _
    refine .bind (.ofExcept (fun copies hcopies => ?_) fun _ _ => ht)
    have hbase : copies.1 = snapshot.get field := by
      cases inputs with
      | none => rw [Folding.prepare_eq hcopies]
      | some pair =>
          obtain rfl := Except.ok.inj hcopies
          rw [hinputs _ rfl]
    refine .bind (Rule.invoke fun answer => ?_)
    have ht' := ht.enter (.reducer source field fn copies.1 copies.2) ⟨edge, steps, snapshot,
      hbase, hs.mono fun c hc => ?_⟩ answer
    · refine .ofExcept (fun _ _ => ⟨ht', (hs.mono hwiden).append ⟨rfl, ?_⟩⟩) fun _ _ => ht'
      simp [entering?, amongFold, isReducer]
    · rcases hc with hb | hj | hr
      · exact .inl hb
      · exact .inr (.inl hj)
      · cases c with
        | reducer => exact .inr (.inr ⟨hr.1, fun he => hfield (he ▸ hr.2)⟩)
        | _ => cases hr

theorem foldFields_told {contributed : Contributed} {request : Option DispatchRequest} {fields : List Str}
    {folded : Delta × Provenance} {done : Str → Prop} (hnodup : fields.Nodup)
    (hfresh : ∀ field ∈ fields, ¬done field) (ht : Told initial h)
    (hs : Shown (opening source edge steps snapshot) (amongFold source snapshot done) h) :
    Ensures acting (fun _ => Told initial) (foldFields g gate source snapshot request contributed fields folded)
      (fun _ => Told initial) h := by
  induction fields generalizing h folded done with
  | nil => exact .ret ht
  | cons field rest ih =>
      obtain ⟨hnew, hrest⟩ := List.nodup_cons.mp hnodup
      refine .andThen (foldField_told (hfresh field List.mem_cons_self) ht hs) ?_
      rintro value t ⟨ht, hs'⟩
      refine ih hrest ?_ ht hs'
      rintro other hm (hd | rfl)
      · exact hfresh other (List.mem_cons_of_mem _ hm) hd
      · exact hnew hm

theorem fold_told {admitted : List (Str × Delta)} {request : Option DispatchRequest} (ht : Told initial h)
    (hs : Shown (opening source edge steps snapshot) (amongJoin source snapshot) h) :
    Ensures acting (fun _ => Told initial) (fold g gate source snapshot admitted request)
      (fun _ => Told initial) h := by
  refine .bind (.ofExcept (fun fields hfields => ?_) fun _ _ => ht)
  have hnodup : (Python.sorted id fields).Nodup := by
    refine (Python.sorted_perm id fields).nodup_iff.mpr (List.Nodup.of_map Value.str ?_)
    rw [← Folding.fieldNames_eq_ok.mp hfields]
    exact (contributions admitted).nodup
  have hnone : Shown (opening source edge steps snapshot) (amongFold source snapshot fun _ => False) h :=
    hs.mono fun c hc => hc.imp_right .inl
  exact foldFields_told hnodup (fun _ _ => not_false) ht hnone

variable [Sha256]

theorem publishRegion_told {completed : Nat} {progress : steps ≤ completed} {batchId : Str}
    {admitted : List (Str × Delta)} {merged : Delta} {provenance : Provenance} (ht : Told initial h) :
    Ensures generating (fun _ => Told initial)
      (publishRegion gate source edge state snapshot steps completed progress batchId admitted merged provenance)
      (Rule.Goes (Told initial) fun _ => Told initial) h := by
  have hlasts : Lasts fun _ => True := fun _ _ _ _ _ => trivial
  refine .andThen (.lift (aside_told (commit_asks fun _ => trivial) hlasts ht trivial)) ?_
  rintro ⟨decision, request⟩ t ⟨ht, -⟩
  refine orStop_told ht (fun _ ht => ht) ?_
  refine .bind (.ofExcept (fun committed _ => ?_) fun _ _ => ht)
  refine .andThen (.lift (aside_told (.attempt (afterCommit_asks fun _ => trivial)) hlasts ht trivial)) ?_
  rintro settlement t ⟨ht, -⟩
  have hended := ht.emits (admitted.map (nodeEnded completed committed))
  rw [List.map_map] at hended
  refine .bind (.emitAll (.bind (.emit ?_)))
  exact .bind (.ofExcept (fun _ _ => .ret (Told.snoc hended rfl)) fun _ _ => Told.snoc hended rfl)

theorem foldRegion_told {completed : Nat} {progress : steps ≤ completed} {batchId : Str}
    {admitted : List (Str × Delta)} (ht : Told initial h) {at_ : Nat}
    (hs : Shown (opening source edge at_ snapshot) (amongJoin source snapshot) h) :
    Ensures generating (fun _ => Told initial)
      (foldRegion g gate source edge state snapshot steps completed progress batchId admitted)
      (Rule.Goes (Told initial) fun _ => Told initial) h := by
  refine .andThen (.lift (aside_told outside_dispatch lasts_shown ht hs)) ?_
  rintro ⟨decision, request⟩ t ⟨ht, hs⟩
  refine orStop_told ht (fun _ ht => ht) ?_
  refine .andThen (Q := fun _ => Told initial) (.lift (Rule.catchBoundaryStop ?_)) ?_
  · exact (fold_told ht hs).mono (fun _ _ ht => ht) fun _ _ ht => ⟨ht, fun _ _ => ht⟩
  · rintro (decision | ⟨merged, provenance⟩) t ht
    · exact orStop_told ht (fun _ ht => ht) (.ret ht)
    · exact .bind (.ofExcept (fun _ _ => publishRegion_told ht) fun _ _ => ht)

theorem joinRegion_told {batchId : Str} {settled : List Settled}
    (hnames : settled.map Settled.name = edge.branches) (ht : Told initial h)
    (hs : Shown (opening source edge steps snapshot) (isBranch source snapshot fun _ => True) h) :
    Ensures generating (fun _ => Told initial)
      (joinRegion g gate source edge state snapshot steps batchId settled)
      (Rule.Goes (Told initial) fun _ => Told initial) h := by
  refine .bind (.ofExcept (fun verdict _ => ?_) fun _ _ => ht)
  refine orStop_told ht (fun _ ht => ht) ?_
  split
  · exact .bind (.ofExcept (fun _ _ => .bind (.emit (.ret (ht.snoc rfl)))) fun _ _ => ht)
  · refine .andThen (.lift (aside_told (askJoin_asks fun _ _ => trivial) lasts_shown ht hs)) ?_
    rintro ⟨decision, request⟩ t ⟨ht, hs⟩
    refine orStop_told ht (fun _ ht => ht) ?_
    refine .andThen (.lift (aside_told outside_beforeStart lasts_shown ht hs)) ?_
    rintro - t ⟨ht, hs⟩
    refine .andThen (.lift (admit_told hnames ht hs)) ?_
    rintro admitted t ⟨ht, hs⟩
    exact foldRegion_told ht hs

theorem runRegion_told (ht : Told initial h) :
    Ensures generating (fun _ => Told initial) (runRegion g gate source edge state steps)
      (Rule.Goes (Told initial) fun _ => Told initial) h := by
  refine .bind (.ofExcept (fun snapshot _ => ?_) fun _ _ => ht)
  have hopened := ht.emits (opening source edge steps snapshot)
  have hshown : Shown (opening source edge steps snapshot) (fun _ => False)
      (h ++ (opening source edge steps snapshot).map .emit) := shown_emits
  refine .andThen (Q := fun _ t => t = h ++ (opening source edge steps snapshot).map .emit)
    (.bind (.emit (.emitAll ?_))) ?_
  · simp [opening]
  rintro - _ rfl
  refine .andThen (.lift (aside_told (.call trivial) lasts_shown hopened hshown)) ?_
  rintro batchId t ⟨ht, hs⟩
  refine .andThen (.lift (aside_told outside_dispatch lasts_shown ht hs)) ?_
  rintro ⟨decision, request⟩ t ⟨ht, hs⟩
  refine orStop_told ht (fun _ ht => ht) ?_
  refine .andThen (settle_told ht hs) ?_
  rintro settled t ⟨hnames, ht, hs⟩
  exact joinRegion_told hnames ht hs

end Region

section Run

variable [Sha256] {g : CompiledGraph} {gate : Option Gate} {node : Str} {state : State} {steps : Nat} {t : Run}
  {o : Except Exn Unit}

theorem followRegion_told (hp : Published initial node state steps h) :
    Ensures generating (fun _ => Told initial) (followRegion g gate node state steps)
      (Rule.Goes (Told initial) fun next t => Told initial t ∧
        (next.2.router? ≠ none → Routable initial node next.1.state t)) h := by
  obtain ⟨ht, delta, hs⟩ := hp
  unfold followRegion
  split
  · refine .andThen (runRegion_told ht) ?_
    rintro (_ | result) t ht
    · exact .ret ht
    · exact .ret ⟨ht, fun hrouter => absurd rfl hrouter⟩
  · exact .ret ⟨ht, fun _ => .inr ⟨steps, delta, hs⟩⟩

-- Every state that a callable is handed was shown to the consumer of the run last.
theorem run_announced (he : Exec generating (run g gate initial) t o) : Told initial t := by
  have hrun : Ensures generating (fun _ => Told initial) (run g gate initial) (fun _ => Told initial) [] := by
    refine Rule.run (I := fun _ _ _ _ => Told initial)
      (J := fun node state steps => Published initial node state steps)
      (K := fun node edge state _ t => Told initial t ∧ (edge.router? ≠ none → Routable initial node state t))
      (route_told always_nil fun _ => .inl ⟨rfl, rfl, calm_nil⟩) ?_ ?_ ?_ ?_ ?_
    · intro state steps _ h ht
      exact .bind (.ofExcept (fun _ _ => .emit (ht.snoc rfl)) fun _ _ => ht)
    · exact fun _ _ _ _ _ ht _ => ht
    · exact fun _ _ _ _ _ ht _ _ => runNode_told ht
    · exact fun _ _ _ _ hp => followRegion_told hp
    · exact fun _ _ _ _ _ hk => route_told hk.1 hk.2
  have hend := hrun t o he
  cases o <;> exact hend

omit [Sha256] in
theorem run_announced_diamond :
    letI := Sha256.verbatim
    let t := ((run .diamond (some ⟨true, true⟩) (State.new "s")).simulate (obliging fun _ => .dict [])).1
    Told (State.new "s") t ∧ (t.filterMap entering?).length = 3 := by
  let := Sha256.verbatim
  intro t
  exact ⟨run_announced (exec_simulate _ _), by decide +kernel⟩

end Run

end PerpetuaCore.Graph.Announcement
