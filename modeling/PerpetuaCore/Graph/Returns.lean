import PerpetuaCore.Graph.Conformance
import PerpetuaCore.Graph.Folding

namespace PerpetuaCore.Graph.Returns

open Interaction
open Python (Str Value Dict)
open Folding (Reduces writers)

-- A node's call that an event ends, on the scheduler's own path or as a branch.
structure Called where
  name : Str
  fn : Fn
  state : State
  reply : Reply

def endedCall? : Event → Option Called
  | .leave (.node name fn state) reply => some ⟨name, fn, state, reply⟩
  | .leave (.branch _ name fn state) reply => some ⟨name, fn, state, reply⟩
  | _ => none

-- The exchanges that end no node's call.
def unending : Op → Prop
  | .leave (.node ..) | .leave (.branch ..) => False
  | _ => True

theorem endedCall?_act {op : Op} {answer : Core.Ans op} (h : unending op) :
    endedCall? (.act (S := Core) op answer) = none := by
  rcases op with _ | _ | _ | _ | _ | (_ | _ | _ | _ | _) | _ <;> first | rfl | exact h.elim

-- Before a node is started again nothing is published and nothing is interrupted.
def Fresh (shown : List GraphObservation) : Prop :=
  Always (fun before observation => (∀ earlier ∈ before, earlier.event.kind ≠ .nodeStart) →
    observation.event.kind ≠ .nodeEnd ∧ observation.event.terminalReason ≠ some .interrupted) shown

theorem Fresh.append {shown shown' : List GraphObservation} (h : Fresh shown) (h' : Fresh shown') :
    Fresh (shown ++ shown') :=
  always_append.mpr ⟨h, h'.mono fun _ _ _ hp hnone =>
    hp fun earlier he => hnone earlier (List.mem_append_right _ he)⟩

-- An observation that publishes nothing and interrupts nothing.
def calm (observation : GraphObservation) : Prop :=
  observation.event.kind ≠ .nodeEnd ∧ observation.event.terminalReason ≠ some .interrupted

theorem fresh_of_calm {shown : List GraphObservation} (h : ∀ observation ∈ shown, calm observation) :
    Fresh shown := by
  rintro before observation after rfl -
  exact h observation (by simp)

theorem Fresh.interrupted {shown : List GraphObservation} {observation : GraphObservation}
    (h : Fresh shown) (hlast : shown.getLast? = some observation)
    (hreason : observation.event.terminalReason = some .interrupted) :
    ∃ earlier ∈ shown, earlier.event.kind = .nodeStart := by
  obtain ⟨before, rfl⟩ := List.getLast?_eq_some_iff.mp hlast
  by_contra hnone
  exact (h before observation [] rfl fun earlier he hkind =>
    hnone ⟨earlier, List.mem_append_left _ he, hkind⟩).2 hreason

-- A callable of the same region asked for an interrupt.
def Echoes (t : Run) : Event → Prop
  | .leave (.branch source _ _ snapshot) _ => ∃ name fn reply exc,
      Event.leave (.branch source name fn snapshot) reply ∈ t ∧
        (reply : Reply).result = .error exc ∧ isInterrupt exc = true
  | _ => False

theorem Echoes.mono {t t' : Run} {e : Event} (h : Echoes t e) (ht : t ⊆ t') : Echoes t' e := by
  unfold Echoes at h ⊢
  split at h
  · obtain ⟨name, fn, reply, exc, hm, hresult⟩ := h
    exact ⟨name, fn, reply, exc, ht hm, hresult⟩
  · exact h

-- What a region's fold made of the deltas its join admitted.
structure Merged (g : CompiledGraph) (source : Str) (snapshot : State) (admitted : List (Str × Delta))
    (merged : Delta) (t : Run) : Prop where
  keys : ∀ branch ∈ admitted, ∀ key ∈ branch.2.keys, key ∈ merged.keys
  values : ∀ field value, merged.get? (.str field) = some value →
    Reduces t source field (snapshot.get field) (writers admitted field)
      ((g.reducers.get? field).getD defaultReducer) value

theorem Merged.mono {g : CompiledGraph} {source : Str} {snapshot : State} {merged : Delta} {t t' : Run}
    {admitted : List (Str × Delta)} (h : Merged g source snapshot admitted merged t) (ht : t ⊆ t') :
    Merged g source snapshot admitted merged t' :=
  ⟨h.keys, fun field value hv => (h.values field value hv).mono ht⟩

-- What is shown once a call has returned `delta`, with what follows it in its own visit or region.
inductive Shows (g : CompiledGraph) (past post : Run) (delta : Delta) :
    Event → List GraphObservation → Prop
  | nothing {e : Event} : Shows g past post delta e []
  | aside {e : Event} {observation : GraphObservation} (hkind : observation.event.kind ≠ .nodeEnd)
      (hreason : observation.event.terminalReason = some .interrupted → Echoes (past ++ post) e) :
      Shows g past post delta e [observation]
  | node {name : Str} {fn : Fn} {state : State} {reply : Reply} {steps : Nat} :
      Shows g past post delta (.leave (.node name fn state) reply)
        [nodeEnded steps (reply.left.update delta) (name, delta)]
  | region {source name : Str} {fn : Fn} {snapshot : State} {reply : Reply} {steps : Nat}
      {admitted : List (Str × Delta)} {merged : Delta} {last : GraphObservation}
      (hkind : last.event.kind ≠ .nodeEnd) (hreason : last.event.terminalReason ≠ some .interrupted)
      (hown : ∀ branch ∈ admitted, branch.1 = name → branch.2 = delta)
      (hmerged : Merged g source snapshot admitted merged post) :
      Shows g past post delta (.leave (.branch source name fn snapshot) reply)
        (admitted.map (nodeEnded steps (snapshot.update merged)) ++ [last])

theorem Shows.extend {g : CompiledGraph} {past post : Run} {delta : Delta} {e : Event}
    {shown : List GraphObservation} (h : Shows g past post delta e shown) (before after : Run) :
    Shows g (before ++ past) (post ++ after) delta e shown := by
  have hpost : post ⊆ post ++ after := List.subset_append_left ..
  cases h with
  | nothing => exact .nothing
  | aside hkind hreason =>
      refine .aside hkind fun hr => (hreason hr).mono ?_
      intro e he
      rcases List.mem_append.mp he with he | he <;> simp [he]
  | node => exact .node
  | region hkind hreason hown hmerged => exact .region hkind hreason hown (hmerged.mono hpost)

-- Where a call has returned a dict: what its visit or region shows of it, then only what may
-- come before another node is started.
def Located (g : CompiledGraph) (t : Run) : Prop :=
  ∀ past e post call items, t = past ++ e :: post → endedCall? e = some call →
    call.reply.result = .ok (.dict items) → ∃ shown rest, observations post = shown ++ rest ∧
      Fresh rest ∧ Shows g past post (Dict.ofList items) e shown

-- A stretch of a run that may follow any other.
structure Sound (g : CompiledGraph) (t : Run) : Prop where
  fresh : Fresh (observations t)
  located : Located g t

theorem Sound.append {g : CompiledGraph} {t u : Run} (h : Sound g t) (h' : Sound g u) :
    Sound g (t ++ u) := by
  refine ⟨by rw [observations_append]; exact h.fresh.append h'.fresh, ?_⟩
  intro past e post call items he hcall hresult
  rcases split_append he with ⟨mid, rfl, rfl⟩ | ⟨mid, rfl, rfl⟩
  · obtain ⟨shown, rest, hshown, hfresh, hshows⟩ := h.located past e mid call items rfl hcall hresult
    have hextended : Shows g ([] ++ past) (mid ++ u) (Dict.ofList items) e shown := hshows.extend [] u
    exact ⟨shown, rest ++ observations u, by simp [hshown], hfresh.append h'.fresh, hextended⟩
  · obtain ⟨shown, rest, hshown, hfresh, hshows⟩ := h'.located mid e post call items rfl hcall hresult
    have hextended : Shows g (t ++ mid) (post ++ []) (Dict.ofList items) e shown := hshows.extend t []
    rw [List.append_nil] at hextended
    exact ⟨shown, rest, hshown, hfresh, hextended⟩

-- No node's call ends here.
def Unending (t : Run) : Prop := ∀ e ∈ t, endedCall? e = none

theorem Unending.sound {g : CompiledGraph} {t : Run} (h : Unending t) (hf : Fresh (observations t)) :
    Sound g t := by
  refine ⟨hf, ?_⟩
  rintro past e post call items rfl hcall -
  exact absurd ((h e (by simp)).symm.trans hcall) nofun

theorem unending_nil : Unending [] := List.forall_mem_nil _

theorem sound_nil {g : CompiledGraph} : Sound g [] := unending_nil.sound always_nil

theorem unending_append {t u : Run} : Unending (t ++ u) ↔ Unending t ∧ Unending u := by
  simp only [Unending, List.mem_append, or_imp, forall_and]

theorem unending_of_does {α : Type} {Q : GraphObservation → Prop} {p : Scheduler α} {t : Run}
    {o : Except Exn α} (he : Exec generating p t o) (hp : p.Asks (Does unending Q)) :
    Unending t ∧ ∀ observation ∈ observations t, Q observation := by
  obtain ⟨hacts, hshown⟩ := Does.events he hp
  refine ⟨fun e hm => ?_, hshown⟩
  cases e with
  | emit observation => rfl
  | act op answer => exact endedCall?_act (hacts op answer hm)

-- What neither calls nor asks for a node ends no call.
theorem unending_of_aside {α : Type} {Q : GraphObservation → Prop} {p : Scheduler α} {t : Run}
    {o : Except Exn α} (he : Exec generating p t o) (hp : p.Asks (Does aside Q)) : Unending t := by
  refine (unending_of_does he (Does.mono hp (fun op h => ?_) fun _ h => h)).1
  rcases op with _ | _ | _ | _ | _ | (_ | _ | _ | _ | _) | _ <;> first | exact h | trivial

section Stretches

variable {g : CompiledGraph} {gate : Option Gate} {h t : Run} {node source batchId : Str} {state : State}
  {steps : Nat}

theorem sound_of_calm {α : Type} {p : Scheduler α} {o : Except Exn α} (he : Exec generating p t o)
    (hp : p.Asks (Does unending calm)) : Sound g t := by
  obtain ⟨hunending, hcalm⟩ := unending_of_does he hp
  exact hunending.sound (fresh_of_calm hcalm)

theorem stopped_calm {d : GateDecision} {observation : GraphObservation}
    (h : stopped state node steps d = .ok observation) : calm observation := by
  obtain ⟨closed, -, rfl⟩ := stopped_eq h
  exact ⟨nofun, nofun⟩

theorem orStop_calm {α : Type} {decision : Option GateDecision} {next : Scheduler (Option α)}
    (hnext : next.Asks (Does unending calm)) :
    (orStop state node steps decision next).Asks (Does unending calm) := by
  cases decision with
  | none => exact hnext
  | some decision =>
      refine .andThen (.ofExcept _) (.ofExcept fun _ h => h) fun observation ho => ?_
      exact .bind (Does.emit (stopped_calm ho)) fun _ => trivial

theorem route_does {edge : Edge} :
    (route g gate source edge state steps).Asks (Does unending calm) := by
  refine .bind (Does.lift (dispatch_asks trivial)) fun asked => orStop_calm ?_
  refine .bind (Does.lift (beforeStart_asks fun _ _ => trivial)) fun _ => ?_
  refine .bind (Does.lift (resolveEdge_asks fun _ _ => ⟨trivial, trivial⟩)) fun taken => ?_
  exact .bind (Does.emit ⟨nofun, nofun⟩) fun _ => trivial

theorem finish_does : (finish state steps).Asks (Does unending calm) :=
  .bind (.ofExcept _) fun _ => Does.emit ⟨nofun, nofun⟩

-- A node was started, and no call has returned since.
structure Begun (t : Run) : Prop where
  unending : Unending t
  started : ∃ before observation rest, observations t = before ++ observation :: rest ∧
    (∀ earlier ∈ before, calm earlier) ∧ observation.event.kind = .nodeStart ∧ calm observation

theorem Begun.append {u : Run} (hb : Begun t) (hu : Unending u) : Begun (t ++ u) := by
  obtain ⟨before, observation, rest, hshown, hstarted⟩ := hb.started
  exact ⟨unending_append.mpr ⟨hb.unending, hu⟩, before, observation, rest ++ observations u,
    by simp [hshown], hstarted⟩

-- After a start anything may be shown.
theorem Begun.fresh {u : Run} (hb : Begun t) : Fresh (observations (t ++ u)) := by
  obtain ⟨before, observation, rest, hshown, hcalm, hkind, hobservation⟩ := hb.started
  rw [observations_append, hshown, List.append_assoc, List.cons_append]
  intro pre later post he hnone
  rcases split_append he with ⟨mid, rfl, -⟩ | ⟨_ | ⟨first, mid⟩, rfl, hrest⟩
  · exact hcalm later (by simp)
  · exact (List.cons.inj hrest).1 ▸ hobservation
  · obtain ⟨rfl, -⟩ := List.cons.inj hrest
    exact absurd hkind (hnone observation (by simp))

theorem Begun.sound (hb : Begun t) : Sound g t :=
  hb.unending.sound (by simpa using hb.fresh (u := []))

-- The one call that returned in a stretch.
theorem Begun.returned {v : Run} {e : Event} {call : Called} (hb : Begun t)
    (hcall : endedCall? e = some call) (hv : Unending v)
    (hshows : ∀ items, call.reply.result = .ok (.dict items) →
      Shows g t v (Dict.ofList items) e (observations v)) : Sound g (t ++ e :: v) := by
  refine ⟨hb.fresh, ?_⟩
  intro past e' post call' items he hcall' hresult
  have hends : endedCall? e' ≠ none := by simp [hcall']
  obtain ⟨rfl, rfl, rfl⟩ := split_unique (p := (endedCall? · ≠ none)) he
    (fun x hx hne => hne (hb.unending x hx)) (fun x hx hne => hne (hv x hx)) hends
  obtain rfl := Option.some.inj (hcall.symm.trans hcall')
  exact ⟨observations post, [], by simp, always_nil, hshows items hresult⟩

abbrev Raises (g : CompiledGraph) (_ : Exn) (t : Run) : Prop := Sound g t

theorem begins {α : Type} {p : Step α} (hb : Begun h) (hp : p.Asks unending) :
    Ensures acting (Raises g) p (fun _ t => Begun t) h :=
  (Ensures.asks hp (fun _ _ _ hop hb => hb.append fun _ he =>
    List.mem_singleton.mp he ▸ endedCall?_act hop) hb).mono (fun _ _ hb => hb) fun _ _ hb => hb.sound

theorem orStop_begun {α : Type} {decision : Option GateDecision} {next : Scheduler (Option α)}
    (hb : Begun h) (hnext : Ensures generating (Raises g) next (fun _ t => Sound g t) h) :
    Ensures generating (Raises g) (orStop state node steps decision next) (fun _ t => Sound g t) h :=
  Rule.orStop (fun _ => hnext) (fun _ _ _ _ => (hb.append (List.forall_mem_singleton.mpr rfl)).sound)
    fun _ _ _ => hb.sound

section Node

variable [Sha256] {items : List (Value × Value)} {reply : Reply}

-- What a node's own visit shows once it has returned `delta`.
def Published (node : Str) (reply : Reply) (delta : Delta) (shown : List GraphObservation) : Prop :=
  shown = [] ∨ (∃ observation, shown = [observation] ∧ calm observation) ∨
    ∃ steps, shown = [nodeEnded steps (reply.left.update delta) (node, delta)]

omit [Sha256] in
theorem mute {α : Type} {delta : Delta} {p : Step α} (ho : observations h = []) :
    Ensures acting (fun _ t => Published node reply delta (observations t)) p
      (fun _ t => observations t = []) h :=
  (Ensures.still (P := (· = [])) ho).mono (fun _ _ ho => ho) fun _ _ ho => .inl ho

theorem finishNode_published (hresult : reply.result = .ok (.dict items)) :
    Ensures generating (fun _ t => Published node reply (Dict.ofList items) (observations t))
      (finishNode gate node steps reply)
      (fun _ t => Published node reply (Dict.ofList items) (observations t)) [] := by
  unfold finishNode
  rw [hresult]
  refine .bind (.ofExcept (fun delta hdelta => ?_) fun _ _ => .inl rfl)
  obtain rfl := Except.ok.inj hdelta
  refine .bind (.ofExcept (fun detached hdetach => ?_) fun _ _ => .inl rfl)
  obtain rfl := detach_eq hdetach
  refine .andThen (.lift (mute rfl)) fun asked t ho => ?_
  refine Rule.orStop (fun _ => ?_) (fun _ observation _ hobs => ?_) fun _ _ _ => .inl ho
  · refine .bind (.ofExcept (fun merged hm => ?_) fun _ _ => .inl ho)
    refine .andThen (.lift (mute ho)) fun settlement t ho => ?_
    have hended : Published node reply (Dict.ofList items)
        (observations (t ++ [.emit (nodeEnded (steps + 1) merged (node, Dict.ofList items))])) := by
      rw [State.merge_eq_update hm]
      exact .inr (.inr ⟨steps + 1, by simp [ho]⟩)
    exact .bind (.emit (.bind (.ofExcept (fun _ _ => .ret hended) fun _ _ => hended)))
  · exact .inr (.inl ⟨observation, by simp [ho], stopped_calm hobs⟩)

omit [Sha256] in
theorem Published.shows {name : Str} {fn : Fn} {past post : Run} {delta : Delta}
    {shown : List GraphObservation} (hp : Published name reply delta shown) :
    Shows g past post delta (.leave (.node name fn state) reply) shown := by
  rcases hp with rfl | ⟨observation, rfl, hcalm⟩ | ⟨steps, rfl⟩
  · exact .nothing
  · exact .aside hcalm.1 fun hreason => absurd hreason hcalm.2
  · exact .node

theorem runNode_sound {o : Except Exn (Option State)}
    (he : Exec generating (runNode g gate node state steps) t o) : Sound g t := by
  have hrun : Ensures generating (Raises g) (runNode g gate node state steps) (fun _ t => Sound g t) [] := by
    refine .bind (.ofExcept (fun fn _ => ?_) fun _ _ => sound_nil)
    refine .bind (.ofExcept (fun visited _ => ?_) fun _ _ => sound_nil)
    have hb : Begun ([] ++ [.emit (nodeStarted steps visited node)]) :=
      ⟨List.forall_mem_singleton.mpr rfl, [], _, [], rfl, List.forall_mem_nil _, rfl, nofun, nofun⟩
    refine .bind (.emit ?_)
    refine .andThen (.lift (begins hb (dispatch_asks trivial))) fun asked t hb => orStop_begun hb ?_
    refine .andThen (.lift (begins hb (beforeStart_asks fun _ _ => trivial))) fun _ t hb => ?_
    refine .bind (.lift (Rule.invoke fun reply v o he => ?_))
    have hentered : Begun (t ++ [Event.enter (.node node fn visited)]) :=
      hb.append (List.forall_mem_singleton.mpr rfl)
    have hv := unending_of_aside he finishNode_does
    have hsound : Sound g (t ++ [Event.enter (.node node fn visited)] ++
        Event.leave (.node node fn visited) reply :: v) := by
      refine hentered.returned rfl hv fun items hresult => ?_
      have hpublished := finishNode_published hresult v o he
      cases o <;> exact hpublished.shows
    rw [List.append_assoc] at hsound ⊢
    cases o <;> exact hsound
  have hend := hrun t o he
  cases o <;> exact hend

end Node

section Region

variable {snapshot : State} {name : Str} {settled : List Settled}

-- The delta with which a branch's call settles.
def supplied? : Event → Option (Str × Delta)
  | .leave (.branch _ name _ _) reply =>
      (reply : Reply).result.toOption.bind fun value => ((requireDelta name value).toOption.map (name, ·))
  | _ => none

-- What a branch's own run tells of how it settles.
structure Settles (source : Str) (snapshot : State) (name : Str) (item : Settled) (t : Run) : Prop where
  supplied : t.filterMap supplied? = (item.outcome.toOption.map (item.name, ·)).toList
  echoes : ∀ exc, item.error? = some exc → isInterrupt exc = true →
    ∃ name fn reply, Event.leave (.branch source name fn snapshot) reply ∈ t ∧
      (reply : Reply).result = .error exc

theorem Unending.supplied (h : Unending t) : t.filterMap supplied? = [] := by
  refine List.filterMap_eq_nil_iff.mpr fun e he => ?_
  have hnone := h e he
  unfold supplied?
  split
  · cases hnone
  · rfl

theorem settles_error {exc : Exn} (h : Unending t) (hexc : isInterrupt exc = false) :
    Settles source snapshot name ⟨name, .error exc⟩ t := by
  refine ⟨h.supplied, fun exc' herror hinterrupt => ?_⟩
  obtain rfl := Option.some.inj herror
  cases hexc.symm.trans hinterrupt

theorem requireDelta_calm {value : Value} {exc : Exn} (h : requireDelta name value = .error exc) :
    isInterrupt exc = false := by
  cases value <;> cases h <;> rfl

theorem nodeFor_calm {exc : Exn} (h : nodeFor g name = .error exc) : isInterrupt exc = false := by
  unfold nodeFor at h
  split at h <;> cases h
  rfl

theorem runBranch_settles (hh : Unending h) :
    Ensures acting (fun _ _ => True) (runBranch g source snapshot name)
      (fun item t => Settles source snapshot name item t) h := by
  unfold runBranch
  cases hnode : nodeFor g name with
  | error exc => exact .ret (settles_error hh (nodeFor_calm hnode))
  | ok fn =>
      refine .bind (Rule.invoke fun reply => ?_)
      have hleave : (h ++ [Event.enter (.branch source name fn snapshot),
          Event.leave (.branch source name fn snapshot) reply]).filterMap supplied? =
          (reply.result.toOption.bind fun value => (requireDelta name value).toOption.map (name, ·)).toList := by
        rw [List.filterMap_append, hh.supplied, List.nil_append, List.filterMap_cons_none rfl]
        cases hs : supplied? (Event.leave (.branch source name fn snapshot) reply) with
        | none =>
            rw [List.filterMap_cons_none hs]
            exact congrArg Option.toList hs.symm
        | some branch =>
            rw [List.filterMap_cons_some hs]
            exact congrArg Option.toList hs.symm
      split
      · rename_i exc hresult
        split_ifs
        · refine .ret ⟨?_, fun exc' herror _ => ⟨name, fn, reply, by simp, ?_⟩⟩
          · rw [hleave, hresult]
            rfl
          · exact hresult.trans (congrArg _ (Option.some.inj herror))
        · exact .raise trivial
      · rename_i value hresult
        refine .ret ⟨?_, fun exc herror hinterrupt => ?_⟩
        · rw [hleave, hresult]
          rfl
        · cases hdelta : requireDelta name value with
          | ok delta =>
              rw [hdelta] at herror
              cases herror
          | error exc' =>
              rw [hdelta] at herror
              obtain rfl := Option.some.inj herror
              cases (requireDelta_calm hdelta).symm.trans hinterrupt

theorem branchCall_settles :
    Ensures acting (fun _ _ => True) (branchCall g gate source batchId snapshot steps name)
      (fun item t => Settles source snapshot name item t) [] := by
  have hquiet : ∀ {α : Type} {p : Step α} {h : Run}, Unending h → p.Asks unending →
      Ensures acting (fun _ _ => True) p (fun _ t => Unending t) h :=
    fun hh hp => (Ensures.asks hp (fun _ _ _ hop hh => unending_append.mpr ⟨hh, fun _ he =>
      List.mem_singleton.mp he ▸ endedCall?_act hop⟩) hh).mono (fun _ _ hh => hh) fun _ _ _ => trivial
  unfold branchCall
  split_ifs
  · refine .andThen (hquiet unending_nil (attemptException_asks (dispatch_asks trivial))) ?_
    rintro (exc | ⟨_ | decision, request⟩) t ht
    · exact .ret (settles_error ht rfl)
    · refine .andThen (hquiet ht (attemptException_asks (beforeStart_asks fun _ _ => trivial))) ?_
      rintro (exc | _) t ht
      · exact .ret (settles_error ht rfl)
      · exact runBranch_settles ht
    · exact .ret (settles_error ht rfl)
  · exact runBranch_settles unending_nil

-- What a region shows once its branches have settled.
inductive Concludes (g : CompiledGraph) (source : Str) (snapshot : State) (settled : List Settled)
    (t : Run) : List GraphObservation → Prop
  | nothing : Concludes g source snapshot settled t []
  | aside {observation : GraphObservation} (hkind : observation.event.kind ≠ .nodeEnd)
      (hreason : observation.event.terminalReason = some .interrupted →
        ∃ name exc, firstInterrupt settled = some (name, exc)) :
      Concludes g source snapshot settled t [observation]
  | published {steps : Nat} {admitted : List (Str × Delta)} {merged : Delta} {last : GraphObservation}
      (hkind : last.event.kind ≠ .nodeEnd) (hreason : last.event.terminalReason ≠ some .interrupted)
      (hadmitted : admitted.Sublist (succeeded settled))
      (hmerged : Merged g source snapshot admitted merged t) :
      Concludes g source snapshot settled t
        (admitted.map (nodeEnded steps (snapshot.update merged)) ++ [last])

abbrev Concluded (g : CompiledGraph) (source : Str) (snapshot : State) (settled : List Settled)
    (t : Run) : Prop := Concludes g source snapshot settled t (observations t)

theorem concluded_nil (ho : observations t = []) : Concluded g source snapshot settled t := by
  rw [Concluded, ho]
  exact .nothing

theorem silently {α : Type} {p : Step α} (ho : observations h = []) :
    Ensures acting (fun _ t => Concluded g source snapshot settled t) p
      (fun _ t => observations t = []) h :=
  (Ensures.still (P := (· = [])) ho).mono (fun _ _ ho => ho) fun _ _ ho => concluded_nil ho

theorem silently_merged {α : Type} {p : Step α} {admitted : List (Str × Delta)} {merged : Delta}
    (ho : observations h = []) (hm : Merged g source snapshot admitted merged h) :
    Ensures acting (fun _ t => Concluded g source snapshot settled t) p
      (fun _ t => observations t = [] ∧ Merged g source snapshot admitted merged t) h := by
  intro t o he
  have hsilent : Ensures acting (fun _ t => Concluded g source snapshot settled t) p
      (fun _ t => observations t = []) h := silently ho
  have hend := hsilent t o he
  cases o with
  | ok value => exact ⟨hend, hm.mono (List.subset_append_left h t)⟩
  | error error => exact hend

theorem orStop_concluded {α : Type} {decision : Option GateDecision} {next : Scheduler (Option α)}
    (ho : observations h = [])
    (hnext : decision = none → Ensures generating (fun _ t => Concluded g source snapshot settled t) next
      (fun _ t => Concluded g source snapshot settled t) h) :
    Ensures generating (fun _ t => Concluded g source snapshot settled t)
      (orStop state node steps decision next) (fun _ t => Concluded g source snapshot settled t) h := by
  refine Rule.orStop hnext (fun d observation _ hobs => ?_) fun _ _ _ => concluded_nil ho
  obtain ⟨hkind, hreason⟩ := stopped_calm hobs
  rw [Concluded, observations_append, ho]
  exact .aside hkind fun h => absurd h hreason

theorem joinRegion_concludes [Sha256] {edge : FanOut} :
    Ensures generating (fun _ t => Concluded g source snapshot settled t)
      (joinRegion g gate source edge state snapshot steps batchId settled)
      (fun _ t => Concluded g source snapshot settled t) [] := by
  have hnil : observations ([] : Run) = [] := rfl
  refine .bind (.ofExcept (fun verdict _ => orStop_concluded hnil fun _ => ?_) fun _ _ => concluded_nil hnil)
  split
  · rename_i name exc hfirst
    refine .bind (.ofExcept (fun closed _ => .bind (.emit (.ret ?_))) fun _ _ => concluded_nil hnil)
    exact .aside nofun fun _ => ⟨name, exc, hfirst⟩
  · refine .andThen (.lift (silently hnil)) fun asked t ho => orStop_concluded ho fun _ => ?_
    refine .andThen (.lift (silently ho)) fun _ t ho => ?_
    refine .andThen (.lift ((silently ho).and (.returns admit_returns))) fun admitted t ⟨ho, hadmitted⟩ => ?_
    refine .andThen (.lift (silently ho)) fun asked t ho => orStop_concluded ho fun _ => ?_
    have hfold : Ensures acting (fun _ t => Concluded g source snapshot settled t)
        (catchBoundaryStop (fold g gate source snapshot admitted asked.2))
        (fun folded t => observations t = [] ∧ ∀ result, folded = .ok result →
          Merged g source snapshot admitted result.1 t) t := by
      refine Rule.catchBoundaryStop (((Ensures.still (P := (· = [])) ho).and Folding.fold_folded).mono ?_
        fun _ _ ho => ⟨concluded_nil ho, fun _ _ => ⟨ho, nofun⟩⟩)
      rintro result t ⟨ho, fields, hfields, hfolded⟩
      refine ⟨ho, ?_⟩
      rintro _ ⟨⟩
      refine ⟨fun branch hbranch key hkey => (hfolded.keys key).mpr ?_, hfolded.values⟩
      exact (hfields key).mpr ⟨branch, hbranch, hkey⟩
    refine .andThen (.lift hfold) ?_
    rintro (decision | ⟨folded, provenance⟩) t ⟨ho, hm⟩
    · exact orStop_concluded ho nofun
    · refine .bind (.ofExcept (fun merged hdetach => ?_) fun _ _ => concluded_nil ho)
      obtain rfl := detach_eq hdetach
      refine .andThen (.lift (silently_merged ho (hm _ rfl))) fun asked t ⟨ho, hm⟩ =>
        orStop_concluded ho fun _ => ?_
      refine .bind (.ofExcept (fun committed hcommitted => ?_) fun _ _ => concluded_nil ho)
      obtain rfl := State.merge_eq_update hcommitted
      refine .andThen (.lift (silently_merged ho hm)) fun settlement t ⟨ho, hm⟩ => ?_
      refine .bind (.emitAll (.bind (.emit ?_)))
      have hpublished : Concluded g source snapshot settled (t ++
          admitted.map (fun item => .emit (nodeEnded (steps + settled.countP Settled.ok)
            (snapshot.update merged) item)) ++
          [.emit (superstepCommitted source edge (steps + settled.countP Settled.ok)
            (admitted.map Prod.fst) (snapshot.update merged) merged provenance)]) := by
        rw [Concluded, observations_append, observations_append, ho, observations_emits]
        refine .published nofun nofun hadmitted (hm.mono ?_)
        rw [List.append_assoc]
        exact List.subset_append_left ..
      exact .bind (.ofExcept (fun _ _ => .ret hpublished) fun _ _ => hpublished)

section Settled

variable {branches : List Str} {outcomes : List (Except Exn Settled)} {u : Run}

-- Of all node calls only those of the region's branches, on its snapshot.
def branchEnding (source : Str) (snapshot : State) : Op → Prop
  | .leave (.node ..) => False
  | .leave (.branch region _ _ handed) => region = source ∧ handed = snapshot
  | _ => True

theorem settled_own
    (hi : Interleaved acting (branches.map (branchCall g gate source batchId snapshot steps)) u outcomes) :
    ∀ e ∈ u, ∀ call, endedCall? e = some call →
      e = .leave (.branch source call.name call.fn snapshot) call.reply := by
  intro e he call hcall
  obtain ⟨op, answer, rfl, hop⟩ := interleaved_asks hi (P := branchEnding source snapshot) (fun p hp => by
    obtain ⟨name, -, rfl⟩ := List.mem_map.mp hp
    exact branchCall_asks trivial (fun _ => trivial) fun _ => ⟨trivial, rfl, rfl⟩) e he
  cases op with
  | leave callable =>
      cases callable with
      | node => exact False.elim hop
      | branch region name fn handed =>
          obtain ⟨rfl, rfl⟩ : region = source ∧ handed = snapshot := hop
          obtain rfl := Option.some.inj hcall
          rfl
      | _ => cases hcall
  | _ => cases hcall

-- A branch that returned a dict has settled with it, and with nothing else.
theorem succeeded_own {settled : List Settled} (hn : branches.Nodup)
    (hi : Interleaved acting (branches.map (branchCall g gate source batchId snapshot steps)) u
      (settled.map .ok)) {name : Str} {fn : Fn} {reply : Reply} {items : List (Value × Value)}
    (he : Event.leave (.branch source name fn snapshot) reply ∈ u)
    (hresult : reply.result = .ok (.dict items)) :
    ∀ branch ∈ succeeded settled, branch.1 = name → branch.2 = Dict.ofList items := by
  have hperm : (u.filterMap supplied?).Perm (succeeded settled) := by
    refine hi.filterMap_perm (fun p hp s item hs => ?_) rfl
    obtain ⟨name, -, rfl⟩ := List.mem_map.mp hp
    exact (branchCall_settles s _ hs).supplied
  have hmem : (name, Dict.ofList items) ∈ succeeded settled := by
    refine hperm.mem_iff.mp (List.mem_filterMap.mpr ⟨_, he, ?_⟩)
    change (reply.result.toOption.bind fun value => (requireDelta name value).toOption.map (name, ·)) = _
    rw [hresult]
    rfl
  have hnames : ((succeeded settled).map Prod.fst).Nodup :=
    (Protocol.settled_names hi ▸ hn).sublist Protocol.succeeded_names
  intro branch hbranch hname
  have hsame := List.inj_on_of_nodup_map hnames hbranch hmem hname
  exact congrArg Prod.snd hsame

theorem firstInterrupt_echoes {settled : List Settled}
    (hi : Interleaved acting (branches.map (branchCall g gate source batchId snapshot steps)) u
      (settled.map .ok)) {name : Str} {exc : Exn} (h : firstInterrupt settled = some (name, exc)) :
    ∃ name fn reply exc, Event.leave (.branch source name fn snapshot) reply ∈ u ∧
      (reply : Reply).result = .error exc ∧ isInterrupt exc = true := by
  obtain ⟨item, hitem, herror⟩ := List.mem_filterMap.mp (List.mem_of_head? h)
  obtain ⟨exc', hfilter, -⟩ := Option.map_eq_some_iff.mp herror
  obtain ⟨herror, hinterrupt⟩ := Option.filter_eq_some_iff.mp hfilter
  obtain ⟨p, hp, s, hs, hsub⟩ := hi.exists_of_outcome (List.mem_map_of_mem hitem)
  obtain ⟨name', -, rfl⟩ := List.mem_map.mp hp
  obtain ⟨name'', fn, reply, hm, hresult⟩ := (branchCall_settles s _ hs).echoes exc' herror hinterrupt
  exact ⟨name'', fn, reply, exc', hsub.subset hm, hresult, hinterrupt⟩

-- The calls that returned in a region.
theorem Begun.region {j : Run} (hb : Begun t)
    (hi : Interleaved acting (branches.map (branchCall g gate source batchId snapshot steps)) u outcomes)
    (hj : Unending j)
    (hshows : ∀ past post name fn reply items,
      u = past ++ Event.leave (.branch source name fn snapshot) reply :: post →
        (reply : Reply).result = .ok (.dict items) →
        Shows g (t ++ past) (post ++ j) (Dict.ofList items)
          (.leave (.branch source name fn snapshot) reply) (observations j)) :
    Sound g (t ++ u ++ j) := by
  refine ⟨by rw [List.append_assoc]; exact hb.fresh, ?_⟩
  intro past e post call items he hcall hresult
  rcases split_append he with ⟨mid, hmid, rfl⟩ | ⟨mid, -, rfl⟩
  · rcases split_append hmid with ⟨mid', rfl, -⟩ | ⟨mid', rfl, rfl⟩
    · exact absurd ((hb.unending e (by simp)).symm.trans hcall) nofun
    · have hown := settled_own hi e (by simp) call hcall
      subst hown
      have hquiet := interleaved_observations hi
      have hmid : observations mid = [] := by
        rw [observations_append] at hquiet
        exact (List.append_eq_nil_iff.mp hquiet).2
      exact ⟨observations j, [], by simp [hmid], always_nil,
        hshows mid' mid _ _ _ items rfl hresult⟩
  · exact absurd ((hj e (by simp)).symm.trans hcall) nofun

end Settled

variable [Sha256] {edge : FanOut}

omit [Sha256] in
-- A region has branches, so that one of them starts.
theorem announce_begun :
    Ensures generating (Raises g) (announce source edge snapshot steps) (fun _ t => Begun t) [] := by
  obtain ⟨name, rest, hbranches⟩ : ∃ name rest, edge.branches = name :: rest :=
    List.exists_cons_of_length_pos (by have := edge.two; omega)
  refine .bind (.emit (.emitAll ⟨?_, [superstepStarted source edge steps snapshot],
    nodeStarted steps snapshot name, rest.map (nodeStarted steps snapshot), by simp [hbranches], ?_, rfl,
    nofun, nofun⟩))
  · intro e he
    rcases List.mem_append.mp he with he | he
    · obtain rfl := List.mem_singleton.mp he
      rfl
    · obtain ⟨name, -, rfl⟩ := List.mem_map.mp he
      rfl
  · exact List.forall_mem_singleton.mpr ⟨nofun, nofun⟩

theorem settled_sound (hb : Begun h) :
    Ensures generating (Raises g)
      ((settle g gate source edge.branches batchId snapshot steps).bind fun settled =>
        joinRegion g gate source edge state snapshot steps batchId settled) (fun _ t => Sound g t) h := by
  have hn : edge.branches.Nodup := edge.ascending.imp fun h => h.ne
  refine .bind (.bind (.fork fun u outcomes hi => .ofExcept (fun settled hr j o he => ?_) fun _ _ => ?_))
  · rw [results_ok hr] at hi
    have hj := unending_of_aside he joinRegion_does
    have hconcludes : Concludes g source snapshot settled j (observations j) := by
      have hend := joinRegion_concludes j o he
      cases o <;> exact hend
    have hsound : Sound g (h ++ u ++ j) := by
      refine hb.region hi hj fun past post name fn reply items hu hresult => ?_
      have hmem : Event.leave (.branch source name fn snapshot) reply ∈ u := by simp [hu]
      generalize observations j = shown at hconcludes ⊢
      cases hconcludes with
      | nothing => exact .nothing
      | aside hkind hreason =>
          refine .aside hkind fun hr => ?_
          obtain ⟨_, _, hfirst⟩ := hreason hr
          obtain ⟨name', fn', reply', exc, hm, herror, hexc⟩ := firstInterrupt_echoes hi hfirst
          refine ⟨name', fn', reply', exc, ?_, herror, hexc⟩
          rw [hu] at hm
          rcases List.mem_append.mp hm with hm | hm
          · simp [hm]
          · rcases List.mem_cons.mp hm with hm | hm
            · cases hm
              cases herror.symm.trans hresult
            · simp [hm]
      | published hkind hreason hadmitted hmerged =>
          refine .region hkind hreason (fun branch hbranch => ?_) (hmerged.mono (List.subset_append_right ..))
          exact succeeded_own hn hi hmem hresult branch (hadmitted.subset hbranch)
    cases o <;> exact hsound
  · have hsound : Sound g (h ++ u ++ []) := by
      refine hb.region hi unending_nil fun past post name fn reply items _ _ => ?_
      exact .nothing
    rwa [List.append_nil] at hsound

theorem runRegion_sound {o : Except Exn (Option (RegionResult steps))}
    (he : Exec generating (runRegion g gate source edge state steps) t o) : Sound g t := by
  have hrun : Ensures generating (Raises g) (runRegion g gate source edge state steps)
      (fun _ t => Sound g t) [] := by
    refine .bind (.ofExcept (fun snapshot _ => ?_) fun _ _ => sound_nil)
    refine .andThen announce_begun fun _ t hb => ?_
    refine .andThen (.lift (begins hb (.call trivial))) fun batchId t hb => ?_
    refine .andThen (.lift (begins hb (dispatch_asks trivial))) fun asked t hb => orStop_begun hb ?_
    exact settled_sound hb
  have hend := hrun t o he
  cases o <;> exact hend

theorem followRegion_sound {o : Except Exn (Option (RegionResult steps × Edge))}
    (he : Exec generating (followRegion g gate node state steps) t o) : Sound g t := by
  unfold followRegion at he
  split at he
  · rcases exec_bind he with ⟨s, u, result, rfl, hregion, hrest⟩ | ⟨exc, hregion, -⟩
    · obtain ⟨rfl, -⟩ := exec_ret hrest
      rw [List.append_nil]
      exact runRegion_sound hregion
    · exact runRegion_sound hregion
  · obtain ⟨rfl, -⟩ := exec_ret he
    exact sound_nil

end Region

-- What follows a sound stretch is one in itself.
theorem Sound.andThen {α : Type} {p : Scheduler α} (hh : Sound g h)
    (hp : ∀ u o, Exec generating p u o → Sound g u) :
    Ensures generating (Raises g) p (fun _ t => Sound g t) h := by
  intro u o he
  have hsound := hh.append (hp u o he)
  cases o <;> exact hsound

theorem run_sound [Sha256] {init : State} {o : Except Exn Unit}
    (he : Exec generating (run g gate init) t o) : Sound g t := by
  have hgoes : ∀ {α : Type} {p : Scheduler (Option α)} {h : Run}, Sound g h →
      (∀ u o, Exec generating p u o → Sound g u) →
      Ensures generating (Raises g) p (Rule.Goes (Sound g) fun _ => Sound g) h :=
    fun hh hp => (hh.andThen hp).mono (fun next _ hs => by cases next <;> exact hs) fun _ _ hs => hs
  have hroute : ∀ {node edge state steps u o},
      Exec generating (route g gate node edge state steps) u o → Sound g u :=
    fun he => sound_of_calm he route_does
  have hrun : Ensures generating (Raises g) (run g gate init) (fun _ t => Sound g t) [] := by
    refine Rule.run (I := fun _ _ _ _ => Sound g) (J := fun _ _ _ => Sound g) (K := fun _ _ _ _ => Sound g)
      ?_ ?_ ?_ ?_ ?_ ?_
    · exact hgoes sound_nil fun _ _ => hroute
    · exact fun _ _ _ _ hs => hs.andThen fun _ _ he => sound_of_calm he finish_does
    · exact fun _ _ _ _ _ hs _ => hs
    · exact fun _ _ _ _ _ hs _ _ => hgoes hs fun _ _ => runNode_sound
    · exact fun _ _ _ _ hs => hgoes hs fun _ _ => followRegion_sound
    · exact fun _ _ _ _ _ hs => hgoes hs fun _ _ => hroute
  have hend := hrun t o he
  cases o <;> exact hend

end Stretches

end PerpetuaCore.Graph.Returns
