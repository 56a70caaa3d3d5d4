import PerpetuaCore.Graph.Isolation
import PerpetuaCore.Interaction.Erasure
import PerpetuaCore.Interaction.Relational

namespace PerpetuaCore.Graph.Transparency

open Interaction
open Python (Str Value Dict)

-- A gate that answers allow everywhere, and whose hooks do not fail.
def allowed : Settles Core
  | .beforeDispatch _ | .beforeCommit _ => some (.decided .allow)
  | .beforeStart _ | .afterCommit _ => some .done
  | .enter _ | .leave _ | .tokenUrlsafe => none

-- `json.dumps` accepts the delta.
def canonical (delta : Delta) : Bool := (Json.dumpsAscii (.dict delta.items)).isSome

-- A delta that can be published, but not as canonical JSON: one of a linear node, or the folded
-- one of a region.
def Uncanonical : Event → Prop
  | .leave (.node ..) reply => ∃ items, (reply : Reply).result = .ok (.dict items) ∧
      State.itemsCopy (Dict.ofList items).items = true ∧ canonical (Dict.ofList items) = false
  | .emit observation => observation.event.kind = .superstepCommit ∧
      ∃ delta, observation.delta = some delta ∧ canonical delta = false
  | _ => False

section Steps

variable {α : Type} {g : CompiledGraph} {gate : Gate} {source : Str} {snapshot : State}

theorem dispatch_allowed (gate : Gate) (edge : Option Edge) (boundary : DispatchBoundary)
    (nodes : List Str) (steps : Nat) (source batchId : Option Str) :
    ∃ request, (dispatch (some gate) edge boundary nodes steps source batchId).assume allowed =
      .ret (none, request) := by
  unfold dispatch
  dsimp only
  split_ifs
  · exact ⟨none, rfl⟩
  · exact ⟨_, rfl⟩

theorem beforeStart_allowed (gate : Option Gate) (request : Option DispatchRequest) :
    (beforeStart gate request).assume allowed = .ret () := by
  cases request with
  | none => rfl
  | some request =>
      unfold beforeStart
      dsimp only
      split_ifs <;> rfl

theorem afterCommit_allowed (gate : Option Gate) (request : Option CommitRequest) :
    (afterCommit gate request).assume allowed = .ret () := by
  cases request with
  | none => rfl
  | some request =>
      unfold afterCommit
      dsimp only
      split_ifs <;> rfl

theorem commit_allowed [Sha256] (gate : Gate) {delta : Delta} (h : canonical delta = true)
    (boundary : CommitBoundary) (nodes : List Str) (steps : Nat) (source batchId : Option Str) :
    ∃ request, (commit (some gate) boundary nodes steps source batchId delta).assume allowed =
      .ret (none, request) := by
  obtain ⟨encoded, hencoded⟩ := Option.isSome_iff_exists.mp h
  have hdigest : deltaDigest delta = .ok (Sha256.hexdigest encoded) := by rw [deltaDigest, hencoded]
  unfold commit
  dsimp only
  rw [hdigest]
  exact ⟨_, rfl⟩

theorem commit_uncanonical [Sha256] (gate : Gate) {delta : Delta} (h : canonical delta = false)
    (boundary : CommitBoundary) (nodes : List Str) (steps : Nat) (source batchId : Option Str) :
    ∃ error, (commit (some gate) boundary nodes steps source batchId delta).assume allowed =
      .raise error := by
  have hdigest : deltaDigest delta = .error (.typeError ["gated commit delta must be canonical JSON"]) := by
    rw [deltaDigest, Option.not_isSome_iff_eq_none.mp (ne_true_of_eq_false h)]
  unfold commit
  dsimp only
  rw [hdigest]
  exact ⟨_, rfl⟩

theorem attemptException_assume (p : Step α) :
    (attemptException p).assume allowed = attemptException (p.assume allowed) := by
  rw [attemptException, Prog.assume_bind, Prog.assume_attempt]
  refine congrArg _ (funext fun outcome => ?_)
  cases outcome with
  | ok => rfl
  | error exc =>
      dsimp only
      split_ifs <;> rfl

theorem catchBoundaryStop_assume (p : Step α) :
    (catchBoundaryStop p).assume allowed = catchBoundaryStop (p.assume allowed) := by
  rw [catchBoundaryStop, Prog.assume_bind, Prog.assume_attempt]
  refine congrArg _ (funext fun outcome => ?_)
  cases outcome with
  | ok => rfl
  | error exc => cases exc <;> rfl

theorem runBranch_assume (name : Str) :
    (runBranch g source snapshot name).assume allowed = runBranch g source snapshot name :=
  Prog.assume_of_asks (runBranch_asks fun _ => ⟨rfl, rfl⟩)

-- A branch of an ungated region is called at once.
theorem branchCall_ungated (batchId : Str) (steps : Nat) (name : Str) :
    branchCall g none source batchId snapshot steps name = runBranch g source snapshot name := rfl

theorem branchCall_allowed (batchId : Str) (steps : Nat) (name : Str) :
    (branchCall g (some gate) source batchId snapshot steps name).assume allowed =
      branchCall g none source batchId snapshot steps name := by
  rw [branchCall_ungated]
  unfold branchCall
  split_ifs
  · obtain ⟨request, hrequest⟩ :=
      dispatch_allowed gate none .node [name] steps source batchId
    rw [Prog.bind_eq, Prog.assume_bind, attemptException_assume, hrequest]
    show Prog.assume allowed ((attemptException (beforeStart (some gate) request)).bind _) = _
    rw [Prog.assume_bind, attemptException_assume, beforeStart_allowed]
    exact runBranch_assume name
  · exact runBranch_assume name

theorem admitReducer_allowed (gate : Gate) (snapshot : State) (field : Str) (reducer : Option Reducer)
    (writes : Contributions) (request : Option DispatchRequest) :
    (admitReducer (some gate) snapshot field reducer writes request).assume allowed = .ret none ∨
    (∃ fn, reducer = some (.custom fn)) ∧
      (admitReducer (some gate) snapshot field reducer writes request).assume allowed =
        .ofExcept ((prepareCustomInputs (snapshot.get field) writes).map some) := by
  unfold admitReducer
  split
  · rename_i fn request
    split_ifs
    · refine .inr ⟨⟨fn, rfl⟩, ?_⟩
      cases prepareCustomInputs (snapshot.get field) writes with
      | error error => rfl
      | ok inputs =>
          obtain ⟨asked, hasked⟩ := dispatch_allowed gate none .reducer
            (request.nodes ++ [field]) request.steps request.source request.batchId
          show Prog.assume allowed ((dispatch (some gate) none .reducer _ _ _ _).bind _) = _
          rw [Prog.assume_bind, hasked]
          show Prog.assume allowed ((beforeStart (some gate) asked).bind _) = _
          rw [Prog.assume_bind, beforeStart_allowed]
          rfl
    · exact .inl rfl
  · exact .inl rfl

-- A custom reducer copies its inputs where they were not prepared for it.
theorem foldField_allowed (request : Option DispatchRequest) (contributed : Contributed) (field : Str) :
    (foldField g (some gate) source snapshot request contributed field).assume allowed =
      foldField g none source snapshot none contributed field := by
  have hasks : ∀ inputs, (reduceField source field ((g.reducers.get? field).getD defaultReducer)
      (snapshot.get field) ((contributed.get? field).getD []) (g.reducers.get? field).isSome
      inputs).assume allowed = reduceField source field ((g.reducers.get? field).getD defaultReducer)
      (snapshot.get field) ((contributed.get? field).getD []) (g.reducers.get? field).isSome inputs :=
    fun inputs => Prog.assume_of_asks (reduceField_asks fun _ _ _ => ⟨rfl, rfl⟩)
  have hright : foldField g none source snapshot none contributed field =
      reduceField source field ((g.reducers.get? field).getD defaultReducer) (snapshot.get field)
        ((contributed.get? field).getD []) (g.reducers.get? field).isSome none := by
    unfold foldField admitReducer
    cases g.reducers.get? field with
    | none => rfl
    | some reducer => cases reducer <;> rfl
  rw [hright, foldField, Prog.bind_eq, Prog.assume_bind]
  rcases admitReducer_allowed gate snapshot field (g.reducers.get? field)
    ((contributed.get? field).getD []) request with hnone | ⟨⟨fn, hfn⟩, hprepared⟩
  · rw [hnone]
    exact hasks none
  · rw [hprepared]
    cases hinputs : prepareCustomInputs (snapshot.get field) ((contributed.get? field).getD []) with
    | error error =>
        rw [hfn]
        simp only [Except.map, Prog.ofExcept, Prog.raise_bind, Option.getD_some, reduceField, hinputs,
          Option.elim_none]
        rfl
    | ok inputs =>
        refine (hasks (some inputs)).trans ?_
        rw [hfn]
        simp only [Option.getD_some, reduceField, hinputs, Option.elim_none, Option.elim_some]

theorem fold_allowed (admitted : List (Str × Delta)) (request : Option DispatchRequest) :
    (fold g (some gate) source snapshot admitted request).assume allowed =
      fold g none source snapshot admitted none := by
  have hfields : ∀ contributed fields folded,
      (foldFields g (some gate) source snapshot request contributed fields folded).assume allowed =
        foldFields g none source snapshot none contributed fields folded := by
    intro contributed fields folded
    induction fields generalizing folded with
    | nil => rfl
    | cons field rest ih =>
        rw [foldFields, foldFields, Prog.bind_eq, Prog.bind_eq, Prog.assume_bind, foldField_allowed]
        exact congrArg _ (funext fun value => ih _)
  unfold fold
  rw [Prog.bind_eq, Prog.bind_eq, Prog.assume_bind, Prog.assume_ofExcept]
  exact congrArg _ (funext fun fields => hfields _ _ _)

theorem resolveEdge_assume (edge : Edge) (state : State) :
    (resolveEdge g source edge state).assume allowed = resolveEdge g source edge state :=
  Prog.assume_of_asks (resolveEdge_asks fun _ _ => ⟨rfl, rfl⟩)

theorem admit_assume (join : Join) (settled : List Settled) :
    (admitBranches source join settled).assume allowed = admitBranches source join settled :=
  Prog.assume_of_asks (admit_asks fun _ _ => ⟨rfl, rfl⟩)

end Steps

section Scheduler

variable {α β : Type} {g : CompiledGraph} {gate : Gate} {source : Str} {edge : FanOut}
  {state snapshot : State} {steps : Nat} {batchId : Str}

theorem assumed {p : Step α} {value : α} (h : p.assume allowed = .ret value)
    {f : α → Scheduler β} : (p.lift.bind f).assumeGen allowed = (f value).assumeGen allowed := by
  rw [Prog.assumeGen_bind, Prog.assumeGen_lift, h]
  rfl

theorem assumed_same {p q : Step α} (h : p.assume allowed = q) {f f' : α → Scheduler β}
    (hf : ∀ value, (f value).assumeGen allowed = f' value) :
    (p.lift.bind f).assumeGen allowed = q.lift.bind f' := by
  rw [Prog.assumeGen_bind, Prog.assumeGen_lift, h]
  exact congrArg _ (funext hf)

theorem assumed_ofExcept {x : Except Exn α} {f f' : α → Scheduler β}
    (hf : ∀ value, x = .ok value → (f value).assumeGen allowed = f' value) :
    ((Prog.ofExcept x).bind f).assumeGen allowed = (Prog.ofExcept x).bind f' := by
  cases x with
  | ok value => exact hf value rfl
  | error error => rfl

theorem route_allowed (edge : Edge) :
    (route g (some gate) source edge state steps).assumeGen allowed =
      route g none source edge state steps := by
  obtain ⟨request, hrequest⟩ := dispatch_allowed gate (some edge) .router [source] steps source none
  unfold route
  refine (assumed hrequest).trans ?_
  refine (assumed (beforeStart_allowed (some gate) request)).trans ?_
  exact assumed_same (resolveEdge_assume edge state) fun _ => rfl

theorem publishNode_allowed [Sha256] {node : Str} {delta : Delta} (h : canonical delta = true) :
    (publishNode (some gate) node state steps delta).assumeGen allowed =
      publishNode none node state steps delta := by
  obtain ⟨request, hrequest⟩ := commit_allowed gate h .node [node] steps none none
  unfold publishNode
  refine (assumed hrequest).trans (assumed_ofExcept fun published _ => ?_)
  have hsettled : (afterCommit (some gate) request).attempt.assume allowed = .ret (.ok ()) := by
    rw [Prog.assume_attempt, afterCommit_allowed]
    rfl
  exact assumed hsettled

-- A delta that the gated run fails to copy is one that no state can be merged with.
theorem detach_cases (gate : Gate) (delta : Delta) :
    detach (some gate) delta = .ok delta ∧ State.itemsCopy delta.items = true ∨
      ∃ error, detach (some gate) delta = .error error ∧
        ∀ state : State, state.merge delta = .error error := by
  show deepcopy delta = _ ∧ _ ∨ ∃ error, deepcopy delta = _ ∧ _
  unfold deepcopy
  cases hcopy : State.itemsCopy delta.items with
  | true => exact .inl ⟨if_pos rfl, rfl⟩
  | false =>
      refine .inr ⟨_, if_neg Bool.false_ne_true, fun state => ?_⟩
      rw [State.merge, hcopy]
      rfl

theorem finishNode_allowed [Sha256] {node : Str} {fn : Fn} {reply : Reply}
    (h : ¬Uncanonical (.act (.leave (.node node fn state)) reply)) :
    (finishNode (some gate) node steps reply).assumeGen allowed = finishNode none node steps reply := by
  unfold finishNode
  cases hresult : reply.result with
  | error exc =>
      dsimp only
      split_ifs
      · exact assumed_ofExcept fun _ _ => rfl
      · rfl
  | ok value =>
      refine assumed_ofExcept fun delta hdelta => ?_
      show ((Prog.ofExcept (detach (some gate) delta)).bind _).assumeGen allowed =
        publishNode none node reply.left steps delta
      rcases detach_cases gate delta with ⟨hdetach, hcopy⟩ | ⟨error, hdetach, hmerge⟩
      · rw [hdetach]
        refine publishNode_allowed ?_
        by_contra hnot
        cases value with
        | dict items =>
            cases hdelta
            exact h ⟨items, hresult, hcopy, eq_false_of_ne_true hnot⟩
        | _ => cases hdelta
      · rw [hdetach, publishNode]
        show _ = ((Prog.ofExcept (reply.left.merge delta)).bind _ : Scheduler _)
        rw [hmerge]
        rfl

abbrev Cuts (p q : Scheduler α) : Prop := Curtails Uncanonical (p.assumeGen allowed) q

theorem cuts_of_eq {p q : Scheduler α} (h : p.assumeGen allowed = q) : Cuts p q := h ▸ .refl _

theorem Cuts.bind {p q : Scheduler α} {f f' : α → Scheduler β} (h : Cuts p q)
    (hf : ∀ value, Cuts (f value) (f' value)) : Cuts (p.bind f) (q.bind f') := by
  rw [Cuts, Prog.assumeGen_bind]
  exact Curtails.bind h hf

theorem cuts_ofExcept {x : Except Exn α} {f f' : α → Scheduler β}
    (hf : ∀ value, x = .ok value → Cuts (f value) (f' value)) :
    Cuts ((Prog.ofExcept x).bind f) ((Prog.ofExcept x).bind f') := by
  cases x with
  | ok value => exact hf value rfl
  | error error => exact .raise error

theorem cuts_assumed {p : Step α} {value : α} {f : α → Scheduler β} {q : Scheduler β}
    (h : p.assume allowed = .ret value) (hf : Cuts (f value) q) : Cuts (p.lift.bind f) q := by
  rw [Cuts, assumed h]
  exact hf

theorem cuts_raised {p : Step α} {error : Exn} {f : α → Scheduler β} {q : Scheduler β}
    (h : p.assume allowed = .raise error) (hq : Doomed Uncanonical q) : Cuts (p.lift.bind f) q := by
  rw [Cuts, Prog.assumeGen_bind, Prog.assumeGen_lift, h]
  exact .cut hq

-- A node answers, and its delta is published where it is canonical.
theorem invoke_cuts {node : Str} {fn : Fn} {f f' : Reply → Scheduler β}
    (hf : ∀ reply, ¬Uncanonical (.act (.leave (.node node fn state)) reply) →
      Cuts (f reply) (f' reply)) :
    Cuts ((invoke (.node node fn state)).lift.bind f) ((invoke (.node node fn state)).lift.bind f') :=
  .act fun _ _ => .act hf

theorem runNode_cuts [Sha256] {node : Str} :
    Cuts (runNode g (some gate) node state steps) (runNode g none node state steps) := by
  refine cuts_ofExcept fun fn _ => cuts_ofExcept fun visited _ => .emit ?_
  obtain ⟨request, hrequest⟩ := dispatch_allowed gate none .node [node] steps none none
  refine cuts_assumed hrequest (cuts_assumed (beforeStart_allowed (some gate) request) ?_)
  exact invoke_cuts fun reply hreply => cuts_of_eq (finishNode_allowed hreply)

theorem settle_allowed {branches : List Str} :
    (settle g (some gate) source branches batchId snapshot steps).assumeGen allowed =
      settle g none source branches batchId snapshot steps := by
  have htasks : (branches.map (branchCall g (some gate) source batchId snapshot steps)).map
      (Prog.assume allowed) = branches.map (branchCall g none source batchId snapshot steps) := by
    rw [List.map_map]
    exact List.map_congr_left fun name _ => branchCall_allowed batchId steps name
  rw [settle, settle, Prog.bind_eq, Prog.bind_eq, Prog.assumeGen_bind, Prog.fork, Prog.call,
    Prog.assumeGen, htasks]
  exact congrArg _ (funext fun outcomes => Prog.assumeGen_ofExcept (results outcomes))

theorem doomed_forM {f : β → GraphObservation} {xs : List β} {next : PUnit → Scheduler α}
    (h : Doomed Uncanonical (next ())) :
    Doomed Uncanonical (Prog.bind (xs.forM fun x => .emit (f x)) next) := by
  induction xs with
  | nil => exact h
  | cons x rest ih => exact .later ih

-- A region whose folded delta is not canonical is published by the ungated run.
theorem publishRegion_cuts [Sha256] {completed : Nat} {progress : steps ≤ completed}
    {admitted : List (Str × Delta)} {merged : Delta} {provenance : Provenance}
    (hsnapshot : snapshot.copyable = true) (hmerged : State.itemsCopy merged.items = true) :
    Cuts (publishRegion (some gate) source edge state snapshot steps completed progress batchId
        admitted merged provenance)
      (publishRegion none source edge state snapshot steps completed progress batchId admitted
        merged provenance) := by
  unfold publishRegion
  cases hcanonical : canonical merged with
  | true =>
      obtain ⟨request, hrequest⟩ := commit_allowed gate hcanonical .region
        (admitted.map Prod.fst) completed (some source) (some batchId)
      refine cuts_of_eq ((assumed hrequest).trans (assumed_ofExcept fun committed _ => ?_))
      have hsettled : (afterCommit (some gate) request).attempt.assume allowed = .ret (.ok ()) := by
        rw [Prog.assume_attempt, afterCommit_allowed]
        rfl
      refine (assumed hsettled).trans ?_
      rw [Prog.bind_eq, Prog.assumeGen_bind, Prog.assumeGen_emitAll]
      rfl
  | false =>
      obtain ⟨error, herror⟩ := commit_uncanonical gate hcanonical .region
        (admitted.map Prod.fst) completed (some source) (some batchId)
      refine cuts_raised herror ?_
      show Doomed Uncanonical ((Prog.ofExcept (snapshot.merge merged)).bind _)
      rw [State.merge_ok hsnapshot hmerged]
      exact doomed_forM (.here ⟨rfl, merged, rfl, hcanonical⟩)

theorem foldRegion_cuts [Sha256] {completed : Nat} {progress : steps ≤ completed}
    {admitted : List (Str × Delta)} (hsnapshot : snapshot.copyable = true) :
    Cuts (foldRegion g (some gate) source edge state snapshot steps completed progress batchId admitted)
      (foldRegion g none source edge state snapshot steps completed progress batchId admitted) := by
  obtain ⟨request, hrequest⟩ := dispatch_allowed gate none .reducer (admitted.map Prod.fst) completed
    source batchId
  unfold foldRegion
  refine cuts_assumed hrequest ?_
  have hfold : (catchBoundaryStop (fold g (some gate) source snapshot admitted request)).assume allowed =
      catchBoundaryStop (fold g none source snapshot admitted none) := by
    rw [catchBoundaryStop_assume, fold_allowed]
  refine Cuts.bind (cuts_of_eq (Prog.assumeGen_lift.trans (congrArg _ hfold))) ?_
  rintro (decision | ⟨merged, provenance⟩)
  · exact cuts_of_eq (assumed_ofExcept fun _ _ => rfl)
  · show Cuts ((Prog.ofExcept (detach (some gate) merged)).bind _) (publishRegion _ _ _ _ _ _ _ _ _ _ _ _)
    rcases detach_cases gate merged with ⟨hdetach, hmerged⟩ | ⟨error, hdetach, hmerge⟩
    · rw [hdetach]
      exact publishRegion_cuts hsnapshot hmerged
    · rw [hdetach, publishRegion]
      refine cuts_of_eq ?_
      show _ = ((Prog.ofExcept (snapshot.merge merged)).bind _ : Scheduler _)
      rw [hmerge]
      rfl

theorem askJoin_allowed (gate : Gate) (edge : FanOut) (source : Str) (completed : Nat)
    (batchId : Str) : ∃ request, (askJoin (some gate) source edge completed batchId).assume allowed =
      .ret (none, request) := by
  unfold askJoin
  cases edge.join with
  | custom fn => exact dispatch_allowed gate none .join edge.branches completed source batchId
  | _ => exact ⟨none, rfl⟩

theorem joinRegion_cuts [Sha256] {settled : List Settled} (hsnapshot : snapshot.copyable = true) :
    Cuts (joinRegion g (some gate) source edge state snapshot steps batchId settled)
      (joinRegion g none source edge state snapshot steps batchId settled) := by
  refine cuts_ofExcept fun verdict _ => ?_
  cases verdict with
  | some decision => exact cuts_of_eq (assumed_ofExcept fun _ _ => rfl)
  | none =>
      cases firstInterrupt settled with
      | some found => exact cuts_of_eq (assumed_ofExcept fun _ _ => rfl)
      | none =>
          obtain ⟨request, hrequest⟩ := askJoin_allowed gate edge source
            (steps + settled.countP Settled.ok) batchId
          dsimp only [orStop]
          rw [askJoin_ungated]
          refine cuts_assumed hrequest (cuts_assumed (beforeStart_allowed (some gate) request) ?_)
          refine Cuts.bind (cuts_of_eq (Prog.assumeGen_lift.trans (congrArg _ (admit_assume _ _)))) ?_
          exact fun admitted => foldRegion_cuts hsnapshot

theorem runRegion_cuts [Sha256] :
    Cuts (runRegion g (some gate) source edge state steps)
      (runRegion g none source edge state steps) := by
  refine cuts_ofExcept fun snapshot hentered => ?_
  have hsnapshot := visit_copyable (enterRegion_visit hentered)
  refine Cuts.bind (cuts_of_eq ?_) fun _ => ?_
  · exact congrArg _ (funext fun _ => Prog.assumeGen_emitAll)
  refine Cuts.bind (cuts_of_eq rfl) fun batchId => ?_
  obtain ⟨request, hrequest⟩ := dispatch_allowed gate none .fanout edge.branches steps source
    (some batchId)
  refine cuts_assumed hrequest (Cuts.bind (cuts_of_eq settle_allowed) fun settled => ?_)
  exact joinRegion_cuts hsnapshot

theorem followRegion_cuts [Sha256] {node : Str} :
    Cuts (followRegion g (some gate) node state steps) (followRegion g none node state steps) := by
  unfold followRegion
  split
  · exact Cuts.bind runRegion_cuts fun _ => .ret _
  · exact .ret _

theorem loopFrom_cuts [Sha256] {fuel : Nat} {node lastNode : Str} :
    Cuts (loopFrom g (some gate) fuel node state steps lastNode)
      (loopFrom g none fuel node state steps lastNode) := by
  induction fuel generalizing node state steps lastNode with
  | zero =>
      unfold loopFrom
      split_ifs
      · exact cuts_of_eq (assumed_ofExcept fun _ _ => rfl)
      · exact .raise _
      · exact .raise _
  | succ fuel ih =>
      unfold loopFrom
      split_ifs
      · exact cuts_of_eq (assumed_ofExcept fun _ _ => rfl)
      · exact .raise _
      refine Cuts.bind runNode_cuts ?_
      rintro (_ | state)
      · exact .ret _
      refine Cuts.bind followRegion_cuts ?_
      rintro (_ | ⟨result, edge⟩)
      · exact .ret _
      refine Cuts.bind (cuts_of_eq (route_allowed edge)) ?_
      rintro (_ | ⟨target, state⟩)
      · exact .ret _
      exact ih

-- The gated run of a gate that allows everything is the ungated run, up to where a delta that
-- is not canonical is published.
theorem run_cuts [Sha256] : Cuts (run g (some gate) state) (run g none state) := by
  refine Cuts.bind (cuts_of_eq (route_allowed _)) ?_
  rintro (_ | ⟨node, state⟩)
  · exact .ret _
  · exact loopFrom_cuts

end Scheduler

-- Without a gate nobody is told the token of a batch.
def untold : Likeness Core
  | .tokenUrlsafe, _, _ => True
  | _, answer, answer' => answer = answer'

def heeded : Op → Prop
  | .tokenUrlsafe => False
  | _ => True

section Tokens

variable {α : Type} {g : CompiledGraph} {gate : Option Gate} {source : Str} {edge : FanOut}
  {state snapshot : State} {steps : Nat} {batchId : Str}

theorem heeded_eq {op : Op} (h : heeded op) {answer answer' : Core.Ans op}
    (hr : untold op answer answer') : answer = answer' := by
  cases op <;> first | exact h.elim | exact hr

theorem untold_of_asks {p : Step α} (hp : p.Asks heeded) : p.Indifferent (fun _ => True) untold :=
  .of_asks hp fun _ hop => ⟨trivial, fun _ _ => heeded_eq hop⟩

theorem untold_lift {p : Step α} (hp : p.Asks heeded) : (p.lift : Scheduler α).Heedless untold :=
  (untold_of_asks hp).lift

theorem route_untold {edge : Edge} : (route g gate source edge state steps).Heedless untold := by
  refine .bind (untold_lift (dispatch_asks trivial)) fun asked => Isolation.orStop_heedless ?_
  refine .bind (untold_lift (beforeStart_asks fun _ _ => trivial)) fun _ => ?_
  refine .bind (untold_lift (resolveEdge_asks fun _ _ => ⟨trivial, trivial⟩)) fun _ => ?_
  exact .bind .emit fun _ => trivial

theorem finish_untold : (finish state steps).Heedless untold := .bind (.ofExcept _) fun _ => .emit

variable [Sha256]

theorem finishNode_untold {node : Str} {reply : Reply} :
    (finishNode gate node steps reply).Heedless untold := by
  unfold finishNode
  split
  · split_ifs
    · exact .bind (.ofExcept _) fun _ => .bind .emit fun _ => trivial
    · trivial
  · refine .bind (.ofExcept _) fun delta => .bind (.ofExcept _) fun delta => ?_
    refine .bind (untold_lift (commit_asks fun _ => trivial)) fun asked => Isolation.orStop_heedless ?_
    refine .bind (.ofExcept _) fun _ => ?_
    refine .bind (untold_lift (.attempt (afterCommit_asks fun _ => trivial))) fun _ => ?_
    exact .bind .emit fun _ => .bind (.ofExcept _) fun _ => trivial

theorem runNode_untold {node : Str} : (runNode g gate node state steps).Heedless untold := by
  refine .bind (.ofExcept _) fun fn => .bind (.ofExcept _) fun visited => .bind .emit fun _ => ?_
  refine .bind (untold_lift (dispatch_asks trivial)) fun asked => Isolation.orStop_heedless ?_
  refine .bind (untold_lift (beforeStart_asks fun _ _ => trivial)) fun _ => ?_
  exact .bind (untold_lift (invoke_asks trivial trivial)) fun reply => finishNode_untold

theorem foldRegion_untold {completed : Nat} {progress : steps ≤ completed}
    {admitted : List (Str × Delta)} :
    (foldRegion g gate source edge state snapshot steps completed progress batchId
      admitted).Heedless untold := by
  refine .bind (untold_lift (dispatch_asks trivial)) fun asked => Isolation.orStop_heedless ?_
  refine .bind (untold_lift (catchBoundaryStop_asks (fold_asks (fun _ _ => ⟨trivial, trivial⟩)
    fun _ _ _ _ => ⟨trivial, trivial⟩))) ?_
  rintro (decision | ⟨merged, provenance⟩)
  · exact Isolation.orStop_heedless trivial
  · refine .bind (.ofExcept _) fun merged => ?_
    refine .bind (untold_lift (commit_asks fun _ => trivial)) fun asked => Isolation.orStop_heedless ?_
    refine .bind (.ofExcept _) fun committed => ?_
    refine .bind (untold_lift (.attempt (afterCommit_asks fun _ => trivial))) fun _ => ?_
    exact .bind (.forM fun _ => .emit) fun _ => .bind .emit fun _ =>
      .bind (.ofExcept _) fun _ => trivial

theorem joinRegion_untold {settled : List Settled} :
    (joinRegion g gate source edge state snapshot steps batchId settled).Heedless untold := by
  refine .bind (.ofExcept _) fun verdict => Isolation.orStop_heedless ?_
  split
  · exact .bind (.ofExcept _) fun _ => .bind .emit fun _ => trivial
  · refine .bind (untold_lift (askJoin_asks fun _ _ => trivial)) fun asked => Isolation.orStop_heedless ?_
    refine .bind (untold_lift (beforeStart_asks fun _ _ => trivial)) fun _ => ?_
    exact .bind (untold_lift (admit_asks fun _ _ => ⟨trivial, trivial⟩)) fun _ => foldRegion_untold

theorem joinRegion_ungated (batchId' : Str) (settled : List Settled) :
    joinRegion g none source edge state snapshot steps batchId settled =
      joinRegion g none source edge state snapshot steps batchId' settled := by
  unfold joinRegion
  simp only [askJoin_ungated]
  rfl

theorem runRegion_untold : (runRegion g none source edge state steps).Heedless untold := by
  refine .bind (.ofExcept _) fun entered => .bind (.bind .emit fun _ => .forM fun _ => .emit) ?_
  refine fun _ => .call_bind trivial (fun batchId batchId' _ => ?_) fun batchId => ?_
  · show (settle g none source edge.branches batchId entered steps).bind _ =
      (settle g none source edge.branches batchId entered steps).bind _
    exact congrArg _ (funext fun settled => joinRegion_ungated batchId' settled)
  · refine .bind (untold_lift (dispatch_asks trivial)) fun asked => Isolation.orStop_heedless ?_
    refine .bind (.bind (.fork fun task hm => ?_) fun _ => .ofExcept _) fun _ => joinRegion_untold
    obtain ⟨name, -, rfl⟩ := List.mem_map.mp hm
    exact untold_of_asks (runBranch_asks fun _ => ⟨trivial, trivial⟩)

theorem followRegion_untold {node : Str} :
    (followRegion g none node state steps).Heedless untold := by
  unfold followRegion
  split
  · exact .bind runRegion_untold fun _ => trivial
  · trivial

theorem loopFrom_untold {fuel : Nat} {node lastNode : Str} :
    (loopFrom g none fuel node state steps lastNode).Heedless untold := by
  induction fuel generalizing node state steps lastNode with
  | zero =>
      unfold loopFrom
      split_ifs
      · exact finish_untold
      · trivial
      · trivial
  | succ fuel ih =>
      unfold loopFrom
      split_ifs
      · exact finish_untold
      · trivial
      refine .bind runNode_untold ?_
      rintro (_ | state)
      · trivial
      refine .bind followRegion_untold ?_
      rintro (_ | ⟨result, edge⟩)
      · trivial
      refine .bind route_untold ?_
      rintro (_ | ⟨target, state⟩)
      · trivial
      exact ih

theorem run_untold : (run g none state).Heedless untold := by
  refine .bind route_untold ?_
  rintro (_ | ⟨node, state⟩)
  · trivial
  · exact loopFrom_untold

end Tokens

-- Callables that answer the same whenever they are called with the same.
def Determined (A : Environment Core) : Prop :=
  ∀ op answer answer', A op answer → A op answer' → untold op answer answer'

-- Every run under a gate that allows everything is the ungated run with the answers of the gate
-- put in, and every ungated run is one.
theorem allow_transparent [Sha256] (g : CompiledGraph) (gate : Gate) (state : State)
    (A : Environment Core)
    (hcanonical : ∀ s rest, Reaches generating (run g none state) s rest → Meets A s →
      ∀ e ∈ s, ¬Uncanonical e) :
    (∀ t o, Exec generating (run g (some gate) state) t o → Agrees allowed t →
      Meets A (erase allowed t) → Exec generating (run g none state) (erase allowed t) o ∧
        observations (erase allowed t) = observations t) ∧
    (∀ s o, Exec generating (run g none state) s o → Meets A s →
      ∃ t, Exec generating (run g (some gate) state) t o ∧ Agrees allowed t ∧ erase allowed t = s ∧
        observations t = observations s) ∧
    (Determined A → ∀ t o s o', Exec generating (run g (some gate) state) t o → Agrees allowed t →
      Meets A (erase allowed t) → Exec generating (run g none state) s o' → Meets A s →
        observations t = observations s ∧ ainvoke state t = ainvoke state s ∧ o = o') := by
  have hforward : ∀ t o, Exec generating (run g (some gate) state) t o → Agrees allowed t →
      Meets A (erase allowed t) → Exec generating (run g none state) (erase allowed t) o := by
    intro t o he hagrees hmeets
    rcases run_cuts.forward (exec_generating_erase he hagrees) with
      hungated | ⟨pre, post, shown, rest, hsplit, hreach, e, hm, hbad⟩
    · exact hungated
    · rw [hsplit] at hmeets
      have hshown : Meets A (pre ++ shown.map .emit) := by
        refine Meets.append_iff.mpr ⟨(Meets.append_iff.mp hmeets).1, fun op answer hm => ?_⟩
        obtain ⟨_, -, ⟨⟩⟩ := List.mem_map.mp hm
      exact absurd hbad (hcanonical _ rest hreach hshown e hm)
  refine ⟨fun t o he hagrees hmeets => ⟨hforward t o he hagrees hmeets, observations_erase⟩, ?_, ?_⟩
  · intro s o he hmeets
    have hgood := hcanonical s _ he.reaches hmeets
    obtain ⟨t, ht, hagrees, rfl⟩ := exec_generating_assumed (run_cuts.backward he hgood)
    exact ⟨t, ht, hagrees, rfl, observations_erase.symm⟩
  · intro hdetermined t o s o' he hagrees hmeets he' hmeets'
    have halike : Alike generating generating A A Eq Eq (run g none state) (run g none state) :=
      Alike.of_heedless run_untold hdetermined
    obtain ⟨hobs, hsame⟩ := halike _ _ _ _ (hforward t o he hagrees hmeets) hmeets he' hmeets'
    rw [observations_erase] at hobs
    exact ⟨hobs, by rw [ainvoke, ainvoke, hobs], Alike.same_eq hsame⟩

-- The two branches of the region write different fields.
def signed : Handler Core :=
  obliging fun name => .dict [(if name = "b" then "task_type" else "optimize_for", "x")]

theorem signed_canonical {s : Run} (hs : Obeys signed s)
    (hshown : (observations s).all (fun o => o.delta.all canonical) = true) :
    ∀ e ∈ s, ¬Uncanonical e := by
  intro e hm hbad
  cases e with
  | emit observation =>
      obtain ⟨-, delta, hdelta, hcanonical⟩ := hbad
      have hall := List.all_eq_true.mp hshown observation (emit_mem_iff.mp hm)
      rw [hdelta, Option.all_some, hcanonical] at hall
      cases hall
  | act op reply =>
      obtain rfl := hs op reply hm
      cases op with
      | leave callable =>
          cases callable with
          | node name fn state =>
              obtain ⟨items, hitems, -, hcanonical⟩ := hbad
              cases hitems
              revert hcanonical
              split_ifs <;> decide +kernel
          | _ => exact hbad
      | _ => exact hbad

theorem allow_transparent_diamond :
    letI := Sha256.verbatim
    let gated := (run .diamond (some ⟨true, true⟩) (State.new "s")).simulate signed
    let ungated := (run .diamond none (State.new "s")).simulate signed
    observations gated.1 = observations ungated.1 ∧
      ainvoke (State.new "s") gated.1 = ainvoke (State.new "s") ungated.1 ∧ gated.2 = ungated.2 := by
  let := Sha256.verbatim
  intro gated ungated
  have hobeys : Obeys signed gated.1 := obeys_simulate signed _
  have hshown : (observations ungated.1).all (fun o => o.delta.all canonical) = true := by
    decide +kernel
  have hgood := signed_canonical (obeys_simulate signed _) hshown
  have hagrees : Agrees allowed gated.1 := by
    intro op answer hm known hknown
    rw [hobeys op answer hm]
    cases op <;> cases hknown <;> rfl
  refine (allow_transparent .diamond ⟨true, true⟩ (State.new "s") (fun op answer => answer = signed op)
    ?_).2.2 ?_ _ _ _ _ (exec_simulate signed _) hagrees ?_ (exec_simulate signed _)
    (obeys_simulate signed _)
  · exact fun s rest hreach hmeets e hm => hgood e (hreach.subset_simulate hmeets hm)
  · rintro op answer answer' rfl rfl
    cases op <;> trivial
  · exact Meets.sublist (A := fun op answer => answer = signed op) hobeys List.filter_sublist

end PerpetuaCore.Graph.Transparency
