import PerpetuaCore.Graph.Rules
import PerpetuaCore.Interaction.History

namespace PerpetuaCore.Graph.Guard

open Interaction
open Python (Str Value Dict)

-- The callable an event hands control to.
def entering? : Event → Option Callable
  | .act (.enter callable) _ => some callable
  | _ => none

-- The request an event withholds permission from: anything but an allowance, or a start
-- marker that was not written.
def denied? : Event → Option DispatchRequest
  | .beforeDispatch _ (.decided .allow) => none
  | .beforeDispatch request _ => some request
  | .beforeStart _ .done => none
  | .beforeStart request _ => some request
  | _ => none

-- The requests that speak for a callable. With a start hook branches and custom reducers
-- are asked for one by one, without it the request of their batch speaks for them.
def covers (gate : Gate) (request : DispatchRequest) : Callable → Prop
  | .node name _ _ => request.boundary = .node ∧ request.nodes = [name] ∧ request.source = none
  | .branch source name _ _ => request.source = some source ∧
      if gate.beforeStart then request.boundary = .node ∧ request.nodes = [name]
      else request.boundary = .fanout ∧ name ∈ request.nodes
  | .router source _ _ =>
      request.boundary = .router ∧ request.nodes = [source] ∧ request.source = some source
  | .join source _ _ => request.boundary = .join ∧ request.source = some source
  | .reducer source field _ _ _ => request.boundary = .reducer ∧ request.source = some source ∧
      (gate.beforeStart → request.nodes.getLast? = some field)

-- What must have been exchanged about a request: it was allowed and, where the gate has
-- the start hook, then marked as started.
def evidence (gate : Gate) (request : DispatchRequest) : Run :=
  .beforeDispatch request (.decided .allow) ::
    if gate.beforeStart then [.beforeStart request .done] else []

-- The evidence stands in the past, with no observation yielded since.
def Cleared (gate : Gate) (request : DispatchRequest) (past : Run) : Prop :=
  ∃ before window, past = before ++ window ∧ observations window = [] ∧
    (evidence gate request).Sublist window

def Authorized (gate : Gate) (past : Run) (callable : Callable) : Prop :=
  ∃ request, covers gate request callable ∧ Cleared gate request past

-- Another branch of the region in which the request for one branch was denied.
def isSibling (denied : DispatchRequest) : Callable → Prop
  | .branch source name _ _ =>
      denied.boundary = .node ∧ denied.source = some source ∧ denied.nodes ≠ [name]
  | _ => False

-- Nothing runs without authority, and after a denial nothing but siblings runs at all.
structure Sound (gate : Gate) (t : Run) : Prop where
  authorized : Always (fun past e => ∀ c ∈ entering? e, Authorized gate past c) t
  final : t.Pairwise fun e e' => ∀ r ∈ denied? e, ∀ c ∈ entering? e', isSibling r c

-- So far nothing was denied, and the run may go on.
structure Steady (gate : Gate) (t : Run) : Prop extends Sound gate t where
  clean : ∀ e ∈ t, denied? e = none

variable {gate : Gate} {h : Run}

theorem Cleared.append {request : DispatchRequest} {u : Run} (hc : Cleared gate request h)
    (hu : observations u = []) : Cleared gate request (h ++ u) := by
  obtain ⟨before, window, rfl, hw, hs⟩ := hc
  exact ⟨before, window ++ u, List.append_assoc .., by simp [hw, hu],
    hs.trans (List.sublist_append_left window u)⟩

theorem steady_nil : Steady gate [] where
  authorized := always_nil
  final := .nil
  clean := by simp

-- Events that hand over no control never break soundness.
theorem Sound.append_quiet {u : Run} (hs : Sound gate h) (hu : ∀ e ∈ u, entering? e = none) :
    Sound gate (h ++ u) where
  authorized := by
    refine always_append.mpr ⟨hs.authorized, fun pre e post he c hc => ?_⟩
    rw [hu e (by simp [he])] at hc
    cases hc
  final := by
    refine List.pairwise_append.mpr ⟨hs.final, ?_, fun e _ e' he' r _ c hc => ?_⟩
    · refine List.pairwise_of_forall_mem_list fun e _ e' he' r _ c hc => ?_
      rw [hu e' he'] at hc
      cases hc
    · rw [hu e' he'] at hc
      cases hc

theorem Steady.append_quiet {u : Run} (hs : Steady gate h) (hu : ∀ e ∈ u, entering? e = none)
    (hclean : ∀ e ∈ u, denied? e = none) : Steady gate (h ++ u) where
  toSound := hs.toSound.append_quiet hu
  clean := by
    intro e he
    rcases List.mem_append.mp he with he | he
    · exact hs.clean e he
    · exact hclean e he

-- An authorized callable runs.
theorem Steady.enter {callable : Callable} (hs : Steady gate h) (hc : Authorized gate h callable)
    (answer : callable.Answer) : Steady gate (h ++ [.enter callable, .leave callable answer]) where
  authorized := by
    refine always_append.mpr ⟨hs.authorized, always_cons.mpr ⟨?_, always_cons.mpr ⟨?_, always_nil⟩⟩⟩
    · rintro c ⟨⟩
      simpa using hc
    · rintro c ⟨⟩
  final := by
    refine List.pairwise_append.mpr ⟨hs.final, by simp [denied?], fun e he e' _ r hr => ?_⟩
    rw [hs.clean e he] at hr
    cases hr
  clean := by
    intro e he
    rcases List.mem_append.mp he with he | he
    · exact hs.clean e he
    · simp only [List.mem_cons, List.not_mem_nil, or_false] at he
      rcases he with rfl | rfl <;> rfl

theorem denied_dispatch {request : DispatchRequest} {reply : GateReply}
    (h : reply ≠ .decided .allow) : denied? (.beforeDispatch request reply) = some request := by
  rcases reply with _ | (_ | _ | _) | _ <;> first | rfl | exact absurd rfl h

-- A permission has been granted, and waits for its start marker where there is one.
def Granted (request : DispatchRequest) (past : Run) : Prop :=
  ∃ before, past = before ++ [.beforeDispatch request (.decided .allow)]

theorem Granted.cleared {request : DispatchRequest} (hg : Granted request h)
    (hhook : gate.beforeStart = false) : Cleared gate request h := by
  obtain ⟨before, rfl⟩ := hg
  exact ⟨before, _, rfl, rfl, by simp [evidence, hhook]⟩

theorem Granted.started {request : DispatchRequest} (hg : Granted request h)
    (hhook : gate.beforeStart = true) : Cleared gate request (h ++ [.beforeStart request .done]) := by
  obtain ⟨before, rfl⟩ := hg
  refine ⟨before, [.beforeDispatch request (.decided .allow), .beforeStart request .done], ?_, rfl, ?_⟩
  · rw [List.append_assoc]
    rfl
  · simp [evidence, hhook]

-- After a boundary was asked for: the run may go on only where nothing was denied, and
-- then either the boundary needs no permission or this one was granted.
def Asked (gate : Gate) (request : DispatchRequest) (skips : Prop)
    (asked : Option GateDecision × Option DispatchRequest) (t : Run) : Prop :=
  Sound gate t ∧ (asked.1 = none →
    Steady gate t ∧ (asked.2 = none ∧ skips ∨ asked.2 = some request ∧ Granted request t))

theorem dispatch_guarded {edge : Option Edge} {boundary : DispatchBoundary} {nodes : List Str}
    {steps : Nat} {source batchId : Option Str} (hs : Steady gate h) :
    Ensures acting (fun _ => Sound gate)
      (dispatch (some gate) edge boundary nodes steps source batchId)
      (Asked gate ⟨boundary, nodes, steps, source, batchId⟩ (Unguarded (some gate) edge boundary)) h := by
  refine Rule.dispatch (fun hskip => ?_) (fun _ => ?_) (fun reason => ?_) fun reply _ error => ?_
  · exact ⟨hs.toSound, fun _ => ⟨hs, .inl ⟨rfl, hskip⟩⟩⟩
  · have hs' := hs.append_quiet
      (u := [.beforeDispatch ⟨boundary, nodes, steps, source, batchId⟩ (.decided .allow)])
      (by simp [entering?]) (by simp [denied?])
    exact ⟨hs'.toSound, fun _ => ⟨hs', .inr ⟨rfl, h, rfl⟩⟩⟩
  · exact ⟨hs.toSound.append_quiet (by simp [entering?]), nofun⟩
  · exact hs.toSound.append_quiet (by simp [entering?])

theorem beforeStart_guarded {request : DispatchRequest} {asked : Option DispatchRequest}
    {skips : Prop} (hs : Steady gate h)
    (hasked : asked = none ∧ skips ∨ asked = some request ∧ Granted request h) :
    Ensures acting (fun _ => Sound gate) (beforeStart (some gate) asked)
      (fun _ t => Steady gate t ∧ (skips ∨ Cleared gate request t)) h := by
  refine Rule.beforeStart (fun hskip => ⟨hs, ?_⟩) (fun r hr hhook => ?_) fun r reply _ _ error => ?_
  · rcases hasked with ⟨_, hskips⟩ | ⟨hr, hgranted⟩
    · exact .inl hskips
    · exact .inr (hgranted.cleared (by simpa [hr, hasBeforeStart] using hskip))
  · refine ⟨hs.append_quiet (by simp [entering?]) (by simp [denied?]), ?_⟩
    rcases hasked with ⟨_, hskips⟩ | ⟨hr', hgranted⟩
    · exact .inl hskips
    · obtain rfl := Option.some.inj (hr.symm.trans hr')
      exact .inr (hgranted.started (by simpa [hasBeforeStart] using hhook))
  · exact hs.toSound.append_quiet (by simp [entering?])

theorem invoke_guarded {callable : Callable} (hs : Steady gate h)
    (hc : Authorized gate h callable) :
    Ensures acting (fun _ => Sound gate) (invoke callable)
      (fun _ t => Steady gate t ∧ ∃ u, t = h ++ u ∧ observations u = []) h :=
  Rule.invoke fun answer => ⟨hs.enter hc answer, _, rfl, rfl⟩

-- The request a fold runs under, and what it leaves standing for fields not folded yet.
structure Folding (gate : Gate) (source : Str) (request : DispatchRequest) (t : Run) : Prop
    extends Steady gate t where
  boundary : request.boundary = .reducer
  source_eq : request.source = some source
  batched : gate.beforeStart = false → Cleared gate request t

theorem reduceField_guarded {source field : Str} {reducer : Reducer} {base : Value}
    {writes : Contributions} {declared : Bool} {inputs : Option (Value × List Value)}
    {request : DispatchRequest} (hf : Folding gate source request h)
    (hcustom : ∀ fn, reducer = .custom fn → ∀ base values,
      Authorized gate h (.reducer source field fn base values)) :
    Ensures acting (fun _ => Sound gate)
      (reduceField source field reducer base writes declared inputs)
      (fun _ => Folding gate source request) h := by
  unfold reduceField
  cases reducer with
  | custom fn =>
      refine .bind (.ofExcept (fun copies _ => ?_) fun _ _ => hf.toSound)
      refine .andThen (invoke_guarded hf.toSteady (hcustom fn rfl _ _)) ?_
      rintro answer _ ⟨hs, u, rfl, hu⟩
      exact .ofExcept (fun _ _ => { hf with toSteady := hs, batched := fun hb => (hf.batched hb).append hu })
        fun _ _ => hs.toSound
  | _ => exact .ofExcept (fun _ _ => hf) fun _ _ => hf.toSound

theorem admitReducer_guarded {source field : Str} {snapshot : State} {reducer : Option Reducer}
    {writes : Contributions} {request : DispatchRequest} (hf : Folding gate source request h) :
    Ensures acting (fun _ => Sound gate)
      (admitReducer (some gate) snapshot field reducer writes (some request))
      (fun _ t => Folding gate source request t ∧ ∀ fn, reducer = some (.custom fn) →
        ∀ base values, Authorized gate t (.reducer source field fn base values)) h := by
  unfold admitReducer
  split
  · rename_i fn request' heq
    obtain rfl := Option.some.inj heq
    split_ifs with hhook
    · have hb : gate.beforeStart = true := by simpa [hasBeforeStart] using hhook
      refine .bind (.ofExcept (fun inputs _ => ?_) fun _ _ => hf.toSound)
      refine .andThen (dispatch_guarded hf.toSteady) ?_
      rintro ⟨_ | decision, asked⟩ t ⟨hsound, hgo⟩
      · obtain ⟨hs, hasked⟩ := hgo rfl
        refine .andThen (beforeStart_guarded hs hasked) ?_
        rintro _ t' ⟨hs', hskips | hc⟩
        · rcases hskips with hnone | ⟨hb, _⟩
          · cases hnone
          · cases hb
        · refine .ret ⟨{ hf with toSteady := hs', batched := ?_ }, fun fn' _ base values => ?_⟩
          · simp [hb]
          · exact ⟨⟨.reducer, request.nodes ++ [field], request.steps, request.source,
              request.batchId⟩, ⟨rfl, hf.source_eq, fun _ => by simp⟩, hc⟩
      · exact .raise hsound
    · have hb : gate.beforeStart = false := by simpa [hasBeforeStart] using hhook
      refine .ret ⟨hf, fun fn' _ base values => ⟨request, ⟨hf.boundary, hf.source_eq, ?_⟩, hf.batched hb⟩⟩
      simp [hb]
  · rename_i hother
    refine .ret ⟨hf, fun fn hfn => ?_⟩
    exact (hother fn request hfn rfl).elim

theorem foldField_guarded {g : CompiledGraph} {source field : Str} {snapshot : State}
    {contributed : Contributed} {request : DispatchRequest} (hf : Folding gate source request h) :
    Ensures acting (fun _ => Sound gate)
      (foldField g (some gate) source snapshot (some request) contributed field)
      (fun _ => Folding gate source request) h := by
  refine .andThen (admitReducer_guarded hf) fun inputs t ⟨hf', hcustom⟩ => ?_
  refine reduceField_guarded hf' fun fn hfn => hcustom fn ?_
  cases hr : g.reducers.get? field with
  | none => simp [hr, defaultReducer] at hfn
  | some reducer => simpa [hr] using hfn

theorem fold_guarded {g : CompiledGraph} {source : Str} {snapshot : State}
    {admitted : List (Str × Delta)} {request : DispatchRequest}
    (hf : Folding gate source request h) :
    Ensures acting (fun _ => Sound gate) (fold g (some gate) source snapshot admitted (some request))
      (fun _ => Steady gate) h := by
  refine .bind (.ofExcept (fun fields _ => ?_) fun _ _ => hf.toSound)
  generalize (Dict.empty, Dict.empty) = folded
  induction Python.sorted id fields generalizing h folded with
  | nil => exact .ret hf.toSteady
  | cons field rest ih => exact .andThen (foldField_guarded hf) fun _ t hf' => ih hf' _

theorem admit_guarded {source : Str} {edge : FanOut} {settled : List Settled}
    (hs : Steady gate h)
    (hjoin : ∀ fn outcomes, edge.join = .custom fn → Authorized gate h (.join source fn outcomes)) :
    Ensures acting (fun _ => Sound gate) (admitBranches source edge.join settled)
      (fun _ => Steady gate) h := by
  unfold admitBranches
  cases hkind : edge.join with
  | custom fn =>
      refine .andThen (invoke_guarded hs (hjoin fn _ hkind)) fun answer t ⟨hs', _⟩ => ?_
      refine .bind (.ofExcept (fun names _ => ?_) fun _ _ => hs'.toSound)
      refine .bind (.ofExcept (fun chosen _ => ?_) fun _ _ => hs'.toSound)
      dsimp only
      split_ifs
      · exact .raise hs'.toSound
      · exact .ret hs'
  | _ =>
      dsimp only
      split_ifs
      · first | exact .ret hs | exact .raise hs.toSound
      · first | exact .ret hs | exact .raise hs.toSound

-- What one branch may contribute to a run, when `window` is what was exchanged since the
-- last observation and `request` is the branch's own.
structure BranchRun (gate : Gate) (window : Run) (request : DispatchRequest) (source name : Str)
    (t : Run) : Prop where
  enters : ∀ e ∈ t, ∀ c ∈ entering? e, ∃ fn state, c = .branch source name fn state
  denies : ∀ e ∈ t, ∀ r ∈ denied? e, r = request
  authorized : Always (fun past e => ∀ c ∈ entering? e, ∃ r, covers gate r c ∧
    (evidence gate r).Sublist (window ++ past)) t
  withheld : (∃ e ∈ t, denied? e ≠ none) → ∀ e ∈ t, entering? e = none

variable {window : Run} {request : DispatchRequest} {source name : Str}

theorem BranchRun.of_quiet {t : Run} (hq : ∀ e ∈ t, entering? e = none)
    (hd : ∀ e ∈ t, ∀ r ∈ denied? e, r = request) :
    BranchRun gate window request source name t where
  enters := by
    intro e he c hc
    rw [hq e he] at hc
    cases hc
  denies := hd
  authorized := by
    rintro pre e post rfl c hc
    rw [hq e (by simp)] at hc
    cases hc
  withheld := fun _ => hq

theorem BranchRun.of_called {t : Run} {fn : Fn} {snapshot : State} {reply : Reply}
    {r : DispatchRequest} (hq : ∀ e ∈ t, entering? e = none) (hd : ∀ e ∈ t, denied? e = none)
    (hr : covers gate r (.branch source name fn snapshot))
    (hev : (evidence gate r).Sublist (window ++ t)) :
    BranchRun gate window request source name
      (t ++ [.enter (.branch source name fn snapshot),
        .leave (.branch source name fn snapshot) reply]) where
  enters := by
    intro e he c hc
    rcases List.mem_append.mp he with he | he
    · rw [hq e he] at hc
      cases hc
    · simp only [List.mem_cons, List.not_mem_nil, or_false] at he
      rcases he with rfl | rfl <;> cases hc
      exact ⟨fn, snapshot, rfl⟩
  denies := by
    intro e he r hr
    rcases List.mem_append.mp he with he | he
    · rw [hd e he] at hr
      cases hr
    · simp only [List.mem_cons, List.not_mem_nil, or_false] at he
      rcases he with rfl | rfl <;> cases hr
  authorized := by
    refine always_append.mpr ⟨?_, always_cons.mpr ⟨?_, always_cons.mpr ⟨?_, always_nil⟩⟩⟩
    · rintro pre e post rfl c hc
      rw [hq e (by simp)] at hc
      cases hc
    · rintro c ⟨⟩
      exact ⟨r, hr, by simpa using hev⟩
    · rintro c ⟨⟩
  withheld := by
    rintro ⟨e, he, hne⟩
    rcases List.mem_append.mp he with he | he
    · exact absurd (hd e he) hne
    · simp only [List.mem_cons, List.not_mem_nil, or_false] at he
      rcases he with rfl | rfl <;> exact absurd rfl hne

-- A branch the gate kept from running settles with a carrier that says so.
def Settles (gate : Gate) (window : Run) (request : DispatchRequest) (source name : Str)
    (item : Settled) (t : Run) : Prop :=
  BranchRun gate window request source name t ∧
    ((∃ e ∈ t, denied? e ≠ none) → ∃ exc, item.error? = some exc ∧ exc.isWithheld = true)

theorem runBranch_guarded {g : CompiledGraph} {snapshot : State} {t : Run} {r : DispatchRequest}
    (hq : ∀ e ∈ t, entering? e = none) (hd : ∀ e ∈ t, denied? e = none)
    (hr : ∀ fn, covers gate r (.branch source name fn snapshot))
    (hev : (evidence gate r).Sublist (window ++ t)) :
    Ensures acting (fun _ => BranchRun gate window request source name)
      (runBranch g source snapshot name) (Settles gate window request source name) t := by
  refine Rule.runBranch (fun item _ => ?_) (fun fn reply item _ => ?_) fun fn reply error => ?_
  · refine ⟨.of_quiet hq fun e he r hr => ?_, fun ⟨e, he, hne⟩ => absurd (hd e he) hne⟩
    rw [hd e he] at hr
    cases hr
  · refine ⟨.of_called hq hd (hr fn) hev, fun ⟨e, he, hne⟩ => ?_⟩
    rcases List.mem_append.mp he with he | he
    · exact absurd (hd e he) hne
    · simp only [List.mem_cons, List.not_mem_nil, or_false] at he
      rcases he with rfl | rfl <;> exact absurd rfl hne
  · exact .of_called hq hd (hr fn) hev

theorem branchCall_guarded {g : CompiledGraph} {batchId : Str} {snapshot : State} {steps : Nat}
    {batch : DispatchRequest} (hsource : batch.source = some source)
    (hboundary : batch.boundary = .fanout) (hname : name ∈ batch.nodes)
    (hbatch : gate.beforeStart = false → (evidence gate batch).Sublist window) :
    Ensures acting
      (fun _ => BranchRun gate window ⟨.node, [name], steps, source, batchId⟩ source name)
      (branchCall g (some gate) source batchId snapshot steps name)
      (Settles gate window ⟨.node, [name], steps, source, batchId⟩ source name) [] := by
  unfold branchCall
  split_ifs with hhook
  · have hb : gate.beforeStart = true := by simpa [hasBeforeStart] using hhook
    have hdenied : ∀ t, (∀ e ∈ t, entering? e = none) →
        (∀ e ∈ t, ∀ r ∈ denied? e, r = ⟨.node, [name], steps, source, batchId⟩) →
        ∀ exc, exc.isWithheld = true →
        Settles gate window ⟨.node, [name], steps, source, batchId⟩ source name
          ⟨name, .error exc⟩ t :=
      fun t hq hd exc hexc => ⟨.of_quiet hq hd, fun _ => ⟨exc, rfl, hexc⟩⟩
    refine .bind (Rule.attemptException (Rule.dispatch ?_ (fun _ => ?_) (fun reason => ?_) ?_))
    · rintro (hnone | ⟨hnode, _⟩)
      · cases hnone
      · cases hnode
    · refine .bind (Rule.attemptException (Rule.beforeStart ?_ ?_ ?_))
      · rintro (hnone | hnone)
        · cases hnone
        · exact absurd (hhook.symm.trans hnone) nofun
      · rintro r ⟨⟩ -
        refine runBranch_guarded (r := ⟨.node, [name], steps, source, batchId⟩)
          (by simp [entering?]) (by simp [denied?]) (fun fn => ?_) (by simp [evidence, hb])
        simp [covers, hb]
      · rintro r reply ⟨⟩ hreply error
        have hq : ∀ e ∈ ([] ++ [.beforeDispatch ⟨.node, [name], steps, source, batchId⟩
            (.decided .allow)] ++ [.beforeStart ⟨.node, [name], steps, source, batchId⟩ reply] : Run),
            entering? e = none := by simp [entering?]
        have hd : ∀ e ∈ ([] ++ [.beforeDispatch ⟨.node, [name], steps, source, batchId⟩
            (.decided .allow)] ++ [.beforeStart ⟨.node, [name], steps, source, batchId⟩ reply] : Run),
            ∀ r ∈ denied? e, r = ⟨.node, [name], steps, source, batchId⟩ := by
          simp [denied?]
        split_ifs
        · exact .ret (hdenied _ hq hd _ rfl)
        · exact .of_quiet hq hd
    · refine .ret (hdenied _ (by simp [entering?]) ?_ _ rfl)
      simp [denied?]
    · intro reply hreply error
      have hq : ∀ e ∈ ([] ++ [.beforeDispatch ⟨.node, [name], steps, source, batchId⟩ reply] : Run),
          entering? e = none := by simp [entering?]
      have hd : ∀ e ∈ ([] ++ [.beforeDispatch ⟨.node, [name], steps, source, batchId⟩ reply] : Run),
          ∀ r ∈ denied? e, r = ⟨.node, [name], steps, source, batchId⟩ := by
        simp [denied_dispatch hreply]
      split_ifs
      · exact .ret (hdenied _ hq hd _ rfl)
      · exact .of_quiet hq hd
  · have hb : gate.beforeStart = false := by simpa [hasBeforeStart] using hhook
    refine runBranch_guarded (by simp) (by simp) (fun fn => ?_) (by simpa using hbatch hb)
    simp [covers, hb, hsource, hboundary, hname]

-- Interleaved runs of different branches authorize each other's events no less.
theorem interleaved_sound {task : Str → Step Settled} {branches : List Str} {before u : Run}
    {steps : Nat} {batchId : Option Str} {outcomes : List (Except Exn Settled)}
    (hs : Steady gate (before ++ window)) (hwindow : observations window = [])
    (hnames : branches.Nodup)
    (hrun : ∀ name ∈ branches, ∀ s o, Exec acting (task name) s o →
      BranchRun gate window ⟨.node, [name], steps, source, batchId⟩ source name s)
    (hi : Interleaved acting (branches.map task) u outcomes) :
    Sound gate (before ++ window ++ u) where
  authorized := by
    have hevidence : Always (fun past e => ∀ c ∈ entering? e, ∃ r, covers gate r c ∧
        (evidence gate r).Sublist (window ++ past)) u := by
      refine hi.always (fun s pre e hsub hp c hc => ?_) fun p hp s o he => ?_
      · obtain ⟨r, hr, hev⟩ := hp c hc
        exact ⟨r, hr, hev.trans (hsub.append_left window)⟩
      · obtain ⟨name, hname, rfl⟩ := List.mem_map.mp hp
        exact (hrun name hname s o he).authorized
    refine always_append.mpr ⟨hs.authorized, fun pre e post he c hc => ?_⟩
    obtain ⟨r, hr, hev⟩ := hevidence pre e post he c hc
    have hpre : observations pre = [] := by
      have hu := interleaved_observations hi
      rw [he, observations_append] at hu
      exact (List.append_eq_nil_iff.mp hu).1
    exact ⟨r, hr, before, window ++ pre, List.append_assoc .., by simp [hwindow, hpre], hev⟩
  final := by
    refine List.pairwise_append.mpr ⟨hs.final, hi.pairwise ?_ ?_, fun e he e' _ r hr => ?_⟩
    · intro p hp s o he
      obtain ⟨name, hname, rfl⟩ := List.mem_map.mp hp
      have hb := hrun name hname s o he
      refine List.pairwise_of_forall_mem_list fun e hes e' hes' r hr c hc => ?_
      have hne : denied? e ≠ none := fun hn => by rw [hn] at hr; cases hr
      rw [hb.withheld ⟨e, hes, hne⟩ e' hes'] at hc
      cases hc
    · refine List.pairwise_map.mpr (hnames.imp_of_mem ?_)
      have hcross : ∀ a b, a ∈ branches → b ∈ branches → a ≠ b → ∀ s t o o',
          Exec acting (task a) s o → Exec acting (task b) t o' → ∀ e ∈ s, ∀ e' ∈ t,
          ∀ r ∈ denied? e, ∀ c ∈ entering? e', isSibling r c := by
        intro a b ha hb hab s t o o' hsa htb e he e' he' r hr c hc
        obtain rfl := (hrun a ha s o hsa).denies e he r hr
        obtain ⟨fn, state, rfl⟩ := (hrun b hb t o' htb).enters e' he' c hc
        exact ⟨rfl, rfl, by simpa using hab⟩
      intro a b ha hb hab s t o o' hsa htb e he e' he'
      exact ⟨hcross a b ha hb hab s t o o' hsa htb e he e' he',
        hcross b a hb ha hab.symm t s o' o htb hsa e' he' e he⟩
    · rw [hs.clean e he] at hr
      cases hr

-- The batch of a region: whatever the interleaving, every branch is authorized, and
-- where one was denied the region does not go on.
theorem settle_guarded {g : CompiledGraph} {branches : List Str} {batchId : Str} {snapshot : State}
    {steps : Nat} (hs : Steady gate h) (hnames : branches.Nodup)
    (hbatch : gate.beforeStart = false →
      Cleared gate ⟨.fanout, branches, steps, source, batchId⟩ h) :
    Ensures generating (fun _ => Sound gate)
      (settle g (some gate) source branches batchId snapshot steps)
      (fun settled t => Sound gate t ∧
        (branchVerdict source (errors settled) = .ok none → Steady gate t)) h := by
  obtain ⟨before, window, rfl, hwindow, hev⟩ : ∃ before window, h = before ++ window ∧
      observations window = [] ∧ (gate.beforeStart = false →
        (evidence gate ⟨.fanout, branches, steps, source, batchId⟩).Sublist window) := by
    cases hb : gate.beforeStart with
    | true => exact ⟨h, [], (List.append_nil h).symm, rfl, nofun⟩
    | false =>
        obtain ⟨before, window, he, hw, hsub⟩ := hbatch hb
        exact ⟨before, window, he, hw, fun _ => hsub⟩
  refine .bind (.fork fun u outcomes hi => ?_)
  have hrun : ∀ name ∈ branches, ∀ s o,
      Exec acting (branchCall g (some gate) source batchId snapshot steps name) s o →
      BranchRun gate window ⟨.node, [name], steps, source, batchId⟩ source name s ∧
      (∀ item, o = .ok item → (∃ e ∈ s, denied? e ≠ none) →
        ∃ exc, item.error? = some exc ∧ exc.isWithheld = true) := by
    intro name hname s o he
    have hbranch : Ensures acting
        (fun _ => BranchRun gate window ⟨.node, [name], steps, source, batchId⟩ source name)
        (branchCall g (some gate) source batchId snapshot steps name)
        (Settles gate window ⟨.node, [name], steps, source, batchId⟩ source name) [] :=
      branchCall_guarded rfl rfl hname hev
    have hc := hbranch s o he
    cases o with
    | error exc => exact ⟨hc, nofun⟩
    | ok item => exact ⟨hc.1, fun _ hi => Except.ok.inj hi ▸ hc.2⟩
  have hsound : Sound gate (before ++ window ++ u) :=
    interleaved_sound hs hwindow hnames (fun name hn s o he => (hrun name hn s o he).1) hi
  refine .ofExcept (fun settled hsettled => ⟨hsound, fun hverdict => ⟨hsound, ?_⟩⟩) fun _ _ => hsound
  intro e he
  rcases List.mem_append.mp he with he | he
  · exact hs.clean e he
  · by_contra hne
    obtain ⟨p, hp, s, o, ho, hexec, hes⟩ := hi.exists_of_mem he
    obtain ⟨name, hname, rfl⟩ := List.mem_map.mp hp
    rw [results_ok hsettled] at ho
    obtain ⟨item, hitem, rfl⟩ := List.mem_map.mp ho
    obtain ⟨exc, hexc, hw⟩ := (hrun name hname s _ hexec).2 item rfl ⟨e, hes, hne⟩
    have hmem : exc ∈ errors settled := List.mem_filterMap.mpr ⟨item, hitem, hexc⟩
    exact absurd (hw.symm.trans (not_isWithheld_of_branchVerdict hverdict exc hmem)) nofun

theorem Steady.emit {observation : GraphObservation} (hs : Steady gate h) :
    Steady gate (h ++ [.emit observation]) :=
  hs.append_quiet (by simp [entering?]) (by simp [denied?])

theorem Sound.emit {observation : GraphObservation} (hs : Sound gate h) :
    Sound gate (h ++ [.emit observation]) :=
  hs.append_quiet (by simp [entering?])

abbrev Goes {α : Type} (gate : Gate) : Option α → Run → Prop :=
  Rule.Goes (Sound gate) fun _ => Steady gate

theorem orStop_guarded {α : Type} {state : State} {node : Str} {steps : Nat}
    {decision : Option GateDecision} {next : Scheduler (Option α)} (hs : Sound gate h)
    (hnext : decision = none → Ensures generating (fun _ => Sound gate) next (Goes gate) h) :
    Ensures generating (fun _ => Sound gate) (orStop state node steps decision next)
      (Goes gate) h :=
  Rule.orStop hnext (fun _ _ _ _ => hs.emit) fun _ _ _ => hs

-- Asking for a boundary and, where it was allowed, marking the start of `k`.
theorem gated {α : Type} {edge : Option Edge} {boundary : DispatchBoundary} {nodes : List Str}
    {steps : Nat} {source batchId : Option Str} {state : State} {node : Str} {at_ : Nat}
    {k : Scheduler (Option α)} (hs : Steady gate h)
    (hk : ∀ t, Steady gate t →
      (Unguarded (some gate) edge boundary ∨
        Cleared gate ⟨boundary, nodes, steps, source, batchId⟩ t) →
      Ensures generating (fun _ => Sound gate) k (Goes gate) t) :
    Ensures generating (fun _ => Sound gate)
      ((dispatch (some gate) edge boundary nodes steps source batchId).lift.bind fun asked =>
        orStop state node at_ asked.1 ((beforeStart (some gate) asked.2).lift.bind fun _ => k))
      (Goes gate) h := by
  refine .andThen (.lift (dispatch_guarded hs)) fun asked t ⟨hsound, hgo⟩ => ?_
  refine orStop_guarded hsound fun hnone => ?_
  obtain ⟨hs', hasked⟩ := hgo hnone
  exact .andThen (.lift (beforeStart_guarded hs' hasked)) fun _ t' ⟨hs'', hc⟩ => hk t' hs'' hc

theorem resolveEdge_guarded {g : CompiledGraph} {source : Str} {edge : Edge} {state : State}
    {request : DispatchRequest} (hs : Steady gate h)
    (hrequest : request.boundary = .router ∧ request.nodes = [source] ∧ request.source = some source)
    (hc : Unguarded (some gate) edge .router ∨ Cleared gate request h) :
    Ensures acting (fun _ => Sound gate) (resolveEdge g source edge state)
      (fun _ => Steady gate) h := by
  unfold resolveEdge
  have hrouter : ∀ router, edge.router? = some router →
      Authorized gate h (.router source router state) := by
    intro router hr
    rcases hc with (hnone | ⟨_, hnone⟩) | hc
    · cases hnone
    · simp [hr] at hnone
    · exact ⟨request, hrequest, hc⟩
  have hinvoke : ∀ router, edge.router? = some router →
      Ensures acting (fun _ => Sound gate)
        ((invoke (.router source router state)).bind fun reply =>
          (Prog.ofExcept reply.result).bind fun value =>
            (Prog.ofExcept (checkTarget g value)).bind fun target => .ret (target, reply.left))
        (fun _ => Steady gate) h := by
    intro router hr
    refine .andThen (invoke_guarded hs (hrouter router hr)) fun reply t ⟨hs', _⟩ => ?_
    refine .bind (.ofExcept (fun _ _ => ?_) fun _ _ => hs'.toSound)
    exact .bind (.ofExcept (fun _ _ => .ret hs') fun _ _ => hs'.toSound)
  cases edge with
  | static target => exact .bind (.ofExcept (fun _ _ => .ret hs) fun _ _ => hs.toSound)
  | fanout region => exact .ofExcept (fun _ _ => hs) fun _ _ => hs.toSound
  | callable router => exact hinvoke router rfl
  | conditional edge => exact hinvoke edge.router rfl

theorem route_guarded {g : CompiledGraph} {source : Str} {edge : Edge} {state : State} {steps : Nat}
    (hs : Steady gate h) :
    Ensures generating (fun _ => Sound gate) (route g (some gate) source edge state steps)
      (Goes gate) h := by
  refine gated hs fun t hs' hc => ?_
  refine .andThen (.lift (resolveEdge_guarded hs' ⟨rfl, rfl, rfl⟩ hc)) fun taken t' hs'' => ?_
  exact .bind (.emit (.ret hs''.emit))

section Scheduler

variable [Sha256] {g : CompiledGraph}

theorem commit_guarded {boundary : CommitBoundary} {nodes : List Str} {steps : Nat}
    {source batchId : Option Str} {delta : Delta} (hs : Steady gate h) :
    Ensures acting (fun _ => Sound gate)
      (commit (some gate) boundary nodes steps source batchId delta) (fun _ => Steady gate) h := by
  refine Rule.commit (fun _ => hs) (fun _ _ => hs.toSound) (fun digest _ _ => ?_)
    (fun digest reason _ => ?_) fun digest reply _ error => ?_
  · exact hs.append_quiet (by simp [entering?]) (by simp [denied?])
  · exact hs.append_quiet (by simp [entering?]) (by simp [denied?])
  · exact hs.toSound.append_quiet (by simp [entering?])

omit [Sha256] in
theorem settlement_guarded {request : Option CommitRequest} (hs : Steady gate h) :
    Ensures acting (fun _ => Sound gate) (afterCommit (some gate) request).attempt
      (fun _ => Steady gate) h :=
  Rule.settle (fun _ => hs) fun _ _ _ _ =>
    hs.append_quiet (by simp [entering?]) (by simp [denied?])

theorem publishNode_guarded {node : Str} {state : State} {steps : Nat} {delta : Delta}
    (hs : Steady gate h) :
    Ensures generating (fun _ => Sound gate) (publishNode (some gate) node state steps delta)
      (Goes gate) h := by
  refine .andThen (.lift (commit_guarded hs)) fun asked t hs => ?_
  refine orStop_guarded hs.toSound fun _ => ?_
  refine .bind (.ofExcept (fun merged _ => ?_) fun _ _ => hs.toSound)
  refine .andThen (.lift (settlement_guarded hs)) fun settlement t hs => ?_
  refine .bind (.emit (.bind (.ofExcept (fun _ _ => ?_) fun _ _ => hs.emit.toSound)))
  exact .ret hs.emit

theorem finishNode_guarded {node : Str} {steps : Nat} {reply : Reply} (hs : Steady gate h) :
    Ensures generating (fun _ => Sound gate) (finishNode (some gate) node steps reply)
      (Goes gate) h := by
  unfold finishNode
  split
  · split_ifs
    · refine .bind (.ofExcept (fun _ _ => ?_) fun _ _ => hs.toSound)
      exact .bind (.emit (.ret hs.emit.toSound))
    · exact .raise hs.toSound
  · refine .bind (.ofExcept (fun _ _ => ?_) fun _ _ => hs.toSound)
    refine .bind (.ofExcept (fun _ _ => ?_) fun _ _ => hs.toSound)
    exact publishNode_guarded hs

theorem runNode_guarded {node : Str} {state : State} {steps : Nat} (hs : Steady gate h) :
    Ensures generating (fun _ => Sound gate) (runNode g (some gate) node state steps)
      (Goes gate) h := by
  refine .bind (.ofExcept (fun fn _ => ?_) fun _ _ => hs.toSound)
  refine .bind (.ofExcept (fun state _ => ?_) fun _ _ => hs.toSound)
  refine .bind (.emit (gated hs.emit fun t hs' hc => ?_))
  have hnode : Authorized gate t (.node node fn state) := by
    rcases hc with (hnone | ⟨hnone, _⟩) | hc
    · cases hnone
    · cases hnone
    · exact ⟨_, ⟨rfl, rfl, rfl⟩, hc⟩
  exact .andThen (.lift (invoke_guarded hs' hnode)) fun _ t' ⟨hs'', _⟩ => finishNode_guarded hs''

omit [Sha256] in
theorem announce_guarded {edge : FanOut} {snapshot : State} {steps : Nat} (hs : Steady gate h) :
    Ensures generating (fun _ => Sound gate) (announce source edge snapshot steps)
      (fun _ => Steady gate) h :=
  .bind (.emit (.forM (I := fun _ => Steady gate) hs.emit fun _ _ _ hs => .emit hs.emit))

theorem publishRegion_guarded {edge : FanOut} {state snapshot : State} {steps completed : Nat}
    {progress : steps ≤ completed} {batchId : Str} {admitted : List (Str × Delta)} {merged : Delta}
    {provenance : Provenance} (hs : Steady gate h) :
    Ensures generating (fun _ => Sound gate)
      (publishRegion (some gate) source edge state snapshot steps completed progress batchId admitted
        merged provenance) (Goes gate) h := by
  refine .andThen (.lift (commit_guarded hs)) fun asked t hs => ?_
  refine orStop_guarded hs.toSound fun _ => ?_
  refine .bind (.ofExcept (fun committed _ => ?_) fun _ _ => hs.toSound)
  refine .andThen (.lift (settlement_guarded hs)) fun settlement t hs => ?_
  refine .andThen (.forM (I := fun _ => Steady gate) hs fun _ _ _ hs => .emit hs.emit) fun _ t hs => ?_
  refine .bind (.emit (.bind (.ofExcept (fun _ _ => ?_) fun _ _ => hs.emit.toSound)))
  exact .ret hs.emit

theorem foldRegion_guarded {edge : FanOut} {state snapshot : State} {steps completed : Nat}
    {progress : steps ≤ completed} {batchId : Str} {admitted : List (Str × Delta)}
    (hs : Steady gate h) :
    Ensures generating (fun _ => Sound gate)
      (foldRegion g (some gate) source edge state snapshot steps completed progress batchId admitted)
      (Goes gate) h := by
  refine .andThen (.lift (dispatch_guarded hs)) fun asked t ⟨hsound, hgo⟩ => ?_
  refine orStop_guarded hsound fun hnone => ?_
  obtain ⟨hs', ⟨_, hnone | ⟨hnone, _⟩⟩ | ⟨hrequest, hgranted⟩⟩ := hgo hnone
  · cases hnone
  · cases hnone
  · have hf : Folding gate source _ t := ⟨hs', rfl, rfl, hgranted.cleared⟩
    rw [hrequest]
    refine .andThen (.lift (Q := fun result t => match result with
      | .ok _ => Steady gate t
      | .error _ => Sound gate t) (Rule.catchBoundaryStop ?_)) ?_
    · exact (fold_guarded hf).mono (fun _ _ hs => hs) fun _ _ hs => ⟨hs, fun _ _ => hs⟩
    rintro (decision | ⟨merged, provenance⟩) t' hs''
    · exact orStop_guarded hs'' nofun
    · refine .bind (.ofExcept (fun _ _ => publishRegion_guarded hs'') fun _ _ => hs''.toSound)

theorem joinRegion_guarded {edge : FanOut} {state snapshot : State} {steps : Nat} {batchId : Str}
    {settled : List Settled} (hsound : Sound gate h)
    (hs : branchVerdict source (errors settled) = .ok none → Steady gate h) :
    Ensures generating (fun _ => Sound gate)
      (joinRegion g (some gate) source edge state snapshot steps batchId settled) (Goes gate) h := by
  refine .bind (.ofExcept (fun verdict hverdict => ?_) fun _ _ => hsound)
  refine orStop_guarded hsound fun hnone => ?_
  subst hnone
  have hs := hs hverdict
  split
  · refine .bind (.ofExcept (fun _ _ => ?_) fun _ _ => hs.toSound)
    exact .bind (.emit (.ret hs.emit.toSound))
  · cases hjoin : edge.join with
    | custom fn =>
        simp only [askJoin, hjoin]
        refine gated hs fun t hs' hc => ?_
        refine .andThen (.lift (hjoin ▸ admit_guarded hs' fun fn' outcomes _ => ?_))
          fun admitted t' hs'' => foldRegion_guarded hs''
        rcases hc with (hnone | ⟨hnone, _⟩) | hc
        · cases hnone
        · cases hnone
        · exact ⟨_, ⟨rfl, rfl⟩, hc⟩
    | _ =>
        simp only [askJoin, hjoin]
        refine .bind (.lift (.ret (orStop_guarded hs.toSound fun _ => .bind (.lift (.ret ?_)))))
        exact .andThen (.lift (hjoin ▸ admit_guarded hs fun fn _ hfn => by simp [hjoin] at hfn))
          fun admitted t' hs'' => foldRegion_guarded hs''

theorem runRegion_guarded {edge : FanOut} {state : State} {steps : Nat} (hs : Steady gate h) :
    Ensures generating (fun _ => Sound gate) (runRegion g (some gate) source edge state steps)
      (Goes gate) h := by
  refine .bind (.ofExcept (fun snapshot _ => ?_) fun _ _ => hs.toSound)
  refine .andThen (announce_guarded hs) fun _ t hs => ?_
  refine .bind (.lift (.act fun batchId => ?_))
  have hs := hs.append_quiet (u := [.act (S := Core) .tokenUrlsafe batchId])
    (by simp [entering?]) (by simp [denied?])
  refine .andThen (.lift (dispatch_guarded hs)) fun asked t ⟨hsound, hgo⟩ => ?_
  refine orStop_guarded hsound fun hnone => ?_
  obtain ⟨hs', ⟨_, hnone | ⟨hnone, _⟩⟩ | ⟨_, hgranted⟩⟩ := hgo hnone
  · cases hnone
  · cases hnone
  · refine .andThen (settle_guarded hs' (edge.ascending.imp fun h => ne_of_lt h) hgranted.cleared) ?_
    exact fun settled t' ⟨hsound, hgo⟩ => joinRegion_guarded hsound hgo

theorem followRegion_guarded {node : Str} {state : State} {steps : Nat} (hs : Steady gate h) :
    Ensures generating (fun _ => Sound gate) (followRegion g (some gate) node state steps)
      (Goes gate) h := by
  unfold followRegion
  split
  · refine .andThen (runRegion_guarded hs) ?_
    rintro (_ | result) t hgo
    · exact .ret hgo
    · exact .ret hgo
  · exact .ret hs

theorem run_guarded {state : State} (hs : Steady gate h) :
    Ensures generating (fun _ => Sound gate) (run g (some gate) state) (fun _ => Sound gate) h := by
  refine Rule.run (I := fun _ _ _ _ => Steady gate) (J := fun _ _ _ => Steady gate)
    (K := fun _ _ _ _ => Steady gate) (route_guarded hs) ?_ ?_ ?_ ?_ ?_
  · intro state steps lastNode h hs
    exact .bind (.ofExcept (fun _ _ => .emit hs.emit.toSound) fun _ _ => hs.toSound)
  · exact fun _ _ _ _ _ hs _ => hs.toSound
  · exact fun _ _ _ _ _ hs _ _ => runNode_guarded hs
  · exact fun _ _ _ _ hs => followRegion_guarded hs
  · exact fun _ _ _ _ _ hs => route_guarded hs

-- Guard completeness: a callable receives control only under an allowance of its own, and
-- a denied one never does.
theorem run_authorized {state : State} {t : Run} {o : Except Exn Unit}
    (he : Exec generating (run g (some gate) state) t o) :
    (∀ past callable post, t = past ++ .enter callable :: post → Authorized gate past callable) ∧
    ∀ past e post denied, t = past ++ e :: post → denied? e = some denied →
      ∀ callable, .enter callable ∈ post → ¬covers gate denied callable ∧ isSibling denied callable := by
  have hsound : Sound gate t := by
    have hrun := run_guarded steady_nil t o he
    cases o <;> simpa using hrun
  refine ⟨fun past callable post ht => hsound.authorized past _ post ht callable rfl, ?_⟩
  rintro past e post denied rfl hd callable hc
  have hpair := (List.pairwise_append.mp hsound.final).2.1
  have hsibling := (List.pairwise_cons.mp hpair).1 _ hc denied hd callable rfl
  refine ⟨fun hcovers => ?_, hsibling⟩
  cases callable with
  | branch source name fn state =>
      obtain ⟨hnode, -, hother⟩ := hsibling
      obtain ⟨-, hcovers⟩ := hcovers
      split_ifs at hcovers
      · exact hother hcovers.2
      · exact absurd (hnode.symm.trans hcovers.1) nofun
  | _ => exact hsibling

end Scheduler

theorem run_authorized_diamond :
    letI := Sha256.verbatim
    let t := ((run .diamond (some ⟨true, true⟩) (State.new "s")).simulate
      (obliging fun _ => .dict [])).1
    (t.filterMap entering?).length = 3 ∧
    ∀ past callable post, t = past ++ .enter callable :: post →
      Authorized ⟨true, true⟩ past callable :=
  letI := Sha256.verbatim
  ⟨by decide, (run_authorized (exec_simulate _ _)).1⟩

end PerpetuaCore.Graph.Guard
