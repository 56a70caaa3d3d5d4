import PerpetuaCore.Graph.Calls
import PerpetuaCore.Graph.Region
import PerpetuaCore.Graph.Visits
import PerpetuaCore.Interaction.History

namespace PerpetuaCore.Graph.Finality

open Interaction
open Python (Str Value Dict)
open Region (metadataAt)

-- What the answer at a boundary comes to: nothing where the gate allows, a stop, or what is
-- raised.
def verdict : Event → Except Exn (Option GateDecision)
  | .beforeDispatch request reply =>
      (checked reply).bind fun decision => enforce decision (.dispatch request)
  | .beforeCommit request reply =>
      (checked reply).bind fun decision => enforce decision (.commit request)
  | .beforeStart _ reply => (HookReply.result "before_start" reply).map fun _ => none
  | _ => .ok none

-- The exchanges of a single branch.
def branchOwn : Op → Prop
  | .beforeDispatch request | .beforeStart request =>
      request.boundary = .node ∧ request.source.isSome = true
  | .enter (.branch ..) | .leave (.branch ..) => True
  | _ => False

def OfBranch : Event → Prop
  | .act op _ => branchOwn op
  | .emit _ => False

-- Those of the branch `name` of the region out of `source`; what the gate is asked names the batch.
def ownOf (source batchId name : Str) : Op → Prop
  | .beforeDispatch request | .beforeStart request =>
      request.boundary = .node ∧ request.nodes = [name] ∧ request.source = some source ∧
        request.batchId = some batchId
  | .enter (.branch region branch _ _) | .leave (.branch region branch _ _) =>
      region = source ∧ branch = name
  | _ => False

def BranchOf (source batchId name : Str) : Event → Prop
  | .act op _ => ownOf source batchId name op
  | .emit _ => False

-- The events of two branches of one region.
def Beside (e e' : Event) : Prop :=
  ∃ source batchId name name', BranchOf source batchId name e ∧
    BranchOf source batchId name' e' ∧ name' ≠ name

-- The observation says that the run was stopped, where and why.
structure Tells (decision : GateDecision) (observation : GraphObservation) : Prop where
  kind : observation.event.kind = .stopped
  terminal : observation.event.terminalReason = some .stopped
  status : observation.state.get "status" = "stopped"
  reason : metadataAt observation.state "stop_reason" = some decision.reason
  node : ∃ node, observation.event.node = some node ∧
    metadataAt observation.state "stop_node" = some (.str node)

-- The run returns and shows it was stopped, unless its last state cannot say so.
def StopsWith (decision : GateDecision) (post : Run) (o : Except Exn Unit) : Prop :=
  (∃ observation, post = [.emit observation] ∧ o = .ok () ∧ Tells decision observation) ∨
  (post = [] ∧ ∃ state node steps error,
    stopped state node steps decision = .error error ∧ o = .error error)

-- What becomes of the run after an answer at one of its own boundaries.
def Obeyed (e : Event) (post : Run) (o : Except Exn Unit) : Prop :=
  (∀ decision, verdict e = .ok (some decision) → StopsWith decision post o) ∧
  ∀ error, verdict e = .error error → (post = [] ∧ o = .error error) ∨
    ∃ decision, error = .boundaryStopped decision ∧ StopsWith decision post o

-- What becomes of it where a single branch was held back: only the other branches of its region
-- go on.
def Withheld (e : Event) (post : Run) (o : Except Exn Unit) : Prop :=
  ∃ siblings rest, post = siblings ++ rest ∧ (∀ e' ∈ siblings, Beside e e') ∧
    ((rest = [] ∧ ∃ error, o = .error error) ∨ ∃ decision, StopsWith decision rest o)

def Resolved (o : Except Exn Unit) (t : Run) : Prop :=
  ∀ past e post, t = past ++ e :: post → verdict e ≠ .ok none →
    (¬OfBranch e → Obeyed e post o) ∧ (OfBranch e → Withheld e post o)

-- Only the last answer was other than an allowance, if any, and comes to what `P` accepts.
def Lately (P : Except Exn (Option GateDecision) → Prop) (t : Run) : Prop :=
  ∀ past e post, t = past ++ e :: post → verdict e ≠ .ok none →
    post = [] ∧ ¬OfBranch e ∧ P (verdict e)

abbrev Raising (error : Exn) : Run → Prop := Lately (· = .error error)

abbrev Halting (decision : GateDecision) : Run → Prop :=
  Lately fun v => v = .ok (some decision) ∨ v = .error (.boundaryStopped decision)

-- The gate has allowed everything so far.
def Clear (t : Run) : Prop := ∀ e ∈ t, verdict e = .ok none

-- Where a boundary was asked for: everything was allowed, or the run is to stop.
def Answered : Option GateDecision → Run → Prop
  | none => Clear
  | some decision => Halting decision

variable {gate : Option Gate} {h : Run} {o : Except Exn Unit}
  {P : Except Exn (Option GateDecision) → Prop}

theorem Clear.lately (hc : Clear h) : Lately P h := by
  rintro past e post rfl hv
  exact absurd (hc e (by simp)) hv

theorem Clear.resolved (hc : Clear h) : Resolved o h := by
  rintro past e post rfl hv
  exact absurd (hc e (by simp)) hv

theorem Clear.append {u : Run} (hc : Clear h) (hu : Clear u) : Clear (h ++ u) := by
  intro e he
  rcases List.mem_append.mp he with he | he
  · exact hc e he
  · exact hu e he

theorem Clear.snoc {e : Event} (hc : Clear h) (he : verdict e = .ok none) : Clear (h ++ [e]) :=
  hc.append fun _ hm => (List.mem_singleton.mp hm) ▸ he

theorem Clear.emit {observation : GraphObservation} (hc : Clear h) :
    Clear (h ++ [.emit observation]) :=
  hc.snoc rfl

-- The last answer is what it is; all before it were allowances.
theorem Clear.asked {e : Event} (hc : Clear h) (he : ¬OfBranch e) (hp : P (verdict e)) :
    Lately P (h ++ [e]) := by
  intro past e' post hsplit hv
  rcases split_append hsplit with ⟨mid, rfl, -⟩ | ⟨mid, -, hmid⟩
  · exact absurd (hc e' (by simp)) hv
  · cases mid with
    | nil =>
        obtain ⟨rfl, rfl⟩ := List.cons.inj hmid
        exact ⟨rfl, he, hp⟩
    | cons x mid => simp at hmid

theorem Clear.stopped {e : Event} {decision : GateDecision} (hc : Clear h) (he : ¬OfBranch e)
    (hv : verdict e = .ok (some decision)) : Answered (some decision) (h ++ [e]) := by
  rw [Answered]
  exact hc.asked he (.inl hv)

theorem Lately.mono {P' : Except Exn (Option GateDecision) → Prop} (hl : Lately P h)
    (hp : ∀ v, P v → P' v) : Lately P' h := by
  intro past e post ht hv
  obtain ⟨hpost, hown, hlast⟩ := hl past e post ht hv
  exact ⟨hpost, hown, hp _ hlast⟩

theorem resolved_of_raising {error : Exn} (hr : Raising error h) : Resolved (.error error) h := by
  intro past e post ht hv
  obtain ⟨rfl, hown, hlast⟩ := hr past e post ht hv
  refine ⟨fun _ => ⟨fun decision hd => ?_, fun error' he => .inl ⟨rfl, ?_⟩⟩, fun hb => absurd hb hown⟩
  · cases hlast.symm.trans hd
  · rw [Except.error.inj (hlast.symm.trans he)]

theorem resolved_of_halting {decision : GateDecision} {post : Run} (hh : Halting decision h)
    (hclear : Clear post) (hs : StopsWith decision post o) : Resolved o (h ++ post) := by
  intro past e after ht hv
  rcases split_append ht with ⟨mid, hmid, rfl⟩ | ⟨mid, -, rfl⟩
  · obtain ⟨rfl, hown, hlast⟩ := hh past e mid hmid hv
    refine ⟨fun _ => ⟨fun decision' hd => ?_, fun error he => ?_⟩, fun hb => absurd hb hown⟩
    · rcases hlast with hlast | hlast
      · cases hlast.symm.trans hd
        exact hs
      · cases hlast.symm.trans hd
    · rcases hlast with hlast | hlast
      · cases hlast.symm.trans he
      · cases hlast.symm.trans he
        exact .inr ⟨decision, rfl, hs⟩
  · exact absurd (hclear e (by simp)) hv

theorem tells_of_stopped {state : State} {node : Str} {steps : Nat} {decision : GateDecision}
    {observation : GraphObservation} (h : stopped state node steps decision = .ok observation) :
    Tells decision observation := by
  obtain ⟨closed, hclosed, rfl⟩ := stopped_eq h
  have hstatus : closed.get "status" = "stopped" := closeWith_status hclosed
  obtain ⟨metadata, hm, rfl⟩ := closeWith_eq hclosed
  unfold withMetadata at hm
  split at hm
  · rename_i items _
    obtain rfl := Except.ok.inj hm
    have hn : (([("stop_node", (node : Value)), ("stop_reason", decision.reason)] :
        List (Value × Value)).map Prod.fst).Nodup := by
      simp only [List.map_cons, List.map_nil]
      decide
    have hne : ("stop_reason" : Value) ≠ "stop_node" := by decide
    refine ⟨rfl, rfl, hstatus, ?_, node, rfl, ?_⟩ <;>
      simp [metadataAt, State.get, attrs_close, Dict.get?_ofList hn, Dict.lookup_cons_ite, hne]
  · cases hm

section Boundaries

theorem dispatch_final {edge : Option Edge} {boundary : DispatchBoundary} {nodes : List Str}
    {steps : Nat} {source batchId : Option Str} (hc : Clear h)
    (hown : boundary ≠ .node ∨ source = none) :
    Ensures acting Raising (dispatch gate edge boundary nodes steps source batchId)
      (fun asked t => Answered asked.1 t ∧
        ∀ r, asked.2 = some r → r.boundary ≠ .node ∨ r.source = none) h := by
  have hbranch : ∀ reply, ¬OfBranch (.beforeDispatch ⟨boundary, nodes, steps, source, batchId⟩ reply) := by
    rintro reply ⟨hnode, hsome⟩
    rcases hown with hown | rfl
    · exact hown hnode
    · cases hsome
  have hrequest : ∀ r, some (DispatchRequest.mk boundary nodes steps source batchId) = some r →
      r.boundary ≠ .node ∨ r.source = none := by
    rintro r ⟨⟩
    exact hown
  cases gate with
  | none => exact .ret ⟨hc, nofun⟩
  | some gate =>
      unfold dispatch
      dsimp only
      split_ifs
      · exact .ret ⟨hc, nofun⟩
      · refine .bind (.act fun reply => ?_)
        rcases reply with error | (_ | reason | reason) | type
        · exact .raise (hc.asked (hbranch _) rfl)
        · exact .ret ⟨hc.snoc rfl, hrequest⟩
        · exact .raise (hc.asked (hbranch _) rfl)
        · exact .ret ⟨hc.stopped (hbranch _) rfl, hrequest⟩
        · exact .raise (hc.asked (hbranch _) rfl)

theorem beforeStart_final {request : Option DispatchRequest} (hc : Clear h)
    (hown : ∀ r, request = some r → r.boundary ≠ .node ∨ r.source = none) :
    Ensures acting Raising (beforeStart gate request) (fun _ => Clear) h := by
  cases request with
  | none => exact .ret hc
  | some request =>
      have hbranch : ∀ reply, ¬OfBranch (.beforeStart request reply) := by
        rintro reply ⟨hnode, hsome⟩
        rcases hown request rfl with hown | hown
        · exact hown hnode
        · simp [hown] at hsome
      unfold beforeStart
      dsimp only
      split_ifs
      · refine .bind (.act fun reply => ?_)
        rcases reply with error | _ | _
        · exact .raise (hc.asked (hbranch _) rfl)
        · exact .raise (hc.asked (hbranch _) rfl)
        · exact .ret (hc.snoc rfl)
      · exact .ret hc

theorem commit_final [Sha256] {boundary : CommitBoundary} {nodes : List Str} {steps : Nat}
    {source batchId : Option Str} {delta : Delta} (hc : Clear h) :
    Ensures acting Raising (commit gate boundary nodes steps source batchId delta)
      (fun asked => Answered asked.1) h := by
  cases gate with
  | none => exact .ret hc
  | some gate =>
      refine .bind (.ofExcept (fun digest _ => ?_) fun _ _ => hc.lately)
      refine .bind (.act fun reply => ?_)
      rcases reply with error | (_ | reason | reason) | type
      · exact .raise (hc.asked (fun hb => hb) rfl)
      · exact .ret (hc.snoc rfl)
      · exact .raise (hc.asked (fun hb => hb) rfl)
      · exact .ret (hc.stopped (fun hb => hb) rfl)
      · exact .raise (hc.asked (fun hb => hb) rfl)

-- The exchanges that ask the gate for nothing.
def unasking : Op → Prop
  | .beforeDispatch _ | .beforeCommit _ | .beforeStart _ => False
  | _ => True

theorem unasked {α : Type} {p : Step α} (hc : Clear h) (hp : p.Asks unasking) :
    Ensures acting Raising p (fun _ => Clear) h :=
  (Ensures.asks hp (fun t op answer hop ht => by
    rcases op with _ | _ | _ | _ | _ | _ | _ <;>
      first | exact hop.elim | exact ht.snoc rfl) hc).mono (fun _ _ hq => hq)
    fun _ _ hq => hq.lately

end Boundaries

section Branches

variable {g : CompiledGraph} {source name batchId : Str} {snapshot : State} {steps : Nat}

-- What a branch does is its own, and nothing after it was held back.
structure Kept (source batchId name : Str) (t : Run) : Prop where
  own : ∀ e ∈ t, BranchOf source batchId name e
  final : t.Pairwise fun e _ => verdict e = .ok none

-- It settles with an error that tells where it was held back.
structure Settles (source batchId name : Str) (item : Settled) (t : Run) : Prop
    extends Kept source batchId name t where
  withheld : (∃ e ∈ t, verdict e ≠ .ok none) →
    ∃ exc, item.error? = some exc ∧ exc.isWithheld = true

theorem BranchOf.ofBranch {e : Event} (h : BranchOf source batchId name e) : OfBranch e := by
  cases e with
  | emit observation => exact h.elim
  | act op answer =>
      cases op with
      | beforeDispatch request => exact ⟨h.1, by rw [h.2.2.1]; rfl⟩
      | beforeStart request => exact ⟨h.1, by rw [h.2.2.1]; rfl⟩
      | enter callable => cases callable <;> first | exact h.elim | trivial
      | leave callable => cases callable <;> first | exact h.elim | trivial
      | _ => exact h.elim

theorem kept_clear {t : Run} (hown : ∀ e ∈ t, BranchOf source batchId name e) (hc : Clear t) :
    Kept source batchId name t :=
  ⟨hown, List.Pairwise.imp_of_mem (fun he _ _ => hc _ he)
    (List.pairwise_of_forall_mem_list fun _ _ _ _ => trivial)⟩

theorem settles_clear {item : Settled} {t : Run} (hown : ∀ e ∈ t, BranchOf source batchId name e)
    (hc : Clear t) : Settles source batchId name item t :=
  ⟨kept_clear hown hc, fun ⟨e, he, hv⟩ => absurd (hc e he) hv⟩

-- The last event may hold the branch back.
theorem Kept.snoc {t : Run} {e : Event} (hown : ∀ e ∈ t, BranchOf source batchId name e)
    (hc : Clear t) (he : BranchOf source batchId name e) : Kept source batchId name (t ++ [e]) where
  own := List.forall_mem_append.mpr ⟨hown, List.forall_mem_singleton.mpr he⟩
  final := List.pairwise_append.mpr
    ⟨(kept_clear hown hc).final, List.pairwise_singleton _ _, fun _ hm _ _ => hc _ hm⟩

theorem runBranch_settles {t : Run} (hown : ∀ e ∈ t, BranchOf source batchId name e) (hc : Clear t) :
    Ensures acting (fun _ => Kept source batchId name) (runBranch g source snapshot name)
      (Settles source batchId name) t := by
  have hcalled : ∀ fn reply, (∀ e ∈ t ++ [.enter (.branch source name fn snapshot),
      .leave (.branch source name fn snapshot) reply], BranchOf source batchId name e) ∧
      Clear (t ++ [.enter (.branch source name fn snapshot),
        .leave (.branch source name fn snapshot) reply]) := by
    intro fn reply
    constructor
    · intro e he
      rcases List.mem_append.mp he with he | he
      · exact hown e he
      · simp only [List.mem_cons, List.not_mem_nil, or_false] at he
        rcases he with rfl | rfl <;> exact ⟨rfl, rfl⟩
    · refine hc.append fun e he => ?_
      simp only [List.mem_cons, List.not_mem_nil, or_false] at he
      rcases he with rfl | rfl <;> rfl
  refine Rule.runBranch (fun item _ => settles_clear hown hc) (fun fn reply item _ => ?_)
    fun fn reply error => kept_clear (hcalled fn reply).1 (hcalled fn reply).2
  exact settles_clear (hcalled fn reply).1 (hcalled fn reply).2

theorem branchCall_settles :
    Ensures acting (fun _ => Kept source batchId name)
      (branchCall g gate source batchId snapshot steps name) (Settles source batchId name) [] := by
  have hnil : ∀ e ∈ ([] : Run), BranchOf source batchId name e := List.forall_mem_nil _
  have hclear : Clear [] := List.forall_mem_nil _
  unfold branchCall
  split_ifs
  · refine .bind (Rule.attemptException (Rule.dispatch (fun _ => ?_) (fun _ => ?_) (fun reason => ?_) ?_))
    · refine .bind (Rule.attemptException (Rule.beforeStart (fun _ => ?_) nofun nofun))
      exact runBranch_settles hnil hclear
    · have hasked : ∀ e ∈ ([.beforeDispatch ⟨.node, [name], steps, source, batchId⟩
          (.decided .allow)] : Run), BranchOf source batchId name e :=
        List.forall_mem_singleton.mpr ⟨rfl, rfl, rfl, rfl⟩
      have hallowed : Clear [.beforeDispatch ⟨.node, [name], steps, source, batchId⟩
          (.decided .allow)] := List.forall_mem_singleton.mpr rfl
      refine .bind (Rule.attemptException (Rule.beforeStart (fun _ => ?_) ?_ ?_))
      · exact runBranch_settles hasked hallowed
      · rintro r ⟨⟩ -
        refine runBranch_settles ?_ (hallowed.snoc rfl)
        exact List.forall_mem_append.mpr
          ⟨hasked, List.forall_mem_singleton.mpr ⟨rfl, rfl, rfl, rfl⟩⟩
      · rintro r reply ⟨⟩ - error
        have hkept := Kept.snoc (e := .beforeStart ⟨.node, [name], steps, source, batchId⟩ reply)
          hasked hallowed ⟨rfl, rfl, rfl, rfl⟩
        split_ifs
        · exact .ret ⟨hkept, fun _ => ⟨_, rfl, rfl⟩⟩
        · exact hkept
    · exact .ret ⟨Kept.snoc hnil hclear ⟨rfl, rfl, rfl, rfl⟩, fun _ => ⟨_, rfl, rfl⟩⟩
    · intro reply _ error
      have hkept := Kept.snoc (e := .beforeDispatch ⟨.node, [name], steps, source, batchId⟩ reply)
        hnil hclear ⟨rfl, rfl, rfl, rfl⟩
      split_ifs
      · exact .ret ⟨hkept, fun _ => ⟨_, rfl, rfl⟩⟩
      · exact hkept
  · exact runBranch_settles hnil hclear

-- Once a branch was held back nothing but the end of the run is left.
def Spent (t : Run) : Prop :=
  ∀ tail o, ((tail = [] ∧ ∃ error, o = .error error) ∨ ∃ decision, StopsWith decision tail o) →
    Clear tail → Resolved o (t ++ tail)

theorem Clear.spent {u : Run} (hc : Clear h) (hown : ∀ e ∈ u, OfBranch e)
    (hbeside : u.Pairwise fun e e' => verdict e ≠ .ok none → Beside e e') : Spent (h ++ u) := by
  intro tail o hends hclear past e post ht hv
  rw [List.append_assoc] at ht
  rcases split_append ht with ⟨mid, rfl, -⟩ | ⟨mid, -, hmid⟩
  · exact absurd (hc e (by simp)) hv
  rcases split_append hmid with ⟨rest, hu, rfl⟩ | ⟨rest, -, rfl⟩
  · have he : OfBranch e := hown e (by simp [hu])
    rw [hu] at hbeside
    have hrest := (List.pairwise_cons.mp (List.pairwise_append.mp hbeside).2.1).1
    exact ⟨fun hn => absurd he hn, fun _ => ⟨rest, tail, rfl, fun e' he' => hrest e' he' hv, hends⟩⟩
  · exact absurd (hclear e (by simp)) hv

-- After a branch was held back, what is left are events of the others.
theorem interleaved_beside {branches : List Str} {u : Run} {outcomes : List (Except Exn Settled)}
    (hn : branches.Nodup)
    (hu : Interleaved acting (branches.map (branchCall g gate source batchId snapshot steps)) u
      outcomes) : u.Pairwise fun e e' => verdict e ≠ .ok none → Beside e e' := by
  have hkept : ∀ name s o, Exec acting (branchCall g gate source batchId snapshot steps name) s o →
      Kept source batchId name s := by
    intro name s o hs
    have hcall := branchCall_settles s o hs
    cases o with
    | error error => exact hcall
    | ok item => exact hcall.toKept
  refine hu.pairwise (fun p hp s o hs => ?_) ?_
  · obtain ⟨name, -, rfl⟩ := List.mem_map.mp hp
    exact (hkept name s o hs).final.imp fun he hv => absurd he hv
  · refine List.pairwise_map.mpr (hn.imp fun {name name'} hne s t o o' hs ht e he e' he' => ?_)
    have hown := (hkept name s o hs).own e he
    have hown' := (hkept name' t o' ht).own e' he'
    exact ⟨fun _ => ⟨source, batchId, name, name', hown, hown', hne.symm⟩,
      fun _ => ⟨source, batchId, name', name, hown', hown, hne⟩⟩

theorem settle_final {branches : List Str} (hn : branches.Nodup) (hc : Clear h) :
    Ensures generating (fun error => Resolved (.error error))
      (settle g gate source branches batchId snapshot steps)
      (fun settled t => Spent t ∧ (branchVerdict source (errors settled) = .ok none → Clear t)) h := by
  refine .bind (.fork fun u outcomes hu => ?_)
  have hruns : ∀ p ∈ branches.map (branchCall g gate source batchId snapshot steps),
      ∀ s o, Exec acting p s o → (∀ e ∈ s, OfBranch e) ∧ ∀ item, o = .ok item →
        (∃ e ∈ s, verdict e ≠ .ok none) → ∃ exc, item.error? = some exc ∧ exc.isWithheld = true := by
    intro p hp s o hs
    obtain ⟨name, -, rfl⟩ := List.mem_map.mp hp
    have hcall := branchCall_settles s o hs
    cases o with
    | error error => exact ⟨fun e he => (hcall.own e he).ofBranch, nofun⟩
    | ok item =>
        refine ⟨fun e he => (hcall.own e he).ofBranch, ?_⟩
        rintro _ ⟨⟩
        exact hcall.withheld
  have hown : ∀ e ∈ u, OfBranch e := by
    intro e he
    obtain ⟨p, hp, s, o, -, hs, hes⟩ := hu.exists_of_mem he
    exact (hruns p hp s o hs).1 e hes
  have hspent := hc.spent hown (interleaved_beside hn hu)
  refine .ofExcept (fun settled hsettled => ⟨hspent, fun hverdict => ?_⟩) fun error _ => ?_
  · refine hc.append fun e he => ?_
    by_contra hv
    obtain ⟨p, hp, s, o, ho, hs, hes⟩ := hu.exists_of_mem he
    obtain ⟨item, hitem, rfl⟩ := List.mem_map.mp (results_ok hsettled ▸ ho)
    obtain ⟨exc, hexc, hwithheld⟩ := (hruns p hp s _ hs).2 item rfl ⟨e, hes, hv⟩
    have hm : exc ∈ errors settled := List.mem_filterMap.mpr ⟨item, hitem, hexc⟩
    have hnot := not_isWithheld_of_branchVerdict hverdict exc hm
    rw [hwithheld] at hnot
    cases hnot
  · have hresolved := hspent [] (.error error) (.inl ⟨rfl, error, rfl⟩) (by simp [Clear])
    rwa [List.append_nil] at hresolved

end Branches

section Folding

variable {g : CompiledGraph} {source : Str} {snapshot : State} {steps : Nat}

-- What is raised inside a fold: a stop at one of its boundaries is caught further up.
def Folding (error : Exn) (t : Run) : Prop :=
  (∀ decision, error = .boundaryStopped decision → Halting decision t) ∧
  ((∀ decision, error ≠ .boundaryStopped decision) → Raising error t)

theorem folding_of_raising {error : Exn} (hr : Raising error h) : Folding error h :=
  ⟨fun _ he => hr.mono fun _ hv => .inr (he ▸ hv), fun _ => hr⟩

theorem catchBoundaryStop_final {α : Type} {p : Step α}
    (hp : Ensures acting Folding p (fun _ => Clear) h) :
    Ensures acting Raising (catchBoundaryStop p)
      (fun result t => match result with
        | .ok _ => Clear t
        | .error decision => Halting decision t) h := by
  have hattempt : Ensures acting Raising p.attempt (fun result t =>
      (∀ value, result = .ok value → Clear t) ∧ ∀ error, result = .error error → Folding error t) h :=
    .attempt (hp.mono (fun _ _ hc => ⟨fun _ _ => hc, nofun⟩)
      fun _ _ hf => ⟨nofun, fun _ he => Except.error.inj he ▸ hf⟩)
  refine .andThen hattempt ?_
  rintro (error | value) t ⟨hok, herror⟩
  · obtain ⟨hstop, hraise⟩ := herror error rfl
    cases error with
    | boundaryStopped decision => exact .ret (hstop decision rfl)
    | _ => exact .raise (hraise nofun)
  · exact .ret (hok value rfl)

theorem admitReducer_final {field : Str} {reducer : Option Reducer} {writes : Contributions}
    {request : Option DispatchRequest} (hc : Clear h) :
    Ensures acting Folding (admitReducer gate snapshot field reducer writes request)
      (fun _ => Clear) h := by
  unfold admitReducer
  split
  · split_ifs
    · refine .bind (.ofExcept (fun inputs _ => ?_) fun _ _ => folding_of_raising hc.lately)
      refine .andThen ((dispatch_final hc (.inl (by nofun))).mono (fun _ _ hq => hq)
        fun _ _ hr => folding_of_raising hr) ?_
      rintro ⟨_ | decision, asked⟩ t ⟨ht, hrequest⟩
      · exact .bind ((beforeStart_final ht hrequest).mono (fun _ _ hq => .ret hq)
          fun _ _ hr => folding_of_raising hr)
      · refine .raise ⟨fun _ he => ?_, fun hn => absurd rfl (hn decision)⟩
        obtain rfl := Exn.boundaryStopped.inj he
        exact ht
    · exact .ret hc
  · exact .ret hc

theorem foldField_final {contributed : Contributed} {field : Str} {request : Option DispatchRequest}
    (hc : Clear h) :
    Ensures acting Folding (foldField g gate source snapshot request contributed field)
      (fun _ => Clear) h := by
  refine .andThen (admitReducer_final hc) fun inputs t ht => ?_
  refine (unasked ht (reduceField_asks fun _ _ _ => ⟨trivial, trivial⟩)).mono (fun _ _ hq => hq) ?_
  exact fun _ _ hr => folding_of_raising hr

theorem fold_final {admitted : List (Str × Delta)} {request : Option DispatchRequest} (hc : Clear h) :
    Ensures acting Folding (fold g gate source snapshot admitted request) (fun _ => Clear) h := by
  refine .bind (.ofExcept (fun fields _ => ?_) fun _ _ => folding_of_raising hc.lately)
  generalize (Dict.empty, Dict.empty) = folded
  induction Python.sorted id fields generalizing h folded with
  | nil => exact .ret hc
  | cons field rest ih => exact .andThen (foldField_final hc) fun _ _ ht => ih ht _

end Folding

section Scheduler

variable {g : CompiledGraph} {source node : Str} {edge : FanOut} {state snapshot : State}
  {steps completed : Nat} {batchId : Str}

abbrev Raises (error : Exn) (t : Run) : Prop := Resolved (.error error) t

-- A stretch of the run after which it goes on with everything allowed, or has ended.
abbrev Goes {α : Type} : Option α → Run → Prop := Rule.Goes (Resolved (.ok ())) fun _ => Clear

theorem lifted {α : Type} {p : Step α} {Q : α → Run → Prop} (hp : Ensures acting Raising p Q h) :
    Ensures generating Raises (p.lift : Scheduler α) Q h :=
  .lift (hp.mono (fun _ _ hq => hq) fun _ _ hr => resolved_of_raising hr)

theorem clear_nil : Clear [] := by simp [Clear]

-- Stopping the run: it shows so, or cannot.
theorem stop_ends {α : Type} {decision : GateDecision} {next : Scheduler (Option α)}
    {F : Exn → Run → Prop} {Q : Option α → Run → Prop}
    (hends : ∀ tail o, StopsWith decision tail o → Clear tail →
      match o with
        | .ok _ => Q none (h ++ tail)
        | .error error => F error (h ++ tail)) :
    Ensures generating F (orStop state node steps (some decision) next) Q h := by
  refine .bind (.ofExcept (fun observation ho => ?_) fun error he => ?_)
  · refine .bind (.emit (.ret ?_))
    exact hends _ (.ok ()) (.inl ⟨observation, rfl, rfl, tells_of_stopped ho⟩) (clear_nil.emit)
  · have hf := hends [] (.error error) (.inr ⟨rfl, state, node, steps, error, he, rfl⟩) clear_nil
    rwa [List.append_nil] at hf

theorem orStop_final {α : Type} {decision : Option GateDecision} {next : Scheduler (Option α)}
    (hasked : Answered decision h)
    (hnext : Clear h → Ensures generating Raises next Goes h) :
    Ensures generating Raises (orStop state node steps decision next) Goes h := by
  cases decision with
  | none => exact hnext hasked
  | some decision =>
      refine stop_ends fun tail o hs hclear => ?_
      have hresolved := resolved_of_halting hasked hclear hs
      cases o <;> exact hresolved

theorem route_final {edge : Edge} (hc : Clear h) :
    Ensures generating Raises (route g gate source edge state steps) Goes h := by
  refine .andThen (lifted (dispatch_final hc (.inl nofun))) ?_
  rintro ⟨decision, asked⟩ t ⟨hasked, hrequest⟩
  refine orStop_final hasked fun ht => ?_
  refine .andThen (lifted (beforeStart_final ht hrequest)) fun _ t ht => ?_
  refine .andThen (lifted (unasked ht (resolveEdge_asks fun _ _ => ⟨trivial, trivial⟩))) ?_
  exact fun _ t ht => .bind (.emit (.ret ht.emit))

theorem publishNode_final [Sha256] {delta : Delta} (hc : Clear h) :
    Ensures generating Raises (publishNode gate node state steps delta) Goes h := by
  refine .andThen (lifted (commit_final hc)) ?_
  rintro ⟨decision, asked⟩ t hasked
  refine orStop_final hasked fun ht => ?_
  refine .bind (.ofExcept (fun merged _ => ?_) fun _ _ => ht.resolved)
  refine .andThen (lifted (unasked ht (.attempt (afterCommit_asks fun _ => trivial)))) ?_
  intro settlement t ht
  exact .bind (.emit (.bind (.ofExcept (fun _ _ => .ret ht.emit) fun _ _ => ht.emit.resolved)))

theorem finishNode_final [Sha256] {reply : Reply} (hc : Clear h) :
    Ensures generating Raises (finishNode gate node steps reply) Goes h := by
  unfold finishNode
  split
  · split_ifs
    · refine .bind (.ofExcept (fun _ _ => ?_) fun _ _ => hc.resolved)
      exact .bind (.emit (.ret hc.emit.resolved))
    · exact .raise hc.resolved
  · refine .bind (.ofExcept (fun _ _ => ?_) fun _ _ => hc.resolved)
    refine .bind (.ofExcept (fun _ _ => ?_) fun _ _ => hc.resolved)
    exact publishNode_final hc

theorem runNode_final [Sha256] (hc : Clear h) :
    Ensures generating Raises (runNode g gate node state steps) Goes h := by
  refine .bind (.ofExcept (fun fn _ => ?_) fun _ _ => hc.resolved)
  refine .bind (.ofExcept (fun visited _ => ?_) fun _ _ => hc.resolved)
  refine .bind (.emit ?_)
  refine .andThen (lifted (dispatch_final hc.emit (.inr rfl))) ?_
  rintro ⟨decision, asked⟩ t ⟨hasked, hrequest⟩
  refine orStop_final hasked fun ht => ?_
  refine .andThen (lifted (beforeStart_final ht hrequest)) fun _ t ht => ?_
  refine .andThen (lifted (unasked ht (invoke_asks trivial trivial))) fun reply t ht => ?_
  exact finishNode_final ht

theorem publishRegion_final [Sha256] {progress : steps ≤ completed} {admitted : List (Str × Delta)}
    {merged : Delta} {provenance : Provenance} (hc : Clear h) :
    Ensures generating Raises
      (publishRegion gate source edge state snapshot steps completed progress batchId admitted merged
        provenance) Goes h := by
  refine .andThen (lifted (commit_final hc)) ?_
  rintro ⟨decision, asked⟩ t hasked
  refine orStop_final hasked fun ht => ?_
  refine .bind (.ofExcept (fun committed _ => ?_) fun _ _ => ht.resolved)
  refine .andThen (lifted (unasked ht (.attempt (afterCommit_asks fun _ => trivial)))) ?_
  intro settlement t ht
  refine .andThen (.forM (I := fun _ => Clear) ht fun _ _ _ ht => .emit ht.emit) fun _ t ht => ?_
  exact .bind (.emit (.bind (.ofExcept (fun _ _ => .ret ht.emit) fun _ _ => ht.emit.resolved)))

theorem foldRegion_final [Sha256] {progress : steps ≤ completed} {admitted : List (Str × Delta)}
    (hc : Clear h) :
    Ensures generating Raises
      (foldRegion g gate source edge state snapshot steps completed progress batchId admitted) Goes h := by
  refine .andThen (lifted (dispatch_final hc (.inl nofun))) ?_
  rintro ⟨decision, asked⟩ t ⟨hasked, -⟩
  refine orStop_final hasked fun ht => ?_
  refine .andThen (lifted (catchBoundaryStop_final (fold_final ht))) ?_
  rintro (decision | ⟨merged, provenance⟩) t ht
  · exact orStop_final ht fun hc => .ret hc.resolved
  · exact .bind (.ofExcept (fun _ _ => publishRegion_final ht) fun _ _ => ht.resolved)

theorem joinRegion_final [Sha256] {settled : List Settled} (hspent : Spent h)
    (hclear : branchVerdict source (errors settled) = .ok none → Clear h) :
    Ensures generating Raises
      (joinRegion g gate source edge state snapshot steps batchId settled) Goes h := by
  refine .bind (.ofExcept (fun verdict hverdict => ?_) fun error _ => ?_)
  · cases verdict with
    | some decision =>
        refine stop_ends fun tail o hs hc => ?_
        have hresolved := hspent tail o (.inr ⟨decision, hs⟩) hc
        cases o <;> exact hresolved
    | none =>
        have hc := hclear hverdict
        refine orStop_final hc fun _ => ?_
        split
        · refine .bind (.ofExcept (fun _ _ => ?_) fun _ _ => hc.resolved)
          exact .bind (.emit (.ret hc.emit.resolved))
        · have hjoin : Ensures acting Raising
              (askJoin gate source edge (steps + settled.countP Settled.ok) batchId)
              (fun asked t => Answered asked.1 t ∧
                ∀ r, asked.2 = some r → r.boundary ≠ .node ∨ r.source = none) h := by
            unfold askJoin
            split
            · exact dispatch_final hc (.inl nofun)
            · exact .ret ⟨hc, nofun⟩
          refine .andThen (lifted hjoin) ?_
          rintro ⟨decision, asked⟩ t ⟨hasked, hrequest⟩
          refine orStop_final hasked fun ht => ?_
          refine .andThen (lifted (beforeStart_final ht hrequest)) fun _ t ht => ?_
          refine .andThen (lifted (unasked ht (admit_asks fun _ _ => ⟨trivial, trivial⟩))) ?_
          exact fun _ t ht => foldRegion_final ht
  · have hresolved := hspent [] (.error error) (.inl ⟨rfl, error, rfl⟩) clear_nil
    rwa [List.append_nil] at hresolved

theorem runRegion_final [Sha256] (hc : Clear h) :
    Ensures generating Raises (runRegion g gate source edge state steps) Goes h := by
  refine .bind (.ofExcept (fun snapshot _ => ?_) fun _ _ => hc.resolved)
  refine .andThen (.bind (.emit (.forM (I := fun _ => Clear) hc.emit fun _ _ _ ht => .emit ht.emit))) ?_
  intro _ t ht
  refine .andThen (lifted (unasked ht (.call trivial))) fun batchId t ht => ?_
  refine .andThen (lifted (dispatch_final ht (.inl nofun))) ?_
  rintro ⟨decision, asked⟩ t ⟨hasked, -⟩
  refine orStop_final hasked fun ht => ?_
  have hn : edge.branches.Nodup := edge.ascending.imp fun h => h.ne
  exact .andThen (settle_final hn ht) fun settled t ⟨hspent, hclear⟩ => joinRegion_final hspent hclear

theorem followRegion_final [Sha256] (hc : Clear h) :
    Ensures generating Raises (followRegion g gate node state steps) Goes h := by
  unfold followRegion
  split
  · refine .andThen (runRegion_final hc) ?_
    rintro (_ | result) t ht
    · exact .ret ht
    · exact .ret ht
  · exact .ret hc

theorem finish_final (hc : Clear h) :
    Ensures generating Raises (finish state steps) (fun _ => Resolved (.ok ())) h :=
  .bind (.ofExcept (fun _ _ => .emit hc.emit.resolved) fun _ _ => hc.resolved)

-- The gate's first answer other than an allowance is its last: the run ends there, as told. Held
-- back for a single branch, it lets the other branches of the region come to their end, and no
-- more.
theorem run_obeys [Sha256] {t : Run} (he : Exec generating (run g gate state) t o) :
    ∀ past e post, t = past ++ e :: post → verdict e ≠ .ok none →
      (¬OfBranch e → Obeyed e post o) ∧ (OfBranch e → Withheld e post o) := by
  have hrun : Ensures generating Raises (run g gate state) (fun _ => Resolved (.ok ())) [] := by
    refine Rule.run (I := fun _ _ _ _ => Clear) (J := fun _ _ _ => Clear) (K := fun _ _ _ _ => Clear)
      (route_final clear_nil) ?_ ?_ ?_ ?_ ?_
    · exact fun _ _ _ _ hc => finish_final hc
    · exact fun _ _ _ _ _ hc _ => hc.resolved
    · exact fun _ _ _ _ _ hc _ _ => runNode_final hc
    · exact fun _ _ _ _ hc => followRegion_final hc
    · exact fun _ _ _ _ _ hc => route_final hc
  have hend := hrun t o he
  rw [List.nil_append] at hend
  cases o <;> exact hend

end Scheduler

theorem run_obeys_diamond :
    letI := Sha256.verbatim
    let ended := (run .diamond (some ⟨true, true⟩) (State.new "s")).simulate Visits.holding
    let stop := Event.beforeDispatch ⟨.fanout, ["b", "c"], 1, some "a", some "token"⟩
      (.decided (.stop ⟨"paused", List.cons_ne_nil _ _⟩))
    ∃ past post, ended.1 = past ++ stop :: post ∧ Obeyed stop post ended.2 := by
  let := Sha256.verbatim
  intro ended stop
  have hasked : ended.1[13]? = some stop := rfl
  obtain ⟨past, post, ht⟩ := List.append_of_mem (List.mem_of_getElem? hasked)
  refine ⟨past, post, ht, ?_⟩
  have hown : ¬OfBranch stop := fun h => nomatch h.1
  exact (run_obeys (exec_simulate _ _) past stop post ht nofun).1 hown

end PerpetuaCore.Graph.Finality
