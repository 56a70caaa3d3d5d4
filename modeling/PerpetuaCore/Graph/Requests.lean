import PerpetuaCore.Graph.Admission
import PerpetuaCore.Interaction.History

namespace PerpetuaCore.Graph

open Interaction
open Python (Str Value Dict)

def Request.steps : Request → Nat
  | .dispatch request => request.steps
  | .commit request => request.steps

def Request.batchId : Request → Option Str
  | .dispatch request => request.batchId
  | .commit request => request.batchId

def Request.isReducer : Request → Bool
  | .dispatch request => decide (request.boundary = .reducer)
  | .commit _ => false

namespace Requests

-- The request an event puts before the gate.
def asked? : Event → Option Request
  | .act (.beforeDispatch request) _ => some (.dispatch request)
  | .act (.beforeCommit request) _ => some (.commit request)
  | _ => none

-- What `before_dispatch` and `before_commit` were called with so far.
def log (t : Run) : List Request := t.filterMap asked?

def minted? : Event → Option Str
  | .act .tokenUrlsafe batchId => some batchId
  | _ => none

def minted (t : Run) : List Str := t.filterMap minted?

-- The branch of a region out of `source` that returned a dict.
def returned? (source : Option Str) : Event → Option Str
  | .leave (.branch source' name ..) reply =>
      match (reply : Reply).result with
      | .ok (.dict _) => if source = some source' then some name else none
      | _ => none
  | _ => none

def returned (source : Option Str) (t : Run) : List Str := t.filterMap (returned? source)

-- The latest request was this one, and it was allowed.
def Allowed (past : Run) (request : DispatchRequest) : Prop :=
  ∃ before since, past = before ++ .beforeDispatch request (.decided .allow) :: since ∧ log since = []

-- The region that the allowed request `opening` opened has come to `past` through `since`. No
-- request before it carries its batch id.
structure Inside (opening : DispatchRequest) (batchId : Str) (past since : Run) : Prop where
  boundary : opening.boundary = .fanout
  batched : opening.batchId = some batchId
  opened : ∃ before, past = before ++ .beforeDispatch opening (.decided .allow) :: since ∧
    ∀ request ∈ log before, request.batchId ≠ some batchId

-- Executions completed by the time the branches of a region have settled.
def completed (opening : DispatchRequest) (since : Run) : Nat :=
  opening.steps + (returned opening.source since).length

-- Which requests may follow `past`.
inductive Orderly (past : Run) : Request → Prop
  | node {name : Str} {steps : Nat} : Orderly past (.dispatch ⟨.node, [name], steps, none, none⟩)
  | router {source : Str} {steps : Nat} :
      Orderly past (.dispatch ⟨.router, [source], steps, some source, none⟩)
  | published {nodes : List Str} {steps : Nat} {digest : Option Str}
      (hnode : Allowed past ⟨.node, nodes, steps, none, none⟩) :
      Orderly past (.commit ⟨.node, nodes, steps, none, digest, none⟩)
  | fanout {nodes : List Str} {steps : Nat} {source batchId : Str}
      (hfirst : ∀ request ∈ log past, request.batchId ≠ some batchId) :
      Orderly past (.dispatch ⟨.fanout, nodes, steps, some source, some batchId⟩)
  | branch {opening : DispatchRequest} {batchId name : Str} {since : Run}
      (hinside : Inside opening batchId past since) (hname : name ∈ opening.nodes) :
      Orderly past (.dispatch ⟨.node, [name], opening.steps, opening.source, some batchId⟩)
  | join {opening : DispatchRequest} {batchId : Str} {since : Run}
      (hinside : Inside opening batchId past since) :
      Orderly past (.dispatch
        ⟨.join, opening.nodes, completed opening since, opening.source, some batchId⟩)
  | reducer {opening : DispatchRequest} {batchId : Str} {since : Run} {nodes : List Str}
      (hinside : Inside opening batchId past since) :
      Orderly past (.dispatch
        ⟨.reducer, nodes, completed opening since, opening.source, some batchId⟩)
  | region {opening : DispatchRequest} {batchId : Str} {since : Run} {nodes : List Str}
      {digest : Option Str} (hinside : Inside opening batchId past since)
      (honce : ∀ request, .commit request ∈ log past → request.batchId ≠ some batchId)
      (hnonempty : nodes ≠ []) (hascending : nodes.Pairwise (· < ·)) (hnodes : nodes ⊆ opening.nodes)
      (hreturned : nodes ⊆ returned opening.source since)
      (hreducer : (log since).find? Request.isReducer = some (.dispatch
        ⟨.reducer, nodes, completed opening since, opening.source, some batchId⟩)) :
      Orderly past (.commit
        ⟨.region, nodes, completed opening since, opening.source, digest, some batchId⟩)

-- A region mints a batch id once it was announced, and opens with a request that carries it.
def Opens (t : Run) : Prop :=
  ∀ before observation after, t = before ++ .emit observation :: after →
    observation.event.kind = .superstepStart → ∃ announced batchId reply rest,
      after = announced ++ .act (S := Core) .tokenUrlsafe batchId :: .beforeDispatch
        ⟨.fanout, observation.event.branches, observation.event.steps, observation.event.node,
          some batchId⟩ reply :: rest ∧ ∀ e ∈ announced, ∃ shown, e = .emit shown

structure WellFormed (t : Run) : Prop where
  orderly : Always (fun past e => ∀ request ∈ asked? e, Orderly past request) t
  opens : Opens t
  progress : (log t).Pairwise fun request later => request.steps ≤ later.steps

-- What is known between two boundaries besides: how far the steps have come, and that batch
-- ids are those that were minted.
structure Accounts (steps : Nat) (t : Run) : Prop extends WellFormed t where
  reached : ∀ request ∈ log t, request.steps ≤ steps
  known : ∀ request ∈ log t, ∀ batchId ∈ request.batchId, batchId ∈ minted t

@[simp] theorem log_append (s t : Run) : log (s ++ t) = log s ++ log t := List.filterMap_append

@[simp] theorem minted_append (s t : Run) : minted (s ++ t) = minted s ++ minted t :=
  List.filterMap_append

@[simp] theorem returned_append (source : Option Str) (s t : Run) :
    returned source (s ++ t) = returned source s ++ returned source t :=
  List.filterMap_append

-- Exchanges in which nothing is asked for, no batch id is minted and no branch returns.
def silent : Op → Prop
  | .beforeDispatch _ | .beforeCommit _ | .tokenUrlsafe | .leave (.branch ..) => False
  | _ => True

def Quiet (u : Run) : Prop :=
  (∀ op answer, .act op answer ∈ u → silent op) ∧
    ∀ observation ∈ observations u, observation.event.kind ≠ .superstepStart

section Quiet

variable {u : Run}

theorem Quiet.asks (hu : Quiet u) : ∀ e ∈ u, asked? e = none := by
  intro e he
  cases e with
  | emit observation => rfl
  | act op answer =>
      have hop := hu.1 op answer he
      cases op <;> first | rfl | exact hop.elim

theorem Quiet.returns (hu : Quiet u) (source : Option Str) : returned source u = [] := by
  refine List.filterMap_eq_nil_iff.mpr fun e he => ?_
  cases e with
  | emit observation => rfl
  | act op answer =>
      have hop := hu.1 op answer he
      cases op with
      | leave callable => cases callable <;> first | rfl | exact hop.elim
      | _ => rfl

theorem Quiet.log_eq (hu : Quiet u) : log u = [] := List.filterMap_eq_nil_iff.mpr hu.asks

theorem quiet_emit {observation : GraphObservation}
    (h : observation.event.kind ≠ .superstepStart) : Quiet [.emit observation] := by
  refine ⟨fun op answer hm => (nomatch List.mem_singleton.mp hm), fun shown hm => ?_⟩
  obtain rfl := List.mem_singleton.mp hm
  exact h

end Quiet

section Append

variable {h u : Run} {steps : Nat}

theorem opens_nil : Opens [] := by
  intro before observation after he
  simp at he

theorem Opens.append (ho : Opens h)
    (hu : ∀ observation ∈ observations u, observation.event.kind ≠ .superstepStart) : Opens (h ++ u) := by
  intro before observation after he hkind
  rcases split_append he with ⟨mid, rfl, rfl⟩ | ⟨mid, rfl, rfl⟩
  · obtain ⟨announced, batchId, reply, rest, rfl, hannounced⟩ := ho before observation mid rfl hkind
    exact ⟨announced, batchId, reply, rest ++ u, by simp, hannounced⟩
  · exact absurd hkind (hu observation (by simp))

theorem WellFormed.quiet (hw : WellFormed h) (hu : Quiet u) : WellFormed (h ++ u) where
  orderly := by
    refine always_append.mpr ⟨hw.orderly, fun past e after he request hr => ?_⟩
    rw [hu.asks e (by simp [he])] at hr
    cases hr
  opens := hw.opens.append hu.2
  progress := by
    rw [log_append, hu.log_eq, List.append_nil]
    exact hw.progress

theorem Accounts.quiet (ha : Accounts steps h) (hu : Quiet u) : Accounts steps (h ++ u) where
  toWellFormed := ha.toWellFormed.quiet hu
  reached := by
    rw [log_append, hu.log_eq, List.append_nil]
    exact ha.reached
  known := by
    rw [log_append, hu.log_eq, List.append_nil, minted_append]
    exact fun request hr batchId hb => List.mem_append_left _ (ha.known request hr batchId hb)

theorem Accounts.mono {steps' : Nat} (ha : Accounts steps h) (hs : steps ≤ steps') :
    Accounts steps' h :=
  { ha with reached := fun request hr => (ha.reached request hr).trans hs }

theorem accounts_nil : Accounts 0 [] where
  orderly := always_nil
  opens := opens_nil
  progress := .nil
  reached := by simp [log]
  known := by simp [log]

-- A stretch in which only requests of one step count are put, each in order.
theorem Accounts.append (ha : Accounts steps h)
    (hu : ∀ past e after, u = past ++ e :: after → ∀ request ∈ asked? e,
      Orderly (h ++ past) request ∧ request.steps = steps ∧
        ∀ batchId ∈ request.batchId, batchId ∈ minted h)
    (hshown : ∀ observation ∈ observations u, observation.event.kind ≠ .superstepStart) :
    Accounts steps (h ++ u) := by
  have hlog : ∀ request ∈ log u, request.steps = steps ∧
      ∀ batchId ∈ request.batchId, batchId ∈ minted h := by
    intro request hr
    obtain ⟨e, he, hasked⟩ := List.mem_filterMap.mp hr
    obtain ⟨past, after, rfl⟩ := List.append_of_mem he
    exact (hu past e after rfl request hasked).2
  refine ⟨⟨always_append.mpr ⟨ha.orderly, ?_⟩, ha.opens.append hshown, ?_⟩, ?_, ?_⟩
  · exact fun past e after he request hr => (hu past e after he request hr).1
  · rw [log_append]
    refine List.pairwise_append.mpr ⟨ha.progress, ?_, fun request hr later hl => ?_⟩
    · refine List.pairwise_of_forall_mem_list fun request hr later hl => ?_
      rw [(hlog request hr).1, (hlog later hl).1]
    · rw [(hlog later hl).1]
      exact ha.reached request hr
  · rw [log_append]
    intro request hr
    rcases List.mem_append.mp hr with hr | hr
    · exact ha.reached request hr
    · exact (hlog request hr).1.le
  · rw [log_append, minted_append]
    intro request hr batchId hb
    refine List.mem_append_left _ ?_
    rcases List.mem_append.mp hr with hr | hr
    · exact ha.known request hr batchId hb
    · exact (hlog request hr).2 batchId hb

theorem Accounts.ask {op : Op} {answer : Core.Ans op} {request : Request} (ha : Accounts steps h)
    (hasked : asked? (.act (S := Core) op answer) = some request) (ho : Orderly h request)
    (hsteps : request.steps = steps) (hb : ∀ batchId ∈ request.batchId, batchId ∈ minted h) :
    Accounts steps (h ++ [.act (S := Core) op answer]) := by
  refine ha.append (fun past e after he asked hm => ?_) nofun
  cases past with
  | cons first rest => simp at he
  | nil =>
      obtain ⟨rfl, -⟩ := List.cons.inj he
      obtain rfl := Option.some.inj (hasked.symm.trans hm)
      exact ⟨(List.append_nil h).symm ▸ ho, hsteps, hb⟩

end Append

variable {g : CompiledGraph} {gate : Gate} {source : Str} {edge : FanOut} {state snapshot : State}
  {steps : Nat} {h : Run}

-- From `h` to `t` nothing was put before the gate.
def Extends (h t : Run) : Prop := ∃ u, t = h ++ u ∧ Quiet u

theorem Extends.accounts {t : Run} (he : Extends h t) (ha : Accounts steps h) : Accounts steps t := by
  obtain ⟨u, rfl, hu⟩ := he
  exact ha.quiet hu

theorem Extends.trans {t u : Run} (he : Extends h t) (he' : Extends t u) : Extends h u := by
  obtain ⟨u, rfl, hu⟩ := he
  obtain ⟨v, rfl, hv⟩ := he'
  refine ⟨u ++ v, List.append_assoc .., fun op answer hm => ?_, fun observation hm => ?_⟩
  · rcases List.mem_append.mp hm with hm | hm
    · exact hu.1 op answer hm
    · exact hv.1 op answer hm
  · rw [observations_append] at hm
    rcases List.mem_append.mp hm with hm | hm
    · exact hu.2 observation hm
    · exact hv.2 observation hm

theorem Extends.emit {t : Run} {observation : GraphObservation} (he : Extends h t)
    (ho : observation.event.kind ≠ .superstepStart) : Extends h (t ++ [.emit observation]) :=
  he.trans ⟨_, rfl, quiet_emit ho⟩

-- What a program that puts no request leaves of the history.
theorem quietly {α : Type} {p : Scheduler α} (hw : WellFormed h)
    (hp : p.Asks (Does silent fun observation => observation.event.kind ≠ .superstepStart)) :
    Ensures generating (fun _ => WellFormed) p (fun _ t => Extends h t) h := by
  intro t o he
  have ht : Quiet t := Does.events he hp
  cases o with
  | ok value => exact ⟨t, rfl, ht⟩
  | error error => exact hw.quiet ht

theorem silently {α : Type} {p : Step α} (hw : WellFormed h) (hp : p.Asks silent) :
    Ensures acting (fun _ => WellFormed) p (fun _ t => Extends h t) h := by
  intro t o he
  have ht : Quiet t := by
    refine ⟨fun op answer hm => ?_, by simp [exec_acting_observations he]⟩
    obtain ⟨op', answer', he', hop⟩ := exec_asks he hp _ hm
    cases he'
    exact hop
  cases o with
  | ok value => exact ⟨t, rfl, ht⟩
  | error error => exact hw.quiet ht

-- A boundary was asked for: the run stops, or goes on where it needs no permission or got it.
def Asked (request : DispatchRequest) (skips : Prop) (h : Run)
    (asked : Option GateDecision × Option DispatchRequest) (t : Run) : Prop :=
  WellFormed t ∧ (asked.1 = none →
    asked.2 = none ∧ skips ∧ t = h ∨
    asked.2 = some request ∧ t = h ++ [.beforeDispatch request (.decided .allow)])

theorem dispatch_asked {option : Option Edge} {boundary : DispatchBoundary} {nodes : List Str}
    {source batchId : Option Str} (ha : Accounts steps h)
    (ho : Orderly h (.dispatch ⟨boundary, nodes, steps, source, batchId⟩))
    (hb : ∀ id ∈ batchId, id ∈ minted h) :
    Ensures acting (fun _ => WellFormed)
      (dispatch (some gate) option boundary nodes steps source batchId)
      (fun asked t => Accounts steps t ∧ Asked ⟨boundary, nodes, steps, source, batchId⟩
        (Unguarded (some gate) option boundary) h asked t) h := by
  have hasked : ∀ reply, Accounts steps
      (h ++ [.beforeDispatch ⟨boundary, nodes, steps, source, batchId⟩ reply]) :=
    fun reply => ha.ask rfl ho rfl hb
  refine Rule.dispatch (fun hskip => ?_) (fun _ => ?_) (fun reason => ?_) fun reply _ error => ?_
  · exact ⟨ha, ha.toWellFormed, fun _ => .inl ⟨rfl, hskip, rfl⟩⟩
  · exact ⟨hasked _, (hasked _).toWellFormed, fun _ => .inr ⟨rfl, rfl⟩⟩
  · exact ⟨hasked _, (hasked _).toWellFormed, nofun⟩
  · exact (hasked reply).toWellFormed

-- Where a stretch of the run has a result, the accounts go on with it.
theorem orStop_formed {α : Type} {node : Str} {at_ : Nat} {decision : Option GateDecision}
    {next : Scheduler (Option α)} {R : α → Run → Prop} (hw : WellFormed h)
    (hnext : decision = none →
      Ensures generating (fun _ => WellFormed) next (Rule.Goes WellFormed R) h) :
    Ensures generating (fun _ => WellFormed) (orStop state node at_ decision next)
      (Rule.Goes WellFormed R) h := by
  refine Rule.orStop hnext (fun d observation _ ho => ?_) fun _ _ _ => hw
  obtain ⟨closed, -, rfl⟩ := stopped_eq ho
  exact hw.quiet (quiet_emit nofun)

theorem route_asked {edge : Edge} (ha : Accounts steps h) :
    Ensures generating (fun _ => WellFormed) (route g (some gate) source edge state steps)
      (Rule.Goes WellFormed fun _ => Accounts steps) h := by
  refine .andThen (.lift (dispatch_asked ha .router nofun)) fun asked t ⟨ha, _⟩ => ?_
  refine orStop_formed ha.toWellFormed fun _ => ?_
  refine .andThen (.lift (silently ha.toWellFormed (beforeStart_asks fun _ _ => trivial)))
    fun _ t' hstart => ?_
  have ha := hstart.accounts ha
  refine .andThen (.lift (silently ha.toWellFormed (resolveEdge_asks fun _ _ => ⟨trivial, trivial⟩)))
    fun taken t'' htaken => ?_
  refine .bind (.emit (.ret ((htaken.emit ?_).accounts ha)))
  exact nofun

section Node

variable [Sha256] {node : Str}

-- Publishing answers to the allowed request the node was started under.
theorem publishNode_asked {delta : Delta} (ha : Accounts steps h)
    (hallowed : Allowed h ⟨.node, [node], steps, none, none⟩) :
    Ensures generating (fun _ => WellFormed) (publishNode (some gate) node state steps delta)
      (Rule.Goes WellFormed fun _ => Accounts steps) h := by
  have hasked : ∀ digest reply, Accounts steps
      (h ++ [.beforeCommit ⟨.node, [node], steps, none, some digest, none⟩ reply]) :=
    fun digest reply => ha.ask rfl (.published hallowed) rfl nofun
  refine .andThen (.lift (Rule.commit (Q := fun _ => Accounts steps) nofun
    (fun _ _ => ha.toWellFormed) (fun _ _ _ => hasked _ _) (fun _ _ _ => hasked _ _)
    fun _ _ _ _ => (hasked _ _).toWellFormed)) fun asked t ha => ?_
  refine orStop_formed ha.toWellFormed fun _ => ?_
  refine (quietly ha.toWellFormed ?_).mono (fun next t he => ?_) fun _ _ hw => hw
  · refine .bind (.ofExcept _) fun merged =>
      .bind (Does.lift (.attempt (afterCommit_asks fun _ => trivial))) fun _ => ?_
    exact .bind (Does.emit nofun) fun _ => .bind (.ofExcept _) fun _ => trivial
  · cases next with
    | none => exact (he.accounts ha).toWellFormed
    | some published => exact he.accounts ha

theorem finishNode_asked {reply : Reply} (ha : Accounts steps h)
    (hallowed : Allowed h ⟨.node, [node], steps, none, none⟩) :
    Ensures generating (fun _ => WellFormed) (finishNode (some gate) node steps reply)
      (Rule.Goes WellFormed fun _ => Accounts steps) h := by
  have hw := ha.toWellFormed
  unfold finishNode
  split
  · split_ifs
    · refine .bind (.ofExcept (fun closed _ => .bind (.emit (.ret ?_))) fun _ _ => hw)
      exact hw.quiet (quiet_emit nofun)
    · exact .raise hw
  · refine .bind (.ofExcept (fun delta _ => ?_) fun _ _ => hw)
    exact .bind (.ofExcept (fun detached _ => publishNode_asked ha hallowed) fun _ _ => hw)

theorem runNode_asked (ha : Accounts steps h) :
    Ensures generating (fun _ => WellFormed) (runNode g (some gate) node state steps)
      (Rule.Goes WellFormed fun _ => Accounts (steps + 1)) h := by
  have hw := ha.toWellFormed
  refine .bind (.ofExcept (fun fn _ => ?_) fun _ _ => hw)
  refine .bind (.ofExcept (fun visited _ => .bind (.emit ?_)) fun _ _ => hw)
  have ha := ha.quiet (u := [.emit (nodeStarted steps visited node)]) (quiet_emit nofun)
  refine .andThen (.lift (dispatch_asked ha .node nofun)) fun asked t ⟨ha, hw, hgo⟩ => ?_
  refine orStop_formed hw fun hnone => ?_
  obtain ⟨hrequest, rfl⟩ := (hgo hnone).resolve_left fun hskip => by
    rcases hskip.2.1 with hgate | ⟨hrouter, -⟩
    · cases hgate
    · cases hrouter
  refine .andThen (.lift (silently hw (beforeStart_asks fun _ _ => trivial))) fun _ t hstart => ?_
  refine .andThen (.lift (silently (hstart.accounts ha).toWellFormed
    (invoke_asks trivial trivial))) fun reply t' hreply => ?_
  obtain ⟨u, rfl, hu⟩ := hstart.trans hreply
  refine (finishNode_asked (ha.quiet hu) ⟨_, u, List.append_assoc .., hu.log_eq⟩).mono
    (fun next t hnext => ?_) fun _ _ hw => hw
  cases next with
  | none => exact hnext
  | some published => exact hnext.mono (Nat.le_succ steps)

end Node

end Requests

end PerpetuaCore.Graph
