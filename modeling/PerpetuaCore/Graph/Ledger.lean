import PerpetuaCore.Graph.Calls
import PerpetuaCore.Graph.Rules

namespace PerpetuaCore.Graph.Ledger

open Interaction
open Python (Str Value Dict)

-- What a gated run does to the published state, with everything else left out: the
-- abstract machine the commit properties are read off.

-- The exchanges that neither publish nor hand the scheduler a state.
def quiet : Op → Prop
  | .beforeCommit _ | .afterCommit _ => False
  | .leave (.node ..) | .leave (.router ..) => False
  | _ => True

def publishes : EventKind → Bool
  | .nodeEnd | .superstepCommit => true
  | _ => false

-- An observation that carries no delta.
def Silent (observation : GraphObservation) : Prop :=
  publishes observation.event.kind = false ∧ observation.delta = none

-- The observations that publish `delta` as `merged`: one for a linear node, for a region
-- one for each admitted branch and then the superstep's own.
def Publishes (request : CommitRequest) (delta : Delta) (merged : State)
    (shown : List GraphObservation) : Prop :=
  match request.boundary with
  | .node => ∃ node observation, request.nodes = [node] ∧ shown = [observation] ∧
      observation.event.kind = .nodeEnd ∧ observation.event.node = some node ∧
      observation.delta = some delta ∧ observation.state = merged
  | .region => ∃ branches observation, shown = branches ++ [observation] ∧
      branches.map (fun b => (b.event.kind, b.event.node, b.state)) =
        request.nodes.map (fun node => (.nodeEnd, some node, merged)) ∧
      observation.event.kind = .superstepCommit ∧ observation.delta = some delta ∧
      observation.state = merged

-- The settlement hook is called where the gate has it.
def settlement (gate : Gate) (request : CommitRequest) (reply : HookReply) : Run :=
  if gate.afterCommit then [.afterCommit request reply] else []

def settledAs (gate : Gate) (reply : HookReply) : Except Exn Unit :=
  if gate.afterCommit then HookReply.result "after_commit" reply else .ok ()

-- An allowed commit, its settlement, and the observations that publish it.
def block (gate : Gate) (request : CommitRequest) (reply : HookReply)
    (shown : List GraphObservation) : Run :=
  .beforeCommit request (.decided .allow) :: (settlement gate request reply ++ shown.map .emit)

-- The scheduler's own bookkeeping at the end of a run.
inductive Closes (state : State) : State → Prop
  | stopped {node : Str} {decision : GateDecision} {closed : State}
      (h : stoppedState state node decision = .ok closed) : Closes state closed
  | interrupted {node : Str} {exc : Exn} {closed : State}
      (h : interruptedState state node exc = .ok closed) : Closes state closed
  | done {closed : State} (h : state.merge (Dict.ofList [("status", "done")]) = .ok closed) :
      Closes state closed

section Quiet

theorem dispatch_quiet {gate : Option Gate} {edge : Option Edge} {boundary : DispatchBoundary}
    {nodes : List Str} {steps : Nat} {source batchId : Option Str} :
    (dispatch gate edge boundary nodes steps source batchId).Asks quiet :=
  dispatch_asks trivial

theorem beforeStart_quiet {gate : Option Gate} {request : Option DispatchRequest} :
    (beforeStart gate request).Asks quiet :=
  beforeStart_asks fun _ _ => trivial

theorem branchCall_quiet {g : CompiledGraph} {gate : Option Gate} {source name batchId : Str}
    {snapshot : State} {steps : Nat} :
    (branchCall g gate source batchId snapshot steps name).Asks quiet :=
  branchCall_asks trivial (fun _ => trivial) fun _ => ⟨trivial, trivial⟩

theorem askJoin_quiet {gate : Option Gate} {source batchId : Str} {edge : FanOut} {completed : Nat} :
    (askJoin gate source edge completed batchId).Asks quiet :=
  askJoin_asks fun _ _ => trivial

theorem admit_quiet {source : Str} {join : Join} {settled : List Settled} :
    (admitBranches source join settled).Asks quiet :=
  admit_asks fun _ _ => ⟨trivial, trivial⟩

theorem fold_quiet {g : CompiledGraph} {gate : Option Gate} {source : Str} {snapshot : State}
    {admitted : List (Str × Delta)} {request : Option DispatchRequest} :
    (fold g gate source snapshot admitted request).Asks quiet :=
  fold_asks (fun _ _ => ⟨trivial, trivial⟩) fun _ _ _ _ => ⟨trivial, trivial⟩

end Quiet

variable [Sha256]

-- The digest in the request is that of `delta`.
def Binds (request : CommitRequest) (delta : Delta) : Prop :=
  ∃ digest, deltaDigest delta = .ok digest ∧ request.resultDigest = some digest

-- `Log gate init t held base`: after the run `t` from `init` the scheduler holds the state
-- `held`, and may still fall back to `base`, the state before the region it is in.
inductive Log (gate : Gate) (init : State) : Run → State → State → Prop
  | start : Log gate init [] init init
  | exchange {t : Run} {held base : State} {op : Op} {answer : Core.Ans op}
      (hl : Log gate init t held base) (hq : quiet op) :
      Log gate init (t ++ [.act (S := Core) op answer]) held base
  | leftNode {t : Run} {held base : State} {name : Str} {fn : Fn} {reply : Reply}
      (hl : Log gate init t held base) :
      Log gate init (t ++ [.leave (.node name fn held) reply]) reply.left reply.left
  | leftRouter {t : Run} {held base : State} {source : Str} {fn : Fn} {reply : Reply}
      (hl : Log gate init t held base) :
      Log gate init (t ++ [.leave (.router source fn held) reply]) reply.left reply.left
  | visit {t : Run} {held base : State} {names : List Str} {observation : GraphObservation}
      (hl : Log gate init t held base) (hv : visit held names = .ok observation.state)
      (hs : Silent observation) :
      Log gate init (t ++ [.emit observation]) observation.state held
  | shown {t : Run} {held base : State} {observation : GraphObservation}
      (hl : Log gate init t held base) (hstate : observation.state = held)
      (hs : Silent observation) :
      Log gate init (t ++ [.emit observation]) held base
  | publish {t : Run} {held base : State} {request : CommitRequest} {delta : Delta}
      {reply : HookReply} {merged : State} {shown : List GraphObservation}
      (hl : Log gate init t held base) (hb : Binds request delta)
      (hm : held.merge delta = .ok merged) (hs : settledAs gate reply = .ok ())
      (hp : Publishes request delta merged shown) :
      Log gate init (t ++ block gate request reply shown) merged merged

-- How a run ends: raising between commits, with a terminal observation, right after a
-- commit that was not allowed, with the error of a settlement, or with a merge that failed
-- because a node left an uncopyable state behind.
inductive Ends (gate : Gate) (init : State) : Run → Except Exn Unit → Prop
  | raised {t : Run} {held base : State} {error : Exn} (hl : Log gate init t held base) :
      Ends gate init t (.error error)
  | closed {t : Run} {held base : State} {observation : GraphObservation}
      (hl : Log gate init t held base)
      (hc : Closes held observation.state ∨ Closes base observation.state)
      (hs : Silent observation) : Ends gate init (t ++ [.emit observation]) (.ok ())
  | withheld {t : Run} {held base : State} {request : CommitRequest} {reply : GateReply}
      {error : Exn} (hl : Log gate init t held base) (hr : reply ≠ .decided .allow) :
      Ends gate init (t ++ [.beforeCommit request reply]) (.error error)
  | stopped {t : Run} {held base : State} {request : CommitRequest} {reason : ReasonCode}
      {observation : GraphObservation} (hl : Log gate init t held base)
      (hc : Closes held observation.state ∨ Closes base observation.state)
      (hs : Silent observation) :
      Ends gate init
        (t ++ [.beforeCommit request (.decided (.stop reason)), .emit observation]) (.ok ())
  | unsettled {t : Run} {held base : State} {request : CommitRequest} {delta : Delta}
      {reply : HookReply} {merged : State} {shown : List GraphObservation} {error : Exn}
      (hl : Log gate init t held base) (hb : Binds request delta)
      (hm : held.merge delta = .ok merged) (hs : settledAs gate reply = .error error)
      (hp : Publishes request delta merged shown) :
      Ends gate init (t ++ block gate request reply shown) (.error error)
  | unmerged {t : Run} {name : Str} {fn : Fn} {state : State} {reply : Reply} {base : State}
      {request : CommitRequest} {delta : Delta} {error : Exn}
      (hl : Log gate init (t ++ [.leave (.node name fn state) reply]) reply.left base)
      (hb : Binds request delta) (hm : reply.left.merge delta = .error error) :
      Ends gate init (t ++ [.leave (.node name fn state) reply] ++
        [.beforeCommit request (.decided .allow)]) (.error error)

variable {gate : Gate} {init : State} {h : Run} {held base : State}

-- After a stretch of the run: it has ended, or it goes on from the state handed on.
def Reached (gate : Gate) (init : State) (t : Run) : Option State → Prop
  | none => Ends gate init t (.ok ())
  | some state => ∃ base, Log gate init t state base

abbrev Raises (gate : Gate) (init : State) (error : Exn) (t : Run) : Prop :=
  Ends gate init t (.error error)

theorem quietly {α : Type} {p : Step α} (hl : Log gate init h held base) (hp : p.Asks quiet) :
    Ensures acting (Raises gate init) p (fun _ t => Log gate init t held base) h :=
  (Ensures.asks hp (fun _ _ _ hq hl => hl.exchange hq) hl).mono (fun _ _ hl => hl)
    fun _ _ hl => .raised hl

omit [Sha256] in
theorem stopped_closes {state : State} {node : Str} {steps : Nat} {decision : GateDecision}
    {observation : GraphObservation} (h : stopped state node steps decision = .ok observation) :
    Closes state observation.state ∧ Silent observation := by
  obtain ⟨closed, hclosed, rfl⟩ := stopped_eq h
  exact ⟨.stopped hclosed, rfl, rfl⟩

theorem orStop_logged {α : Type} {state : State} {node : Str} {steps : Nat}
    {decision : Option GateDecision} {next : Scheduler (Option α)} {f : α → State}
    (hl : Log gate init h held base) (hstate : state = held ∨ state = base)
    (hnext : decision = none → Ensures generating (Raises gate init) next
      (fun result t => Reached gate init t (result.map f)) h) :
    Ensures generating (Raises gate init) (orStop state node steps decision next)
      (fun result t => Reached gate init t (result.map f)) h := by
  refine Rule.orStop hnext (fun d observation _ hobs => ?_) fun d error _ => .raised hl
  obtain ⟨hc, hs⟩ := stopped_closes hobs
  exact .closed hl (by rcases hstate with rfl | rfl <;> simp [hc]) hs

-- A commit that was stopped ends the run.
theorem stop_logged {α : Type} {state : State} {node : Str} {steps : Nat}
    {request : CommitRequest} {reason : ReasonCode} {next : Scheduler (Option α)} {f : α → State}
    (hl : Log gate init h held base) (hstate : state = held ∨ state = base) :
    Ensures generating (Raises gate init) (orStop state node steps (some (.stop reason)) next)
      (fun result t => Reached gate init t (result.map f))
      (h ++ [.beforeCommit request (.decided (.stop reason))]) := by
  refine Rule.orStop nofun (fun d observation _ hobs => ?_) fun d error _ => .withheld hl nofun
  obtain ⟨hc, hs⟩ := stopped_closes hobs
  rw [List.append_assoc]
  exact .stopped hl (by rcases hstate with rfl | rfl <;> simp [hc]) hs

theorem resolveEdge_logged {g : CompiledGraph} {source : Str} {edge : Edge}
    (hl : Log gate init h held base) :
    Ensures acting (Raises gate init) (resolveEdge g source edge held)
      (fun taken t => ∃ base, Log gate init t taken.2 base) h := by
  have hinvoke : ∀ router, Ensures acting (Raises gate init)
      ((invoke (.router source router held)).bind fun reply =>
        (Prog.ofExcept reply.result).bind fun value =>
          (Prog.ofExcept (checkTarget g value)).bind fun target => .ret (target, reply.left))
      (fun taken t => ∃ base, Log gate init t taken.2 base) h := by
    intro router
    refine .bind (Rule.invoke fun reply => ?_)
    have hl' : Log gate init (h ++ [.enter (.router source router held),
        .leave (.router source router held) reply]) reply.left reply.left := by
      rw [List.append_cons]
      exact .leftRouter (hl.exchange trivial)
    refine .bind (.ofExcept (fun _ _ => ?_) fun _ _ => .raised hl')
    exact .bind (.ofExcept (fun _ _ => .ret ⟨_, hl'⟩) fun _ _ => .raised hl')
  cases edge with
  | static target =>
      exact .bind (.ofExcept (fun _ _ => .ret ⟨base, hl⟩) fun _ _ => .raised hl)
  | fanout region =>
      unfold resolveEdge
      refine .ofExcept (fun taken htaken => ?_) fun _ _ => .raised hl
      cases htaken
  | callable router => exact hinvoke router
  | conditional edge => exact hinvoke edge.router

theorem route_logged {g : CompiledGraph} {source : Str} {edge : Edge} {steps : Nat}
    (hl : Log gate init h held base) :
    Ensures generating (Raises gate init) (route g (some gate) source edge held steps)
      (fun result t => Reached gate init t (result.map Prod.snd)) h := by
  refine .andThen (.lift (quietly hl dispatch_quiet)) fun asked t hl => ?_
  refine orStop_logged hl (.inl rfl) fun _ => ?_
  refine .andThen (.lift (quietly hl beforeStart_quiet)) fun _ t hl => ?_
  refine .andThen (.lift (resolveEdge_logged hl)) fun taken t ⟨base, hl⟩ => ?_
  exact .bind (.emit (.ret ⟨base, hl.shown rfl ⟨rfl, rfl⟩⟩))

-- The settlement hook of an allowed commit, called or not.
theorem settle_logged {request : CommitRequest} {Q : Except Exn Unit → Run → Prop}
    (hq : ∀ reply, Q (settledAs gate reply) (h ++ settlement gate request reply)) :
    Ensures acting (Raises gate init) (afterCommit (some gate) (some request)).attempt Q h := by
  refine Rule.settle (fun hskip => ?_) fun r reply hr hhook => ?_
  · have hb : gate.afterCommit = false := by simpa [hasAfterCommit] using hskip
    simpa [settledAs, settlement, hb] using hq .done
  · obtain rfl := Option.some.inj hr
    have hb : gate.afterCommit = true := by simpa [hasAfterCommit] using hhook
    simpa [settledAs, settlement, hb] using hq reply

-- Once the publication was observed, the run goes on or raises the settlement's error.
theorem published {α : Type} {request : CommitRequest} {delta : Delta} {reply : HookReply}
    {merged : State} {shown : List GraphObservation} {k : Scheduler (Option α)} {f : α → State}
    {t : Run} (ht : t = h ++ block gate request reply shown) (hl : Log gate init h held base)
    (hb : Binds request delta) (hm : held.merge delta = .ok merged)
    (hp : Publishes request delta merged shown)
    (hk : Log gate init t merged merged → Ensures generating (Raises gate init) k
      (fun result t => Reached gate init t (result.map f)) t) :
    Ensures generating (Raises gate init)
      ((Prog.ofExcept (settledAs gate reply)).bind fun _ => k)
      (fun result t => Reached gate init t (result.map f)) t := by
  subst ht
  refine .bind (.ofExcept (fun _ hs => hk (.publish hl hb hm hs hp)) fun error hs => ?_)
  exact .unsettled hl hb hm hs hp

theorem publishNode_logged {node name : Str} {fn : Fn} {state : State} {reply : Reply} {steps : Nat}
    {delta : Delta} {t : Run} (hh : h = t ++ [.leave (.node name fn state) reply])
    (hl : Log gate init h reply.left base) :
    Ensures generating (Raises gate init) (publishNode (some gate) node reply.left steps delta)
      (fun result t => Reached gate init t (result.map id)) h := by
  refine .bind (.lift (Rule.commit nofun (fun _ _ => .raised hl) (fun digest _ hd => ?_)
    (fun digest reason _ => ?_) fun digest r hr error => .withheld hl hr))
  · have hb : Binds ⟨.node, [node], steps, none, some digest, none⟩ delta := ⟨digest, hd, rfl⟩
    refine .bind (.ofExcept (fun merged hm => ?_) fun error hm => ?_)
    · refine .bind (.lift (settle_logged fun r => .bind (.emit ?_)))
      have hp : Publishes ⟨.node, [node], steps, none, some digest, none⟩ delta merged
          [nodeEnded (steps + 1) merged (node, delta)] :=
        ⟨node, _, rfl, rfl, rfl, rfl, rfl, rfl⟩
      exact published (by simp [block]) hl hb hm hp fun hl => .ret ⟨_, hl⟩
    · subst hh
      exact .unmerged hl hb hm
  · exact stop_logged hl (.inl rfl)

theorem finishNode_logged {node name : Str} {fn : Fn} {state : State} {reply : Reply} {steps : Nat}
    {t : Run} (hh : h = t ++ [.leave (.node name fn state) reply])
    (hl : Log gate init h reply.left base) :
    Ensures generating (Raises gate init) (finishNode (some gate) node steps reply)
      (fun result t => Reached gate init t (result.map id)) h := by
  unfold finishNode
  split
  · split_ifs
    · refine .bind (.ofExcept (fun closed hclosed => ?_) fun _ _ => .raised hl)
      exact .bind (.emit (.ret (.closed hl (.inl (.interrupted hclosed)) ⟨rfl, rfl⟩)))
    · exact .raise (.raised hl)
  · refine .bind (.ofExcept (fun _ _ => ?_) fun _ _ => .raised hl)
    refine .bind (.ofExcept (fun _ _ => ?_) fun _ _ => .raised hl)
    exact publishNode_logged hh hl

theorem runNode_logged {g : CompiledGraph} {node : Str} {steps : Nat}
    (hl : Log gate init h held base) :
    Ensures generating (Raises gate init) (runNode g (some gate) node held steps)
      (fun result t => Reached gate init t (result.map id)) h := by
  refine .bind (.ofExcept (fun fn _ => ?_) fun _ _ => .raised hl)
  refine .bind (.ofExcept (fun visited hv => ?_) fun _ _ => .raised hl)
  refine .bind (.emit ?_)
  have hl' : Log gate init (h ++ [.emit (nodeStarted steps visited node)]) visited held :=
    .visit hl hv ⟨rfl, rfl⟩
  refine .andThen (.lift (quietly hl' dispatch_quiet)) fun asked t hl => ?_
  refine orStop_logged hl (.inl rfl) fun _ => ?_
  refine .andThen (.lift (quietly hl beforeStart_quiet)) fun _ t hl => ?_
  refine .bind (.lift (Rule.invoke fun reply => ?_))
  rw [List.append_cons]
  exact finishNode_logged rfl (.leftNode (hl.exchange trivial))

theorem announce_logged {source : Str} {edge : FanOut} {snapshot : State} {steps : Nat}
    {names : List Str} (hl : Log gate init h held base) (hv : visit held names = .ok snapshot) :
    Ensures generating (Raises gate init) (announce source edge snapshot steps)
      (fun _ t => Log gate init t snapshot held) h := by
  refine .bind (.emit ?_)
  have hl' : Log gate init (h ++ [.emit (superstepStarted source edge steps snapshot)]) snapshot held :=
    .visit hl hv ⟨rfl, rfl⟩
  exact .forM (I := fun _ t => Log gate init t snapshot held) hl'
    fun _ _ _ hl => .emit (hl.shown rfl ⟨rfl, rfl⟩)

theorem publishRegion_logged {source : Str} {edge : FanOut} {steps completed : Nat}
    {progress : steps ≤ completed} {batchId : Str} {admitted : List (Str × Delta)} {merged : Delta}
    {provenance : Provenance} (hl : Log gate init h held base) (hc : held.copyable = true) :
    Ensures generating (Raises gate init)
      (publishRegion (some gate) source edge base held steps completed progress batchId admitted
        merged provenance) (fun result t => Reached gate init t (result.map RegionResult.state)) h := by
  refine .bind (.lift (Rule.commit nofun (fun _ _ => .raised hl) (fun digest _ hd => ?_)
    (fun digest reason _ => ?_) fun digest r hr error => .withheld hl hr))
  · have hm := State.merge_ok hc (itemsCopy_of_digest hd)
    have hb : Binds ⟨.region, admitted.map Prod.fst, completed, source, some digest, batchId⟩ merged :=
      ⟨digest, hd, rfl⟩
    refine .bind (.ofExcept (fun committed hcommitted => ?_) fun error he => ?_)
    · refine .bind (.lift (settle_logged fun r => .bind (.emitAll (.bind (.emit ?_)))))
      have hp : Publishes ⟨.region, admitted.map Prod.fst, completed, source, some digest, batchId⟩
          merged committed
          (admitted.map (nodeEnded completed committed) ++ [superstepCommitted source edge completed
            (admitted.map Prod.fst) committed merged provenance]) :=
        ⟨_, _, rfl, by simp [nodeEnded], rfl, rfl, rfl⟩
      exact published (by simp [block]) hl hb hcommitted hp fun hl => .ret ⟨_, hl⟩
    · rw [hm] at he
      cases he
  · exact stop_logged hl (.inr rfl)

theorem foldRegion_logged {g : CompiledGraph} {source : Str} {edge : FanOut} {steps completed : Nat}
    {progress : steps ≤ completed} {batchId : Str} {admitted : List (Str × Delta)}
    (hl : Log gate init h held base) (hc : held.copyable = true) :
    Ensures generating (Raises gate init)
      (foldRegion g (some gate) source edge base held steps completed progress batchId admitted)
      (fun result t => Reached gate init t (result.map RegionResult.state)) h := by
  refine .andThen (.lift (quietly hl dispatch_quiet)) fun asked t hl => ?_
  refine orStop_logged hl (.inr rfl) fun _ => ?_
  refine .andThen (.lift (quietly hl (catchBoundaryStop_asks fold_quiet))) ?_
  rintro (decision | ⟨merged, provenance⟩) t hl
  · exact orStop_logged hl (.inr rfl) nofun
  · exact .bind (.ofExcept (fun _ _ => publishRegion_logged hl hc) fun _ _ => .raised hl)

theorem joinRegion_logged {g : CompiledGraph} {source : Str} {edge : FanOut} {steps : Nat}
    {batchId : Str} {settled : List Settled} (hl : Log gate init h held base)
    (hc : held.copyable = true) :
    Ensures generating (Raises gate init)
      (joinRegion g (some gate) source edge base held steps batchId settled)
      (fun result t => Reached gate init t (result.map RegionResult.state)) h := by
  refine .bind (.ofExcept (fun verdict _ => ?_) fun _ _ => .raised hl)
  refine orStop_logged hl (.inr rfl) fun _ => ?_
  split
  · refine .bind (.ofExcept (fun closed hclosed => ?_) fun _ _ => .raised hl)
    exact .bind (.emit (.ret (.closed hl (.inl (.interrupted hclosed)) ⟨rfl, rfl⟩)))
  · refine .andThen (.lift (quietly hl askJoin_quiet)) fun asked t hl => ?_
    refine orStop_logged hl (.inr rfl) fun _ => ?_
    refine .andThen (.lift (quietly hl beforeStart_quiet)) fun _ t hl => ?_
    exact .andThen (.lift (quietly hl admit_quiet)) fun admitted t hl => foldRegion_logged hl hc

theorem runRegion_logged {g : CompiledGraph} {source : Str} {edge : FanOut} {steps : Nat}
    (hl : Log gate init h held base) :
    Ensures generating (Raises gate init) (runRegion g (some gate) source edge held steps)
      (fun result t => Reached gate init t (result.map RegionResult.state)) h := by
  refine .bind (.ofExcept (fun snapshot hs => ?_) fun _ _ => .raised hl)
  have hv := enterRegion_visit hs
  refine .andThen (announce_logged hl hv) fun _ t hl => ?_
  refine .andThen (.lift (quietly hl (.call trivial))) fun batchId t hl => ?_
  refine .andThen (.lift (quietly hl dispatch_quiet)) fun asked t hl => ?_
  refine orStop_logged hl (.inr rfl) fun _ => ?_
  refine .andThen (.bind (.mono (F := Raises gate init) (.fork_asks (I := fun t => Log gate init t snapshot held)
    ?_ (fun _ _ _ hq hl => hl.exchange hq) hl) ?_ fun _ _ h => h))
    fun settled t hl => joinRegion_logged hl (visit_copyable hv)
  · intro p hp
    obtain ⟨name, _, rfl⟩ := List.mem_map.mp hp
    exact branchCall_quiet
  · exact fun outcomes t hl => .ofExcept (fun _ _ => hl) fun _ _ => .raised hl

theorem followRegion_logged {g : CompiledGraph} {node : Str} {steps : Nat}
    (hl : Log gate init h held base) :
    Ensures generating (Raises gate init) (followRegion g (some gate) node held steps)
      (fun result t => Reached gate init t (result.map fun next => next.1.state)) h := by
  unfold followRegion
  split
  · refine .andThen (runRegion_logged hl) fun result t hr => .ret ?_
    simpa [Function.comp_def] using hr
  · exact .ret ⟨base, hl⟩

theorem finish_logged {steps : Nat} (hl : Log gate init h held base) :
    Ensures generating (Raises gate init) (finish held steps)
      (fun _ t => Ends gate init t (.ok ())) h := by
  refine .bind (.ofExcept (fun closed hclosed => ?_) fun _ _ => .raised hl)
  exact .emit (.closed hl (.inl (.done hclosed)) ⟨rfl, rfl⟩)

theorem loopFrom_logged {g : CompiledGraph} {fuel steps : Nat} {node lastNode : Str}
    (hl : Log gate init h held base) :
    Ensures generating (Raises gate init) (loopFrom g (some gate) fuel node held steps lastNode)
      (fun _ t => Ends gate init t (.ok ())) h := by
  induction fuel generalizing h held base node steps lastNode with
  | zero =>
      unfold loopFrom
      split_ifs
      · exact finish_logged hl
      · exact .raise (.raised hl)
      · exact .raise (.raised hl)
  | succ fuel ih =>
      unfold loopFrom
      split_ifs
      · exact finish_logged hl
      · exact .raise (.raised hl)
      · refine .andThen (runNode_logged hl) ?_
        rintro (_ | state) t hr
        · exact .ret hr
        obtain ⟨base, hl⟩ := hr
        refine .andThen (followRegion_logged hl) ?_
        rintro (_ | ⟨result, edge⟩) t hr
        · exact .ret hr
        obtain ⟨base, hl⟩ := hr
        refine .andThen (route_logged hl) ?_
        rintro (_ | ⟨target, state⟩) t hr
        · exact .ret hr
        obtain ⟨base, hl⟩ := hr
        exact ih hl

-- The engine's runs are runs of the ledger.
theorem run_ends {g : CompiledGraph} {t : Run} {o : Except Exn Unit}
    (he : Exec generating (run g (some gate) init) t o) : Ends gate init t o := by
  have hrun : Ensures generating (Raises gate init) (run g (some gate) init)
      (fun _ t => Ends gate init t (.ok ())) [] := by
    refine .andThen (route_logged .start) ?_
    rintro (_ | ⟨node, state⟩) t hr
    · exact .ret hr
    obtain ⟨base, hl⟩ := hr
    exact loopFrom_logged hl
  have hend := hrun t o he
  cases o <;> exact hend

end PerpetuaCore.Graph.Ledger
