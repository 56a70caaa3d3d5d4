import PerpetuaCore.Graph.Engine

namespace PerpetuaCore.Graph

open Interaction
open Python (Str Value Dict)

-- `gate is None`, or a router that runs no code.
def Unguarded (gate : Option Gate) (edge : Option Edge) (boundary : DispatchBoundary) : Prop :=
  gate = none ∨ boundary = .router ∧ edge.bind Edge.router? = none

-- What one boundary call of the engine can do, as rules for its callers.
namespace Rule

variable {gate : Option Gate} {F : Exn → Run → Prop} {h : Run}

theorem invoke {callable : Callable} {Q : callable.Answer → Run → Prop}
    (hq : ∀ answer, Q answer (h ++ [.enter callable, .leave callable answer])) :
    Ensures acting F (Graph.invoke callable) Q h := by
  refine .bind (.act fun _ => .act fun answer => ?_)
  simpa using hq answer

theorem exec_invoke {callable : Callable} {t : Run} {o : Except Exn callable.Answer}
    (he : Exec acting (Graph.invoke callable) t o) :
    ∃ answer, t = [.enter callable, .leave callable answer] ∧ o = .ok answer := by
  have hinvoke : Ensures acting (fun _ _ => False) (Graph.invoke callable)
      (fun answer (t : Run) => t = [.enter callable, .leave callable answer]) [] :=
    invoke fun answer => rfl
  have hend := hinvoke t o he
  cases o with
  | error exc => exact hend.elim
  | ok answer => exact ⟨answer, hend, rfl⟩

theorem dispatch {edge : Option Edge} {boundary : DispatchBoundary} {nodes : List Str} {steps : Nat}
    {source batchId : Option Str}
    {Q : Option GateDecision × Option DispatchRequest → Run → Prop}
    (hskip : Unguarded gate edge boundary → Q (none, none) h)
    (hallow : ¬Unguarded gate edge boundary →
      Q (none, some ⟨boundary, nodes, steps, source, batchId⟩)
        (h ++ [.beforeDispatch ⟨boundary, nodes, steps, source, batchId⟩ (.decided .allow)]))
    (hstop : ∀ reason, Q (some (.stop reason), some ⟨boundary, nodes, steps, source, batchId⟩)
      (h ++ [.beforeDispatch ⟨boundary, nodes, steps, source, batchId⟩ (.decided (.stop reason))]))
    (herror : ∀ reply, reply ≠ .decided .allow → ∀ error,
      F error (h ++ [.beforeDispatch ⟨boundary, nodes, steps, source, batchId⟩ reply])) :
    Ensures acting F (Graph.dispatch gate edge boundary nodes steps source batchId) Q h := by
  cases gate with
  | none => exact .ret (hskip (.inl rfl))
  | some gate =>
      by_cases hrouter : boundary = .router ∧ (edge.bind Edge.router?).isNone
      · simp only [Graph.dispatch, hrouter, and_self, if_true]
        exact .ret (hskip (.inr ⟨hrouter.1, Option.isNone_iff_eq_none.mp hrouter.2⟩))
      · simp only [Graph.dispatch, if_neg hrouter]
        have hguarded : ¬Unguarded (some gate) edge boundary := by
          rintro (hnone | ⟨hb, he⟩)
          · cases hnone
          · exact hrouter ⟨hb, Option.isNone_iff_eq_none.mpr he⟩
        refine .bind (.act fun reply => ?_)
        rcases reply with error | (_ | reason | reason) | type
        · exact .raise (herror (.raised error) nofun error)
        · exact .ret (hallow hguarded)
        · exact .raise (herror (.decided (.refuse reason)) nofun _)
        · exact .ret (hstop reason)
        · exact .raise (herror (.other type) nofun _)

theorem beforeStart {request : Option DispatchRequest} {Q : Unit → Run → Prop}
    (hskip : request = none ∨ hasBeforeStart gate = false → Q () h)
    (hdone : ∀ r, request = some r → hasBeforeStart gate = true →
      Q () (h ++ [.beforeStart r .done]))
    (herror : ∀ r reply, request = some r → reply ≠ .done → ∀ error,
      F error (h ++ [.beforeStart r reply])) :
    Ensures acting F (Graph.beforeStart gate request) Q h := by
  cases request with
  | none => exact .ret (hskip (.inl rfl))
  | some request =>
      by_cases hhook : hasBeforeStart gate = true
      · simp only [Graph.beforeStart, hhook, if_true]
        refine .bind (.act fun reply => ?_)
        rcases reply with error | _ | _
        · exact .raise (herror request (.raised error) rfl nofun error)
        · exact .raise (herror request .notAwaitable rfl nofun _)
        · exact .ret (hdone request rfl hhook)
      · simp only [Graph.beforeStart, if_neg hhook]
        exact .ret (hskip (.inr (Bool.eq_false_iff.mpr hhook)))

theorem commit [Sha256] {boundary : CommitBoundary} {nodes : List Str} {steps : Nat}
    {source batchId : Option Str} {delta : Delta}
    {Q : Option GateDecision × Option CommitRequest → Run → Prop}
    (hskip : gate = none → Q (none, none) h)
    (hdigest : ∀ error, deltaDigest delta = .error error → F error h)
    (hallow : ∀ digest, gate ≠ none → deltaDigest delta = .ok digest →
      Q (none, some ⟨boundary, nodes, steps, source, some digest, batchId⟩)
        (h ++ [.beforeCommit ⟨boundary, nodes, steps, source, some digest, batchId⟩
          (.decided .allow)]))
    (hstop : ∀ digest reason, deltaDigest delta = .ok digest →
      Q (some (.stop reason), some ⟨boundary, nodes, steps, source, some digest, batchId⟩)
        (h ++ [.beforeCommit ⟨boundary, nodes, steps, source, some digest, batchId⟩
          (.decided (.stop reason))]))
    (herror : ∀ digest reply, reply ≠ .decided .allow → ∀ error,
      F error (h ++ [.beforeCommit ⟨boundary, nodes, steps, source, some digest, batchId⟩ reply])) :
    Ensures acting F (Graph.commit gate boundary nodes steps source batchId delta) Q h := by
  cases gate with
  | none => exact .ret (hskip rfl)
  | some gate =>
      refine .bind (.ofExcept (fun digest hd => ?_) hdigest)
      refine .bind (.act fun reply => ?_)
      rcases reply with error | (_ | reason | reason) | type
      · exact .raise (herror digest (.raised error) nofun error)
      · exact .ret (hallow digest nofun hd)
      · exact .raise (herror digest (.decided (.refuse reason)) nofun _)
      · exact .ret (hstop digest reason hd)
      · exact .raise (herror digest (.other type) nofun _)

-- The settlement hook is only called under `attempt`: its error is kept for later.
theorem settle {request : Option CommitRequest} {Q : Except Exn Unit → Run → Prop}
    (hskip : request = none ∨ hasAfterCommit gate = false → Q (.ok ()) h)
    (hcall : ∀ r reply, request = some r → hasAfterCommit gate = true →
      Q (HookReply.result "after_commit" reply) (h ++ [.afterCommit r reply])) :
    Ensures acting F (Graph.afterCommit gate request).attempt Q h := by
  apply Ensures.attempt
  cases request with
  | none => exact .ret (hskip (.inl rfl))
  | some request =>
      by_cases hhook : hasAfterCommit gate = true
      · simp only [Graph.afterCommit, hhook, if_true]
        refine .bind (.act fun reply => .ofExcept ?_ ?_)
        · intro value hr
          exact hr ▸ hcall request reply rfl hhook
        · intro error hr
          exact hr ▸ hcall request reply rfl hhook
      · simp only [Graph.afterCommit, if_neg hhook]
        exact .ret (hskip (.inr (Bool.eq_false_iff.mpr hhook)))

theorem attemptException {α : Type} {p : Step α} {Q : Except Exn α → Run → Prop}
    (hp : Ensures acting (fun error h' => if error.isException then Q (.error error) h' else F error h')
      p (fun value => Q (.ok value)) h) :
    Ensures acting F (Graph.attemptException p) Q h := by
  have hattempt : Ensures acting F p.attempt (fun result h' =>
      (∀ value, result = .ok value → Q (.ok value) h') ∧ ∀ error, result = .error error →
        if error.isException then Q (.error error) h' else F error h') h :=
    .attempt (hp.mono (fun value h' hq => ⟨fun _ he => Except.ok.inj he ▸ hq, nofun⟩)
      fun error h' hq => ⟨nofun, fun _ he => Except.error.inj he ▸ hq⟩)
  refine .andThen hattempt ?_
  rintro (error | value) h' ⟨hok, herror⟩
  · have hq := herror error rfl
    dsimp only
    split_ifs at hq ⊢
    · exact .ret hq
    · exact .raise hq
  · exact .ret (hok value rfl)

theorem catchBoundaryStop {α : Type} {p : Step α} {Q : Except GateDecision α → Run → Prop}
    (hp : Ensures acting
      (fun error h' => F error h' ∧ ∀ decision, error = .boundaryStopped decision → Q (.error decision) h')
      p (fun value => Q (.ok value)) h) :
    Ensures acting F (Graph.catchBoundaryStop p) Q h := by
  have hattempt : Ensures acting F p.attempt (fun result h' =>
      (∀ value, result = .ok value → Q (.ok value) h') ∧ ∀ error, result = .error error →
        F error h' ∧ ∀ d, error = .boundaryStopped d → Q (.error d) h') h :=
    .attempt (hp.mono (fun value h' hq => ⟨fun _ he => Except.ok.inj he ▸ hq, nofun⟩)
      fun error h' hq => ⟨nofun, fun _ he => Except.error.inj he ▸ hq⟩)
  refine .andThen hattempt ?_
  rintro (error | value) h' ⟨hok, herror⟩
  · obtain ⟨hraise, hstop⟩ := herror error rfl
    cases error with
    | boundaryStopped decision => exact .ret (hstop decision rfl)
    | _ => exact .raise hraise
  · exact .ret (hok value rfl)

theorem runBranch {g : CompiledGraph} {source : Str} {snapshot : State} {name : Str}
    {Q : Settled → Run → Prop}
    (hmissing : ∀ item, item.name = name → Q item h)
    (hcall : ∀ fn reply item, item.name = name → Q item (h ++
      [.enter (.branch source name fn snapshot), .leave (.branch source name fn snapshot) reply]))
    (herror : ∀ fn reply error, F error (h ++
      [.enter (.branch source name fn snapshot), .leave (.branch source name fn snapshot) reply])) :
    Ensures acting F (Graph.runBranch g source snapshot name) Q h := by
  unfold Graph.runBranch
  cases nodeFor g name with
  | error exc => exact .ret (hmissing ⟨name, .error exc⟩ rfl)
  | ok fn =>
      refine .bind (invoke fun reply => ?_)
      split
      · split_ifs
        · exact .ret (hcall fn reply _ rfl)
        · exact .raise (herror fn reply _)
      · exact .ret (hcall fn reply _ rfl)

theorem resolveEdge {g : CompiledGraph} {source : Str} {edge : Edge} {state : State}
    {Q : Str × State → Run → Prop}
    (hstatic : ∀ target, edge = .static target →
      Ensures acting F (.ofExcept (checkTarget g (.str target))) (fun target => Q (target, state)) h)
    (hfanout : ∀ region, edge = .fanout region →
      ∀ error, checkTarget g (.object "FanOut" 0 true) = .error error → F error h)
    (hrouter : ∀ fn reply, edge.router? = some fn →
      Ensures acting F (.ofExcept (reply.result.bind (checkTarget g)))
        (fun target => Q (target, reply.left))
        (h ++ [.enter (.router source fn state), .leave (.router source fn state) reply])) :
    Ensures acting F (Graph.resolveEdge g source edge state) Q h := by
  have hrouted : ∀ fn, edge.router? = some fn → Ensures acting F
      ((Graph.invoke (.router source fn state)).bind fun reply : Reply =>
        (Prog.ofExcept reply.result).bind fun value =>
          (Prog.ofExcept (checkTarget g value)).bind fun target => .ret (target, reply.left)) Q h := by
    intro fn hfn
    refine .bind (invoke fun reply => ?_)
    have hreply := hrouter fn reply hfn
    cases hresult : reply.result with
    | error error =>
        rw [hresult] at hreply
        have hraised := hreply [] _ (.raise error)
        rw [List.append_nil] at hraised
        exact .raise hraised
    | ok value =>
        rw [hresult] at hreply
        exact .bind (.ret (.bind (Ensures.mono hreply (fun _ _ hq => .ret hq) fun _ _ hf => hf)))
  cases edge with
  | static target => exact .bind (Ensures.mono (hstatic target rfl) (fun _ _ hq => .ret hq) fun _ _ hf => hf)
  | fanout region =>
      unfold Graph.resolveEdge
      refine .ofExcept (fun _ hok => nomatch hok) fun error he => hfanout region rfl error ?_
      cases he
      rfl
  | callable router => exact hrouted router rfl
  | conditional edge => exact hrouted edge.router rfl

theorem orStop {α : Type} {state : State} {node : Str} {steps : Nat}
    {decision : Option GateDecision} {next : Scheduler (Option α)} {Q : Option α → Run → Prop}
    (hnext : decision = none → Ensures generating F next Q h)
    (hstop : ∀ d observation, decision = some d → stopped state node steps d = .ok observation →
      Q none (h ++ [.emit observation]))
    (herror : ∀ d error, decision = some d → F error h) :
    Ensures generating F (Graph.orStop state node steps decision next) Q h := by
  cases decision with
  | none => exact hnext rfl
  | some decision =>
      refine .bind (.ofExcept (fun observation ho => ?_) fun error _ => herror decision error rfl)
      exact .bind (.emit (.ret (hstop decision observation rfl ho)))

-- Where nothing was decided the run goes on.
theorem unstopped {α : Type} {state : State} {node : Str} {steps : Nat}
    {next : Scheduler (Option α)} {Q : Option α → Run → Prop} (hnext : Ensures generating F next Q h) :
    Ensures generating F (Graph.orStop state node steps none next) Q h :=
  hnext

-- The run has ended, or goes on from what was returned.
def Goes {α : Type} (Q : Run → Prop) (R : α → Run → Prop) : Option α → Run → Prop
  | none => Q
  | some value => R value

theorem Goes.assuming {α : Type} {D Q : Run → Prop} {R : α → Run → Prop} {next : Option α} {t : Run}
    (h : D t → Goes Q R next t) : Goes (fun t => D t → Q t) (fun value t => D t → R value t) next t := by
  cases next <;> exact h

section Loop

variable [Sha256] {g : CompiledGraph} {Q : Run → Prop} {I : Str → State → Nat → Str → Run → Prop}
  {J : Str → State → Nat → Run → Prop} {K : Str → Edge → State → Nat → Run → Prop}

-- The loop's rule: `I` holds where a node is about to be run, after the one named last, `J`
-- once it has been, `K` where the edge out of it is about to be taken.
theorem loopFrom {fuel : Nat} {node lastNode : Str} {state : State} {steps : Nat}
    (hdone : ∀ state steps lastNode h, I END state steps lastNode h →
      Ensures generating F (finish state steps) (fun _ => Q) h)
    (hbudget : ∀ node state steps lastNode h, I node state steps lastNode h → node ≠ END →
      F (.maxStepsExceeded steps lastNode) h)
    (hnode : ∀ node state steps lastNode h, I node state steps lastNode h → node ≠ END →
      (steps : Int) < g.maxSteps →
      Ensures generating F (runNode g gate node state steps)
        (Goes Q fun state => J node state (steps + 1)) h)
    (hregion : ∀ node state steps h, J node state steps h →
      Ensures generating F (followRegion g gate node state steps)
        (Goes Q fun next => K node next.2 next.1.state next.1.steps) h)
    (hroute : ∀ node edge state steps h, K node edge state steps h →
      Ensures generating F (route g gate node edge state steps)
        (Goes Q fun next => I next.1 next.2 steps node) h)
    (hi : I node state steps lastNode h) :
    Ensures generating F (Graph.loopFrom g gate fuel node state steps lastNode) (fun _ => Q) h := by
  induction fuel generalizing h node state steps lastNode with
  | zero =>
      unfold Graph.loopFrom
      split_ifs with hend
      · exact hdone _ _ _ _ (hend ▸ hi)
      · exact .raise (hbudget _ _ _ _ _ hi hend)
      · exact .raise (hbudget _ _ _ _ _ hi hend)
  | succ fuel ih =>
      unfold Graph.loopFrom
      split_ifs with hend hbound
      · exact hdone _ _ _ _ (hend ▸ hi)
      · exact .raise (hbudget _ _ _ _ _ hi hend)
      · refine .andThen (hnode _ _ _ _ _ hi hend (not_le.mp hbound)) ?_
        rintro (_ | state) t hq
        · exact .ret hq
        refine .andThen (hregion _ _ _ _ hq) ?_
        rintro (_ | ⟨result, edge⟩) t hq
        · exact .ret hq
        refine .andThen (hroute _ _ _ _ _ hq) ?_
        rintro (_ | ⟨target, state⟩) t hq
        · exact .ret hq
        exact ih hq

theorem run {state : State}
    (hstart : Ensures generating F (route g gate START (g.edgeOf START) state 0)
      (Goes Q fun next => I next.1 next.2 0 START) h)
    (hdone : ∀ state steps lastNode h, I END state steps lastNode h →
      Ensures generating F (finish state steps) (fun _ => Q) h)
    (hbudget : ∀ node state steps lastNode h, I node state steps lastNode h → node ≠ END →
      F (.maxStepsExceeded steps lastNode) h)
    (hnode : ∀ node state steps lastNode h, I node state steps lastNode h → node ≠ END →
      (steps : Int) < g.maxSteps →
      Ensures generating F (runNode g gate node state steps)
        (Goes Q fun state => J node state (steps + 1)) h)
    (hregion : ∀ node state steps h, J node state steps h →
      Ensures generating F (followRegion g gate node state steps)
        (Goes Q fun next => K node next.2 next.1.state next.1.steps) h)
    (hroute : ∀ node edge state steps h, K node edge state steps h →
      Ensures generating F (route g gate node edge state steps)
        (Goes Q fun next => I next.1 next.2 steps node) h) :
    Ensures generating F (Graph.run g gate state) (fun _ => Q) h := by
  refine .andThen hstart ?_
  rintro (_ | ⟨node, state⟩) t hq
  · exact .ret hq
  · exact loopFrom hdone hbudget hnode hregion hroute hq

end Loop

end Rule

end PerpetuaCore.Graph
