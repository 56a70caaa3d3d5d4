import PerpetuaCore.Graph.Schedule

namespace PerpetuaCore.Graph.Confluence

open Interaction
open Schedule
open Python (Str Value Dict)

-- An environment that does not look at batch ids; what else it answers depends on the
-- question alone.
structure Unbatched (H : Handler Core) : Prop where
  dispatch : ∀ r r', r.unbatched = r'.unbatched → H (.beforeDispatch r) = H (.beforeDispatch r')
  start : ∀ r r', r.unbatched = r'.unbatched → H (.beforeStart r) = H (.beforeStart r')
  commit : ∀ r r', r.unbatched = r'.unbatched → H (.beforeCommit r) = H (.beforeCommit r')
  settlement : ∀ r r', r.unbatched = r'.unbatched → H (.afterCommit r) = H (.afterCommit r')

variable {H : Handler Core} {g : CompiledGraph} {gate : Option Gate} {source : Str} {state : State}
  {steps : Nat}

theorem Unbatched.regional (hH : Unbatched H) : Regional H H where
  dispatch := fun r r' _ h => hH.dispatch r r' h
  start := fun r r' _ h => hH.start r r' h
  commit := hH.commit
  settlement := hH.settlement
  join := fun _ _ _ => rfl
  reducer := fun _ _ _ _ _ => rfl

theorem Unbatched.branchwise (hH : Unbatched H) : Branchwise H H where
  dispatch := fun r r' _ h => hH.dispatch r r' h
  start := fun r r' _ h => hH.start r r' h
  branch := fun _ _ _ _ => rfl

abbrev Confluent {α : Type} (H : Handler Core) (p : Scheduler α) : Prop := RunsAlike H H Eq p p

theorem resolveEdge_alike {edge : Edge} :
    StepsAlike H H Eq (resolveEdge g source edge state) (resolveEdge g source edge state) := by
  have hrouter : ∀ router, StepsAlike H H Eq
      ((invoke (.router source router state)).bind fun reply : Reply =>
        (Prog.ofExcept reply.result).bind fun value =>
          (Prog.ofExcept (checkTarget g value)).bind fun target => .ret (target, reply.left))
      ((invoke (.router source router state)).bind fun reply : Reply =>
        (Prog.ofExcept reply.result).bind fun value =>
          (Prog.ofExcept (checkTarget g value)).bind fun target => .ret (target, reply.left)) := by
    intro router
    refine .bind (invoke_alike rfl) ?_
    rintro reply _ rfl
    refine .bind (.ofExcept (same_refl _)) ?_
    rintro value _ rfl
    refine .bind (.ofExcept (same_refl _)) ?_
    rintro target _ rfl
    exact .ret rfl
  cases edge with
  | static target =>
      refine .bind (.ofExcept (same_refl _)) ?_
      rintro target _ rfl
      exact .ret rfl
  | fanout region =>
      unfold resolveEdge
      exact .ofExcept (same_refl _)
  | callable router => exact hrouter router
  | conditional edge => exact hrouter edge.router

theorem route_alike (hH : Unbatched H) {edge : Edge} :
    Confluent H (route g gate source edge state steps) := by
  refine .bind (.lift (dispatch_alike fun r r' _ => hH.dispatch r r')) ?_
  rintro ⟨decision, request⟩ ⟨_, request'⟩ ⟨hdecision, hrequest⟩
  obtain rfl : decision = _ := hdecision
  refine orStop_alike rfl ?_
  refine .bind (.lift (beforeStart_alike hrequest fun r r' _ => hH.start r r')) fun _ _ _ => ?_
  refine .bind (.lift resolveEdge_alike) ?_
  rintro taken _ rfl
  exact .bind .emit fun _ _ _ => .ret rfl

section Nodes

variable [Sha256]

theorem publishNode_alike (hH : Unbatched H) {node : Str} {delta : Delta} :
    Confluent H (publishNode gate node state steps delta) := by
  refine .bind (.lift (commit_alike hH.regional)) ?_
  rintro ⟨decision, request⟩ ⟨_, request'⟩ ⟨hdecision, hrequest⟩
  obtain rfl : decision = _ := hdecision
  refine orStop_alike rfl ?_
  refine .bind (.ofExcept (same_refl _)) ?_
  rintro merged _ rfl
  refine .bind (.lift (settlement_alike hH.regional hrequest)) fun settlement settlement' hs => ?_
  exact .bind .emit fun _ _ _ => .bind (.ofExcept hs) fun _ _ _ => .ret rfl

theorem finishNode_alike (hH : Unbatched H) {node : Str} {reply : Reply} :
    Confluent H (finishNode gate node steps reply) := by
  unfold finishNode
  split
  · split_ifs
    · refine .bind (.ofExcept (same_refl _)) ?_
      rintro closed _ rfl
      exact .bind .emit fun _ _ _ => .ret rfl
    · exact .raise rfl
  · refine .bind (.ofExcept (same_refl _)) ?_
    rintro delta _ rfl
    refine .bind (.ofExcept (same_refl _)) ?_
    rintro detached _ rfl
    exact publishNode_alike hH

theorem runNode_alike (hH : Unbatched H) {node : Str} :
    Confluent H (runNode g gate node state steps) := by
  refine .bind (.ofExcept (same_refl _)) ?_
  rintro fn _ rfl
  refine .bind (.ofExcept (same_refl _)) ?_
  rintro visited _ rfl
  refine .bind .emit fun _ _ _ => ?_
  refine .bind (.lift (dispatch_alike fun r r' _ => hH.dispatch r r')) ?_
  rintro ⟨decision, request⟩ ⟨_, request'⟩ ⟨hdecision, hrequest⟩
  obtain rfl : decision = _ := hdecision
  refine orStop_alike rfl ?_
  refine .bind (.lift (beforeStart_alike hrequest fun r r' _ => hH.start r r')) fun _ _ _ => ?_
  refine .bind (.lift (invoke_alike rfl)) ?_
  rintro reply _ rfl
  exact finishNode_alike hH

theorem followRegion_alike (hH : Unbatched H) {node : Str} :
    Confluent H (followRegion g gate node state steps) := by
  unfold followRegion
  split
  · refine .bind (runRegion_alike hH.regional fun _ _ _ _ _ _ => branchCall_alike hH.branchwise) ?_
    rintro result _ rfl
    exact .ret rfl
  · exact .ret rfl

omit [Sha256] in
theorem finish_alike : Confluent H (finish state steps) := by
  refine .bind (.ofExcept (same_refl _)) ?_
  rintro closed _ rfl
  exact .emit

-- Whatever was reached in the same way goes on in the same way.
theorem loopFrom_alike (hH : Unbatched H) {fuel : Nat} {node lastNode : Str} :
    Confluent H (loopFrom g gate fuel node state steps lastNode) := by
  induction fuel generalizing node state steps lastNode with
  | zero =>
      unfold loopFrom
      split_ifs
      · exact finish_alike
      · exact .raise rfl
      · exact .raise rfl
  | succ fuel ih =>
      unfold loopFrom
      split_ifs
      · exact finish_alike
      · exact .raise rfl
      · refine .bind (runNode_alike hH) ?_
        rintro (_ | published) _ rfl
        · exact .ret rfl
        refine .bind (followRegion_alike hH) ?_
        rintro (_ | ⟨result, edge⟩) _ rfl
        · exact .ret rfl
        refine .bind (route_alike hH) ?_
        rintro (_ | ⟨target, routed⟩) _ rfl
        · exact .ret rfl
        exact ih

-- Neither the tokens drawn nor the order in which branches take their turns, in any region
-- of the run, shows in what is observed, returned or raised.
theorem run_confluent (hH : Unbatched H) {t t' : Run} {o o' : Except Exn Unit}
    (he : Exec generating (run g gate state) t o) (ht : Meets (answering H) t)
    (he' : Exec generating (run g gate state) t' o') (ht' : Meets (answering H) t') :
    observations t = observations t' ∧ ainvoke state t = ainvoke state t' ∧
      Same Exn.Similar Eq o o' := by
  have hrun : Confluent H (run g gate state) := by
    refine .bind (route_alike hH) ?_
    rintro (_ | ⟨node, routed⟩) _ rfl
    · exact .ret rfl
    · exact loopFrom_alike hH
  obtain ⟨hshown, hends⟩ := hrun t o t' o' he ht he' ht'
  exact ⟨hshown, by rw [ainvoke, ainvoke, hshown], hends⟩

omit [Sha256] in
theorem run_confluent_diamond :
    letI := Sha256.verbatim
    let graph := run .diamond (some ⟨true, true⟩) (State.new "s")
    let first := graph.simulate (drawing "first" (obliging fun _ => .dict []))
    let second := graph.simulate (drawing "second" (obliging fun _ => .dict []))
    observations first.1 = observations second.1 ∧
      ainvoke (State.new "s") first.1 = ainvoke (State.new "s") second.1 ∧
      Same Exn.Similar Eq first.2 second.2 := by
  let := Sha256.verbatim
  intro graph first second
  have hunbatched : Unbatched (obliging fun _ => .dict []) :=
    ⟨fun _ _ _ => rfl, fun _ _ _ => rfl, fun _ _ _ => rfl, fun _ _ _ => rfl⟩
  exact run_confluent hunbatched (exec_simulate _ _) (meets_drawing (obeys_simulate _ _))
    (exec_simulate _ _) (meets_drawing (obeys_simulate _ _))

end Nodes

end PerpetuaCore.Graph.Confluence
