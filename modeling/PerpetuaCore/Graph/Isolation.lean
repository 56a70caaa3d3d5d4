import PerpetuaCore.Graph.Calls
import PerpetuaCore.Interaction.Indifference

namespace PerpetuaCore.Graph.Isolation

open Interaction
open Python (Str Value Dict)

-- The same answer, up to what a node callable left in the state object it was passed.
def leftOver : Likeness Core
  | .leave (.node ..), reply, reply' | .leave (.branch ..), reply, reply' =>
      Reply.result reply = Reply.result reply'
  | _, answer, answer' => answer = answer'

-- The same, for the branches of a region only.
def branchLeftOver : Likeness Core
  | .leave (.branch ..), reply, reply' => Reply.result reply = Reply.result reply'
  | _, answer, answer' => answer = answer'

-- Two runs that differ only in what the nodes did to the state objects they were passed.
def SameButLeft (t t' : Run) : Prop := List.Forall₂ (Entry.Like leftOver) t t'

-- Every linear node leaves the state it was passed as it is.
def Tidy (t : Run) : Prop :=
  ∀ node fn state reply, Event.leave (.node node fn state) reply ∈ t → reply.left = state

theorem like_of_tidy {t t' : Run} (h : SameButLeft t t') (ht : Tidy t) (ht' : Tidy t') :
    List.Forall₂ (Entry.Like branchLeftOver) t t' := by
  induction h with
  | nil => exact .nil
  | @cons e e' t t' he _ ih =>
      refine .cons ?_ (ih (fun node fn state reply hm => ht _ _ _ _ (List.mem_cons_of_mem _ hm))
        fun node fn state reply hm => ht' _ _ _ _ (List.mem_cons_of_mem _ hm))
      cases e with
      | emit observation => exact he
      | act op answer =>
          obtain ⟨answer', hr, rfl⟩ := he
          refine ⟨answer', ?_, rfl⟩
          cases op with
          | leave callable =>
              cases callable with
              | node name fn state =>
                  have hleft := ht _ _ _ _ List.mem_cons_self
                  have hleft' := ht' _ _ _ _ List.mem_cons_self
                  cases answer
                  cases answer'
                  cases hleft
                  cases hleft'
                  cases hr
                  rfl
              | _ => exact hr
          | _ => exact hr

-- Exchanges in which no branch answers.
def heeded : Op → Prop
  | .leave (.branch ..) => False
  | _ => True

theorem heeded_eq {op : Op} (h : heeded op) {answer answer' : Core.Ans op}
    (hr : branchLeftOver op answer answer') : answer = answer' := by
  cases op with
  | leave callable => cases callable <;> first | exact h.elim | exact hr
  | _ => exact hr

theorem heeded_of_aside {op : Op} (h : aside op) : heeded op := by
  cases op with
  | leave callable => cases callable <;> first | exact h.elim | trivial
  | _ => trivial

variable {α : Type} {g : CompiledGraph} {gate : Option Gate} {source : Str} {edge : FanOut}
  {state snapshot : State} {steps : Nat} {batchId : Str}

abbrev Blind (p : Step α) : Prop := p.Indifferent (fun _ => True) branchLeftOver

abbrev BlindRun (p : Scheduler α) : Prop := p.Heedless branchLeftOver

theorem blind_of_asks {p : Step α} (hp : p.Asks heeded) : Blind p :=
  .of_asks hp fun _ hop => ⟨trivial, fun _ _ => heeded_eq hop⟩

theorem blind_lift {p : Step α} (hp : p.Asks heeded) : BlindRun p.lift := (blind_of_asks hp).lift

theorem blind_aside {kinds : List EventKind} {p : Scheduler α} (hp : p.Asks (Does aside (shows kinds))) :
    BlindRun p :=
  .of_does hp fun _ hop _ _ => heeded_eq (heeded_of_aside hop)

-- A branch runs on a copy of its own: all that is used of its answer is the result.
theorem runBranch_blind {name : Str} : Blind (runBranch g source snapshot name) := by
  unfold runBranch
  split
  · trivial
  · refine ⟨trivial, fun _ _ _ => rfl, fun _ => ⟨trivial, fun reply reply' hr => ?_, fun reply => ?_⟩⟩
    · have hresult : reply.result = reply'.result := hr
      simp only [Prog.bind, hresult]
    · simp only [Prog.bind]
      split
      · split_ifs <;> trivial
      · trivial

theorem branchCall_blind {name : Str} :
    Blind (branchCall g gate source batchId snapshot steps name) := by
  unfold branchCall
  split_ifs
  · refine .bind (blind_of_asks (attemptException_asks (dispatch_asks trivial))) fun asked => ?_
    split
    · trivial
    · trivial
    · refine .bind (blind_of_asks (attemptException_asks (beforeStart_asks fun _ _ => trivial))) ?_
      intro started
      split
      · trivial
      · exact runBranch_blind
  · exact runBranch_blind

theorem orStop_heedless {R : Likeness Core} {node : Str} {decision : Option GateDecision}
    {next : Scheduler (Option α)} (hnext : next.Heedless R) :
    (orStop state node steps decision next).Heedless R := by
  cases decision with
  | none => exact hnext
  | some decision => exact .bind (.ofExcept _) fun _ => .bind .emit fun _ => trivial

section Scheduler

variable [Sha256]

theorem runNode_blind {node : Str} : BlindRun (runNode g gate node state steps) := by
  refine .bind (.ofExcept _) fun fn => .bind (.ofExcept _) fun visited => .bind .emit fun _ => ?_
  refine .bind (blind_lift (dispatch_asks trivial)) fun asked => orStop_heedless ?_
  refine .bind (blind_lift (beforeStart_asks fun _ _ => trivial)) fun _ => ?_
  exact .bind (blind_lift (invoke_asks trivial trivial)) fun _ => blind_aside finishNode_does

theorem runRegion_blind : BlindRun (runRegion g gate source edge state steps) := by
  refine .bind (.ofExcept _) fun entered => .bind (.bind .emit fun _ => .forM fun _ => .emit) ?_
  refine fun _ => .bind (blind_lift (.call trivial)) fun batchId => ?_
  refine .bind (blind_lift (dispatch_asks trivial)) fun asked => orStop_heedless ?_
  refine .bind (.bind (.fork fun task hm => ?_) fun _ => .ofExcept _) fun _ =>
    blind_aside joinRegion_does
  obtain ⟨name, -, rfl⟩ := List.mem_map.mp hm
  exact branchCall_blind

theorem followRegion_blind {node : Str} : BlindRun (followRegion g gate node state steps) := by
  unfold followRegion
  split
  · exact .bind runRegion_blind fun _ => trivial
  · trivial

theorem loopFrom_blind {fuel : Nat} {node lastNode : Str} :
    BlindRun (loopFrom g gate fuel node state steps lastNode) := by
  induction fuel generalizing node state steps lastNode with
  | zero =>
      unfold loopFrom
      split_ifs
      · exact blind_aside finish_does
      · trivial
      · trivial
  | succ fuel ih =>
      unfold loopFrom
      split_ifs
      · exact blind_aside finish_does
      · trivial
      · refine .bind runNode_blind ?_
        rintro (_ | state)
        · trivial
        refine .bind followRegion_blind ?_
        rintro (_ | ⟨result, edge⟩)
        · trivial
        refine .bind (blind_aside route_does) ?_
        rintro (_ | ⟨target, state⟩)
        · trivial
        exact ih

theorem run_blind : BlindRun (run g gate state) := by
  refine .bind (blind_aside route_does) ?_
  rintro (_ | ⟨node, state⟩)
  · trivial
  · exact loopFrom_blind

-- Where linear nodes treat the state they are passed as input, nodes and branches affect a run
-- through their results only.
theorem effects_confined {t t' : Run} {o : Except Exn Unit}
    (he : Exec generating (run g gate state) t o) (hs : SameButLeft t t') (ht : Tidy t)
    (ht' : Tidy t') : Exec generating (run g gate state) t' o :=
  exec_generating_like run_blind he (like_of_tidy hs ht ht')

end Scheduler

def leak (state : State) : State :=
  state.update (Dict.ofList [("scratchpad", .dict [("leak", .bool true)])])

-- Every branch writes into the copy it was passed.
def branchesLeak : Event → Event
  | .leave (.branch source name fn state) reply =>
      .leave (.branch source name fn state) ⟨(reply : Reply).result, leak (reply : Reply).left⟩
  | event => event

-- Every linear node writes into the state object it was passed.
def nodesLeak : Event → Event
  | .leave (.node name fn state) reply =>
      .leave (.node name fn state) ⟨(reply : Reply).result, leak (reply : Reply).left⟩
  | event => event

theorem leftOver_refl (op : Op) (answer : Core.Ans op) : leftOver op answer answer := by
  cases op with
  | leave callable => cases callable <;> rfl
  | _ => rfl

theorem sameButLeft_map {f : Event → Event} (hf : ∀ e, Entry.Like leftOver e (f e)) (t : Run) :
    SameButLeft t (t.map f) :=
  List.forall₂_map_right_iff.mpr (List.forall₂_same.mpr fun e _ => hf e)

theorem branchesLeak_same (t : Run) : SameButLeft t (t.map branchesLeak) := by
  refine sameButLeft_map (fun e => ?_) t
  unfold branchesLeak
  split
  · refine ⟨(⟨_, leak _⟩ : Reply), ?_, rfl⟩
    rfl
  · cases e with
    | emit observation => rfl
    | act op answer => exact ⟨answer, leftOver_refl op answer, rfl⟩

theorem nodesLeak_same (t : Run) : SameButLeft t (t.map nodesLeak) := by
  refine sameButLeft_map (fun e => ?_) t
  unfold nodesLeak
  split
  · refine ⟨(⟨_, leak _⟩ : Reply), ?_, rfl⟩
    rfl
  · cases e with
    | emit observation => rfl
    | act op answer => exact ⟨answer, leftOver_refl op answer, rfl⟩

theorem effects_confined_diamond :
    letI := Sha256.verbatim
    let t := ((run .diamond none (State.new "s")).simulate (obliging fun _ => .dict [])).1
    Exec generating (run .diamond none (State.new "s")) (t.map branchesLeak) (.ok ()) := by
  let := Sha256.verbatim
  intro t
  have hrun := exec_simulate (obliging fun _ => .dict []) (run .diamond none (State.new "s"))
  have hdone : ((run .diamond none (State.new "s")).simulate (obliging fun _ => .dict [])).2 = .ok () := by
    rfl
  have hobeys := obeys_simulate (obliging fun _ => .dict []) (run .diamond none (State.new "s"))
  have htidy : Tidy t := fun node fn state reply hm => by rw [hobeys _ _ hm]; rfl
  have htidy' : Tidy (t.map branchesLeak) := by
    intro node fn state reply hm
    obtain ⟨e, he, hleaks⟩ := List.mem_map.mp hm
    unfold branchesLeak at hleaks
    split at hleaks
    · cases hleaks
    · exact htidy node fn state reply (hleaks ▸ he)
  exact effects_confined (hdone ▸ hrun) (branchesLeak_same t) htidy htidy'

def leakingNodes : Handler Core
  | .leave (.node _ _ state) => ⟨.ok (.dict []), leak state⟩
  | op => obliging (fun _ => .dict []) op

-- A linear node is passed the run's own state object: what it writes into that is published.
theorem linear_effect_leaks :
    ¬∀ [Sha256] (g : CompiledGraph) (gate : Option Gate) (state : State) (t t' : Run)
        (o : Except Exn Unit), Exec generating (run g gate state) t o → SameButLeft t t' →
      Exec generating (run g gate state) t' o := by
  intro h
  let := Sha256.verbatim
  let t := ((run .diamond none (State.new "s")).simulate (obliging fun _ => .dict [])).1
  have hrun := exec_simulate (obliging fun _ => .dict []) (run .diamond none (State.new "s"))
  have hobeys := obeys_simulate (obliging fun _ => .dict []) (run .diamond none (State.new "s"))
  have hleaked : Obeys leakingNodes (t.map nodesLeak) := by
    intro op answer hm
    obtain ⟨e, he, hleaks⟩ := List.mem_map.mp hm
    unfold nodesLeak at hleaks
    split at hleaks
    · cases hleaks
      rw [hobeys _ _ he]
      rfl
    · rename_i hother
      subst hleaks
      rw [hobeys _ _ he]
      cases op with
      | leave callable =>
          cases callable with
          | node name fn state => exact absurd rfl (hother name fn state answer)
          | _ => rfl
      | _ => rfl
  have hshown := observations_like (nodesLeak_same t)
  have hsame := (exec_generating_eq (h _ _ _ _ _ _ hrun (nodesLeak_same t)) hleaked).1
  rw [hshown] at hsame
  have hlast := congrArg (fun shown => (shown.getLast?.map fun o => o.state.get "scratchpad")) hsame
  exact absurd hlast (by decide +kernel)

end PerpetuaCore.Graph.Isolation
