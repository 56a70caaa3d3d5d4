import PerpetuaCore.Graph.Ledger
import PerpetuaCore.Interaction.History

namespace PerpetuaCore.Graph.Ledger

open Interaction
open Python (Str Value Dict)

-- One change of the published state: a delta, or the scheduler's own bookkeeping.
inductive Edit where
  | publish (delta : Delta)
  | visit (names : List Str)
  | stop (node : Str) (reason : Value)
  | interrupt (node : Str) (prompt payload : Value)
  | done

namespace Edit

def annotate (state : State) (status : String) (entries : List (Value × Value)) : State :=
  match withMetadata state entries with
  | .ok metadata => state.update (Dict.ofList [("status", status), ("metadata", metadata)])
  | .error _ => state

def apply (state : State) : Edit → State
  | .publish delta => state.update delta
  | .visit names =>
      state.update (Dict.ofList [("nodes_visited",
        .list (((state.get "nodes_visited").iterate.getD []) ++ names.map .str))])
  | .stop node reason => annotate state "stopped" [("stop_node", node), ("stop_reason", reason)]
  | .interrupt node prompt payload =>
      annotate state "interrupted" [("interrupt_node", node), ("interrupt_prompt", prompt),
        ("interrupt_payload", payload)]
  | .done => state.update (Dict.ofList [("status", "done")])

def delta? : Edit → Option Delta
  | .publish delta => some delta
  | _ => none

end Edit

theorem visit_eq {state visited : State} {names : List Str} (h : visit state names = .ok visited) :
    visited = Edit.apply state (.visit names) := by
  unfold visit at h
  split at h
  · rename_i items hi
    rw [State.merge_eq_update h]
    simp only [Edit.apply, hi, Option.getD_some]
  · cases h

theorem annotate_eq {state closed : State} {status : String} {entries : List (Value × Value)}
    (h : closeWith state status entries = .ok closed) :
    closed = Edit.annotate state status entries := by
  obtain ⟨metadata, hm, rfl⟩ := closeWith_eq h
  rw [Edit.annotate, hm]

theorem Closes.eq_apply {state closed : State} (h : Closes state closed) :
    ∃ edit : Edit, edit.delta? = none ∧ closed = edit.apply state := by
  cases h with
  | @stopped node decision _ h => exact ⟨.stop node decision.reason, rfl, annotate_eq h⟩
  | @interrupted node exc _ h =>
      exact ⟨.interrupt node (exc.prompt?.getD .none) exc.payload, rfl, annotate_eq h⟩
  | done h => exact ⟨.done, rfl, State.merge_eq_update h⟩

-- The commits the gate allowed, in order.
def approved (t : Run) : List CommitRequest :=
  t.filterMap fun
    | .beforeCommit request (.decided .allow) => some request
    | _ => none

@[simp] theorem approved_append (s t : Run) : approved (s ++ t) = approved s ++ approved t :=
  List.filterMap_append

@[simp] theorem approved_emits (shown : List GraphObservation) :
    approved (shown.map .emit) = [] := by
  simp [approved]

theorem approved_quiet {op : Op} {answer : Core.Ans op} (h : quiet op) :
    approved [.act (S := Core) op answer] = [] := by
  cases op <;> first | rfl | exact h.elim

variable [Sha256] {gate : Gate} {init : State} {t : Run}

-- `state` is `init` after a series of edits whose deltas are exactly those that were
-- allowed, in this order.
def Accounted (init : State) (t : Run) (state : State) : Prop :=
  ∃ edits : List Edit, state = edits.foldl Edit.apply init ∧
    List.Forall₂ Binds (approved t) (edits.filterMap Edit.delta?)

-- Every callable leaves the state it was given as it was.
def leavesInput : Event → Prop
  | .leave (.node _ _ state) reply => (reply : Reply).left = state
  | .leave (.router _ _ state) reply => (reply : Reply).left = state
  | _ => True

theorem Accounted.bookkeeping {state : State} (ha : Accounted init t state) (edit : Edit)
    (he : edit.delta? = none) : Accounted init t (edit.apply state) := by
  obtain ⟨edits, rfl, hf⟩ := ha
  refine ⟨edits ++ [edit], by rw [List.foldl_append]; rfl, ?_⟩
  simpa [he] using hf

theorem Accounted.quiet {state : State} {u : Run} (ha : Accounted init t state)
    (hu : approved u = []) : Accounted init (t ++ u) state := by
  obtain ⟨edits, rfl, hf⟩ := ha
  exact ⟨edits, rfl, by simpa [hu] using hf⟩

theorem Accounted.publish {state : State} {u : Run} {request : CommitRequest} {delta : Delta}
    (ha : Accounted init t state) (hb : Binds request delta) (hu : approved u = [request]) :
    Accounted init (t ++ u) (state.update delta) := by
  obtain ⟨edits, rfl, hf⟩ := ha
  refine ⟨edits ++ [.publish delta], by rw [List.foldl_append]; rfl, ?_⟩
  rw [approved_append, hu, List.filterMap_append]
  exact List.rel_append hf (.cons hb .nil)

omit [Sha256] in
theorem Publishes.state_eq {request : CommitRequest} {delta : Delta} {merged : State}
    {shown : List GraphObservation} (h : Publishes request delta merged shown) :
    ∀ observation ∈ shown, observation.state = merged ∧ publishes observation.event.kind = true := by
  unfold Publishes at h
  split at h
  · obtain ⟨node, observation, -, rfl, hkind, -, -, hstate⟩ := h
    simp [hkind, hstate, publishes]
  · obtain ⟨branches, last, rfl, hbranches, hkind, -, hstate⟩ := h
    intro observation ho
    rcases List.mem_append.mp ho with ho | ho
    · have hm : (observation.event.kind, observation.event.node, observation.state) ∈
          request.nodes.map fun node => (EventKind.nodeEnd, some node, merged) :=
        hbranches ▸ List.mem_map_of_mem ho
      obtain ⟨node, -, heq⟩ := List.mem_map.mp hm
      simp only [Prod.mk.injEq] at heq
      exact ⟨heq.2.2.symm, by simp [← heq.1, publishes]⟩
    · obtain rfl := List.mem_singleton.mp ho
      exact ⟨hstate, by simp [hkind, publishes]⟩

omit [Sha256] in
theorem approved_block {request : CommitRequest} {reply : HookReply}
    {shown : List GraphObservation} : approved (block gate request reply shown) = [request] := by
  have hs : approved (settlement gate request reply) = [] := by
    unfold settlement
    split_ifs <;> rfl
  change request :: approved (settlement gate request reply ++ shown.map .emit) = [request]
  simp [hs]

theorem block_accounted {request : CommitRequest} {delta : Delta} {reply : HookReply}
    {held merged : State} {shown : List GraphObservation} (ha : Accounted init t held)
    (hb : Binds request delta) (hm : held.merge delta = .ok merged)
    (hp : Publishes request delta merged shown) :
    Always (fun past e => ∀ observation, e = .emit observation →
      Accounted init (t ++ past) observation.state) (block gate request reply shown) := by
  have happroved : approved (block gate request reply shown) = [request] := approved_block
  have hquiet : approved (settlement gate request reply ++ shown.map .emit) = [] :=
    (List.cons.inj happroved).2
  refine always_cons.mpr ⟨fun _ => nofun, ?_⟩
  rintro past e post he observation rfl
  have hmem : observation ∈ shown := by
    have hm : (.emit observation : Event) ∈ settlement gate request reply ++ shown.map .emit := by
      simp [he]
    rw [settlement] at hm
    split_ifs at hm <;> simpa using hm
  rw [(hp.state_eq observation hmem).1, State.merge_eq_update hm]
  refine ha.publish hb ?_
  rw [he, approved_append] at hquiet
  change request :: approved past = [request]
  rw [(List.append_eq_nil_iff.mp hquiet).1]

theorem Log.accounted {held base : State} (hl : Log gate init t held base)
    (hleaves : ∀ e ∈ t, leavesInput e) :
    Accounted init t held ∧ Accounted init t base ∧
      Always (fun past e => ∀ observation, e = .emit observation →
        Accounted init past observation.state) t := by
  induction hl with
  | start => exact ⟨⟨[], rfl, .nil⟩, ⟨[], rfl, .nil⟩, always_nil⟩
  | exchange _ hq ih =>
      obtain ⟨hheld, hbase, hshown⟩ := ih fun e he => hleaves e (List.mem_append_left _ he)
      exact ⟨hheld.quiet (approved_quiet hq), hbase.quiet (approved_quiet hq),
        always_snoc.mpr ⟨hshown, nofun⟩⟩
  | leftNode _ ih =>
      obtain ⟨hheld, hbase, hshown⟩ := ih fun e he => hleaves e (List.mem_append_left _ he)
      have hleft := hleaves _ (List.mem_append_right _ (List.mem_singleton_self _))
      simp only [leavesInput] at hleft
      rw [hleft]
      exact ⟨hheld.quiet rfl, hheld.quiet rfl, always_snoc.mpr ⟨hshown, nofun⟩⟩
  | leftRouter _ ih =>
      obtain ⟨hheld, hbase, hshown⟩ := ih fun e he => hleaves e (List.mem_append_left _ he)
      have hleft := hleaves _ (List.mem_append_right _ (List.mem_singleton_self _))
      simp only [leavesInput] at hleft
      rw [hleft]
      exact ⟨hheld.quiet rfl, hheld.quiet rfl, always_snoc.mpr ⟨hshown, nofun⟩⟩
  | @visit t held base names observation _ hv _ ih =>
      obtain ⟨hheld, _, hshown⟩ := ih fun e he => hleaves e (List.mem_append_left _ he)
      have hvisited : Accounted init t observation.state := by
        rw [visit_eq hv]
        exact hheld.bookkeeping (.visit names) rfl
      refine ⟨hvisited.quiet rfl, hheld.quiet rfl, always_snoc.mpr ⟨hshown, ?_⟩⟩
      rintro _ ⟨⟩
      exact hvisited
  | shown _ hs _ ih =>
      obtain ⟨hheld, hbase, hshown⟩ := ih fun e he => hleaves e (List.mem_append_left _ he)
      refine ⟨hheld.quiet rfl, hbase.quiet rfl, always_snoc.mpr ⟨hshown, ?_⟩⟩
      rintro _ ⟨⟩
      rwa [hs]
  | @publish t held base request delta reply merged shown _ hb hm _ hp ih =>
      obtain ⟨hheld, _, hshown⟩ := ih fun e he => hleaves e (List.mem_append_left _ he)
      have hmerged : Accounted init (t ++ block gate request reply shown) merged := by
        rw [State.merge_eq_update hm]
        exact hheld.publish hb approved_block
      exact ⟨hmerged, hmerged, always_append.mpr ⟨hshown, block_accounted hheld hb hm hp⟩⟩

theorem Closes.accounted {state closed : State} (hc : Closes state closed)
    (ha : Accounted init t state) : Accounted init t closed := by
  obtain ⟨edit, he, rfl⟩ := hc.eq_apply
  exact ha.bookkeeping edit he

theorem Ends.accounted {o : Except Exn Unit} (he : Ends gate init t o)
    (hleaves : ∀ e ∈ t, leavesInput e) :
    Always (fun past e => ∀ observation, e = .emit observation →
      Accounted init past observation.state) t := by
  cases he with
  | raised hl => exact (hl.accounted hleaves).2.2
  | @closed t _ _ observation hl hc _ =>
      obtain ⟨hheld, hbase, hshown⟩ := hl.accounted fun e he => hleaves e (List.mem_append_left _ he)
      refine always_snoc.mpr ⟨hshown, ?_⟩
      rintro _ ⟨⟩
      exact hc.elim (·.accounted hheld) (·.accounted hbase)
  | withheld hl _ =>
      obtain ⟨_, _, hshown⟩ := hl.accounted fun e he => hleaves e (List.mem_append_left _ he)
      exact always_snoc.mpr ⟨hshown, nofun⟩
  | @stopped t _ _ request reason observation hl hc _ =>
      obtain ⟨hheld, hbase, hshown⟩ := hl.accounted fun e he => hleaves e (List.mem_append_left _ he)
      rw [List.append_cons]
      refine always_snoc.mpr ⟨always_snoc.mpr ⟨hshown, nofun⟩, ?_⟩
      rintro _ ⟨⟩
      exact (hc.elim (·.accounted hheld) (·.accounted hbase)).quiet rfl
  | unsettled hl hb hm _ hp =>
      obtain ⟨hheld, _, hshown⟩ := hl.accounted fun e he => hleaves e (List.mem_append_left _ he)
      exact always_append.mpr ⟨hshown, block_accounted hheld hb hm hp⟩
  | unmerged hl _ _ =>
      obtain ⟨_, _, hshown⟩ := hl.accounted fun e he => hleaves e (List.mem_append_left _ he)
      exact always_snoc.mpr ⟨hshown, nofun⟩

-- While a run goes on, every commit it asked for was allowed.
def Denies (e : Event) : Prop :=
  ∃ request reply, e = .beforeCommit request reply ∧ reply ≠ .decided .allow

omit [Sha256] in
theorem not_denies_block {request : CommitRequest} {reply : HookReply}
    {shown : List GraphObservation} : ∀ e ∈ block gate request reply shown, ¬Denies e := by
  rintro e he ⟨request', reply', rfl, hr⟩
  rcases List.mem_cons.mp he with he | he
  · cases he
    exact hr rfl
  · rw [settlement] at he
    split_ifs at he <;> simp at he

theorem Log.not_denies {held base : State} (hl : Log gate init t held base) :
    ∀ e ∈ t, ¬Denies e := by
  induction hl with
  | start => simp
  | exchange _ hq ih =>
      intro e he
      rcases List.mem_append.mp he with he | he
      · exact ih e he
      · obtain rfl := List.mem_singleton.mp he
        rintro ⟨request, reply, heq, -⟩
        cases heq
        exact hq
  | publish _ _ _ _ _ ih =>
      intro e he
      rcases List.mem_append.mp he with he | he
      · exact ih e he
      · exact not_denies_block e he
  | leftNode _ ih | leftRouter _ ih | visit _ _ _ ih | shown _ _ _ ih =>
      intro e he
      rcases List.mem_append.mp he with he | he
      · exact ih e he
      · obtain rfl := List.mem_singleton.mp he
        rintro ⟨request, reply, heq, -⟩
        cases heq

-- After a commit that was not allowed at most a terminal observation follows.
theorem Ends.after_denied {o : Except Exn Unit} {past post : Run} {e : Event}
    (he : Ends gate init (past ++ e :: post) o) (hd : Denies e) :
    post = [] ∨ ∃ observation, post = [.emit observation] ∧ Silent observation := by
  obtain ⟨request, reply, rfl, hr⟩ := hd
  have hnot : ∀ {t u : Run} {held base : State}, Log gate init t held base →
      t ++ u = past ++ .beforeCommit request reply :: post →
      .beforeCommit request reply ∈ u ∧ ∃ mid, u = mid ++ .beforeCommit request reply :: post := by
    intro t u held base hl ht
    obtain ⟨mid, -, hu⟩ := split_after ht fun hm => hl.not_denies _ hm ⟨request, reply, rfl, hr⟩
    exact ⟨by simp [hu], mid, hu⟩
  generalize ht : past ++ .beforeCommit request reply :: post = t at he
  cases he with
  | raised hl => exact (hl.not_denies _ (by simp [← ht]) ⟨request, reply, rfl, hr⟩).elim
  | closed hl _ _ => exact absurd (hnot hl ht.symm).1 (by simp)
  | withheld hl _ =>
      obtain ⟨-, mid, hu⟩ := hnot hl ht.symm
      cases mid with
      | nil => exact .inl (List.cons.inj hu).2.symm
      | cons x mid => simp at hu
  | stopped hl _ hs =>
      obtain ⟨-, mid, hu⟩ := hnot hl ht.symm
      rcases mid with _ | ⟨x, _ | ⟨y, mid⟩⟩
      · exact .inr ⟨_, (List.cons.inj hu).2.symm, hs⟩
      · cases hu
      · simp at hu
  | unsettled hl _ _ _ _ =>
      exact (not_denies_block _ (hnot hl ht.symm).1 ⟨request, reply, rfl, hr⟩).elim
  | unmerged hl _ _ =>
      have hm := List.mem_singleton.mp (hnot hl ht.symm).1
      cases hm
      exact (hr rfl).elim

-- Commit integrity: every observed state is the initial one with exactly the allowed
-- deltas applied, in order, besides the scheduler's bookkeeping; and after a commit that
-- was not allowed nothing of a delta is shown.
theorem run_accounted {g : CompiledGraph} {o : Except Exn Unit}
    (he : Exec generating (run g (some gate) init) t o) (hleaves : ∀ e ∈ t, leavesInput e) :
    (∀ past observation post, t = past ++ .emit observation :: post →
      ∃ edits : List Edit, observation.state = edits.foldl Edit.apply init ∧
        List.Forall₂ Binds (approved past) (edits.filterMap Edit.delta?)) ∧
    ∀ past request reply post, t = past ++ .beforeCommit request reply :: post →
      reply ≠ .decided .allow →
      post = [] ∨ ∃ observation, post = [.emit observation] ∧ observation.delta = none := by
  refine ⟨fun past observation post ht =>
    (run_ends he).accounted hleaves past _ post ht observation rfl, ?_⟩
  rintro past request reply post rfl hr
  rcases (run_ends he).after_denied ⟨request, reply, rfl, hr⟩ with hpost | ⟨observation, hpost, hs⟩
  · exact .inl hpost
  · exact .inr ⟨observation, hpost, hs.2⟩

omit [Sha256] in
theorem obliging_leavesInput {result : Str → Value} (ht : Obeys (obliging result) t) :
    ∀ e ∈ t, leavesInput e := by
  rintro (⟨op, answer⟩ | observation) he
  · have ha := ht op answer he
    subst ha
    rcases op with _ | _ | _ | _ | _ | (_ | _ | _ | _ | _) | _ <;> first | rfl | trivial
  · trivial

omit [Sha256] in
theorem run_accounted_diamond :
    letI := Sha256.verbatim
    let t := ((run .diamond (some ⟨false, true⟩) (State.new "s")).simulate
      (obliging fun _ => .dict [("retry_count", .int 1)])).1
    (approved t).length = 2 ∧ ∀ past observation post, t = past ++ .emit observation :: post →
      ∃ edits : List Edit, observation.state = edits.foldl Edit.apply (State.new "s") ∧
        List.Forall₂ Binds (approved past) (edits.filterMap Edit.delta?) :=
  letI := Sha256.verbatim
  ⟨by decide, (run_accounted (exec_simulate _ _) (obliging_leavesInput (obeys_simulate _ _))).1⟩

end PerpetuaCore.Graph.Ledger
