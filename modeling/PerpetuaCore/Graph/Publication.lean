import PerpetuaCore.Graph.Commit

namespace PerpetuaCore.Graph.Ledger

open Interaction
open Python (Str Value Dict)

-- The state the scheduler holds after an event: what it observed last, or what a node or
-- router has since made of it.
def holds (state : State) : Event → State
  | .emit observation => observation.state
  | .leave (.node ..) reply => (reply : Reply).left
  | .leave (.router ..) reply => (reply : Reply).left
  | _ => state

def heldAfter (init : State) (t : Run) : State := t.foldl holds init

variable [Sha256] {gate : Gate} {init : State} {t : Run}

omit [Sha256] in
theorem heldAfter_block {request : CommitRequest} {delta : Delta} {reply : HookReply}
    {merged : State} {shown : List GraphObservation} (hp : Publishes request delta merged shown) :
    heldAfter init (t ++ block gate request reply shown) = merged := by
  obtain ⟨first, last, rfl⟩ : ∃ first last, shown = first ++ [last] := by
    unfold Publishes at hp
    split at hp
    · obtain ⟨_, observation, _, rfl, _⟩ := hp
      exact ⟨[], observation, rfl⟩
    · obtain ⟨branches, observation, rfl, _⟩ := hp
      exact ⟨branches, observation, rfl⟩
  have hstate := (hp.state_eq last (by simp)).1
  simp [heldAfter, block, holds, hstate]

theorem Log.held_eq {held base : State} (hl : Log gate init t held base) :
    heldAfter init t = held := by
  induction hl with
  | start => rfl
  | @exchange t held base op answer _ hq ih =>
      have hstep : heldAfter init (t ++ [.act op answer]) = holds (heldAfter init t) (.act op answer) := by
        simp [heldAfter]
      rw [hstep, ih]
      rcases op with _ | _ | _ | _ | _ | (_ | _ | _ | _ | _) | _ <;> first | rfl | exact hq.elim
  | leftNode _ ih | leftRouter _ ih => simp [heldAfter, holds]
  | visit _ _ _ ih => simp [heldAfter, holds]
  | shown _ hstate _ ih => simp [heldAfter, holds, hstate]
  | publish _ _ _ _ hp ih => exact heldAfter_block hp

-- What becomes of an allowed commit: settlement, publication, and only then the rest.
def SettlesAs (gate : Gate) (init : State) (past : Run) (request : CommitRequest) (post : Run)
    (settles : Except Exn Unit → Run → Prop) : Prop :=
  ∃ delta merged reply shown rest, Binds request delta ∧
    (heldAfter init past).merge delta = .ok merged ∧ Publishes request delta merged shown ∧
    post = settlement gate request reply ++ shown.map .emit ++ rest ∧
    settles (settledAs gate reply) rest

-- Every allowed commit of a stretch of the run has been settled without an error.
def AllSettled (gate : Gate) (init : State) (t : Run) : Prop :=
  ∀ past request post, t = past ++ .beforeCommit request (.decided .allow) :: post →
    SettlesAs gate init past request post fun result _ => result = .ok ()

theorem AllSettled.append {u : Run} (ha : AllSettled gate init t)
    (hu : ∀ past request post, u = past ++ .beforeCommit request (.decided .allow) :: post →
      SettlesAs gate init (t ++ past) request post fun result _ => result = .ok ()) :
    AllSettled gate init (t ++ u) := by
  intro past request post ht
  rcases split_append ht with ⟨mid, rfl, rfl⟩ | ⟨mid, rfl, rfl⟩
  · obtain ⟨delta, merged, reply, shown, rest, hb, hm, hp, rfl, hs⟩ := ha past request mid rfl
    exact ⟨delta, merged, reply, shown, rest ++ u, hb, hm, hp, List.append_assoc .., hs⟩
  · exact hu mid request post rfl

theorem AllSettled.snoc {e : Event} (ha : AllSettled gate init t)
    (he : ∀ request, e ≠ .beforeCommit request (.decided .allow)) :
    AllSettled gate init (t ++ [e]) := by
  refine ha.append fun past request post hu => ?_
  have hm : .beforeCommit request (.decided .allow) ∈ [e] := by simp [hu]
  exact (he request (List.mem_singleton.mp hm).symm).elim

-- A block begins with the one commit it holds.
theorem block_settles {request request' : CommitRequest} {delta : Delta} {reply : HookReply}
    {held merged : State} {shown : List GraphObservation} {past post : Run}
    (hh : heldAfter init t = held) (hb : Binds request delta) (hm : held.merge delta = .ok merged)
    (hp : Publishes request delta merged shown)
    (hu : block gate request reply shown = past ++ .beforeCommit request' (.decided .allow) :: post) :
    SettlesAs gate init (t ++ past) request' post fun result rest =>
      result = settledAs gate reply ∧ rest = [] := by
  have hhead : past = [] := by
    by_contra hne
    obtain ⟨e, past, rfl⟩ := List.exists_cons_of_ne_nil hne
    have htail := (List.cons.inj hu).2
    have hmem : .beforeCommit request' (.decided .allow) ∈
        settlement gate request reply ++ shown.map .emit := by simp [htail]
    rw [settlement] at hmem
    split_ifs at hmem <;> simp at hmem
  subst hhead
  obtain ⟨hr, rfl⟩ := List.cons.inj hu
  cases hr
  exact ⟨delta, merged, reply, shown, [], hb, by simpa [hh] using hm, hp, by simp, rfl, rfl⟩

theorem Log.allSettled {held base : State} (hl : Log gate init t held base) :
    AllSettled gate init t := by
  induction hl with
  | start =>
      intro past request post ht
      simp at ht
  | exchange _ hq ih =>
      refine ih.snoc fun request he => ?_
      cases he
      exact hq
  | leftNode _ ih | leftRouter _ ih | visit _ _ _ ih | shown _ _ _ ih => exact ih.snoc fun _ => nofun
  | publish hl hb hm hs hp ih =>
      refine ih.append fun past request post hu => ?_
      obtain ⟨delta, merged, reply, shown, rest, hb, hm, hp, hpost, hresult, -⟩ :=
        block_settles hl.held_eq hb hm hp hu
      exact ⟨delta, merged, reply, shown, rest, hb, hm, hp, hpost, hresult.trans hs⟩

-- A publication is observed inside the block of the commit that allowed it, and a
-- settlement hook is called right after that commit.
structure FromCommit (gate : Gate) (past : Run) (e : Event) : Prop where
  published : ∀ observation, e = .emit observation → publishes observation.event.kind = true →
    ∃ before request reply delta merged shown shown',
      past = before ++ .beforeCommit request (.decided .allow) ::
        (settlement gate request reply ++ shown.map .emit) ∧
      Publishes request delta merged (shown ++ observation :: shown')
  settles : ∀ request reply, e = .afterCommit request reply →
    ∃ before, past = before ++ [.beforeCommit request (.decided .allow)]

omit [Sha256] in
theorem block_fromCommit {request : CommitRequest} {delta : Delta} {reply : HookReply}
    {merged : State} {shown : List GraphObservation} (hp : Publishes request delta merged shown) :
    Always (fun past => FromCommit gate (t ++ past)) (block gate request reply shown) := by
  refine always_cons.mpr ⟨⟨fun _ => nofun, fun _ _ => nofun⟩, always_append.mpr ⟨?_, ?_⟩⟩
  · unfold settlement
    split_ifs
    · refine always_cons.mpr ⟨⟨fun _ => nofun, ?_⟩, always_nil⟩
      rintro _ _ ⟨⟩
      exact ⟨t, rfl⟩
    · exact always_nil
  · intro past e post he
    obtain ⟨first, rest, rfl, rfl, hrest⟩ := List.map_eq_append_iff.mp he
    obtain ⟨observation, rest, rfl, rfl, rfl⟩ := List.map_eq_cons_iff.mp hrest
    refine ⟨?_, fun _ _ => nofun⟩
    rintro _ ⟨⟩ -
    exact ⟨t, request, reply, delta, merged, first, rest, rfl, hp⟩

theorem Log.fromCommit {held base : State} (hl : Log gate init t held base) :
    Always (FromCommit gate) t := by
  induction hl with
  | start => exact always_nil
  | exchange _ hq ih =>
      refine always_snoc.mpr ⟨ih, fun _ => nofun, fun request reply he => ?_⟩
      cases he
      exact hq.elim
  | leftNode _ ih | leftRouter _ ih => exact always_snoc.mpr ⟨ih, fun _ => nofun, fun _ _ => nofun⟩
  | visit _ _ hs ih | shown _ _ hs ih =>
      refine always_snoc.mpr ⟨ih, ?_, fun _ _ => nofun⟩
      rintro _ ⟨⟩ hk
      exact absurd (hk.symm.trans hs.1) nofun
  | publish _ _ _ _ hp ih => exact always_append.mpr ⟨ih, block_fromCommit hp⟩

theorem Ends.fromCommit {o : Except Exn Unit} (he : Ends gate init t o) :
    Always (FromCommit gate) t := by
  cases he with
  | raised hl => exact hl.fromCommit
  | closed hl _ hs =>
      refine always_snoc.mpr ⟨hl.fromCommit, ?_, fun _ _ => nofun⟩
      rintro _ ⟨⟩ hk
      exact absurd (hk.symm.trans hs.1) nofun
  | withheld hl _ => exact always_snoc.mpr ⟨hl.fromCommit, fun _ => nofun, fun _ _ => nofun⟩
  | stopped hl _ hs =>
      rw [List.append_cons]
      refine always_snoc.mpr ⟨always_snoc.mpr ⟨hl.fromCommit, fun _ => nofun, fun _ _ => nofun⟩, ?_,
        fun _ _ => nofun⟩
      rintro _ ⟨⟩ hk
      exact absurd (hk.symm.trans hs.1) nofun
  | unsettled hl _ _ _ hp => exact always_append.mpr ⟨hl.fromCommit, block_fromCommit hp⟩
  | unmerged hl _ _ => exact always_snoc.mpr ⟨hl.fromCommit, fun _ => nofun, fun _ _ => nofun⟩

-- A linear node leaves behind a state that can still be copied, as it does when it treats
-- the state it is given as input.
def leavesCopyable : Event → Bool
  | .leave (.node ..) reply => (reply : Reply).left.copyable
  | _ => true

theorem Ends.settles {o : Except Exn Unit} (he : Ends gate init t o) (hleft : ∀ e ∈ t, leavesCopyable e = true) :
    ∀ past request post, t = past ++ .beforeCommit request (.decided .allow) :: post →
      SettlesAs gate init past request post fun result rest =>
        ∀ error, result = .error error → rest = [] ∧ o = .error error := by
  have hall : AllSettled gate init t → ∀ past request post,
      t = past ++ .beforeCommit request (.decided .allow) :: post →
      SettlesAs gate init past request post fun result rest =>
        ∀ error, result = .error error → rest = [] ∧ o = .error error := by
    intro ha past request post ht
    obtain ⟨delta, merged, reply, shown, rest, hb, hm, hp, hpost, hs⟩ := ha past request post ht
    exact ⟨delta, merged, reply, shown, rest, hb, hm, hp, hpost, fun error he => by simp [hs] at he⟩
  cases he with
  | raised hl => exact hall hl.allSettled
  | closed hl _ _ => exact hall (hl.allSettled.snoc fun _ => nofun)
  | withheld hl hr =>
      refine hall (hl.allSettled.snoc fun request he => ?_)
      cases he
      exact hr rfl
  | stopped hl _ _ =>
      rw [List.append_cons] at hall ⊢
      exact hall ((hl.allSettled.snoc fun request he => by cases he).snoc fun _ => nofun)
  | @unsettled t _ _ request delta reply merged shown error hl hb hm hs hp =>
      intro past request' post ht
      rcases split_append ht with ⟨mid, hmid, rfl⟩ | ⟨mid, rfl, hmid⟩
      · obtain ⟨delta', merged', reply', shown', rest, hb', hm', hp', rfl, hs'⟩ :=
          hl.allSettled past request' mid hmid
        exact ⟨delta', merged', reply', shown', rest ++ block gate request reply shown, hb', hm', hp',
          List.append_assoc .., fun error he => by simp [hs'] at he⟩
      · obtain ⟨delta', merged', reply', shown', rest, hb', hm', hp', hpost, hresult, hrest⟩ :=
          block_settles hl.held_eq hb hm hp hmid
        refine ⟨delta', merged', reply', shown', rest, hb', hm', hp', hpost, fun error' he => ⟨hrest, ?_⟩⟩
        rw [← he, hresult, hs]
  | @unmerged t name fn state reply base request delta error hl hb hm =>
      obtain ⟨digest, hdigest, -⟩ := hb
      have hcopyable : reply.left.copyable = true :=
        hleft (.leave (.node name fn state) reply) (by simp)
      rw [State.merge_ok hcopyable (itemsCopy_of_digest hdigest)] at hm
      cases hm

-- No hidden publication: an allowed commit is settled at most once, by the same request,
-- then published exactly once, and a settlement error ends the run right after.
theorem run_publishes {g : CompiledGraph} {o : Except Exn Unit}
    (he : Exec generating (run g (some gate) init) t o) (hleft : ∀ e ∈ t, leavesCopyable e = true) :
    (∀ past request post, t = past ++ .beforeCommit request (.decided .allow) :: post →
      ∃ delta merged reply shown rest, Binds request delta ∧
        (heldAfter init past).merge delta = .ok merged ∧ Publishes request delta merged shown ∧
        post = settlement gate request reply ++ shown.map .emit ++ rest ∧
        ∀ error, settledAs gate reply = .error error → rest = [] ∧ o = .error error) ∧
    ∀ past e post, t = past ++ e :: post → FromCommit gate past e :=
  ⟨(run_ends he).settles hleft, (run_ends he).fromCommit⟩

omit [Sha256] in
theorem run_publishes_diamond :
    letI := Sha256.verbatim
    let sim := (run .diamond (some ⟨true, true⟩) (State.new "s")).simulate
      (obliging fun _ => .dict [("retry_count", .int 1)])
    (approved sim.1).length = 2 ∧
    ∀ past request post, sim.1 = past ++ .beforeCommit request (.decided .allow) :: post →
      SettlesAs ⟨true, true⟩ (State.new "s") past request post fun result rest =>
        ∀ error, result = .error error → rest = [] ∧ sim.2 = .error error := by
  let := Sha256.verbatim
  intro sim
  have hleft : ∀ e ∈ sim.1, leavesCopyable e = true := List.all_eq_true.mp (by decide)
  exact ⟨by decide, (run_publishes (exec_simulate _ _) hleft).1⟩

-- A node that puts something uncopyable into its own input breaks this: the merge after
-- the allowed commit fails, and nothing is published.
def lockedInput : Handler Core
  | .leave (.node _ _ state) =>
      ⟨.ok (.dict []), state.update (Dict.ofList [("scratchpad", .dict [("lock", .object "lock" 0 false)])])⟩
  | op => obliging (fun _ => .dict []) op

omit [Sha256] in
theorem locked_input_unpublished :
    letI := Sha256.verbatim
    ∃ past request error, Exec generating (run .diamond (some ⟨false, true⟩) (State.new "s"))
      (past ++ [Event.beforeCommit request (.decided .allow)]) (.error error) :=
  letI := Sha256.verbatim
  ⟨((run .diamond (some ⟨false, true⟩) (State.new "s")).simulate lockedInput).1.dropLast,
    ⟨.node, ["a"], 0, none, some "{}", none⟩, .typeError ["cannot be copied"],
    exec_simulate lockedInput _⟩

end PerpetuaCore.Graph.Ledger
