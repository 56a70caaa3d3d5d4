import PerpetuaCore.Graph.Requests

namespace PerpetuaCore.Graph.Requests

open Interaction
open Python (Str Value Dict)

variable {g : CompiledGraph} {gate : Gate} {source : Str} {edge : FanOut} {state snapshot : State}
  {steps : Nat} {h : Run}

theorem Inside.append {request : DispatchRequest} {batchId : Str} {past since : Run}
    (hi : Inside request batchId past since) (u : Run) :
    Inside request batchId (past ++ u) (since ++ u) := by
  obtain ⟨hboundary, hbatched, before, rfl, hfirst⟩ := hi
  exact ⟨hboundary, hbatched, before, by simp, hfirst⟩

-- Inside a region whose branches have settled; `first` is its first reducer request so far.
structure Settling (request : DispatchRequest) (batchId : Str) (settled : List Settled)
    (first : Option Request) (t : Run) : Prop where
  accounts : Accounts (request.steps + settled.countP Settled.ok) t
  drawn : batchId ∈ minted t
  since : ∃ since, Inside request batchId t since ∧
    (returned request.source since).Perm ((succeeded settled).map Prod.fst) ∧
    (∀ asked ∈ log since, ∃ r, asked = .dispatch r) ∧
    (log since).find? Request.isReducer = first

section Settling

variable {request : DispatchRequest} {batchId : Str} {settled : List Settled}
  {first : Option Request}

-- The step count every request carries once the branches have settled.
abbrev settledSteps (request : DispatchRequest) (settled : List Settled) : Nat :=
  request.steps + settled.countP Settled.ok

theorem completed_eq {since : Run}
    (hr : (returned request.source since).Perm ((succeeded settled).map Prod.fst)) :
    completed request since = settledSteps request settled := by
  rw [completed, hr.length_eq, List.length_map, Admission.length_succeeded]

theorem Settling.append {first' : Option Request} {u : Run}
    (hs : Settling request batchId settled first h) (hreturned : returned request.source u = [])
    (hlog : ∀ asked ∈ log u, ∃ r, asked = .dispatch r)
    (hfirst : first.or ((log u).find? Request.isReducer) = first')
    (ha : Accounts (settledSteps request settled) (h ++ u)) :
    Settling request batchId settled first' (h ++ u) := by
  obtain ⟨-, hdrawn, since, hinside, hperm, hdispatch, rfl⟩ := hs
  refine ⟨ha, ?_, since ++ u, hinside.append u, ?_, ?_, ?_⟩
  · rw [minted_append]
    exact List.mem_append_left _ hdrawn
  · rw [returned_append, hreturned, List.append_nil]
    exact hperm
  · rw [log_append]
    intro asked hm
    rcases List.mem_append.mp hm with hm | hm
    · exact hdispatch asked hm
    · exact hlog asked hm
  · rw [log_append, List.find?_append, hfirst]

theorem Settling.extends {t : Run} (hs : Settling request batchId settled first h)
    (he : Extends h t) : Settling request batchId settled first t := by
  obtain ⟨u, rfl, hu⟩ := he
  refine hs.append (hu.returns _) ?_ ?_ (hs.accounts.quiet hu)
  · rw [hu.log_eq]
    exact nofun
  · rw [hu.log_eq, List.find?_nil, Option.or_none]

theorem Settling.orderly_reducer {nodes : List Str}
    (hs : Settling request batchId settled first h) :
    Orderly h (.dispatch ⟨.reducer, nodes, settledSteps request settled, request.source,
      some batchId⟩) := by
  obtain ⟨since, hinside, hperm, -, -⟩ := hs.since
  rw [← completed_eq hperm]
  exact .reducer hinside

-- A further request of the region, put after its branches have settled.
theorem dispatch_settling {boundary : DispatchBoundary} {nodes : List Str}
    (hs : Settling request batchId settled first h) (hboundary : boundary ≠ .router)
    (ho : Orderly h (.dispatch
      ⟨boundary, nodes, settledSteps request settled, request.source, some batchId⟩)) :
    Ensures acting (fun _ => WellFormed)
      (dispatch (some gate) none boundary nodes (settledSteps request settled) request.source
        (some batchId))
      (fun asked t => WellFormed t ∧ (asked.1 = none →
        asked.2 =
          some ⟨boundary, nodes, settledSteps request settled, request.source, some batchId⟩ ∧
        Settling request batchId settled (first.or (if boundary = .reducer then some (.dispatch
          ⟨boundary, nodes, settledSteps request settled, request.source, some batchId⟩)
          else none)) t)) h := by
  refine (dispatch_asked hs.accounts ho ?_).mono (fun asked t ⟨ha, hw, hgo⟩ => ⟨hw, fun hnone => ?_⟩)
    fun _ _ hw => hw
  · rintro id ⟨⟩
    exact hs.drawn
  · obtain ⟨hrequest, rfl⟩ := (hgo hnone).resolve_left fun hskip => by
      rcases hskip.2.1 with hgate | ⟨hrouter, -⟩
      · cases hgate
      · exact hboundary hrouter
    refine ⟨hrequest, hs.append rfl ?_ (congrArg _ ?_) ha⟩
    · intro asked hm
      exact ⟨_, List.mem_singleton.mp hm⟩
    · by_cases hr : boundary = .reducer <;> simp [log, asked?, Request.isReducer, hr]

section Fold

variable {field : Str} {writes : Contributions} {nodes : List Str} {found : Request}

theorem admitReducer_settling {reducer : Option Reducer}
    (hs : Settling request batchId settled (some found) h) :
    Ensures acting (fun _ => WellFormed)
      (admitReducer (some gate) snapshot field reducer writes (some
        ⟨.reducer, nodes, settledSteps request settled, request.source, some batchId⟩))
      (fun _ => Settling request batchId settled (some found)) h := by
  unfold admitReducer
  split
  · rename_i fn asked heq
    obtain rfl := Option.some.inj heq
    split_ifs
    · refine .bind (.ofExcept (fun inputs _ => ?_) fun _ _ => hs.accounts.toWellFormed)
      refine .andThen (dispatch_settling hs nofun hs.orderly_reducer) ?_
      rintro ⟨_ | decision, asked⟩ t ⟨hw, hgo⟩
      · obtain ⟨-, hs⟩ := hgo rfl
        refine .andThen (silently hw (beforeStart_asks fun _ _ => trivial)) fun _ t' he => ?_
        exact .ret (hs.extends he)
      · exact .raise hw
    · exact .ret hs
  · exact .ret hs

theorem foldField_settling {contributed : Contributed}
    (hs : Settling request batchId settled (some found) h) :
    Ensures acting (fun _ => WellFormed)
      (foldField g (some gate) source snapshot (some
        ⟨.reducer, nodes, settledSteps request settled, request.source, some batchId⟩) contributed
        field)
      (fun _ => Settling request batchId settled (some found)) h := by
  refine .andThen (admitReducer_settling hs) fun inputs t hs => ?_
  exact (silently hs.accounts.toWellFormed (reduceField_asks fun _ _ _ => ⟨trivial, trivial⟩)).mono
    (fun _ _ he => hs.extends he) fun _ _ hw => hw

theorem fold_settling {admitted : List (Str × Delta)}
    (hs : Settling request batchId settled (some found) h) :
    Ensures acting (fun _ => WellFormed)
      (fold g (some gate) source snapshot admitted (some
        ⟨.reducer, nodes, settledSteps request settled, request.source, some batchId⟩))
      (fun _ => Settling request batchId settled (some found)) h := by
  refine .bind (.ofExcept (fun fields _ => ?_) fun _ _ => hs.accounts.toWellFormed)
  generalize (Dict.empty, Dict.empty) = folded
  induction Python.sorted id fields generalizing h folded with
  | nil => exact .ret hs
  | cons field rest ih => exact .andThen (foldField_settling hs) fun _ t hs => ih hs _

end Fold

end Settling

-- The branches a join chose among those that settled.
structure Chosen (settled : List Settled) (admitted : List (Str × Delta)) : Prop where
  nonempty : admitted ≠ []
  succeeded : admitted.Sublist (succeeded settled)

section Region

variable [Sha256] {batchId : Str} {settled : List Settled} {admitted : List (Str × Delta)}

-- The request that opens a region.
abbrev opening (source : Str) (edge : FanOut) (steps : Nat) (batchId : Str) : DispatchRequest :=
  ⟨.fanout, edge.branches, steps, some source, some batchId⟩

theorem publishRegion_asked {progress : steps ≤ steps + settled.countP Settled.ok} {merged : Delta}
    {provenance : Provenance} (hc : Chosen settled admitted)
    (hnames : settled.map Settled.name = edge.branches)
    (hs : Settling (opening source edge steps batchId) batchId settled (some (.dispatch
      ⟨.reducer, admitted.map Prod.fst, steps + settled.countP Settled.ok, some source,
        some batchId⟩)) h) :
    Ensures generating (fun _ => WellFormed)
      (publishRegion (some gate) source edge state snapshot steps
        (steps + settled.countP Settled.ok) progress batchId admitted merged provenance)
      (Rule.Goes WellFormed fun result => Accounts result.steps) h := by
  have hasked : ∀ digest reply, Accounts (steps + settled.countP Settled.ok)
      (h ++ [.beforeCommit ⟨.region, admitted.map Prod.fst, steps + settled.countP Settled.ok,
        some source, some digest, some batchId⟩ reply]) := by
    intro digest reply
    obtain ⟨ha, hdrawn, since, hinside, hperm, hdispatch, hfirst⟩ := hs
    have hsteps : completed (opening source edge steps batchId) since =
        steps + settled.countP Settled.ok := completed_eq hperm
    refine ha.ask rfl ?_ rfl ?_
    · rw [← hsteps] at hfirst ⊢
      have hsub := hc.succeeded.map Prod.fst
      have hascending : (settled.map Settled.name).Pairwise (· < ·) := hnames ▸ edge.ascending
      refine .region hinside ?_ ?_ ?_ ?_ ?_ hfirst
      · intro committed hm
        obtain ⟨-, -, before, rfl, hbefore⟩ := hinside
        rw [log_append] at hm
        rcases List.mem_append.mp hm with hm | hm
        · exact hbefore _ hm
        · rcases List.mem_cons.mp hm with hm | hm
          · cases hm
          · obtain ⟨r, hr⟩ := hdispatch _ hm
            cases hr
      · simpa using hc.nonempty
      · exact hascending.sublist (hsub.trans Protocol.succeeded_names)
      · intro name hname
        have hsettled := (hsub.trans Protocol.succeeded_names).subset hname
        rwa [hnames] at hsettled
      · exact fun name hname => hperm.mem_iff.mpr (hsub.subset hname)
    · rintro id ⟨⟩
      exact hdrawn
  have hw := hs.accounts.toWellFormed
  refine .andThen (.lift (Rule.commit (Q := fun _ => Accounts (steps + settled.countP Settled.ok))
    nofun (fun _ _ => hw) (fun _ _ _ => hasked _ _) (fun _ _ _ => hasked _ _)
    fun _ _ _ _ => (hasked _ _).toWellFormed)) fun asked t ha => ?_
  refine orStop_formed ha.toWellFormed fun _ => ?_
  refine .bind (.ofExcept (fun committed _ => ?_) fun _ _ => ha.toWellFormed)
  refine .andThen (.lift (silently ha.toWellFormed (.attempt (afterCommit_asks fun _ => trivial))))
    fun settlement t he => ?_
  refine .andThen (quietly (he.accounts ha).toWellFormed (.forM fun item _ => Does.emit nofun))
    fun _ u hemitted => ?_
  have hkind : (superstepCommitted source edge (steps + settled.countP Settled.ok)
      (admitted.map Prod.fst) committed merged provenance).event.kind ≠ .superstepStart := nofun
  have ha := ((he.trans hemitted).emit hkind).accounts ha
  exact .bind (.emit (.bind (.ofExcept (fun _ _ => .ret ha) fun _ _ => ha.toWellFormed)))

theorem foldRegion_asked {progress : steps ≤ steps + settled.countP Settled.ok}
    (hc : Chosen settled admitted) (hnames : settled.map Settled.name = edge.branches)
    (hs : Settling (opening source edge steps batchId) batchId settled none h) :
    Ensures generating (fun _ => WellFormed)
      (foldRegion g (some gate) source edge state snapshot steps
        (steps + settled.countP Settled.ok) progress batchId admitted)
      (Rule.Goes WellFormed fun result => Accounts result.steps) h := by
  refine .andThen (.lift (dispatch_settling hs nofun hs.orderly_reducer)) ?_
  rintro asked t ⟨hw, hgo⟩
  refine orStop_formed hw fun hnone => ?_
  obtain ⟨hrequest, hs⟩ := hgo hnone
  rw [hrequest]
  refine .andThen (.lift (Q := fun result t => match result with
    | .ok _ => Settling (opening source edge steps batchId) batchId settled (some (.dispatch
        ⟨.reducer, admitted.map Prod.fst, steps + settled.countP Settled.ok, some source,
          some batchId⟩)) t
    | .error _ => WellFormed t) (Rule.catchBoundaryStop ?_)) ?_
  · exact (fold_settling hs).mono (fun _ _ hs => hs) fun _ _ hw => ⟨hw, fun _ _ => hw⟩
  rintro (decision | ⟨merged, provenance⟩) t' hfolded
  · exact orStop_formed hfolded nofun
  · exact .bind (.ofExcept (fun _ _ => publishRegion_asked hc hnames hfolded)
      fun _ _ => hfolded.accounts.toWellFormed)

theorem joinRegion_asked (hnames : settled.map Settled.name = edge.branches)
    (hs : Settling (opening source edge steps batchId) batchId settled none h) :
    Ensures generating (fun _ => WellFormed)
      (joinRegion g (some gate) source edge state snapshot steps batchId settled)
      (Rule.Goes WellFormed fun result => Accounts result.steps) h := by
  have hw := hs.accounts.toWellFormed
  refine .bind (.ofExcept (fun verdict _ => ?_) fun _ _ => hw)
  refine orStop_formed hw fun _ => ?_
  split
  · refine .bind (.ofExcept (fun closed _ => .bind (.emit (.ret ?_))) fun _ _ => hw)
    exact hw.quiet (quiet_emit nofun)
  have hjoined : Ensures acting (fun _ => WellFormed)
      (askJoin (some gate) source edge (steps + settled.countP Settled.ok) batchId)
      (fun asked t => WellFormed t ∧ (asked.1 = none →
        Settling (opening source edge steps batchId) batchId settled none t)) h := by
    unfold askJoin
    split
    · have hjoin : Orderly h (.dispatch ⟨.join, edge.branches, steps + settled.countP Settled.ok,
          some source, some batchId⟩) := by
        obtain ⟨since, hinside, hperm, -, -⟩ := hs.since
        have hsteps : completed (opening source edge steps batchId) since =
          steps + settled.countP Settled.ok := completed_eq hperm
        exact hsteps ▸ .join hinside
      have hboundary : DispatchBoundary.join ≠ .router := nofun
      exact (dispatch_settling hs hboundary hjoin).mono
        (fun asked t ⟨hw, hgo⟩ => ⟨hw, fun hnone => (hgo hnone).2⟩) fun _ _ hw => hw
    · exact .ret ⟨hw, fun _ => hs⟩
  refine .andThen (.lift hjoined) fun asked t ⟨hw, hgo⟩ => orStop_formed hw fun hnone => ?_
  have hs := hgo hnone
  refine .andThen (.lift (silently hw (beforeStart_asks fun _ _ => trivial))) fun _ t he => ?_
  have hs := hs.extends he
  have hne : settled ≠ [] := by
    rintro rfl
    have htwo := edge.two
    rw [← hnames] at htwo
    exact absurd htwo (by decide)
  refine .andThen (.lift (((silently hs.accounts.toWellFormed (admit_asks fun _ _ =>
    ⟨trivial, trivial⟩)).and (.returns admit_returns)).and (.returns (Admission.admit_nonempty hne)))) ?_
  rintro admitted t ⟨⟨he, hsub⟩, hadmitted⟩
  exact foldRegion_asked ⟨hadmitted, hsub⟩ hnames (hs.extends he)

omit [Sha256] in
theorem stays_out {α : Type} {p : Step α}
    (hp : p.Asks fun op => ∀ answer, returned? (some source) (.act (S := Core) op answer) = none)
    (hh : returned (some source) h = []) :
    Ensures acting (fun _ _ => True) p (fun _ t => returned (some source) t = []) h := by
  refine Ensures.mono (.asks hp (I := fun t => returned (some source) t = [])
    (fun t op answer hop ht => ?_) hh) (fun _ _ ht => ht) fun _ _ _ => trivial
  rw [returned_append, ht]
  exact List.filterMap_cons_none (hop answer)

omit [Sha256] in
theorem returned_called {name : Str} {fn : Fn} (reply : Reply) :
    returned (some source) [.enter (.branch source name fn snapshot),
      .leave (.branch source name fn snapshot) reply] =
      ((reply.result.bind (requireDelta name)).toOption.map fun _ => name).toList := by
  obtain ⟨result, left⟩ := reply
  have henter : returned? (some source) (.enter (.branch source name fn snapshot)) = none := rfl
  cases result with
  | error exc => rfl
  | ok value =>
      cases value with
      | dict items =>
          have hleave : returned? (some source)
              (.leave (.branch source name fn snapshot) ⟨.ok (.dict items), left⟩) = some name :=
            if_pos rfl
          rw [returned, List.filterMap_cons_none henter, List.filterMap_cons_some hleave]
          rfl
      | _ => rfl

omit [Sha256] in
theorem runBranch_returned {name : Str} (hh : returned (some source) h = []) :
    Ensures acting (fun _ _ => True) (runBranch g source snapshot name)
      (fun item t => returned (some source) t =
        (item.outcome.toOption.map fun _ => item.name).toList) h := by
  unfold runBranch
  split
  · exact .ret hh
  · rename_i fn _
    refine .bind (Rule.invoke fun reply => ?_)
    have hcalled : returned (some source) (h ++ [.enter (.branch source name fn snapshot),
        .leave (.branch source name fn snapshot) reply]) =
        (((reply : Reply).result.bind (requireDelta name)).toOption.map fun _ => name).toList := by
      rw [returned_append, hh]
      exact returned_called reply
    split
    · rename_i hresult
      rw [hresult] at hcalled
      split_ifs
      · exact .ret hcalled
      · exact .raise trivial
    · rename_i value hresult
      rw [hresult] at hcalled
      exact .ret hcalled

omit [Sha256] in
theorem branchCall_returned {gate : Option Gate} {batchId name : Str} {t : Run} {item : Settled}
    (he : Exec acting (branchCall g gate source batchId snapshot steps name) t (.ok item)) :
    t.filterMap (returned? (some source)) =
      (item.outcome.toOption.map fun _ => item.name).toList := by
  have hnone : returned (some source) [] = [] := rfl
  have hcall : Ensures acting (fun _ _ => True)
      (branchCall g gate source batchId snapshot steps name)
      (fun item t => returned (some source) t =
        (item.outcome.toOption.map fun _ => item.name).toList) [] := by
    unfold branchCall
    split_ifs
    · refine .andThen
        (stays_out (attemptException_asks (dispatch_asks fun _ => rfl)) hnone) ?_
      rintro (exc | ⟨_ | decision, request⟩) t ht
      · exact .ret ht
      · refine .andThen
          (stays_out (attemptException_asks (beforeStart_asks fun _ _ _ => rfl)) ht) ?_
        rintro (exc | _) u hu
        · exact .ret hu
        · exact runBranch_returned hu
      · exact .ret ht
    · exact runBranch_returned hnone
  exact hcall t (.ok item) he

-- The exchanges of one branch: it is asked for in its own name under the batch's id and steps.
def branching (request : DispatchRequest) (batchId : Str) : Op → Prop
  | .beforeDispatch asked => ∃ name ∈ request.nodes,
      asked = ⟨.node, [name], request.steps, request.source, some batchId⟩
  | .beforeCommit _ | .tokenUrlsafe => False
  | _ => True

omit [Sha256] in
theorem settle_settling (ha : Accounts steps h) (hdrawn : batchId ∈ minted h)
    (hopened : Inside (opening source edge steps batchId) batchId h []) :
    Ensures generating (fun _ => WellFormed)
      (settle g (some gate) source edge.branches batchId snapshot steps)
      (fun settled t => settled.map Settled.name = edge.branches ∧
        Settling (opening source edge steps batchId) batchId settled none t) h := by
  refine .bind (.fork fun u outcomes hi => ?_)
  have hacts : ∀ e ∈ u, ∃ op answer, e = .act op answer ∧
      branching (opening source edge steps batchId) batchId op := by
    refine interleaved_asks hi fun p hp => ?_
    obtain ⟨name, hname, rfl⟩ := List.mem_map.mp hp
    exact branchCall_asks ⟨name, hname, rfl⟩ (fun _ => trivial) fun _ => ⟨trivial, trivial⟩
  have hrequests : ∀ e ∈ u, ∀ asked, asked? e = some asked → ∃ name ∈ edge.branches,
      asked = .dispatch ⟨.node, [name], steps, some source, some batchId⟩ := by
    intro e he asked hasked
    obtain ⟨op, answer, rfl, hop⟩ := hacts e he
    cases op with
    | beforeDispatch request =>
        obtain ⟨name, hname, rfl⟩ := hop
        exact ⟨name, hname, (Option.some.inj hasked).symm⟩
    | beforeCommit request => exact hop.elim
    | _ => cases hasked
  have ha : Accounts steps (h ++ u) := by
    refine ha.append (fun past e after he asked hasked => ?_) (by simp [interleaved_observations hi])
    obtain ⟨name, hname, rfl⟩ := hrequests e (by simp [he]) asked hasked
    refine ⟨.branch (hopened.append past) hname, rfl, ?_⟩
    rintro id ⟨⟩
    exact hdrawn
  refine .ofExcept (fun settled hsettled => ?_) fun _ _ => ha.toWellFormed
  have hos := results_ok hsettled
  refine ⟨Protocol.settled_names (hos ▸ hi), ha.mono (Nat.le_add_right ..), ?_, u, hopened.append u, ?_,
    fun asked hm => ?_, List.find?_eq_none.mpr fun asked hm => ?_⟩
  · rw [minted_append]
    exact List.mem_append_left _ hdrawn
  · have hcollected : (returned (some source) u).Perm
        (settled.filterMap fun item => item.outcome.toOption.map fun _ => item.name) := by
      refine hi.filterMap_perm (fun p hp s item hs => ?_) hos
      obtain ⟨name, -, rfl⟩ := List.mem_map.mp hp
      exact branchCall_returned hs
    have hsucceeded : (succeeded settled).map Prod.fst =
        settled.filterMap fun item => item.outcome.toOption.map fun _ => item.name := by
      rw [succeeded, List.map_filterMap]
      exact List.filterMap_congr fun item _ => by simp [Function.comp_def]
    rw [hsucceeded]
    exact hcollected
  · obtain ⟨e, he, hasked⟩ := List.mem_filterMap.mp hm
    obtain ⟨name, -, rfl⟩ := hrequests e he asked hasked
    exact ⟨_, rfl⟩
  · obtain ⟨e, he, hasked⟩ := List.mem_filterMap.mp hm
    obtain ⟨name, -, rfl⟩ := hrequests e he asked hasked
    exact Bool.false_ne_true

-- The announcement of a region, and its batch id.
def preamble (source : Str) (edge : FanOut) (steps : Nat) (snapshot : State) (batchId : Str) : Run :=
  .emit (superstepStarted source edge steps snapshot) ::
    (edge.branches.map (fun name => .emit (nodeStarted steps snapshot name)) ++
      [.act (S := Core) .tokenUrlsafe batchId])

omit [Sha256] in
theorem preamble_asks :
    ∀ e ∈ preamble source edge steps snapshot batchId, asked? e = none := by
  intro e he
  rcases List.mem_cons.mp he with rfl | he
  · rfl
  rcases List.mem_append.mp he with he | he
  · obtain ⟨name, -, rfl⟩ := List.mem_map.mp he
    rfl
  · obtain rfl := List.mem_singleton.mp he
    rfl

omit [Sha256] in
theorem preamble_mints : minted (preamble source edge steps snapshot batchId) = [batchId] := by
  have hstarts : minted (edge.branches.map fun name => .emit (nodeStarted steps snapshot name)) = [] := by
    refine List.filterMap_eq_nil_iff.mpr fun e he => ?_
    obtain ⟨name, -, rfl⟩ := List.mem_map.mp he
    rfl
  have hpreamble : minted (preamble source edge steps snapshot batchId) = minted
      (edge.branches.map (fun name => .emit (nodeStarted steps snapshot name)) ++
        [.act (S := Core) .tokenUrlsafe batchId]) := rfl
  rw [hpreamble, minted_append, hstarts]
  rfl

omit [Sha256] in
theorem Opens.region {reply : GateReply} (ho : Opens h) :
    Opens (h ++ preamble source edge steps snapshot batchId ++
      [.beforeDispatch (opening source edge steps batchId) reply]) := by
  intro before observation after he hkind
  rw [List.append_assoc] at he
  rcases split_append he with ⟨mid, rfl, rfl⟩ | ⟨mid, rfl, hmid⟩
  · obtain ⟨shown, id, reply', rest, rfl, hshown⟩ := ho before observation mid rfl hkind
    exact ⟨shown, id, reply', rest ++ (preamble source edge steps snapshot batchId ++
      [.beforeDispatch (opening source edge steps batchId) reply]), by simp, hshown⟩
  · cases mid with
    | nil =>
        obtain ⟨hstart, rfl⟩ := List.cons.inj hmid
        cases hstart
        refine ⟨edge.branches.map fun name => .emit (nodeStarted steps snapshot name), batchId, reply, [],
          by simp [superstepStarted], fun e hm => ?_⟩
        obtain ⟨name, -, rfl⟩ := List.mem_map.mp hm
        exact ⟨_, rfl⟩
    | cons first mid =>
        obtain ⟨-, hrest⟩ := List.cons.inj hmid
        have hlater : .emit observation ∈ (edge.branches.map (fun name =>
            .emit (nodeStarted steps snapshot name)) ++
            [.act (S := Core) .tokenUrlsafe batchId]) ++
            [Event.beforeDispatch (opening source edge steps batchId) reply] :=
          (congrArg (.emit observation ∈ ·) hrest).mpr (List.mem_append_right _ List.mem_cons_self)
        simp only [List.mem_append, List.mem_map, List.mem_singleton, reduceCtorEq, or_false] at hlater
        obtain ⟨name, -, hname⟩ := hlater
        cases hname
        cases hkind

-- A region that opens under a batch id not minted before.
omit [Sha256] in
theorem Accounts.region {reply : GateReply} (ha : Accounts steps h) (hfresh : batchId ∉ minted h) :
    Accounts steps (h ++ preamble source edge steps snapshot batchId ++
      [.beforeDispatch (opening source edge steps batchId) reply]) := by
  have hlog : log (h ++ preamble source edge steps snapshot batchId) = log h := by
    have hnone : log (preamble source edge steps snapshot batchId) = [] :=
      List.filterMap_eq_nil_iff.mpr preamble_asks
    rw [log_append, hnone, List.append_nil]
  have hfirst : ∀ request ∈ log h, request.batchId ≠ some batchId :=
    fun request hr hb => hfresh (ha.known request hr batchId hb)
  have hopened : log [.beforeDispatch (opening source edge steps batchId) reply] =
      [.dispatch (opening source edge steps batchId)] := rfl
  refine ⟨⟨always_snoc.mpr ⟨always_append.mpr ⟨ha.orderly, ?_⟩, ?_⟩, ha.opens.region, ?_⟩, ?_, ?_⟩
  · intro past e after he request hr
    rw [preamble_asks e (he ▸ List.mem_append_right _ List.mem_cons_self)] at hr
    cases hr
  · rintro request ⟨⟩
    exact .fanout (hlog ▸ hfirst)
  · rw [log_append, hlog, hopened]
    refine List.pairwise_append.mpr ⟨ha.progress, List.pairwise_singleton .., fun request hr later hl => ?_⟩
    obtain rfl := List.mem_singleton.mp hl
    exact ha.reached request hr
  · rw [log_append, hlog, hopened]
    intro request hr
    rcases List.mem_append.mp hr with hr | hr
    · exact ha.reached request hr
    · obtain rfl := List.mem_singleton.mp hr
      exact le_rfl
  · rw [log_append, hlog, hopened, minted_append, minted_append, preamble_mints]
    intro request hr id hid
    rcases List.mem_append.mp hr with hr | hr
    · exact List.mem_append_left _ (List.mem_append_left _ (ha.known request hr id hid))
    · obtain rfl := List.mem_singleton.mp hr
      cases hid
      simp

-- No batch id was minted twice.
def Distinct (t : Run) : Prop := (minted t).Nodup

omit [Sha256] in
theorem distinct_left (s t : Run) (hd : Distinct (s ++ t)) : Distinct s := by
  rw [Distinct, minted_append] at hd
  exact (List.nodup_append.mp hd).1

-- What is claimed of a run whose batch ids are distinct, so far.
def Presumed (I : Run → Prop) (t : Run) : Prop := Distinct t → I t

omit [Sha256] in
theorem presuming {α : Type} {p : Scheduler (Option α)} {R : α → Run → Prop}
    (hp : Distinct h → Ensures generating (fun _ => WellFormed) p (Rule.Goes WellFormed R) h) :
    Ensures generating (fun _ => Presumed WellFormed) p
      (Rule.Goes (Presumed WellFormed) fun value => Presumed (R value)) h :=
  (Ensures.assuming distinct_left hp).mono (fun _ _ hq => Rule.Goes.assuming hq) fun _ _ hf => hf

theorem runRegion_asked (ha : Accounts steps h) :
    Ensures generating (fun _ => Presumed WellFormed)
      (runRegion g (some gate) source edge state steps)
      (Rule.Goes (Presumed WellFormed) fun result => Presumed (Accounts result.steps)) h := by
  refine .bind (.ofExcept (fun entered _ => ?_) fun _ _ _ => ha.toWellFormed)
  refine .bind (.bind (.emit (.emitAll (.bind (.lift (.act fun batchId => ?_))))))
  have hpreamble : h ++ [.emit (superstepStarted source edge steps entered)] ++
      (edge.branches.map fun name => .emit (nodeStarted steps entered name)) ++
      [.act (S := Core) .tokenUrlsafe batchId] = h ++ preamble source edge steps entered batchId := by
    simp [preamble]
  rw [hpreamble]
  refine presuming fun hd => ?_
  have hfresh : batchId ∉ minted h := by
    rw [Distinct, minted_append, preamble_mints] at hd
    exact fun hm => (List.nodup_append.mp hd).2.2 _ hm _ (List.mem_singleton.mpr rfl) rfl
  have hopened : ∀ reply, Accounts steps (h ++ preamble source edge steps entered batchId ++
      [.beforeDispatch (opening source edge steps batchId) reply]) := fun reply => ha.region hfresh
  refine .andThen (Q := fun asked t => WellFormed t ∧ (asked.1 = none →
    t = h ++ preamble source edge steps entered batchId ++
      [.beforeDispatch (opening source edge steps batchId) (.decided .allow)]))
    (.lift (Rule.dispatch ?_ (fun _ => ?_) (fun reason => ?_) fun reply _ error => ?_)) ?_
  · rintro (hgate | ⟨hrouter, -⟩)
    · cases hgate
    · cases hrouter
  · exact ⟨(hopened _).toWellFormed, fun _ => rfl⟩
  · exact ⟨(hopened _).toWellFormed, nofun⟩
  · exact (hopened reply).toWellFormed
  rintro asked t ⟨hw, hgo⟩
  refine orStop_formed hw fun hnone => ?_
  obtain rfl := hgo hnone
  refine .andThen (settle_settling (hopened _) ?_ ⟨rfl, rfl, _, rfl, ?_⟩) ?_
  · rw [minted_append, minted_append, preamble_mints]
    simp
  · intro request hr hb
    rw [log_append] at hr
    rcases List.mem_append.mp hr with hr | hr
    · exact hfresh (ha.known request hr batchId hb)
    · obtain ⟨e, he, hasked⟩ := List.mem_filterMap.mp hr
      rw [preamble_asks e he] at hasked
      cases hasked
  · rintro settled t ⟨hnames, hs⟩
    exact joinRegion_asked hnames hs

theorem followRegion_asked {node : Str} (ha : Accounts steps h) :
    Ensures generating (fun _ => Presumed WellFormed)
      (followRegion g (some gate) node state steps)
      (Rule.Goes (Presumed WellFormed) fun next => Presumed (Accounts next.1.steps)) h := by
  unfold followRegion
  split
  · refine .andThen (runRegion_asked ha) ?_
    rintro (_ | result) t hresult
    · exact .ret hresult
    · exact .ret hresult
  · exact .ret fun _ => ha

omit [Sha256] in
theorem finish_asked (ha : Accounts steps h) :
    Ensures generating (fun _ => WellFormed) (finish state steps) (fun _ => WellFormed) h := by
  refine .bind (.ofExcept (fun closed _ => .emit ?_) fun _ _ => ha.toWellFormed)
  exact ha.toWellFormed.quiet (quiet_emit nofun)

-- Gate request protocol: where batch ids are distinct, every request of a run is in order.
theorem run_wellFormed {t : Run} {o : Except Exn Unit}
    (he : Exec generating (run g (some gate) state) t o) (hd : (minted t).Nodup) : WellFormed t := by
  have hrun : Ensures generating (fun _ => Presumed WellFormed) (run g (some gate) state)
      (fun _ => Presumed WellFormed) [] := by
    refine Rule.run (I := fun _ _ steps _ => Presumed (Accounts steps))
      (J := fun _ _ steps => Presumed (Accounts steps))
      (K := fun _ _ _ steps => Presumed (Accounts steps)) ?_ ?_ ?_ ?_ ?_ ?_
    · exact presuming fun _ => route_asked accounts_nil
    · exact fun _ _ _ t hi => Ensures.assuming distinct_left fun hd => finish_asked (hi hd)
    · exact fun _ _ _ _ t hi _ hd => (hi hd).toWellFormed
    · exact fun _ _ _ _ t hi _ _ => presuming fun hd => runNode_asked (hi hd)
    · intro node state steps t hj
      refine (Ensures.assuming distinct_left fun hd => followRegion_asked (hj hd)).mono
        (fun next t hnext => ?_) fun _ _ hf hd => hf hd hd
      cases next with
      | none => exact fun hd => hnext hd hd
      | some next => exact fun hd => hnext hd hd
    · exact fun _ _ _ _ t hk => presuming fun hd => route_asked (hk hd)
  have hend := hrun t o he
  cases o with
  | ok _ => exact hend hd
  | error _ => exact hend hd

end Region

-- One node, then a region of two branches.
theorem run_wellFormed_diamond :
    letI := Sha256.verbatim
    let t := ((run .diamond (some ⟨true, true⟩) (State.new "s")).simulate
      (obliging fun _ => .dict [])).1
    (log t).length = 7 ∧ WellFormed t := by
  let := Sha256.verbatim
  intro t
  have hd : (minted t).Nodup := by decide +kernel
  exact ⟨by decide +kernel, run_wellFormed (exec_simulate _ _) hd⟩

end PerpetuaCore.Graph.Requests
