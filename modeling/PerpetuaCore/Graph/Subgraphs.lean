import PerpetuaCore.Graph.Region
import PerpetuaCore.Graph.Returns

namespace PerpetuaCore.Graph.Subgraphs

open Interaction
open Python (Str Value Dict)
open Folding (Reduces writers)
open Region (metadataAt)
open Returns (Called Echoes Fresh Shows endedCall?)

-- `as_node(subgraph)`: what the node gives when the subgraph's run from `state` was `inner`.
def asNode [Dumping] (state : State) (inner : Run) (outcome : Except Exn Unit) : Except Exn Value :=
  outcome.map fun _ => .dict (ainvoke state inner).modelDump.items

-- A run in which every node that stands for a subgraph gives what a run of the subgraph
-- from the state it was handed comes to, and so on inside that run.
inductive Nested [Sha256] [Dumping] (subs : Fn → Option CompiledGraph) :
    CompiledGraph → Option Gate → State → Run → Except Exn Unit → Prop
  | mk {g : CompiledGraph} {gate : Option Gate} {init : State} {t : Run} {o : Except Exn Unit}
      (inner : Event → Run) (outcome : Event → Except Exn Unit)
      (he : Exec generating (run g gate init) t o)
      (hinner : ∀ e ∈ t, ∀ call ∈ endedCall? e, ∀ sub ∈ subs call.fn,
        Nested subs sub none call.state (inner e) (outcome e))
      (hresult : ∀ e ∈ t, ∀ call ∈ endedCall? e, ∀ sub ∈ subs call.fn,
        call.reply.result = asNode call.state (inner e) (outcome e)) : Nested subs g gate init t o

def ending (t : Run) : Option TerminalReason :=
  (observations t).getLast?.bind fun observation => observation.event.terminalReason

-- After `post` is left of the run, it has paused with what the run to `result` asked.
def Paused (post : Run) (result : State) : Prop :=
  (∃ last, (observations post).getLast? = some last ∧ last.event.kind = .interrupt ∧
    last.event.terminalReason = some .interrupted ∧ last.state.get "status" = "interrupted" ∧
    metadataAt last.state "interrupt_prompt" = metadataAt result "interrupt_prompt" ∧
    metadataAt last.state "interrupt_payload" = metadataAt result "interrupt_payload") ∧
  ∀ observation ∈ observations post, observation.event.kind ≠ .nodeStart

-- What is shown next, as far as it publishes deltas: that of the node itself, or those of its region.
def publications (post : Run) : List GraphObservation :=
  (observations post).takeWhile fun observation => observation.event.kind = .nodeEnd

def published (post : Run) : List (Str × Delta) :=
  (publications post).filterMap fun observation =>
    observation.event.node.bind fun name => observation.delta.map (name, ·)

-- The state published for the node has the fields of `result`.
def Agrees (post : Run) (name : Str) (result : State) : Prop :=
  ∀ observation ∈ publications post, observation.event.node = some name →
    ∀ field ∈ modelFields, observation.state.get field = result.get field

-- What a call that stood for a subgraph was to come to, when the subgraph's run was `inner`.
structure Composes (post : Run) (call : Called) (inner : Run) : Prop where
  pauses : ending inner = some .interrupted → Paused post (ainvoke call.state inner)
  agrees : ending inner = some .done → Agrees post call.name (ainvoke call.state inner)

section Subgraphs

variable [Sha256] [Dumping] {subs : Fn → Option CompiledGraph} {g : CompiledGraph} {gate : Option Gate}
  {init : State} {t past post : Run} {o : Except Exn Unit} {e : Event} {call : Called} {inner : Run}

-- The event `e` ended a call that stood for a subgraph, whose run from the state handed over was
-- `inner`; `post` is what followed.
structure RanSubgraph (subs : Fn → Option CompiledGraph) (t past : Run) (e : Event) (post : Run)
    (call : Called) (inner : Run) : Prop where
  split : t = past ++ e :: post
  ended : endedCall? e = some call
  ran : ∃ sub ∈ subs call.fn, Nested subs sub none call.state inner (.ok ())
  result : call.reply.result = asNode call.state inner (.ok ())

-- What is published of a field that the subgraph left as in `own`: its dump, or for a branch what
-- the field's reducer makes of the dumps and deltas of the branches that are published.
def Makes (g : CompiledGraph) (post : Run) (own : State) (field : Str) (value : Value) : Event → Prop
  | .leave (.branch source _ _ snapshot) _ =>
      Reduces post source field (snapshot.get field) (writers (published post) field)
        ((g.reducers.get? field).getD defaultReducer) value
  | _ => value = dumped (own.get field)

-- The subgraph was not interrupted, and where its run was done and is published every declared
-- field is published as it left it.
structure Undisturbed (g : CompiledGraph) (post : Run) (e : Event) (call : Called) (inner : Run) :
    Prop where
  uninterrupted : ending inner ≠ some .interrupted
  kept : ending inner = some .done →
    (∃ observation ∈ publications post, observation.event.node = some call.name) →
      ∀ field ∈ modelFields, ∀ value, Makes g post (ainvoke call.state inner) field value e →
        value = (ainvoke call.state inner).get field

omit [Sha256] [Dumping] in
theorem publications_eq {shown rest : List GraphObservation} (hpost : observations post = shown ++ rest)
    (hfresh : Fresh rest) : publications post =
      shown.takeWhile fun observation => observation.event.kind = .nodeEnd := by
  have hrest : rest.takeWhile (fun observation => observation.event.kind = .nodeEnd) = [] := by
    cases rest with
    | nil => rfl
    | cons first rest =>
        have hfirst := (hfresh [] first rest rfl (List.forall_mem_nil _)).1
        rw [List.takeWhile_cons_of_neg (by simpa using hfirst)]
  rw [publications, hpost, List.takeWhile_append]
  split_ifs with hall
  · rw [hrest, List.append_nil, (List.takeWhile_prefix _).eq_of_length hall]
  · rfl

omit [Sha256] [Dumping] in
theorem publications_region {rest : List GraphObservation} {admitted : List (Str × Delta)} {steps : Nat}
    {committed : State} {last : GraphObservation} (hkind : last.event.kind ≠ .nodeEnd)
    (hpost : observations post = admitted.map (nodeEnded steps committed) ++ [last] ++ rest)
    (hfresh : Fresh rest) : publications post = admitted.map (nodeEnded steps committed) ∧
      published post = admitted := by
  have hall : publications post = admitted.map (nodeEnded steps committed) := by
    rw [publications_eq hpost hfresh, List.takeWhile_append_of_pos, List.takeWhile_cons_of_neg,
      List.append_nil]
    · simpa using hkind
    · intro observation ho
      obtain ⟨branch, -, rfl⟩ := List.mem_map.mp ho
      rfl
  refine ⟨hall, ?_⟩
  rw [published, hall, List.filterMap_map]
  exact List.filterMap_some

omit [Sha256] [Dumping] in
-- A run pauses on what a call has returned only where a branch beside it was interrupted.
theorem echoes_of_paused {shown rest : List GraphObservation} {delta : Delta} {result : State}
    (hpost : observations post = shown ++ rest) (hfresh : Fresh rest)
    (hshows : Shows g past post delta e shown) (h : Paused post result) : Echoes (past ++ post) e := by
  obtain ⟨⟨last, hlast, -, hreason, -⟩, hquiet⟩ := h
  rw [hpost] at hlast hquiet
  cases rest with
  | cons first rest =>
      rw [List.getLast?_append_of_ne_nil _ (List.cons_ne_nil first rest)] at hlast
      obtain ⟨earlier, hearlier, hkind⟩ := hfresh.interrupted hlast hreason
      exact absurd hkind (hquiet earlier (List.mem_append_right _ hearlier))
  | nil =>
      rw [List.append_nil] at hlast
      cases hshows with
      | nothing => cases hlast
      | aside _ hinterrupted =>
          obtain rfl := Option.some.inj (List.getLast?_singleton.symm.trans hlast)
          exact hinterrupted hreason
      | node =>
          obtain rfl := Option.some.inj (List.getLast?_singleton.symm.trans hlast)
          cases hreason
      | region _ hcommit =>
          obtain rfl := Option.some.inj (List.getLast?_concat.symm.trans hlast)
          exact absurd hreason hcommit

-- What is published of the call is what is made of the subgraph's fields.
omit [Sha256] in
theorem makes_published {shown rest : List GraphObservation} {own : State}
    (hpost : observations post = shown ++ rest) (hfresh : Fresh rest)
    (hended : endedCall? e = some call)
    (hshows : Shows g past post (Dict.ofList own.modelDump.items) e shown) :
    ∀ observation ∈ publications post, observation.event.node = some call.name →
      ∀ field ∈ modelFields, Makes g post own field (observation.state.get field) e := by
  intro observation hm hname field hfield
  have hdump : (Dict.ofList own.modelDump.items).get? (.str field) = some (dumped (own.get field)) := by
    rw [Dict.get?_ofList_items, State.get?_modelDump hfield]
  cases hshows with
  | nothing =>
      rw [publications_eq hpost hfresh] at hm
      cases hm
  | aside hkind =>
      rw [publications_eq hpost hfresh, List.takeWhile_cons_of_neg (by simpa using hkind)] at hm
      cases hm
  | node =>
      rw [publications_eq hpost hfresh, List.takeWhile_cons_of_pos rfl] at hm
      obtain rfl := List.mem_singleton.mp hm
      change _ = _
      simp [nodeEnded, hdump]
  | region hkind _ hown hmerged =>
      obtain ⟨hall, hpublished⟩ := publications_region hkind hpost hfresh
      rw [hall] at hm
      obtain ⟨branch, hbranch, rfl⟩ := List.mem_map.mp hm
      have hkey : Value.str field ∈ branch.2.keys := by
        have hsame : branch.1 = call.name := Option.some.inj hname
        obtain rfl := Option.some.inj hended
        rw [hown branch hbranch hsame]
        exact Dict.get?_isSome_iff.mp (by rw [hdump]; rfl)
      obtain ⟨value, hvalue⟩ := Option.isSome_iff_exists.mp
        (Dict.get?_isSome_iff.mpr (hmerged.keys branch hbranch _ hkey))
      have hreduces := hmerged.values field value hvalue
      rw [← hpublished] at hreduces
      simpa [Makes, nodeEnded, hvalue] using hreduces

-- What a subgraph's run comes to is published as an ordinary delta. An interrupt inside is lost
-- but where a branch beside it asks for one too, and a field stays as the subgraph left it where
-- dumping, and in a region reducing, leaves it so.
theorem subgraphs_compose {o : Except Exn Unit} (hn : Nested subs g gate init t o)
    (hran : RanSubgraph subs t past e post call inner) :
    (Undisturbed g post e call inner → Composes post call inner) ∧
    (Composes post call inner →
      (ending inner = some .interrupted → Echoes (past ++ post) e) ∧
      (ending inner = some .done →
        (∃ observation ∈ publications post, observation.event.node = some call.name) →
          ∀ field ∈ modelFields, Makes g post (ainvoke call.state inner) field
            ((ainvoke call.state inner).get field) e)) := by
  obtain ⟨_, _, he, -, -⟩ := hn
  obtain ⟨shown, rest, hpost, hfresh, hshows⟩ :=
    (Returns.run_sound he).located past e post call _ hran.split hran.ended hran.result
  have hmakes := makes_published hpost hfresh hran.ended hshows
  constructor
  · intro h
    refine ⟨fun hinterrupted => absurd hinterrupted h.uninterrupted, fun hdone observation hm hname => ?_⟩
    exact fun field hfield => h.kept hdone ⟨observation, hm, hname⟩ field hfield _
      (hmakes observation hm hname field hfield)
  · intro h
    refine ⟨fun hinterrupted => echoes_of_paused hpost hfresh hshows (h.pauses hinterrupted), ?_⟩
    rintro hdone ⟨observation, hm, hname⟩ field hfield
    rw [← h.agrees hdone observation hm hname field hfield]
    exact hmakes observation hm hname field hfield

-- A negative step budget lets no node run.
omit [Dumping] in
theorem calm_of_exhausted {o : Except Exn Unit} (hmax : g.maxSteps < 0)
    (he : Exec generating (run g gate init) t o) :
    ∀ observation ∈ observations t, Returns.calm observation := by
  have hrun : Ensures generating (fun _ t => ∀ observation ∈ observations t, Returns.calm observation)
      (run g gate init) (fun _ t => ∀ observation ∈ observations t, Returns.calm observation) [] := by
    refine Rule.run (I := fun _ _ _ _ t => ∀ observation ∈ observations t, Returns.calm observation)
      (J := fun _ _ _ _ => False) (K := fun _ _ _ _ _ => False) ?_ ?_ ?_ ?_ ?_ ?_
    · intro u o he
      have hu := (Returns.unending_of_does he Returns.route_does).2
      cases o with
      | error error => exact hu
      | ok next => cases next <;> exact hu
    · intro state steps lastNode h hh u o he
      have hu := (Returns.unending_of_does he Returns.finish_does).2
      have hall : ∀ observation ∈ observations (h ++ u), Returns.calm observation := by
        rw [observations_append]
        exact List.forall_mem_append.mpr ⟨hh, hu⟩
      cases o <;> exact hall
    · exact fun _ _ _ _ _ hh _ => hh
    · exact fun _ _ steps _ _ _ _ hbound => absurd hbound (by omega)
    · exact fun _ _ _ _ hfalse => hfalse.elim
    · exact fun _ _ _ _ _ hfalse => hfalse.elim
  have hend := hrun t o he
  cases o <;> exact hend

-- What a run returns says whether it was interrupted.
omit [Dumping] in
theorem status_interrupted {o : Except Exn Unit} (he : Exec generating (run g gate init) t o)
    (ht : ending t = some .interrupted) : (ainvoke init t).get "status" = "interrupted" := by
  obtain ⟨last, hlast, hreason⟩ := Option.bind_eq_some_iff.mp ht
  obtain ⟨shown, hshown⟩ := List.getLast?_eq_some_iff.mp hlast
  have hmem : last ∈ observations t := List.mem_of_getLast? hlast
  by_cases hmax : 0 ≤ g.maxSteps
  · have hend := Protocol.run_terminated hmax he
    cases o with
    | error error => cases (hend.plain last hmem).running.symm.trans hreason
    | ok value =>
        obtain ⟨word, observation, reason, hword, -, hclosing, -⟩ := hend
        obtain rfl : last = observation := by
          rw [hword, List.getLast?_concat] at hlast
          exact (Option.some.inj hlast).symm
        obtain rfl := Option.some.inj (hclosing.terminal.symm.trans hreason)
        have hstatus : last.state.get "status" = "interrupted" := hclosing.status
        simpa [ainvoke, hword] using hstatus
  · exact absurd hreason (calm_of_exhausted (by omega) he last hmem).2

end Subgraphs

-- Two nodes in a row, of which the first stands for a graph of one node.
def pipeline : CompiledGraph where
  nodes := ⟨[("sub", ⟨1, none, none⟩), ("next", ⟨2, none, none⟩)], by decide⟩
  edges := ⟨[(START, .static "sub"), ("sub", .static "next")], by decide⟩
  maxSteps := 5

def single : CompiledGraph where
  nodes := ⟨[("ask", ⟨0, none, none⟩)], by decide⟩
  edges := ⟨[(START, .static "ask")], by decide⟩
  maxSteps := 5

def standsFor (fn : Fn) : Option CompiledGraph :=
  if fn.identity = 1 then some single else none

section Composing

variable [Sha256] [Dumping]

-- Nodes that stand for a subgraph run it against `inside`; all others return no items.
def composing (inside : Handler Core) : Handler Core
  | .leave (.node _ fn state) | .leave (.branch _ _ fn state) =>
      match standsFor fn with
      | none => ⟨.ok (.dict []), state⟩
      | some sub =>
          let inner := (run sub none state).simulate inside
          ⟨asNode state inner.1 inner.2, state⟩
  | op => obliging (fun _ => .dict []) op

omit [Sha256] [Dumping] in
-- No subgraph is run in this stretch.
def Flat (t : Run) : Prop := ∀ e ∈ t, ∀ call ∈ endedCall? e, standsFor call.fn = none

instance (t : Run) : Decidable (Flat t) :=
  inferInstanceAs (Decidable (∀ e ∈ t, ∀ call ∈ endedCall? e, standsFor call.fn = none))

variable {g : CompiledGraph} {gate : Option Gate} {init : State}

theorem Nested.flat {t : Run} {o : Except Exn Unit} (he : Exec generating (run g none init) t o)
    (hflat : Flat t) : Nested standsFor g none init t o := by
  refine .mk (fun _ => []) (fun _ => .ok ()) he ?_ ?_ <;>
  · intro e hmem call hcall sub hsub
    simp [hflat e hmem call hcall] at hsub

theorem nested_composing {inside : Handler Core}
    (hflat : ∀ e ∈ ((run g gate init).simulate (composing inside)).1, ∀ call ∈ endedCall? e,
      ∀ sub ∈ standsFor call.fn, Flat ((run sub none call.state).simulate inside).1) :
    Nested standsFor g gate init ((run g gate init).simulate (composing inside)).1
      ((run g gate init).simulate (composing inside)).2 := by
  let simulated (e : Event) : Run × Except Exn Unit :=
    match (endedCall? e).bind fun call => (standsFor call.fn).map (·, call.state) with
    | none => ([], .ok ())
    | some (sub, state) => (run sub none state).simulate inside
  have hsimulated : ∀ e, ∀ call ∈ endedCall? e, ∀ sub ∈ standsFor call.fn,
      simulated e = (run sub none call.state).simulate inside := by
    intro e call hcall sub hsub
    rw [Option.mem_def] at hcall hsub
    simp [simulated, hcall, hsub]
  refine .mk (fun e => (simulated e).1) (fun e => (simulated e).2) (exec_simulate _ _) ?_ ?_
  · intro e hmem call hcall sub hsub
    simp only [hsimulated e call hcall sub hsub]
    exact .flat (exec_simulate _ _) (hflat e hmem call hcall sub hsub)
  · intro e hmem call hcall sub hsub
    simp only [hsimulated e call hcall sub hsub]
    have hobeys := obeys_simulate (composing inside) (run g gate init)
    rw [Option.mem_def] at hsub
    unfold endedCall? at hcall
    split at hcall
    · obtain rfl := Option.some.inj hcall
      rw [hobeys _ _ hmem]
      simp [composing, hsub]
    · obtain rfl := Option.some.inj hcall
      rw [hobeys _ _ hmem]
      simp [composing, hsub]
    · cases hcall

end Composing

def retrying : Handler Core := obliging fun _ => .dict [("retry_count", .int 1)]

-- The pipeline's first node, and a branch of the diamond, run the subgraph from these states.
def entered : State :=
  (State.new "s").update (Dict.ofList [("nodes_visited", .list [("sub" : Value)])])

def handed : State :=
  (State.new "s").update (Dict.ofList [("nodes_visited", .list [("a" : Value), "b", "c"])])

def retried (state : State) : Run × Except Exn Unit :=
  letI := Sha256.verbatim
  (run single none state).simulate retrying

def piped : Run × Except Exn Unit :=
  letI := Sha256.verbatim
  letI := Dumping.verbatim
  (run pipeline none (State.new "s")).simulate (composing retrying)

def forked : Run × Except Exn Unit :=
  letI := Sha256.verbatim
  letI := Dumping.verbatim
  (run .diamond none (State.new "s")).simulate (composing retrying)

theorem retried_nested (state : State) (h : (retried state).2 = .ok ())
    (hflat : Flat (retried state).1) :
    letI := Sha256.verbatim
    letI := Dumping.verbatim
    Nested standsFor single none state (retried state).1 (.ok ()) := by
  let := Sha256.verbatim
  let := Dumping.verbatim
  have hnested : Nested standsFor single none state (retried state).1 (retried state).2 :=
    .flat (exec_simulate retrying _) hflat
  exact h ▸ hnested

def pipedCall : Called :=
  letI := Dumping.verbatim
  ⟨"sub", ⟨1, none, none⟩, entered, ⟨asNode entered (retried entered).1 (.ok ()), entered⟩⟩

def forkedCall : Called :=
  letI := Dumping.verbatim
  ⟨"b", ⟨1, none, none⟩, handed, ⟨asNode handed (retried handed).1 (.ok ()), handed⟩⟩

theorem subgraphs_compose_done :
    ending (retried entered).1 = some .done ∧ Composes (piped.1.drop 4) pipedCall (retried entered).1 ∧
      ending (retried handed).1 = some .done ∧
        Composes (forked.1.drop 11) forkedCall (retried handed).1 := by
  let := Sha256.verbatim
  let := Dumping.verbatim
  refine ⟨by decide, ?_, by decide, ?_⟩
  · have hn : Nested standsFor pipeline none (State.new "s") piped.1 piped.2 :=
      nested_composing (by decide)
    have hran : RanSubgraph standsFor piped.1 (piped.1.take 3)
        (.leave (.node "sub" ⟨1, none, none⟩ entered) pipedCall.reply) (piped.1.drop 4) pipedCall
        (retried entered).1 :=
      ⟨rfl, rfl, ⟨single, rfl, retried_nested entered rfl (by decide)⟩, rfl⟩
    have hdumped : ∀ field ∈ modelFields, dumped ((ainvoke entered (retried entered).1).get field) =
        (ainvoke entered (retried entered).1).get field := by decide
    refine (subgraphs_compose hn hran).1 ⟨by decide, fun _ _ field hfield value hmakes => ?_⟩
    exact hmakes.trans (hdumped field hfield)
  · have hn : Nested standsFor .diamond none (State.new "s") forked.1 forked.2 :=
      nested_composing (by decide)
    have hran : RanSubgraph standsFor forked.1 (forked.1.take 10)
        (.leave (.branch "a" "b" ⟨1, none, none⟩ handed) forkedCall.reply) (forked.1.drop 11) forkedCall
        (retried handed).1 :=
      ⟨rfl, rfl, ⟨single, rfl, retried_nested handed rfl (by decide)⟩, rfl⟩
    -- no other branch writes a field, and none has a reducer
    have hwriters : ∀ field ∈ modelFields, writers (published (forked.1.drop 11)) (.str field) =
        [(("b" : Str), (ainvoke handed (retried handed).1).get field)] := by decide
    refine (subgraphs_compose hn hran).1 ⟨by decide, fun _ _ field hfield value hmakes => ?_⟩
    have hreduces : Reduces (forked.1.drop 11) "a" field (handed.get field)
        (writers (published (forked.1.drop 11)) (.str field)) .rejectConflict value := hmakes
    rw [hwriters field hfield] at hreduces
    cases hreduces with
    | agreed hw => exact (congrArg Prod.snd (List.cons.inj hw).1).symm

def asking : Handler Core
  | .leave (.node _ _ state) => ⟨.error (.other "Interrupt" (some "approve?") none 0), state⟩
  | op => obliging (fun _ => .dict []) op

-- The subgraph's node asks for approval, which ends its own run `asked`; the run of the pipeline
-- goes on to the next node.
def asked : Run × Except Exn Unit :=
  letI := Sha256.verbatim
  (run single none entered).simulate asking

def unpaused : Run × Except Exn Unit :=
  letI := Sha256.verbatim
  letI := Dumping.verbatim
  (run pipeline none (State.new "s")).simulate (composing asking)

def unpausedCall : Called :=
  letI := Dumping.verbatim
  ⟨"sub", ⟨1, none, none⟩, entered, ⟨asNode entered asked.1 (.ok ()), entered⟩⟩

theorem interrupt_swallowed :
    letI := Sha256.verbatim
    letI := Dumping.verbatim
    Nested standsFor pipeline none (State.new "s") unpaused.1 unpaused.2 ∧
      RanSubgraph standsFor unpaused.1 (unpaused.1.take 3)
        (.leave (.node "sub" ⟨1, none, none⟩ entered) unpausedCall.reply) (unpaused.1.drop 4) unpausedCall
        asked.1 ∧
      ending asked.1 = some .interrupted ∧ ending unpaused.1 = some .done ∧
      ¬Paused (unpaused.1.drop 4) (ainvoke entered asked.1) := by
  let := Sha256.verbatim
  let := Dumping.verbatim
  have hok : asked.2 = .ok () := rfl
  have hasked : Nested standsFor single none entered asked.1 asked.2 :=
    .flat (exec_simulate asking _) (by decide)
  refine ⟨nested_composing (by decide), ?_, by decide, by decide, ?_⟩
  · exact ⟨rfl, rfl, ⟨single, rfl, hok ▸ hasked⟩, rfl⟩
  · have hstarts : ∃ o ∈ observations (unpaused.1.drop 4), o.event.kind = .nodeStart := by decide
    obtain ⟨o, ho, hkind⟩ := hstarts
    exact fun hpaused => hpaused.2 o ho hkind

end PerpetuaCore.Graph.Subgraphs
