import PerpetuaCore.Graph.Commit
import PerpetuaCore.Graph.Folding

namespace PerpetuaCore.Graph.Lineage

open Interaction
open Python (Str Value Dict)
open Ledger (publishes Binds)

-- A branch of the region out of `source`, handed `snapshot`, returned this delta.
def Supplied (t : Run) (source : Str) (snapshot : State) (name : Str) (delta : Delta) : Prop :=
  ∃ fn reply items, Event.leave (.branch source name fn snapshot) reply ∈ t ∧
    (reply : Reply).result = .ok (.dict items) ∧ delta = Dict.ofList items

-- The join chose these branches among the settled ones.
def Admits (t : Run) (source : Str) (join : Join) (settled : List Settled)
    (admitted : List (Str × Delta)) : Prop :=
  ∃ u, u ⊆ t ∧ Exec acting (admitBranches source join settled) u (.ok admitted)

-- Where there is a gate, it allowed the commit of this delta.
def Granted [Sha256] (gate : Option Gate) (t : Run) (delta : Delta) : Prop :=
  gate ≠ none → ∃ request, Event.beforeCommit request (.decided .allow) ∈ t ∧ Binds request delta

-- The deltas that may be committed to the state held: what a linear node returned, or the fold
-- of what a region's join admitted, none of its branches having been stopped or interrupted.
inductive Commits [Sha256] (g : CompiledGraph) (gate : Option Gate) (t : Run) : State → Delta → Prop
  | node {name : Str} {fn : Fn} {state : State} {reply : Reply} {items : List (Value × Value)}
      (hleft : Event.leave (.node name fn state) reply ∈ t) (hresult : reply.result = .ok (.dict items))
      (hgranted : Granted gate t (Dict.ofList items)) :
      Commits g gate t reply.left (Dict.ofList items)
  | region {source : Str} {edge : FanOut} {snapshot : State} {settled : List Settled}
      {admitted : List (Str × Delta)} {fields : List Str} {merged : Delta} {provenance : Provenance}
      (hedge : g.edgeOf source = .fanout edge) (hsettled : settled.map Settled.name = edge.branches)
      (hsupplied : ∀ branch ∈ succeeded settled, Supplied t source snapshot branch.1 branch.2)
      (hcalm : branchVerdict source (errors settled) = .ok none) (hrunning : firstInterrupt settled = none)
      (hadmits : Admits t source edge.join settled admitted)
      (hfields : ∀ key, (∃ field ∈ fields, key = .str field) ↔ ∃ branch ∈ admitted, key ∈ branch.2.keys)
      (hfolded : Folding.Folded g source snapshot admitted fields merged provenance t)
      (hgranted : Granted gate t merged) : Commits g gate t snapshot merged

-- A state the scheduler made of `init` by commits, entering nodes aside; a node or a router
-- may have changed the state it was handed in place.
inductive Built [Sha256] (g : CompiledGraph) (gate : Option Gate) (init : State) (t : Run) : State → Prop
  | init : Built g gate init t init
  | visit {state visited : State} {names : List Str} (hb : Built g gate init t state)
      (hv : visit state names = .ok visited) : Built g gate init t visited
  | node {state : State} {name : Str} {fn : Fn} {reply : Reply} (hb : Built g gate init t state)
      (hleft : Event.leave (.node name fn state) reply ∈ t) : Built g gate init t reply.left
  | router {state : State} {source : Str} {fn : Fn} {reply : Reply} (hb : Built g gate init t state)
      (hleft : Event.leave (.router source fn state) reply ∈ t) : Built g gate init t reply.left
  | commit {state merged : State} {delta : Delta} (hb : Built g gate init t state)
      (hc : Commits g gate t state delta) (hm : state.merge delta = .ok merged) :
      Built g gate init t merged

def writes (field : Str) (result : Except Exn Value) : Bool :=
  match result with
  | .ok (.dict items) => (Dict.ofList items).contains (.str field)
  | _ => false

-- No delta writes the field.
def spares (field : Str) : Event → Bool
  | .leave (.node ..) reply => !writes field (reply : Reply).result
  | .leave (.branch ..) reply => !writes field (reply : Reply).result
  | _ => true

-- What is handed the run's own state leaves the field there as it is.
def leaves (field : Str) : Event → Bool
  | .leave (.node _ _ state) reply => decide ((reply : Reply).left.get field = state.get field)
  | .leave (.router _ _ state) reply => decide ((reply : Reply).left.get field = state.get field)
  | _ => true

section Mono

variable {t t' : Run}

theorem Supplied.mono {source name : Str} {snapshot : State} {delta : Delta}
    (h : Supplied t source snapshot name delta) (ht : t ⊆ t') :
    Supplied t' source snapshot name delta := by
  obtain ⟨fn, reply, items, hm, hresult⟩ := h
  exact ⟨fn, reply, items, ht hm, hresult⟩

theorem Admits.mono {source : Str} {join : Join} {settled : List Settled}
    {admitted : List (Str × Delta)} (h : Admits t source join settled admitted) (ht : t ⊆ t') :
    Admits t' source join settled admitted := by
  obtain ⟨u, hu, he⟩ := h
  exact ⟨u, List.Subset.trans hu ht, he⟩

theorem folded_mono {g : CompiledGraph} {source : Str} {snapshot : State}
    {admitted : List (Str × Delta)} {fields : List Str} {merged : Delta} {provenance : Provenance}
    (h : Folding.Folded g source snapshot admitted fields merged provenance t) (ht : t ⊆ t') :
    Folding.Folded g source snapshot admitted fields merged provenance t' :=
  ⟨h.keys, fun field value hv => (h.values field value hv).mono ht, h.provenance⟩

variable [Sha256] {g : CompiledGraph} {gate : Option Gate} {init state : State} {delta : Delta}

theorem Granted.mono (h : Granted gate t delta) (ht : t ⊆ t') : Granted gate t' delta := by
  intro hgate
  obtain ⟨request, hm, hb⟩ := h hgate
  exact ⟨request, ht hm, hb⟩

theorem Commits.mono (h : Commits g gate t state delta) (ht : t ⊆ t') : Commits g gate t' state delta := by
  cases h with
  | node hleft hresult hgranted => exact .node (ht hleft) hresult (hgranted.mono ht)
  | region hedge hsettled hsupplied hcalm hrunning hadmits hfields hfolded hgranted =>
      exact .region hedge hsettled (fun branch hm => (hsupplied branch hm).mono ht) hcalm hrunning
        (hadmits.mono ht) hfields (folded_mono hfolded ht) (hgranted.mono ht)

theorem Built.mono (h : Built g gate init t state) (ht : t ⊆ t') : Built g gate init t' state := by
  induction h with
  | init => exact .init
  | visit _ hv ih => exact .visit ih hv
  | node _ hleft ih => exact .node ih (ht hleft)
  | router _ hleft ih => exact .router ih (ht hleft)
  | commit _ hc hm ih => exact .commit ih (hc.mono ht) hm

end Mono

section Field

variable [Sha256] {g : CompiledGraph} {gate : Option Gate} {init state : State} {t : Run} {field : Str}

omit [Sha256] in
theorem unwritten_of_writes {items : List (Value × Value)} (h : writes field (.ok (.dict items)) = false) :
    (Dict.ofList items).get? (.str field) = none := by
  rw [Dict.get?_eq_none_iff, ← Dict.contains_iff]
  exact ne_true_of_eq_false h

omit [Sha256] in
theorem Supplied.unwritten {source name : Str} {snapshot : State} {delta : Delta}
    (h : Supplied t source snapshot name delta) (hspares : ∀ e ∈ t, spares field e = true) :
    delta.get? (.str field) = none := by
  obtain ⟨fn, reply, items, hm, hresult, rfl⟩ := h
  have hkept : writes field reply.result = false := by simpa [spares] using hspares _ hm
  exact unwritten_of_writes (hresult ▸ hkept)

omit [Sha256] in
theorem Admits.succeeded {source : Str} {join : Join} {settled : List Settled}
    {admitted : List (Str × Delta)} (h : Admits t source join settled admitted) :
    ∀ branch ∈ admitted, branch ∈ succeeded settled := by
  obtain ⟨u, -, he⟩ := h
  have hsub : admitted.Sublist (Graph.succeeded settled) :=
    Ensures.returns (h := []) admit_returns u _ he
  exact fun branch hm => hsub.subset hm

-- What is committed does not write a field that no node and no branch writes.
theorem Commits.unwritten {delta : Delta} (h : Commits g gate t state delta)
    (hspares : ∀ e ∈ t, spares field e = true) : delta.get? (.str field) = none := by
  cases h with
  | @node name fn handed reply items hleft hresult _ =>
      have hkept : writes field reply.result = false := by simpa [spares] using hspares _ hleft
      exact unwritten_of_writes (hresult ▸ hkept)
  | region _ _ hsupplied _ _ hadmits hfields hfolded _ =>
      refine Dict.get?_eq_none_iff.mpr fun hmem => ?_
      obtain ⟨branch, hbranch, hkey⟩ := (hfields _).mp ((hfolded.keys _).mp hmem)
      have hnone := (hsupplied branch (hadmits.succeeded branch hbranch)).unwritten hspares
      exact Dict.get?_eq_none_iff.mp hnone hkey

-- A field that nothing writes is still what it was at the start.
theorem Built.get_eq (h : Built g gate init t state) (hfield : field ≠ "nodes_visited")
    (hspares : ∀ e ∈ t, spares field e = true) (hleaves : ∀ e ∈ t, leaves field e = true) :
    state.get field = init.get field := by
  induction h with
  | init => rfl
  | visit _ hv ih =>
      rw [Ledger.visit_eq hv, Ledger.Edit.apply, State.get_update, Dict.get?_ofList (by simp), ← ih]
      have hne : (Value.str field) ≠ "nodes_visited" := fun he => hfield (Value.str.inj he)
      simp [Dict.lookup_cons_ite, hne]
  | node _ hleft ih | router _ hleft ih => exact (of_decide_eq_true (hleaves _ hleft)).trans ih
  | commit _ hc hm ih => rw [State.merge_eq_update hm, State.get_update, hc.unwritten hspares, ← ih]; rfl

end Field

-- Every commit asked for was allowed.
def Approved (t : Run) : Prop :=
  ∀ request reply, Event.beforeCommit request reply ∈ t → reply = .decided .allow

section Descent

variable [Sha256] {g : CompiledGraph} {gate : Option Gate} {init state : State} {h : Run}

-- What is published was built by allowed commits only; a region's publication follows that of
-- its last branch, with the same state.
structure Descends (g : CompiledGraph) (gate : Option Gate) (init : State) (past : Run)
    (observation : GraphObservation) : Prop where
  built : Built g gate init past observation.state
  approved : Approved past
  named : observation.event.kind = .nodeEnd → observation.event.node ≠ none
  branch : observation.event.kind = .superstepCommit → ∃ before last,
    past = before ++ [.emit last] ∧ last.event.kind = .nodeEnd ∧ last.state = observation.state

def Descending (g : CompiledGraph) (gate : Option Gate) (init : State) : Run → Prop :=
  Always fun past e => ∀ observation, e = .emit observation →
    publishes observation.event.kind = true → Descends g gate init past observation

-- The scheduler holds `state` after the run `t`.
structure Holds (g : CompiledGraph) (gate : Option Gate) (init state : State) (t : Run) : Prop where
  built : Built g gate init t state
  approved : Approved t
  descending : Descending g gate init t

-- An event that neither publishes nor asks for a commit.
def Plain : Event → Prop
  | .emit observation => publishes observation.event.kind = false
  | .act (.beforeCommit _) _ => False
  | _ => True

omit [Sha256] in
theorem Approved.append {u : Run} (ha : Approved h) (hu : ∀ e ∈ u, Plain e) : Approved (h ++ u) := by
  intro request reply hm
  rcases List.mem_append.mp hm with hm | hm
  · exact ha request reply hm
  · exact (hu _ hm).elim

theorem Descending.append {u : Run} (hd : Descending g gate init h) (hu : ∀ e ∈ u, Plain e) :
    Descending g gate init (h ++ u) := by
  refine always_append.mpr ⟨hd, ?_⟩
  rintro past e post rfl observation rfl hpublishes
  have hplain : publishes observation.event.kind = false := hu (.emit observation) (by simp)
  exact absurd (hpublishes.symm.trans hplain) nofun

theorem Holds.append {u : Run} (hh : Holds g gate init state h) (hu : ∀ e ∈ u, Plain e) :
    Holds g gate init state (h ++ u) :=
  ⟨hh.built.mono (List.subset_append_left h u), hh.approved.append hu, hh.descending.append hu⟩

theorem Holds.emit {observation : GraphObservation} (hh : Holds g gate init state h)
    (hkind : publishes observation.event.kind = false) :
    Holds g gate init state (h ++ [.emit observation]) :=
  hh.append fun _ he => List.mem_singleton.mp he ▸ hkind

theorem Descending.emit {observation : GraphObservation} (hd : Descending g gate init h)
    (hkind : publishes observation.event.kind = false) :
    Descending g gate init (h ++ [.emit observation]) :=
  hd.append fun _ he => List.mem_singleton.mp he ▸ hkind

def uncommitting : Op → Prop
  | .beforeCommit _ => False
  | _ => True

omit [Sha256] in
theorem plain_of_uncommitting {op : Op} {answer : Core.Ans op} (h : uncommitting op) :
    Plain (.act (S := Core) op answer) := by
  cases op <;> trivial

abbrev Raises (g : CompiledGraph) (gate : Option Gate) (init : State) (_ : Exn) : Run → Prop :=
  Descending g gate init

theorem silently {α : Type} {p : Step α} (hh : Holds g gate init state h) (hp : p.Asks uncommitting) :
    Ensures acting (fun _ => Holds g gate init state) p (fun _ => Holds g gate init state) h := by
  refine .asks hp (fun t op answer hop hh => hh.append fun e he => ?_) hh
  exact List.mem_singleton.mp he ▸ plain_of_uncommitting hop

theorem quietly {α : Type} {p : Step α} (hh : Holds g gate init state h) (hp : p.Asks uncommitting) :
    Ensures acting (Raises g gate init) p (fun _ => Holds g gate init state) h :=
  (silently hh hp).mono (fun _ _ hh => hh) fun _ _ hh => hh.descending

theorem orStop_descends {α : Type} {at_ : State} {node : Str} {steps : Nat}
    {decision : Option GateDecision} {next : Scheduler (Option α)} {R : α → Run → Prop}
    (hd : Descending g gate init h)
    (hnext : decision = none → Ensures generating (Raises g gate init) next
      (Rule.Goes (Descending g gate init) R) h) :
    Ensures generating (Raises g gate init) (orStop at_ node steps decision next)
      (Rule.Goes (Descending g gate init) R) h := by
  refine Rule.orStop hnext (fun d observation _ ho => ?_) fun _ _ _ => hd
  obtain ⟨closed, -, rfl⟩ := stopped_eq ho
  exact hd.emit rfl

theorem resolveEdge_holds {source : Str} {edge : Edge} (hh : Holds g gate init state h) :
    Ensures acting (Raises g gate init) (resolveEdge g source edge state)
      (fun taken => Holds g gate init taken.2) h := by
  refine Rule.resolveEdge (fun target _ => .ofExcept (fun _ _ => hh) fun _ _ => hh.descending)
    (fun _ _ _ _ => hh.descending) fun fn reply _ => ?_
  have hcalled : Holds g gate init state
      (h ++ [Event.enter (.router source fn state), Event.leave (.router source fn state) reply]) :=
    hh.append (by simp [Plain])
  have hleft : Event.leave (.router source fn state) reply ∈
      h ++ [Event.enter (.router source fn state), Event.leave (.router source fn state) reply] := by
    simp
  exact .ofExcept (fun _ _ => ⟨hcalled.built.router hleft, hcalled.approved, hcalled.descending⟩)
    fun _ _ => hcalled.descending

theorem route_descends {source : Str} {edge : Edge} {steps : Nat} (hh : Holds g gate init state h) :
    Ensures generating (Raises g gate init) (route g gate source edge state steps)
      (Rule.Goes (Descending g gate init) fun next => Holds g gate init next.2) h := by
  refine .andThen (.lift (quietly hh (dispatch_asks trivial))) fun asked t hh =>
    orStop_descends hh.descending fun _ => ?_
  refine .andThen (.lift (quietly hh (beforeStart_asks fun _ _ => trivial))) fun _ t hh => ?_
  refine .andThen (.lift (resolveEdge_holds hh)) fun taken t hh => ?_
  exact .bind (.emit (.ret (hh.emit rfl)))

-- A delta that is about to be committed, but for the gate's consent.
def Ready (g : CompiledGraph) (gate : Option Gate) (state : State) (delta : Delta) (t : Run) : Prop :=
  ∀ u, t ⊆ u → Granted gate u delta → Commits g gate u state delta

-- What the gate makes of a commit.
theorem commit_holds {boundary : CommitBoundary} {nodes : List Str} {steps : Nat}
    {source batchId : Option Str} {delta : Delta} (hh : Holds g gate init state h)
    (hr : Ready g gate state delta h) :
    Ensures acting (Raises g gate init) (commit gate boundary nodes steps source batchId delta)
      (fun asked t => Descending g gate init t ∧
        (asked.1 = none → Holds g gate init state t ∧ Commits g gate t state delta)) h := by
  have hask : ∀ (request : CommitRequest) reply,
      Descending g gate init (h ++ [.beforeCommit request reply]) := by
    intro request reply
    exact always_snoc.mpr ⟨hh.descending, fun _ he => nomatch he⟩
  refine Rule.commit (fun hgate => ?_) (fun _ _ => hh.descending) (fun digest _ hdigest => ?_)
    (fun digest reason _ => ⟨hask _ _, nofun⟩) fun digest reply _ _ => hask _ _
  · exact ⟨hh.descending, fun _ => ⟨hh, hr h (List.Subset.refl h) fun hne => absurd hgate hne⟩⟩
  · refine ⟨hask _ _, fun _ => ⟨⟨hh.built.mono (List.subset_append_left h _), ?_, hask _ _⟩, ?_⟩⟩
    · intro request' reply' hm
      rcases List.mem_append.mp hm with hm | hm
      · exact hh.approved request' reply' hm
      · cases List.mem_singleton.mp hm
        rfl
    · have hasked : Event.beforeCommit ⟨boundary, nodes, steps, source, some digest, batchId⟩
          (.decided .allow) ∈ h ++ [Event.beforeCommit ⟨boundary, nodes, steps, source, some digest,
          batchId⟩ (.decided .allow)] := by simp
      exact hr _ (List.subset_append_left h _) fun _ => ⟨_, hasked, digest, hdigest, rfl⟩

theorem Holds.publish {observation : GraphObservation} (hh : Holds g gate init state h)
    (hstate : observation.state = state) (hkind : observation.event.kind = .nodeEnd)
    (hnode : observation.event.node ≠ none) :
    Holds g gate init state (h ++ [.emit observation]) where
  built := hh.built.mono (List.subset_append_left h _)
  approved := by
    intro request reply hm
    rcases List.mem_append.mp hm with hm | hm
    · exact hh.approved request reply hm
    · cases List.mem_singleton.mp hm
  descending := by
    refine always_snoc.mpr ⟨hh.descending, ?_⟩
    rintro _ ⟨⟩ -
    exact ⟨hstate ▸ hh.built, hh.approved, fun _ => hnode,
      fun hcommit => absurd (hkind.symm.trans hcommit) nofun⟩

theorem publishNode_descends {node : Str} {steps : Nat} {delta : Delta}
    (hh : Holds g gate init state h) (hr : Ready g gate state delta h) :
    Ensures generating (Raises g gate init) (publishNode gate node state steps delta)
      (Rule.Goes (Descending g gate init) (Holds g gate init)) h := by
  refine .andThen (.lift (commit_holds hh hr)) fun asked t ⟨hd, hcommits⟩ =>
    orStop_descends hd fun hnone => ?_
  obtain ⟨hh, hc⟩ := hcommits hnone
  refine .bind (.ofExcept (fun merged hm => ?_) fun _ _ => hd)
  have hmerged : Holds g gate init merged t := ⟨hh.built.commit hc hm, hh.approved, hd⟩
  refine .andThen (.lift (quietly hmerged (.attempt (afterCommit_asks fun _ => trivial)))) fun _ t hh => ?_
  have hshown : Holds g gate init merged (t ++ [.emit (nodeEnded (steps + 1) merged (node, delta))]) :=
    hh.publish rfl rfl nofun
  exact .bind (.emit (.bind (.ofExcept (fun _ _ => .ret hshown) fun _ _ => hshown.descending)))

theorem finishNode_descends {node name : Str} {fn : Fn} {handed : State} {steps : Nat} {reply : Reply}
    (hh : Holds g gate init reply.left h) (hleft : Event.leave (.node name fn handed) reply ∈ h) :
    Ensures generating (Raises g gate init) (finishNode gate node steps reply)
      (Rule.Goes (Descending g gate init) (Holds g gate init)) h := by
  unfold finishNode
  split
  · split_ifs
    · refine .bind (.ofExcept (fun _ _ => ?_) fun _ _ => hh.descending)
      exact .bind (.emit (.ret (hh.descending.emit rfl)))
    · exact .raise hh.descending
  · rename_i value hvalue
    refine .bind (.ofExcept (fun delta hdelta => ?_) fun _ _ => hh.descending)
    refine .bind (.ofExcept (fun detached hdetach => ?_) fun _ _ => hh.descending)
    obtain rfl := detach_eq hdetach
    unfold requireDelta at hdelta
    split at hdelta
    · obtain rfl := Except.ok.inj hdelta
      exact publishNode_descends hh fun u hu hgranted => .node (hu hleft) hvalue hgranted
    · cases hdelta

theorem runNode_descends {node : Str} {steps : Nat} (hh : Holds g gate init state h) :
    Ensures generating (Raises g gate init) (runNode g gate node state steps)
      (Rule.Goes (Descending g gate init) (Holds g gate init)) h := by
  refine .bind (.ofExcept (fun fn _ => ?_) fun _ _ => hh.descending)
  refine .bind (.ofExcept (fun visited hv => ?_) fun _ _ => hh.descending)
  have hvisited : Holds g gate init visited h := ⟨hh.built.visit hv, hh.approved, hh.descending⟩
  have hstarted : Holds g gate init visited (h ++ [.emit (nodeStarted steps visited node)]) :=
    hvisited.emit rfl
  refine .bind (.emit (.andThen (.lift (quietly hstarted (dispatch_asks trivial))) fun asked t hh =>
    orStop_descends hh.descending fun _ => ?_))
  refine .andThen (.lift (quietly hh (beforeStart_asks fun _ _ => trivial))) fun _ t hh => ?_
  refine .bind (.lift (Rule.invoke fun reply => ?_))
  have hcalled : Holds g gate init visited
      (t ++ [Event.enter (.node node fn visited), Event.leave (.node node fn visited) reply]) :=
    hh.append (by simp [Plain])
  have hleft : Event.leave (.node node fn visited) reply ∈
      t ++ [Event.enter (.node node fn visited), Event.leave (.node node fn visited) reply] := by
    simp
  exact finishNode_descends ⟨hcalled.built.node hleft, hcalled.approved, hcalled.descending⟩ hleft

omit [Sha256] in
theorem runBranch_supplied {source : Str} {snapshot : State} {name : Str} :
    Ensures acting (fun _ _ => True) (runBranch g source snapshot name)
      (fun item t => ∀ delta, item.outcome = .ok delta → Supplied t source snapshot item.name delta) h := by
  unfold runBranch
  cases nodeFor g name with
  | error exc => exact .ret nofun
  | ok fn =>
      refine .bind (Rule.invoke fun reply => ?_)
      split
      · split_ifs
        · exact .ret nofun
        · exact .raise trivial
      · rename_i value hvalue
        refine .ret fun delta hdelta => ?_
        unfold requireDelta at hdelta
        split at hdelta
        · exact ⟨fn, reply, _, by simp, hvalue, (Except.ok.inj hdelta).symm⟩
        · cases hdelta

omit [Sha256] in
theorem branchCall_supplied {source batchId : Str} {snapshot : State} {steps : Nat} {name : Str} :
    Ensures acting (fun _ _ => True) (branchCall g gate source batchId snapshot steps name)
      (fun item t => ∀ delta, item.outcome = .ok delta → Supplied t source snapshot item.name delta) h := by
  have hany : ∀ {α : Type} (p : Step α) (h : Run), Ensures acting (fun _ _ => True) p (fun _ _ => True) h :=
    fun p _ => .returns (.all p)
  unfold branchCall
  split_ifs
  · refine .andThen (hany _ _) ?_
    rintro (exc | ⟨_ | decision, request⟩) t -
    · exact .ret nofun
    · refine .andThen (hany _ _) ?_
      rintro (exc | _) t -
      · exact .ret nofun
      · exact runBranch_supplied
    · exact .ret nofun
  · exact runBranch_supplied

omit [Sha256] in
theorem interleaved_supplied {source batchId : Str} {snapshot : State} {steps : Nat} {names : List Str}
    {settled : List Settled} {t : Run}
    (hi : Interleaved acting (names.map (branchCall g gate source batchId snapshot steps)) t
      (settled.map .ok)) :
    ∀ branch ∈ succeeded settled, Supplied t source snapshot branch.1 branch.2 := by
  intro branch hbranch
  have hitem := Admission.mem_succeeded.mp hbranch
  obtain ⟨p, hp, s, hs, hsub⟩ := hi.exists_of_outcome (List.mem_map_of_mem hitem)
  obtain ⟨name, -, rfl⟩ := List.mem_map.mp hp
  exact (branchCall_supplied (h := []) s _ hs branch.2 rfl).mono hsub.subset

theorem Holds.publishAll {admitted : List (Str × Delta)} {completed : Nat}
    (hh : Holds g gate init state h) :
    Holds g gate init state (h ++ admitted.map fun item => .emit (nodeEnded completed state item)) := by
  induction admitted generalizing h with
  | nil => rwa [List.map_nil, List.append_nil]
  | cons item rest ih =>
      rw [List.map_cons, List.append_cons]
      exact ih (hh.publish rfl rfl nofun)

-- The region's own publication, after those of its branches.
theorem Holds.publishRegion {admitted : List (Str × Delta)} {completed : Nat} {source : Str}
    {edge : FanOut} {merged : Delta} {provenance : Provenance} (hh : Holds g gate init state h)
    (hne : admitted ≠ []) :
    Holds g gate init state (h ++ (admitted.map fun item => .emit (nodeEnded completed state item)) ++
      [.emit (superstepCommitted source edge completed (admitted.map Prod.fst) state merged provenance)]) := by
  have hall : Holds g gate init state
      (h ++ admitted.map fun item => .emit (nodeEnded completed state item)) := hh.publishAll
  refine ⟨hall.built.mono (List.subset_append_left _ _), ?_, always_snoc.mpr ⟨hall.descending, ?_⟩⟩
  · intro request reply hm
    rcases List.mem_append.mp hm with hm | hm
    · exact hall.approved request reply hm
    · cases List.mem_singleton.mp hm
  · rintro _ ⟨⟩ -
    refine ⟨hall.built, hall.approved, nofun, fun _ => ?_⟩
    obtain ⟨before, last, rfl⟩ := (List.eq_nil_or_concat admitted).resolve_left hne
    refine ⟨h ++ before.map fun item => .emit (nodeEnded completed state item),
      nodeEnded completed state last, ?_, rfl, rfl⟩
    rw [List.concat_eq_append, List.map_append, List.append_assoc]
    rfl

section Region

variable {source batchId : Str} {edge : FanOut} {snapshot : State} {steps completed : Nat}
  {settled : List Settled} {admitted : List (Str × Delta)}

theorem publishRegion_descends {progress : steps ≤ completed} {merged : Delta} {provenance : Provenance}
    (hh : Holds g gate init snapshot h) (hr : Ready g gate snapshot merged h) (hne : admitted ≠ []) :
    Ensures generating (Raises g gate init)
      (publishRegion gate source edge state snapshot steps completed progress batchId admitted merged
        provenance)
      (Rule.Goes (Descending g gate init) fun result => Holds g gate init result.state) h := by
  refine .andThen (.lift (commit_holds hh hr)) fun asked t ⟨hd, hcommits⟩ =>
    orStop_descends hd fun hnone => ?_
  obtain ⟨hh, hc⟩ := hcommits hnone
  refine .bind (.ofExcept (fun committed hm => ?_) fun _ _ => hd)
  have hcommitted : Holds g gate init committed t := ⟨hh.built.commit hc hm, hh.approved, hd⟩
  refine .andThen (.lift (quietly hcommitted (.attempt (afterCommit_asks fun _ => trivial)))) fun _ t hh => ?_
  have hshown : Holds g gate init committed
      (t ++ (admitted.map fun item => .emit (nodeEnded completed committed item)) ++
        [.emit (superstepCommitted source edge completed (admitted.map Prod.fst) committed merged
          provenance)]) := hh.publishRegion hne
  exact .bind (.emitAll (.bind (.emit (.bind (.ofExcept (fun _ _ => .ret hshown) fun _ _ =>
    hshown.descending)))))

-- What a region whose branches have settled may still commit.
structure Settling (g : CompiledGraph) (source : Str) (edge : FanOut) (snapshot : State)
    (settled : List Settled) (t : Run) : Prop where
  followed : g.edgeOf source = .fanout edge
  names : settled.map Settled.name = edge.branches
  supplied : ∀ branch ∈ succeeded settled, Supplied t source snapshot branch.1 branch.2
  calm : branchVerdict source (errors settled) = .ok none
  running : firstInterrupt settled = none

theorem foldRegion_descends {progress : steps ≤ completed} (hh : Holds g gate init snapshot h)
    (hs : Settling g source edge snapshot settled h) (ha : Admits h source edge.join settled admitted)
    (hne : admitted ≠ []) :
    Ensures generating (Raises g gate init)
      (foldRegion g gate source edge state snapshot steps completed progress batchId admitted)
      (Rule.Goes (Descending g gate init) fun result => Holds g gate init result.state) h := by
  refine .andThen (.lift (quietly hh (dispatch_asks trivial)).grows) fun asked t ⟨ht, hh⟩ =>
    orStop_descends hh.descending fun _ => ?_
  have hfold : Ensures acting (Raises g gate init)
      (catchBoundaryStop (fold g gate source snapshot admitted asked.2))
      (fun folded u => Holds g gate init snapshot u ∧ ∀ result, folded = .ok result →
        ∃ fields, (∀ key, (∃ field ∈ fields, key = .str field) ↔
          ∃ branch ∈ admitted, key ∈ branch.2.keys) ∧
          Folding.Folded g source snapshot admitted fields result.1 result.2 u) t := by
    have hasks : (fold g gate source snapshot admitted asked.2).Asks uncommitting :=
      fold_asks (fun _ _ => ⟨trivial, trivial⟩) fun _ _ _ _ => ⟨trivial, trivial⟩
    refine Rule.catchBoundaryStop (((silently hh hasks).and Folding.fold_folded).mono ?_ ?_)
    · rintro result u ⟨hh, hfolded⟩
      exact ⟨hh, fun _ he => Except.ok.inj he ▸ hfolded⟩
    · exact fun _ _ hh => ⟨hh.descending, fun _ _ => ⟨hh, nofun⟩⟩
  refine .andThen (.lift hfold.grows) ?_
  rintro (decision | ⟨merged, provenance⟩) u ⟨hu, hh, hfolded⟩
  · exact orStop_descends hh.descending nofun
  · obtain ⟨fields, hfields, hfolded⟩ := hfolded _ rfl
    refine .bind (.ofExcept (fun detached hdetach => ?_) fun _ _ => hh.descending)
    obtain rfl := detach_eq hdetach
    refine publishRegion_descends hh (fun v hv hgranted => ?_) hne
    have hhv : h ⊆ v := List.Subset.trans ht (List.Subset.trans hu hv)
    exact .region hs.followed hs.names (fun branch hm => (hs.supplied branch hm).mono hhv) hs.calm hs.running
      (ha.mono hhv) hfields (folded_mono hfolded hv) hgranted

theorem joinRegion_descends (hh : Holds g gate init snapshot h) (hedge : g.edgeOf source = .fanout edge)
    (hnames : settled.map Settled.name = edge.branches)
    (hsupplied : ∀ branch ∈ succeeded settled, Supplied h source snapshot branch.1 branch.2) :
    Ensures generating (Raises g gate init)
      (joinRegion g gate source edge state snapshot steps batchId settled)
      (Rule.Goes (Descending g gate init) fun result => Holds g gate init result.state) h := by
  refine .bind (.ofExcept (fun verdict hverdict => orStop_descends hh.descending fun hnone => ?_)
    fun _ _ => hh.descending)
  subst hnone
  split
  · refine .bind (.ofExcept (fun _ _ => ?_) fun _ _ => hh.descending)
    exact .bind (.emit (.ret (hh.descending.emit rfl)))
  · rename_i hrunning
    refine .andThen (.lift (quietly hh (askJoin_asks fun _ _ => trivial)).grows) fun asked t ⟨ht, hh⟩ =>
      orStop_descends hh.descending fun _ => ?_
    refine .andThen (.lift (quietly hh (beforeStart_asks fun _ _ => trivial)).grows) fun _ u ⟨hu, hh⟩ => ?_
    have hsettled : settled ≠ [] := by
      rintro rfl
      have htwo := edge.two
      rw [← hnames] at htwo
      exact absurd htwo (by decide)
    have hadmit : Ensures acting (Raises g gate init) (admitBranches source edge.join settled)
        (fun admitted v => (Holds g gate init snapshot v ∧ u ⊆ v ∧
          Admits v source edge.join settled admitted) ∧ admitted ≠ []) u := by
      refine Ensures.and (fun v o he => ?_) (.returns (Admission.admit_nonempty hsettled))
      have hquiet := quietly hh (admit_asks fun _ _ => ⟨trivial, trivial⟩) v o he
      cases o with
      | error => exact hquiet
      | ok admitted => exact ⟨hquiet, List.subset_append_left u v, v, List.subset_append_right u v, he⟩
    refine .andThen (.lift hadmit) fun admitted v ⟨⟨hh, hv, ha⟩, hne⟩ => ?_
    have hhv : h ⊆ v := List.Subset.trans ht (List.Subset.trans hu hv)
    exact foldRegion_descends hh ⟨hedge, hnames, fun branch hm => (hsupplied branch hm).mono hhv, hverdict,
      hrunning⟩ ha hne

theorem runRegion_descends (hh : Holds g gate init state h) (hedge : g.edgeOf source = .fanout edge) :
    Ensures generating (Raises g gate init) (runRegion g gate source edge state steps)
      (Rule.Goes (Descending g gate init) fun result => Holds g gate init result.state) h := by
  refine .bind (.ofExcept (fun snapshot hsnapshot => ?_) fun _ _ => hh.descending)
  have hentered : Holds g gate init snapshot h :=
    ⟨hh.built.visit (enterRegion_visit hsnapshot), hh.approved, hh.descending⟩
  have hannounced : Holds g gate init snapshot
      (h ++ [.emit (superstepStarted source edge steps snapshot)] ++
        edge.branches.map fun name => .emit (nodeStarted steps snapshot name)) :=
    (hentered.emit rfl).append fun e he => by
      obtain ⟨name, -, rfl⟩ := List.mem_map.mp he
      rfl
  refine .bind (.bind (.emit (.emitAll ?_)))
  refine .andThen (.lift (quietly hannounced (.call trivial))) fun batchId t hh => ?_
  refine .andThen (.lift (quietly hh (dispatch_asks trivial))) fun asked t hh =>
    orStop_descends hh.descending fun _ => ?_
  refine .bind (.bind (.fork fun u outcomes hi => ?_))
  have hbranches : ∀ e ∈ u, Plain e := by
    intro e he
    obtain ⟨op, answer, rfl, hop⟩ := interleaved_asks hi (P := uncommitting) (fun p hp => by
      obtain ⟨name, -, rfl⟩ := List.mem_map.mp hp
      exact branchCall_asks trivial (fun _ => trivial) fun _ => ⟨trivial, trivial⟩) e he
    exact plain_of_uncommitting hop
  have hforked := hh.append hbranches
  refine .ofExcept (fun settled hr => ?_) fun _ _ => hforked.descending
  rw [results_ok hr] at hi
  exact joinRegion_descends hforked hedge (Protocol.settled_names hi) fun branch hm =>
    (interleaved_supplied hi branch hm).mono (List.subset_append_right t u)

theorem followRegion_descends {node : Str} (hh : Holds g gate init state h) :
    Ensures generating (Raises g gate init) (followRegion g gate node state steps)
      (Rule.Goes (Descending g gate init) fun next => Holds g gate init next.1.state) h := by
  unfold followRegion
  split
  · rename_i region hedge
    refine .andThen (runRegion_descends hh hedge) ?_
    rintro (_ | result) t hq
    · exact .ret hq
    · exact .ret hq
  · exact .ret hh

end Region

theorem finish_descends {steps : Nat} (hd : Descending g gate init h) :
    Ensures generating (Raises g gate init) (finish state steps) (fun _ => Descending g gate init) h :=
  .bind (.ofExcept (fun _ _ => .emit (hd.emit rfl)) fun _ _ => hd)

theorem run_descends {t : Run} {o : Except Exn Unit}
    (he : Exec generating (run g gate init) t o) : Descending g gate init t := by
  have hstart : Holds g gate init init [] := ⟨.init, nofun, always_nil⟩
  have hrun : Ensures generating (Raises g gate init) (run g gate init)
      (fun _ => Descending g gate init) [] := by
    refine Rule.run (I := fun _ state _ _ => Holds g gate init state) (J := fun _ state _ => Holds g gate init state)
      (K := fun _ _ state _ => Holds g gate init state) (route_descends hstart) ?_ ?_ ?_ ?_ ?_
    · exact fun _ _ _ _ hh => finish_descends hh.descending
    · exact fun _ _ _ _ _ hh _ => hh.descending
    · exact fun _ _ _ _ _ hh _ _ => runNode_descends hh
    · exact fun _ _ _ _ hh => followRegion_descends hh
    · exact fun _ _ _ _ _ hh => route_descends hh
  have hend := hrun t o he
  cases o <;> exact hend

end Descent

end PerpetuaCore.Graph.Lineage
