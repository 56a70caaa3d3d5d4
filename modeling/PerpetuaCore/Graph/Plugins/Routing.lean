import PerpetuaCore.Graph.Builder
import PerpetuaCore.Graph.Safety

namespace PerpetuaCore.Graph

open Interaction
open Python (Str Value Dict)

-- `LabelRouter`. The policy answers as any router does: with a label, or an error.
structure LabelRouter where
  policy : State → Reply
  labels : Dict Str Str

namespace LabelRouter

def new (policy : State → Reply) : LabelRouter := ⟨policy, .empty⟩

def register (router : LabelRouter) (label node : Str) : LabelRouter :=
  { router with labels := router.labels.set label node }

def registerAll (router : LabelRouter) (registrations : List (Str × Str)) : LabelRouter :=
  registrations.foldl (fun router entry => router.register entry.1 entry.2) router

-- `self._labels[label]`, after `label not in self._labels`.
def target (router : LabelRouter) (label : Value) : Except Exn Value :=
  let unregistered := Exn.keyError ["LabelRouter: no node registered for label ", .repr label]
  match label with
  | .str name =>
      match router.labels.get? name with
      | some node => .ok (.str node)
      | none => .error unregistered
  | label =>
      if label.hashable then .error unregistered
      else .error (.typeError ["unhashable type: '", .insert label.typeName, "'"])

-- The closure of `as_edge`.
def edge (router : LabelRouter) (state : State) : Reply :=
  let answer := router.policy state
  ⟨answer.result.bind router.target, answer.left⟩

variable {router : LabelRouter} {policy : State → Reply} {registrations : List (Str × Str)}

theorem mem_of_registered {label node : Str}
    (h : ((new policy).registerAll registrations).labels.get? label = some node) :
    (label, node) ∈ registrations := by
  induction registrations using List.reverseRecOn with
  | nil => cases h
  | append_singleton registrations entry ih =>
      rw [registerAll, List.foldl_append] at h
      change (((new policy).registerAll registrations).labels.set entry.1 entry.2).get? label = _ at h
      rw [Dict.get?_set] at h
      split_ifs at h with hlabel
      · obtain rfl := Option.some.inj h
        exact List.mem_append_right _ (hlabel ▸ List.mem_singleton_self _)
      · exact List.mem_append_left _ (ih h)

theorem registerAll_policy : ((new policy).registerAll registrations).policy = policy := by
  induction registrations using List.reverseRecOn with
  | nil => rfl
  | append_singleton registrations entry ih =>
      rw [registerAll, List.foldl_append]
      exact ih

theorem target_eq_ok {label value : Value} (h : router.target label = .ok value) :
    ∃ name node, label = .str name ∧ router.labels.get? name = some node ∧ value = .str node := by
  unfold target at h
  split at h
  · rename_i name
    split at h
    · rename_i node hnode
      exact ⟨name, node, rfl, hnode, (Except.ok.inj h).symm⟩
    · cases h
  · split_ifs at h

theorem target_error {label : Value} {error : Exn} (h : router.target label = .error error) :
    error.isStructural = false := by
  unfold target at h
  split at h
  · split at h
    · cases h
    · obtain rfl := Except.error.inj h
      rfl
  · split_ifs at h <;> obtain rfl := Except.error.inj h <;> rfl

theorem edge_eq_ok {state : State} {value : Value} (h : (router.edge state).result = .ok value) :
    ∃ name node, router.labels.get? name = some node ∧ value = .str node := by
  obtain ⟨label, -, htarget⟩ := Python.bind_eq_ok.mp h
  obtain ⟨name, node, -, hnode, hvalue⟩ := target_eq_ok htarget
  exact ⟨name, node, hnode, hvalue⟩

end LabelRouter

namespace Routing

-- Where a router of `source` may lead: to a target it declares, or anywhere if it declares none.
def Leads (g : CompiledGraph) (source target : Str) : Prop :=
  ∀ edge, g.edges.get? source = some edge →
    target ∈ edge.declaredTargets ∨ edge.declaredTargets = [] ∧ (target = END ∨ g.nodes.contains target)

-- Every router is the edge of a label router, whatever its policy, that registers such nodes only.
def Labelled (g : CompiledGraph) (t : Run) : Prop :=
  ∀ source fn state reply, Event.leave (.router source fn state) reply ∈ t →
    ∃ policy registrations, (∀ label node, (label, node) ∈ registrations → Leads g source node) ∧
      reply = ((LabelRouter.new policy).registerAll registrations).edge state

variable {g : CompiledGraph} {t : Run}

theorem leads_of_reply (hl : Labelled g t) {source : Str} {fn : Fn} {state : State} {reply : Reply}
    (hm : Event.leave (.router source fn state) reply ∈ t) {value : Value}
    (hv : reply.result = .ok value) : ∃ target, value = .str target ∧ Leads g source target := by
  obtain ⟨policy, registrations, hleads, rfl⟩ := hl _ _ _ _ hm
  obtain ⟨label, node, hnode, hvalue⟩ := LabelRouter.edge_eq_ok hv
  exact ⟨node, hvalue, hleads label node (LabelRouter.mem_of_registered hnode)⟩

theorem Labelled.declared (hl : Labelled g t) : Course.Declared g t := by
  intro source fn state reply hm edge hedge hne value hv
  obtain ⟨target, rfl, hleads⟩ := leads_of_reply hl hm hv
  rcases hleads _ hedge with hdeclared | ⟨hnone, -⟩
  · exact ⟨target, hdeclared, rfl⟩
  · exact absurd hnone hne

theorem Labelled.undeclared (hl : Labelled g t) : Safety.Undeclared g t := by
  intro source fn state reply hm edge hedge hnone value hv
  obtain ⟨target, rfl, hleads⟩ := leads_of_reply hl hm hv
  rcases hleads _ hedge with hdeclared | ⟨-, hknown⟩
  · rw [hnone] at hdeclared
    cases hdeclared
  · exact ⟨target, rfl, hknown⟩

section Run

variable [Sha256] [Builtins] {graph : MiniGraph} {gate : Option Gate} {start : State} {error : Exn}

omit [Sha256] [Builtins] in
theorem raised_router {source : Str} {fn : Fn} {state : State} {reply : Reply}
    (h : Event.raised? (.leave (.router source fn state) reply) = some error) :
    reply.result = .error error := by
  cases hr : reply.result with
  | error raised => simpa [Event.raised?, Callable.raised?, hr] using h
  | ok value => simp [Event.raised?, Callable.raised?, hr] at h

-- A label router cannot bring down a graph that was validated: no target it resolves is unknown
-- to the scheduler, and what it raises itself is no error of the scheduler's.
theorem labelled_run_safe (hg : graph.compileValidated = .ok g)
    (he : Exec generating (run g gate start) t (.error error)) (hl : Labelled g t)
    (hs : error.isStructural = true) :
    ∃ event ∈ t, event.raised? = some error ∧
      ∀ source fn state reply, event = .leave (.router source fn state) reply →
        ∃ policy registrations,
          reply = ((LabelRouter.new policy).registerAll registrations).edge state ∧
            (policy state).result = .error error := by
  obtain ⟨rfl, report, hreport, hvalid⟩ := Builder.compileValidated_eq_ok.mp hg
  obtain ⟨spec, hspec, hreport⟩ := Python.bind_eq_ok.mp hreport
  have hwired := Safety.wired_of_linted (describe_described hspec) (linted_of_valid hreport hvalid)
  have hforeign : Safety.Foreign graph.compile error t := Safety.run_safe (h := []) hwired t _ he
  obtain ⟨event, hm, hraised⟩ := hforeign hl.declared hl.undeclared hs
  refine ⟨event, hm, hraised, ?_⟩
  rintro source fn state reply rfl
  obtain ⟨policy, registrations, -, hreply⟩ := hl _ _ _ _ hm
  refine ⟨policy, registrations, hreply, ?_⟩
  have hresult := raised_router hraised
  rw [hreply] at hresult
  change (((LabelRouter.new policy).registerAll registrations).policy state).result.bind _ = _ at hresult
  rw [LabelRouter.registerAll_policy] at hresult
  cases hanswer : (policy state).result with
  | error raised =>
      rw [hanswer] at hresult
      exact hresult
  | ok label =>
      rw [hanswer] at hresult
      exact absurd hs (Bool.eq_false_iff.mp (LabelRouter.target_error hresult))

-- `Safety.returning` on the builder.
def looping : MiniGraph where
  nodes := Safety.returning.nodes
  edges := Safety.returning.edges

def again : List (Str × Str) := [("again", END), ("again", "a")]

def unknownNode : Exn := .valueError ["MiniGraph edge resolved to unknown node ", .repr (.str "b")]

-- The second time it runs, the node raises an error in the scheduler's own words.
def relapsing : Handler Core
  | .leave (.router _ _ state) =>
      ((LabelRouter.new fun state => ⟨.ok (.str "again"), state⟩).registerAll again).edge state
  | .leave (.node _ _ state) =>
      ⟨if state.get "nodes_visited" = .list [] then .ok (.dict []) else .error unknownNode, state⟩
  | op => obliging (fun _ => .dict []) op

omit [Sha256] [Builtins] in
theorem labelled_run_safe_relapsing :
    letI := Sha256.verbatim
    letI := quotingBuiltins
    let t := ((run looping.compile none (State.new "s")).simulate relapsing).1
    Exec generating (run looping.compile none (State.new "s")) t (.error unknownNode) ∧
      ∃ event ∈ t, Event.raised? event = some unknownNode := by
  let := Sha256.verbatim
  let := quotingBuiltins
  intro t
  have hvalid : looping.compileValidated = .ok looping.compile := by
    obtain ⟨g, hg⟩ : ∃ g, looping.compileValidated = .ok g := Python.exists_ok (by decide +kernel)
    rw [hg, ← (Builder.compileValidated_eq_ok.mp hg).1]
  have hrun := exec_simulate relapsing (run looping.compile none (State.new "s"))
  have hend : ((run looping.compile none (State.new "s")).simulate relapsing).2 =
      .error unknownNode := by rfl
  rw [hend] at hrun
  have hobeys := obeys_simulate relapsing (run looping.compile none (State.new "s"))
  have hlabelled : Labelled looping.compile t := by
    intro source fn state reply hm
    refine ⟨_, again, ?_, (hobeys _ _ hm)⟩
    intro label node hnode edge hedge
    have hitem := Dict.mem_items_of_get? hedge
    simp only [looping, MiniGraph.compile, Safety.returning, List.mem_cons, Prod.mk.injEq,
      List.not_mem_nil, or_false] at hitem
    simp only [again, List.mem_cons, Prod.mk.injEq, List.not_mem_nil, or_false] at hnode
    rcases hitem with ⟨-, rfl⟩ | ⟨-, rfl⟩
    · refine .inr ⟨rfl, ?_⟩
      rcases hnode with ⟨-, rfl⟩ | ⟨-, rfl⟩
      · exact .inl rfl
      · exact .inr (by decide)
    · refine .inl ?_
      rcases hnode with ⟨-, rfl⟩ | ⟨-, rfl⟩ <;> simp [Edge.declaredTargets]
  obtain ⟨event, hm, hraised, -⟩ := labelled_run_safe hvalid hrun hlabelled rfl
  exact ⟨hrun, event, hm, hraised⟩

end Run

end Routing

end PerpetuaCore.Graph
