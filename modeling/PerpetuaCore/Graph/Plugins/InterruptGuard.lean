import Mathlib.Data.List.Induction
import PerpetuaCore.Graph.Frame
import PerpetuaCore.Graph.Subgraphs

namespace PerpetuaCore.Graph.InterruptGuard

open Interaction
open Python (Str Value Dict)
open PerpetuaCore.Graph.Frame (Made kernelFields)
open Lineage (Built Commits spares leaves)
open Subgraphs (ending)

inductive ResumeMode where
  | merge
  | drop

-- `state.merge({"scratchpad": {**state.scratchpad, **answers}})`.
def mergeAnswers (state : State) (answers : Dict Value Value) : Except Exn State :=
  match state.get "scratchpad" with
  | .dict items =>
      state.merge (Dict.ofList [("scratchpad", .dict ((Dict.ofList items).update answers).items)])
  | value => .error (.typeError ["'", .insert value.typeName, "' object is not a mapping"])

-- `mode` is whatever the caller passes: a member of the enumeration, or any other object by its text.
def resumePolicy (state : State) (resumeValue : Dict Value Value) (mode : ResumeMode ⊕ Str)
    (dropKey : Option Str) : Except Exn State :=
  match mode with
  | .inl .merge => mergeAnswers state resumeValue
  | .inl .drop =>
      match dropKey with
      | none | some [] => .error (.valueError ["DROP mode requires drop_key"])
      | some key =>
          match resumeValue.get? (.str key) with
          | none => .error (.valueError ["resume_value lacks drop_key=", .repr key])
          | some value => mergeAnswers state (Dict.ofList [(.str key, value)])
  | .inr text => .error (.valueError ["unknown ResumeMode: ", .insert text])

-- A run that returned, and the answer the state it returned was resumed with.
structure Round where
  graph : CompiledGraph
  gate : Option Gate
  events : Run
  resumeValue : Dict Value Value
  mode : ResumeMode ⊕ Str
  dropKey : Option Str

-- What is left of the answer.
def Round.supplied (round : Round) : Dict Value Value :=
  match round.mode, round.dropKey with
  | .inl .drop, some key =>
      Dict.ofList ((round.resumeValue.get? (.str key)).toList.map fun value => (.str key, value))
  | _, _ => round.resumeValue

-- Each run starts anew from the state the run before it was resumed with.
inductive Session [Sha256] (init : State) : List Round → State → Prop
  | opened : Session init [] init
  | resumed {rounds : List Round} {round : Round} {state next : State}
      (hs : Session init rounds state)
      (he : Exec generating (run round.graph round.gate state) round.events (.ok ()))
      (hr : resumePolicy (ainvoke state round.events) round.resumeValue round.mode round.dropKey =
        .ok next) : Session init (rounds ++ [round]) next

def entryOf (key : Value) : Value → Option Value
  | .dict items => (Dict.ofList items).get? key
  | _ => none

-- `state.scratchpad.get(key)`.
def entry (key : Value) (state : State) : Option Value := entryOf key (state.get "scratchpad")

def written : Except Exn Value → Option Value
  | .ok (.dict items) => (Dict.ofList items).get? "scratchpad"
  | _ => none

-- A node that writes the scratchpad keeps what is there under the key, a branch writes none, and
-- what is handed the run's own state leaves it there as it is.
def minds (key : Value) : Event → Bool
  | .leave (.node _ _ state) reply =>
      decide (entry key (reply : Reply).left = entry key state) &&
        (written (reply : Reply).result).all fun pad => entryOf key pad = entry key state
  | .leave (.router _ _ state) reply => decide (entry key (reply : Reply).left = entry key state)
  | .leave (.branch ..) reply => !Lineage.writes "scratchpad" (reply : Reply).result
  | _ => true

section Resume

variable {state next : State} {answers : Dict Value Value} {key : Value} {field : Str} {round : Round}

theorem mergeAnswers_eq_ok (h : mergeAnswers state answers = .ok next) : ∃ items,
    state.get "scratchpad" = .dict items ∧ next = state.update
      (Dict.ofList [("scratchpad", .dict ((Dict.ofList items).update answers).items)]) := by
  unfold mergeAnswers at h
  split at h
  · rename_i items hitems
    exact ⟨items, hitems, State.merge_eq_update h⟩
  · cases h

theorem mergeAnswers_get (h : mergeAnswers state answers = .ok next) (hfield : field ≠ "scratchpad") :
    next.get field = state.get field := by
  obtain ⟨items, -, rfl⟩ := mergeAnswers_eq_ok h
  have hne : Value.str field ≠ "scratchpad" := fun he => hfield (Value.str.inj he)
  rw [State.get_update, Dict.get?_ofList (by simp)]
  simp [Dict.lookup_cons_ite, hne]

theorem mergeAnswers_entry (h : mergeAnswers state answers = .ok next) :
    entry key next = (answers.get? key).or (entry key state) := by
  obtain ⟨items, hitems, rfl⟩ := mergeAnswers_eq_ok h
  have hpad : (state.update (Dict.ofList
      [("scratchpad", .dict ((Dict.ofList items).update answers).items)])).get "scratchpad" =
        .dict ((Dict.ofList items).update answers).items := by
    rw [State.get_update, Dict.get?_ofList (by simp)]
    rfl
  rw [entry, entry, hpad, hitems, entryOf, entryOf, Dict.get?_ofList_items, Dict.get?_update]

-- Whatever the mode, an answer that is taken is merged as far as it is supplied.
theorem resumePolicy_merges
    (h : resumePolicy state round.resumeValue round.mode round.dropKey = .ok next) :
    mergeAnswers state round.supplied = .ok next := by
  obtain ⟨graph, gate, events, resumeValue, mode, dropKey⟩ := round
  rcases mode with (_ | _) | text
  · exact h
  · match dropKey with
    | none | some [] => cases h
    | some (c :: rest) =>
        simp only [resumePolicy] at h
        simp only [Round.supplied]
        cases hvalue : resumeValue.get? (.str (c :: rest)) with
        | none => rw [hvalue] at h; cases h
        | some value =>
            rw [hvalue] at h
            exact h
  · cases h

end Resume

section Entry

variable [Sha256] {g : CompiledGraph} {gate : Option Gate} {init state : State} {t : Run} {key : Value}

theorem commits_entry {delta : Delta} {merged : State} (hc : Commits g gate t state delta)
    (hm : state.merge delta = .ok merged) (hminds : ∀ e ∈ t, minds key e = true) :
    entry key merged = entry key state := by
  rw [entry, State.merge_eq_update hm, State.get_update]
  cases hc with
  | @node name fn handed reply items hleft hresult _ =>
      obtain ⟨hown, hpad⟩ := Bool.and_eq_true_iff.mp (hminds _ hleft)
      have hown : entry key reply.left = entry key handed := of_decide_eq_true hown
      rw [hresult, written] at hpad
      cases hwritten : (Dict.ofList items).get? ("scratchpad" : Value) with
      | none => rfl
      | some pad =>
          rw [hwritten] at hpad
          exact (of_decide_eq_true hpad).trans hown.symm
  | region _ _ hsupplied _ _ hadmits hfields hfolded _ =>
      have hnone : delta.get? ("scratchpad" : Value) = none := by
        refine Dict.get?_eq_none_iff.mpr fun hmem => ?_
        obtain ⟨branch, hbranch, hkey⟩ := (hfields _).mp ((hfolded.keys _).mp hmem)
        obtain ⟨fn, reply, items, hleft, hresult, hdelta⟩ :=
          hsupplied branch (hadmits.succeeded branch hbranch)
        have hkept : Lineage.writes "scratchpad" reply.result = false := by
          simpa [minds] using hminds _ hleft
        rw [hdelta] at hkey
        exact Dict.get?_eq_none_iff.mp (Lineage.unwritten_of_writes (hresult ▸ hkept)) hkey
      rw [hnone]
      rfl

theorem built_entry (h : Built g gate init t state) (hminds : ∀ e ∈ t, minds key e = true) :
    entry key state = entry key init := by
  induction h with
  | init => rfl
  | visit _ hv ih =>
      rw [← ih, entry, entry, Ledger.visit_eq hv, Ledger.Edit.apply, State.get_update,
        Dict.get?_ofList (by simp)]
      rfl
  | node _ hleft ih =>
      obtain ⟨hown, -⟩ := Bool.and_eq_true_iff.mp (hminds _ hleft)
      exact (of_decide_eq_true hown).trans ih
  | router _ hleft ih => exact (of_decide_eq_true (hminds _ hleft)).trans ih
  | commit _ hc hm ih => exact (commits_entry hc hm hminds).trans ih

-- All that a run shows has the entry the run was started with, unless a callable changed it.
theorem made_entry (h : Made g gate init t state) (hminds : ∀ e ∈ t, minds key e = true) :
    entry key state = entry key init := by
  obtain ⟨base, hbuilt, hclosed⟩ := h
  rcases hclosed with rfl | hcloses
  · exact built_entry hbuilt hminds
  · rw [entry, Frame.closes_get (by decide) hcloses]
    exact built_entry hbuilt hminds

theorem ainvoke_made {o : Except Exn Unit} (he : Exec generating (run g gate init) t o) :
    Made g gate init t (ainvoke init t) := by
  rcases List.eq_nil_or_concat (observations t) with hnil | ⟨shown, last, hlast⟩
  · rw [ainvoke, hnil]
    exact ⟨init, .init, .inl rfl⟩
  · have hshown := Frame.run_shown he last (by simp [hlast])
    rwa [ainvoke, hlast, List.concat_eq_append, List.foldl_append]

end Entry

section Session

variable [Sha256] {init state : State} {rounds before after : List Round} {round : Round} {key value : Value}

theorem Session.last (hs : Session init (rounds ++ [round]) state) : ∃ started,
    Session init rounds started ∧
      Exec generating (run round.graph round.gate started) round.events (.ok ()) ∧
      mergeAnswers (ainvoke started round.events) round.supplied = .ok state := by
  generalize hall : rounds ++ [round] = all at hs
  cases hs with
  | opened => simp at hall
  | resumed hs he hr =>
      obtain ⟨rfl, hround⟩ := List.append_inj' hall rfl
      obtain rfl := List.singleton_inj.mp hround
      exact ⟨_, hs, he, resumePolicy_merges hr⟩

-- An answer stays, run after run, until its key is answered anew or a callable changes it.
theorem Session.answered (hs : Session init (before ++ round :: after) state)
    (hkey : round.supplied.get? key = some value)
    (hlater : ∀ later ∈ after, later.supplied.get? key = none ∧
      ∀ e ∈ later.events, minds key e = true) : entry key state = some value := by
  induction after using List.reverseRecOn generalizing state with
  | nil =>
      obtain ⟨started, -, -, hmerge⟩ := hs.last
      rw [mergeAnswers_entry hmerge, hkey, Option.some_or]
  | append_singleton after later ih =>
      obtain ⟨hbetween, hlast⟩ := List.forall_mem_append.mp hlater
      obtain ⟨hunanswered, hminds⟩ := hlast later (List.mem_singleton_self _)
      rw [← List.cons_append, ← List.append_assoc] at hs
      obtain ⟨started, hs, he, hmerge⟩ := hs.last
      rw [mergeAnswers_entry hmerge, hunanswered, Option.none_or, made_entry (ainvoke_made he) hminds]
      exact ih hs hbetween

theorem Session.get_eq {field : Str} (hs : Session init rounds state)
    (hfield : field ∉ ("scratchpad" : Str) :: kernelFields)
    (hkept : ∀ round ∈ rounds, ∀ e ∈ round.events, spares field e = true ∧ leaves field e = true) :
    state.get field = init.get field := by
  obtain ⟨hpad, hkernel⟩ := not_or.mp (List.mem_cons.not.mp hfield)
  induction hs with
  | opened => rfl
  | @resumed rounds round started next hs he hr ih =>
      obtain ⟨hbefore, hlast⟩ := List.forall_mem_append.mp hkept
      have hevents := hlast round (List.mem_singleton_self _)
      rw [mergeAnswers_get (resumePolicy_merges hr) hpad]
      exact ((ainvoke_made he).get_eq hkernel (fun e hm => (hevents e hm).1)
        fun e hm => (hevents e hm).2).trans (ih hbefore)

-- No answer is lost, nothing but the scratchpad is answered, and an interrupted run is not taken
-- for one that was resumed.
theorem session_keeps (hs : Session init rounds state) :
    (∀ before round after key value, rounds = before ++ round :: after →
      round.supplied.get? key = some value →
      (∀ later ∈ after, later.supplied.get? key = none ∧ ∀ e ∈ later.events, minds key e = true) →
        entry key state = some value ∧
          ∀ g gate t o, Exec generating (run g gate state) t o → (∀ e ∈ t, minds key e = true) →
            ∀ observation ∈ observations t, entry key observation.state = some value) ∧
    (∀ field, field ∉ ("scratchpad" : Str) :: kernelFields →
      (∀ round ∈ rounds, ∀ e ∈ round.events, spares field e = true ∧ leaves field e = true) →
        state.get field = init.get field) ∧
    ∀ before round, rounds = before ++ [round] → ending round.events = some .interrupted →
      state.get "status" = "interrupted" := by
  refine ⟨?_, fun field hfield hkept => hs.get_eq hfield hkept, ?_⟩
  · rintro before round after key value rfl hkey hlater
    have hentry := hs.answered hkey hlater
    refine ⟨hentry, fun g gate t o he hminds observation hm => ?_⟩
    exact (made_entry (Frame.run_shown he observation hm) hminds).trans hentry
  · rintro before round rfl hending
    obtain ⟨started, -, he, hmerge⟩ := hs.last
    rw [mergeAnswers_get hmerge (by decide)]
    exact Subgraphs.status_interrupted he hending

end Session

-- A node asks for approval on every run; the first answer is merged, of the second one key is taken.
def askedFrom (state : State) : Run :=
  letI := Sha256.verbatim
  ((run Subgraphs.single none state).simulate Subgraphs.asking).1

def approval : Round :=
  ⟨Subgraphs.single, none, askedFrom (State.new "s"), Dict.ofList [("approved", .bool true)],
    .inl .merge, none⟩

def approved : State :=
  ((resumePolicy (ainvoke (State.new "s") approval.events) approval.resumeValue approval.mode
    approval.dropKey).toOption).getD (State.new "s")

def remark : Round :=
  ⟨Subgraphs.single, none, askedFrom approved,
    Dict.ofList [("approved", .bool false), ("note", "fine")], .inl .drop, some "note"⟩

theorem session_keeps_approved :
    letI := Sha256.verbatim
    ∃ state, Session (State.new "s") [approval, remark] state ∧
      entry "approved" state = some (.bool true) ∧ state.get "status" = "interrupted" := by
  let := Sha256.verbatim
  have hfirst := exec_simulate Subgraphs.asking (run Subgraphs.single none (State.new "s"))
  have hfirstEnd : ((run Subgraphs.single none (State.new "s")).simulate Subgraphs.asking).2 = .ok () := by
    rfl
  have hsecond := exec_simulate Subgraphs.asking (run Subgraphs.single none approved)
  have hsecondEnd : ((run Subgraphs.single none approved).simulate Subgraphs.asking).2 = .ok () := by
    rfl
  rw [hfirstEnd] at hfirst
  rw [hsecondEnd] at hsecond
  obtain ⟨state, hstate⟩ : ∃ state, resumePolicy (ainvoke approved remark.events) remark.resumeValue
      remark.mode remark.dropKey = .ok state := Python.exists_ok (by decide +kernel)
  have hopened : Session (State.new "s") ([] ++ [approval]) approved := .resumed .opened hfirst (by rfl)
  have hs : Session (State.new "s") [approval, remark] state := hopened.resumed hsecond hstate
  obtain ⟨hanswered, -, hstatus⟩ := session_keeps hs
  refine ⟨state, hs, ?_, hstatus [approval] remark rfl (by decide +kernel)⟩
  refine (hanswered [] approval [remark] _ _ rfl (by decide +kernel) fun later hm => ?_).1
  obtain rfl := List.mem_singleton.mp hm
  exact ⟨by decide +kernel, List.all_eq_true.mp (by decide +kernel)⟩

end PerpetuaCore.Graph.InterruptGuard
