import PerpetuaCore.Graph.Engine
import PerpetuaCore.Graph.Spec.Coercions

namespace PerpetuaCore.Graph.Validator

open Interaction
open Python (Str Value Dict)

-- A Pydantic model as far as `Validated` asks of it: whether it accepts these fields.
structure Schema where
  accepts : (Str → Option Value) → Bool

-- What calling a node hands back: a value, or something to be awaited, which runs on the
-- state object as it then is.
inductive Handed where
  | value (value : Value)
  | awaitable (wait : State → Reply)

structure Call where
  result : Except Exn Handed
  left : State

-- The callables the scheduler accepts as nodes. `object` has an async `__call__`, and a
-- plain function may hand back anything, also an awaitable.
inductive NodeCallable where
  | function (body : State → Call)
  | coroutineFunction (body : State → Reply)
  | object (body : State → Reply)
  | validated (inner : NodeCallable) (pre post : Option Schema)

-- `asyncio.iscoroutinefunction(fn)`.
def NodeCallable.isCoroutineFunction : NodeCallable → Bool
  | .coroutineFunction _ => true
  | _ => false

-- The two errors differ in their message only.
def preError : Exn := .other "ValidationError" none none 0

def postError : Exn := .other "ValidationError" none none 1

-- `{**state.scratchpad, **(delta.get("scratchpad") or {})}`.
def overlay (scratchpad written : Value) : Except Exn (Dict Value Value) :=
  match scratchpad, if truthy written then written else .dict [] with
  | .dict old, .dict new => .ok ((Dict.ofList old).update (Dict.ofList new))
  | .dict _, value | value, _ =>
      .error (.typeError ["'", .insert value.typeName, "' object is not a mapping"])

def isStr : Value → Bool
  | .str _ => true
  | _ => false

-- The keyword arguments `**fields`.
def keywords (fields : Dict Value Value) (key : Str) : Option Value := fields.get? (.str key)

-- `schema(**fields)`.
def construct (schema : Schema) (fields : Dict Value Value) (refusal : Exn) : Except Exn Unit :=
  if fields.keys.all isStr then
    if schema.accepts (keywords fields) then .ok () else .error refusal
  else .error (.typeError ["keywords must be strings"])

def checkPre [Dumping] (pre : Option Schema) (state : State) : Except Exn Unit :=
  pre.elim (.ok ()) fun schema => construct schema state.modelDump preError

def checkPost (post : Option Schema) (state : State) (delta : Value) : Except Exn Unit :=
  post.elim (.ok ()) fun schema =>
    match delta with
    | .dict items => do
        let merged ← overlay (state.get "scratchpad")
          (((Dict.ofList items).get? "scratchpad").getD .none)
        construct schema merged postError
    | _ => .error (.other "AttributeError" none none 0)

def coroutine : Value := .object "coroutine" 0 false

-- No StopIteration leaves a coroutine: who awaits it is raised a RuntimeError in its place.
def escaping (error : Exn) : Exn :=
  if error.typeName = ("StopIteration" : Str) then .other "RuntimeError" none none 0 else error

def awaited (reply : Reply) : Reply := ⟨reply.result.mapError escaping, reply.left⟩

-- `await fn(state) if asyncio.iscoroutinefunction(fn) else fn(state)`: what is not awaited
-- here is the result as it stands.
def await (isCoroutineFunction : Bool) (call : Call) : Reply :=
  match call.result with
  | .error error => ⟨.error error, call.left⟩
  | .ok (.value value) => ⟨.ok value, call.left⟩
  | .ok (.awaitable wait) =>
      if isCoroutineFunction then awaited (wait call.left) else ⟨.ok coroutine, call.left⟩

-- `Validated.__call__`, run when its coroutine is awaited.
def validate [Dumping] (pre post : Option Schema) (isCoroutineFunction : Bool) (inner : State → Call)
    (state : State) : Reply :=
  match checkPre pre state with
  | .error error => ⟨.error error, state⟩
  | .ok () =>
      let reply := await isCoroutineFunction (inner state)
      ⟨do
        let delta ← reply.result
        checkPost post reply.left delta
        return delta, reply.left⟩

-- `fn(state)`.
def NodeCallable.call [Dumping] : NodeCallable → State → Call
  | .function body, state => body state
  | .coroutineFunction body, state | .object body, state => ⟨.ok (.awaitable body), state⟩
  | .validated inner pre post, state =>
      ⟨.ok (.awaitable (validate pre post inner.isCoroutineFunction inner.call)), state⟩

-- How the scheduler runs a node: what it is handed back it awaits where it can be.
def NodeCallable.run [Dumping] (callable : NodeCallable) (state : State) : Reply :=
  await true (callable.call state)

-- The wrapper sees what the scheduler would: the callable is known to be a coroutine function,
-- or hands back no awaitable.
def Direct [Dumping] (callable : NodeCallable) (state : State) : Prop :=
  callable.isCoroutineFunction = true ∨ ∀ wait, (callable.call state).result ≠ .ok (.awaitable wait)

variable {inner : NodeCallable} {pre post : Option Schema} {state left published : State}
  {delta : Delta}

section Awaiting

variable [Dumping]

theorem await_direct (h : Direct inner state) :
    await inner.isCoroutineFunction (inner.call state) = inner.run state := by
  unfold NodeCallable.run
  rcases h with h | h
  · rw [h]
  · unfold await
    cases hresult : (inner.call state).result with
    | error error => rfl
    | ok handed =>
        cases handed with
        | value value => rfl
        | awaitable wait => exact absurd hresult (h wait)

theorem await_indirect (h : ¬Direct inner state) :
    (await inner.isCoroutineFunction (inner.call state)).result = .ok coroutine := by
  obtain ⟨hsync, hwait⟩ := not_or.mp h
  obtain ⟨wait, hwait⟩ := not_forall.mp hwait
  unfold await
  rw [not_not.mp hwait, Bool.eq_false_iff.mpr hsync]
  rfl

-- An object with an async `__call__`, `Validated` itself among them, is never seen through.
theorem not_direct_object {body : State → Reply} : ¬Direct (.object body) state := by
  rintro (h | h)
  · cases h
  · exact h body rfl

theorem not_direct_validated : ¬Direct (.validated inner pre post) state := by
  rintro (h | h)
  · cases h
  · exact h _ rfl

end Awaiting

-- The mapping of a scratchpad that is a dict with string keys.
def Maps (scratchpad : Value) (mapping : Str → Option Value) : Prop :=
  ∃ items, scratchpad = .dict items ∧ (Dict.ofList items).keys.all isStr = true ∧
    mapping = keywords (Dict.ofList items)

def Schema.Holds (schema : Schema) (scratchpad : Value) : Prop :=
  ∃ mapping, Maps scratchpad mapping ∧ schema.accepts mapping = true

-- The scratchpad is a mapping, and so is the one a delta supplies; that one replaces it, and
-- leaves out none of its keys.
structure Covers (state : State) (delta : Delta) : Prop where
  old : ∃ mapping, Maps (state.get "scratchpad") mapping
  new : ∀ written, delta.get? "scratchpad" = some written → ∃ mapping, Maps written mapping ∧
    ∀ old, Maps (state.get "scratchpad") old → ∀ key, (old key).isSome → (mapping key).isSome

theorem Maps.unique {scratchpad : Value} {mapping mapping' : Str → Option Value}
    (h : Maps scratchpad mapping) (h' : Maps scratchpad mapping') : mapping = mapping' := by
  obtain ⟨items, rfl, -, rfl⟩ := h
  obtain ⟨items', he, -, rfl⟩ := h'
  rw [Value.dict.inj he]

theorem keywords_update {old new : Dict Value Value} (key : Str) :
    keywords (old.update new) key = (keywords new key).or (keywords old key) :=
  Dict.get?_update old new _

theorem all_isStr_update {old new : Dict Value Value} :
    (old.update new).keys.all isStr = true ↔
      new.keys.all isStr = true ∧ old.keys.all isStr = true := by
  simp only [List.all_eq_true, Dict.mem_keys_update, or_imp, forall_and]

theorem escaping_eq_self {error : Exn} :
    escaping error = error ↔ error.typeName ≠ ("StopIteration" : Str) := by
  unfold escaping
  split_ifs with htype
  · refine iff_of_false (fun he => ?_) (not_not.mpr htype)
    rw [← he] at htype
    exact absurd htype (by decide)
  · exact iff_of_true rfl htype

theorem construct_escaping {schema : Schema} {fields : Dict Value Value} {refusal : Exn}
    (hrefusal : escaping refusal = refusal) :
    (construct schema fields refusal).mapError escaping = construct schema fields refusal := by
  unfold construct
  split_ifs
  · rfl
  · exact congrArg Except.error hrefusal
  · rfl

theorem overlay_cases (scratchpad written : Value) :
    (∃ message, overlay scratchpad written = .error (.typeError message)) ∨
    ∃ old new, scratchpad = .dict old ∧
      overlay scratchpad written = .ok ((Dict.ofList old).update (Dict.ofList new)) := by
  unfold overlay
  split
  · exact .inr ⟨_, _, rfl, rfl⟩
  · exact .inl ⟨_, rfl⟩
  · exact .inl ⟨_, rfl⟩

-- No error of the wrapper's own is a StopIteration.
theorem checkPost_escaping {delta : Value} :
    (checkPost post left delta).mapError escaping = checkPost post left delta := by
  cases post with
  | none => rfl
  | some schema =>
      cases delta with
      | dict items =>
          simp only [checkPost, Option.elim_some]
          rcases overlay_cases (left.get "scratchpad")
            (((Dict.ofList items).get? "scratchpad").getD .none) with ⟨message, h⟩ | ⟨old, new, -, h⟩
          · rw [h]
            rfl
          · rw [h]
            exact construct_escaping rfl
      | _ => rfl

-- What the wrapper expects the scratchpad to become is what it becomes.
theorem Covers.overlay (h : Covers left delta) :
    ∃ merged, Validator.overlay (left.get "scratchpad") ((delta.get? "scratchpad").getD .none) =
      .ok merged ∧ merged.keys.all isStr = true ∧
      Maps ((left.update delta).get "scratchpad") (keywords merged) := by
  obtain ⟨_, old, hold, hkeys, rfl⟩ := h.old
  rw [State.get_update, hold]
  cases hwritten : delta.get? "scratchpad" with
  | none =>
      refine ⟨(Dict.ofList old).update .empty, rfl, ?_, old, rfl, hkeys, rfl⟩
      exact all_isStr_update.mpr ⟨rfl, hkeys⟩
  | some written =>
      obtain ⟨_, ⟨new, rfl, hnew, rfl⟩, hcovers⟩ := h.new written hwritten
      have hoverlay : Validator.overlay (.dict old) (.dict new) =
          .ok ((Dict.ofList old).update (Dict.ofList new)) := by
        cases new <;> rfl
      refine ⟨_, hoverlay, all_isStr_update.mpr ⟨hnew, hkeys⟩, new, rfl, hnew, funext fun key => ?_⟩
      rw [keywords_update]
      cases hkey : keywords (Dict.ofList new) key with
      | some value => rfl
      | none =>
          have hnone := mt (hcovers _ ⟨old, hold, hkeys, rfl⟩ key) (by simp [hkey])
          simpa using (Option.not_isSome_iff_eq_none.mp hnone)

theorem checkPost_dict {schema : Schema} : checkPost (some schema) left (.dict delta.items) =
    (overlay (left.get "scratchpad") ((delta.get? "scratchpad").getD .none)).bind fun merged =>
      construct schema merged postError := by
  unfold checkPost
  rw [Option.elim_some, ← Dict.get?_ofList_items delta]
  rfl

section Wrapping

variable [Dumping]

theorem checkPre_none : checkPre none state = .ok () := rfl

theorem run_validated : (NodeCallable.validated inner pre post).run state =
    awaited (validate pre post inner.isCoroutineFunction inner.call state) :=
  rfl

theorem validate_direct (h : Direct inner state) (hpre : checkPre pre state = .ok ())
    (hcall : inner.run state = ⟨.ok (.dict delta.items), left⟩) :
    (NodeCallable.validated inner pre post).run state =
      ⟨(checkPost post left (.dict delta.items)).map fun _ => .dict delta.items, left⟩ := by
  rw [run_validated, validate, hpre]
  dsimp only
  rw [await_direct h, hcall]
  change Reply.mk (((checkPost post left _).map _).mapError escaping) left = _
  congr 1
  conv_rhs => rw [← checkPost_escaping]
  cases checkPost post left (.dict delta.items) <;> rfl

theorem validate_indirect (h : ¬Direct inner state) (hpre : checkPre pre state = .ok ()) :
    ((NodeCallable.validated inner pre post).run state).result =
      post.elim (.ok coroutine) fun _ => .error (.other "AttributeError" none none 0) := by
  rw [run_validated, validate, hpre]
  dsimp only
  rw [await_indirect h]
  cases post <;> rfl

-- The post-check decides what the scheduler is going to publish.
def Predicts (inner : NodeCallable) (schema : Schema) (state published : State) : Prop :=
  (∀ result, ((NodeCallable.validated inner none (some schema)).run state).result = .ok result →
    schema.Holds (published.get "scratchpad")) ∧
  (((NodeCallable.validated inner none (some schema)).run state).result = .error postError ↔
    ¬schema.Holds (published.get "scratchpad"))

theorem validate_result {schema : Schema} {merged : Dict Value Value} (hdirect : Direct inner state)
    (hpre : checkPre pre state = .ok ())
    (hcall : inner.run state = ⟨.ok (.dict delta.items), left⟩)
    (hoverlay : overlay (left.get "scratchpad") ((delta.get? "scratchpad").getD .none) = .ok merged)
    (hkeys : merged.keys.all isStr = true) :
    (NodeCallable.validated inner pre (some schema)).run state =
      ⟨if schema.accepts (keywords merged) then .ok (.dict delta.items) else .error postError,
        left⟩ := by
  rw [validate_direct hdirect hpre hcall, checkPost_dict, hoverlay]
  change Reply.mk (Except.map _ (construct schema merged postError)) left = _
  unfold construct
  rw [if_pos hkeys]
  split_ifs <;> rfl

-- The wrapper raises a TypeError whatever the schema, or asks the schema of one mapping.
theorem validate_cases (hdirect : Direct inner state) (hpre : checkPre pre state = .ok ())
    (hcall : inner.run state = ⟨.ok (.dict delta.items), left⟩) :
    (∃ message, ∀ schema, (NodeCallable.validated inner pre (some schema)).run state =
      ⟨.error (.typeError message), left⟩) ∨
    ∃ old new, left.get "scratchpad" = .dict old ∧
      ((Dict.ofList old).update (Dict.ofList new)).keys.all isStr = true ∧
      ∀ schema, (NodeCallable.validated inner pre (some schema)).run state =
        ⟨if schema.accepts (keywords ((Dict.ofList old).update (Dict.ofList new))) then
          .ok (.dict delta.items) else .error postError, left⟩ := by
  rcases overlay_cases (left.get "scratchpad") ((delta.get? "scratchpad").getD .none) with
    ⟨message, hoverlay⟩ | ⟨old, new, hold, hoverlay⟩
  · refine .inl ⟨message, fun schema => ?_⟩
    rw [validate_direct hdirect hpre hcall, checkPost_dict, hoverlay]
    rfl
  · by_cases hkeys : ((Dict.ofList old).update (Dict.ofList new)).keys.all isStr = true
    · exact .inr ⟨old, new, hold, hkeys, fun schema => validate_result hdirect hpre hcall hoverlay hkeys⟩
    · refine .inl ⟨["keywords must be strings"], fun schema => ?_⟩
      rw [validate_direct hdirect hpre hcall, checkPost_dict, hoverlay]
      change Reply.mk (Except.map _ (construct schema _ postError)) left = _
      rw [construct, if_neg hkeys]
      rfl

omit [Dumping] in
theorem Maps.holds_iff {schema : Schema} {scratchpad : Value} {mapping : Str → Option Value}
    (h : Maps scratchpad mapping) : schema.Holds scratchpad ↔ schema.accepts mapping = true := by
  constructor
  · rintro ⟨mapping', hmapping, haccepts⟩
    rwa [h.unique hmapping]
  · exact fun haccepts => ⟨mapping, h, haccepts⟩

-- Where the delta covers the scratchpad, the post-check decides what is going to be published.
theorem Covers.result {schema : Schema} (hcovers : Covers left delta) (hdirect : Direct inner state)
    (hpre : checkPre pre state = .ok ())
    (hcall : inner.run state = ⟨.ok (.dict delta.items), left⟩) :
    (schema.Holds ((left.update delta).get "scratchpad") ∧
      (NodeCallable.validated inner pre (some schema)).run state =
        ⟨.ok (.dict delta.items), left⟩) ∨
    (¬schema.Holds ((left.update delta).get "scratchpad") ∧
      (NodeCallable.validated inner pre (some schema)).run state = ⟨.error postError, left⟩) := by
  obtain ⟨merged, hoverlay, hkeys, hmaps⟩ := hcovers.overlay
  rw [validate_result hdirect hpre hcall hoverlay hkeys, hmaps.holds_iff]
  split_ifs with haccepts
  · exact .inl ⟨haccepts, rfl⟩
  · exact .inr ⟨haccepts, rfl⟩

theorem Covers.predicts {schema : Schema} (hcovers : Covers left delta) (hdirect : Direct inner state)
    (hcall : inner.run state = ⟨.ok (.dict delta.items), left⟩) :
    Predicts inner schema state (left.update delta) := by
  unfold Predicts
  rcases hcovers.result hdirect checkPre_none hcall with ⟨hholds, hresult⟩ | ⟨hnot, hresult⟩
  · rw [hresult]
    exact ⟨fun _ _ => hholds, iff_of_false nofun (not_not.mpr hholds)⟩
  · rw [hresult]
    exact ⟨nofun, iff_of_true rfl hnot⟩

-- A wrapper that expects exactly the published mapping was given a delta that covers it.
omit [Dumping] in
theorem covers_of_maps {old new : List (Value × Value)} (hold : left.get "scratchpad" = .dict old)
    (hkeys : ((Dict.ofList old).update (Dict.ofList new)).keys.all isStr = true)
    (hmaps : Maps ((left.update delta).get "scratchpad")
      (keywords ((Dict.ofList old).update (Dict.ofList new)))) : Covers left delta := by
  have hmapped : Maps (left.get "scratchpad") (keywords (Dict.ofList old)) :=
    ⟨old, hold, (all_isStr_update.mp hkeys).2, rfl⟩
  refine ⟨⟨_, hmapped⟩, fun written hwritten => ?_⟩
  rw [State.get_update, hwritten, Option.getD_some] at hmaps
  refine ⟨_, hmaps, fun old' hold' key hkey => ?_⟩
  rw [keywords_update, Option.isSome_or, hmapped.unique hold', hkey, Bool.or_true]

-- Where no schema that holds of the published scratchpad makes the wrapper raise, the wrapper
-- expects what is published.
theorem covers_of_results {mapping : Str → Option Value} (hdirect : Direct inner state)
    (hcall : inner.run state = ⟨.ok (.dict delta.items), left⟩)
    (hmaps : Maps ((left.update delta).get "scratchpad") mapping)
    (h : ∀ schema : Schema, schema.accepts mapping = true → ∃ result,
      ((NodeCallable.validated inner none (some schema)).run state).result = .ok result) :
    Covers left delta := by
  rcases validate_cases hdirect checkPre_none hcall with
    ⟨message, hresult⟩ | ⟨old, new, hold, hkeys, hresult⟩
  · obtain ⟨result, haccepted⟩ := h ⟨fun _ => true⟩ rfl
    rw [hresult] at haccepted
    cases haccepted
  · -- no schema tells the expected mapping from the published one
    have hsame : keywords ((Dict.ofList old).update (Dict.ofList new)) = mapping := by
      funext key
      by_contra hne
      obtain ⟨result, haccepts⟩ := h ⟨fun other => decide (other key = mapping key)⟩ (by simp)
      rw [hresult, if_neg (by simpa using hne)] at haccepts
      cases haccepts
    exact covers_of_maps hold hkeys (hsame ▸ hmaps)

-- For every schema at once, it does so just where the callable is seen through and its delta
-- covers the scratchpad.
theorem post_predicts_iff (hcall : inner.run state = ⟨.ok (.dict delta.items), left⟩)
    (hmerge : left.merge delta = .ok published) :
    (∀ schema, Predicts inner schema state published) ↔
      Direct inner state ∧ Covers left delta := by
  obtain rfl := State.merge_eq_update hmerge
  refine ⟨fun h => ?_, fun ⟨hdirect, hcovers⟩ schema => hcovers.predicts hdirect hcall⟩
  have hnever : ¬(⟨fun _ => false⟩ : Schema).Holds ((left.update delta).get "scratchpad") := by
    rintro ⟨_, _, haccepts⟩
    cases haccepts
  have hrejected := (h ⟨fun _ => false⟩).2.mpr hnever
  have hdirect : Direct inner state := by
    by_contra hindirect
    rw [validate_indirect hindirect rfl] at hrejected
    cases hrejected
  rcases validate_cases hdirect checkPre_none hcall with
    ⟨message, hresult⟩ | ⟨old, new, hold, hkeys, hresult⟩
  · rw [hresult] at hrejected
    cases hrejected
  · obtain ⟨mapping, hmaps, -⟩ := (h ⟨fun _ => true⟩).1 (.dict delta.items) (by rw [hresult]; rfl)
    refine ⟨hdirect, covers_of_results hdirect hcall hmaps fun schema haccepts => ?_⟩
    have hholds := hmaps.holds_iff.mpr haccepts
    have hraises := mt (h schema).2.mp (not_not.mpr hholds)
    rw [hresult] at hraises ⊢
    dsimp only at hraises ⊢
    split_ifs at hraises ⊢
    · exact ⟨_, rfl⟩
    · exact absurd rfl hraises

end Wrapping

def wiping : NodeCallable :=
  .function fun state => ⟨.ok (.value (.dict [("scratchpad", .dict [])])), state⟩

def spreading : NodeCallable :=
  .function fun state => ⟨.ok (.value (.dict [("scratchpad", state.get "scratchpad")])), state⟩

def answered : State :=
  (State.new "s").update (Dict.ofList [("scratchpad", .dict [("response", "ok")])])

def wiped : Delta := Dict.ofList [("scratchpad", .dict [])]

def spread : Delta := Dict.ofList [("scratchpad", .dict [("response", "ok")])]

theorem post_predicts_iff_spread :
    letI := Dumping.verbatim
    (∀ schema, Predicts spreading schema answered (answered.update spread)) ↔
      Direct spreading answered ∧ Covers answered spread :=
  letI := Dumping.verbatim
  post_predicts_iff rfl (State.merge_ok (by decide) (by decide))

-- A node that drops the response that the schema requires passes its post-check.
theorem wiped_response_passes :
    ¬∀ [Dumping] (inner : NodeCallable) (schema : Schema) (state left published : State) (delta : Delta),
      inner.run state = ⟨.ok (.dict delta.items), left⟩ → left.merge delta = .ok published →
      Predicts inner schema state published := by
  intro h
  let := Dumping.verbatim
  have hpredicts := h wiping ⟨fun fields => (fields "response").isSome⟩ answered answered
    (answered.update wiped) wiped rfl (State.merge_ok (by decide) (by decide))
  obtain ⟨mapping, ⟨items, hitems, -, rfl⟩, haccepts⟩ := hpredicts.1 (.dict wiped.items) rfl
  have hempty : (answered.update wiped).get "scratchpad" = .dict [] := by decide
  obtain rfl := Value.dict.inj (hempty.symm.trans hitems)
  cases haccepts

section Transparent

variable [Dumping]

-- The wrapper changes nothing of what the scheduler sees of a call.
def Same (inner : NodeCallable) (pre post : Option Schema) (state : State) : Prop :=
  (NodeCallable.validated inner pre post).run state = inner.run state

theorem same_iff_direct (hcall : inner.run state = ⟨.ok (.dict delta.items), left⟩) :
    (∀ pre, checkPre pre state = .ok () → Same inner pre none state) ↔ Direct inner state := by
  constructor
  · intro h
    by_contra hindirect
    have hresult : ((NodeCallable.validated inner none none).run state).result = .ok coroutine :=
      validate_indirect hindirect checkPre_none
    rw [h none checkPre_none, hcall] at hresult
    cases hresult
  · intro hdirect pre hpre
    rw [Same, validate_direct hdirect hpre hcall, hcall]
    rfl

theorem same_iff_covers {mapping : Str → Option Value}
    (hcall : inner.run state = ⟨.ok (.dict delta.items), left⟩)
    (hmaps : Maps ((left.update delta).get "scratchpad") mapping) :
    (∀ pre (schema : Schema), checkPre pre state = .ok () →
      schema.Holds ((left.update delta).get "scratchpad") → Same inner pre (some schema) state) ↔
      Direct inner state ∧ Covers left delta := by
  constructor
  · intro h
    have haccepted := h none ⟨fun _ => true⟩ checkPre_none (hmaps.holds_iff.mpr rfl)
    have hdirect : Direct inner state := by
      by_contra hindirect
      have hresult :
          ((NodeCallable.validated inner none (some ⟨fun _ => true⟩)).run state).result =
            .error (.other "AttributeError" none none 0) :=
        validate_indirect hindirect checkPre_none
      rw [haccepted, hcall] at hresult
      cases hresult
    refine ⟨hdirect, covers_of_results hdirect hcall hmaps fun schema haccepts => ?_⟩
    rw [h none schema checkPre_none (hmaps.holds_iff.mpr haccepts), hcall]
    exact ⟨_, rfl⟩
  · rintro ⟨hdirect, hcovers⟩ pre schema hpre hholds
    rcases hcovers.result hdirect hpre hcall with ⟨-, hresult⟩ | ⟨hnot, -⟩
    · exact hresult.trans hcall.symm
    · exact absurd hholds hnot

-- What a call raises is passed through by a wrapper that awaits what is to be awaited, but for
-- the StopIteration of a plain function.
theorem same_iff_raises {error : Exn} (hdirect : Direct inner state)
    (hpre : checkPre pre state = .ok ()) (hcall : inner.run state = ⟨.error error, left⟩) :
    Same inner pre post state ↔ error.typeName ≠ ("StopIteration" : Str) := by
  rw [Same, run_validated, validate, hpre]
  dsimp only
  rw [await_direct hdirect, hcall]
  change Reply.mk (.error (escaping error)) left = ⟨.error error, left⟩ ↔ _
  rw [Reply.mk.injEq, Except.error.injEq, escaping_eq_self]
  exact and_iff_left rfl

-- A call of a node, or of a branch, that ended with `reply`.
inductive Called (t : Run) (fn : Fn) (state : State) (reply : Reply) : Prop
  | node (name : Str) (h : Event.leave (.node name fn state) reply ∈ t)
  | branch (source name : Str) (h : Event.leave (.branch source name fn state) reply ∈ t)

-- The complete runs of a graph whose functions behave as `bind` has them, each call as one of
-- the callables that its function may be then.
def Runs [Sha256] (g : CompiledGraph) (gate : Option Gate) (init : State)
    (bind : Fn → NodeCallable → Prop) (t : Run) (o : Except Exn Unit) : Prop :=
  Exec generating (run g gate init) t o ∧
    ∀ fn state reply, Called t fn state reply →
      ∃ callable, bind fn callable ∧ reply = callable.run state

-- `Validated(fn, pre, post)` in place of `fn`.
def wrapping (bind : Fn → NodeCallable → Prop) (fn : Fn) (pre post : Option Schema) :
    Fn → NodeCallable → Prop := fun called callable =>
  if called = fn then ∃ inner, bind fn inner ∧ callable = .validated inner pre post
  else bind called callable

-- A callable whose result is a dict or an exception, called where both schemas hold.
structure Fitting (inner : NodeCallable) (pre post : Option Schema) (state : State) : Prop where
  delivers : ∀ value, (inner.run state).result = .ok value →
    ∃ delta : Delta, value = .dict delta.items
  accepted : checkPre pre state = .ok ()
  holds : ∀ schema, post = some schema → ∀ (delta : Delta) left,
    inner.run state = ⟨.ok (.dict delta.items), left⟩ →
      schema.Holds ((left.update delta).get "scratchpad")

-- One that the wrapper sees through, with a delta that covers the scratchpad if a post schema
-- is asked of it, and that raises no StopIteration.
structure Suited (inner : NodeCallable) (pre post : Option Schema) (state : State) : Prop
    extends Fitting inner pre post state where
  direct : Direct inner state
  passes : ∀ error left, inner.run state = ⟨.error error, left⟩ →
    error.typeName ≠ ("StopIteration" : Str)
  covered : post.isSome → ∀ (delta : Delta) left,
    inner.run state = ⟨.ok (.dict delta.items), left⟩ → Covers left delta

theorem Suited.same (h : Suited inner pre post state) : Same inner pre post state := by
  cases hcall : inner.run state with
  | mk result left =>
      cases result with
      | error error =>
          exact (same_iff_raises h.direct h.accepted hcall).mpr (h.passes error left hcall)
      | ok value =>
          obtain ⟨delta, rfl⟩ := h.delivers value (by rw [hcall])
          cases post with
          | none => exact (same_iff_direct hcall).mpr h.direct pre h.accepted
          | some schema =>
              rcases (h.covered rfl delta left hcall).result h.direct h.accepted hcall with
                ⟨-, hresult⟩ | ⟨hnot, -⟩
              · exact hresult.trans hcall.symm
              · exact absurd (h.holds schema rfl delta left hcall) hnot

-- Where every call of the wrapped function is suited, the graph runs with the wrapper as it runs
-- without.
theorem validated_transparent [Sha256] {g : CompiledGraph} {gate : Option Gate} {init : State}
    {bind : Fn → NodeCallable → Prop} {fn : Fn} {t : Run} {o : Except Exn Unit}
    (hsuited : ∀ state reply, Called t fn state reply → ∀ inner, bind fn inner →
      Suited inner pre post state) :
    Runs g gate init bind t o ↔ Runs g gate init (wrapping bind fn pre post) t o := by
  refine and_congr_right fun _ => forall_congr' fun called => forall_congr' fun state =>
    forall_congr' fun reply => imp_congr_right fun hcalled => ?_
  unfold wrapping
  by_cases hfn : called = fn
  · subst hfn
    simp only [if_true]
    constructor
    · rintro ⟨inner, hinner, rfl⟩
      exact ⟨_, ⟨inner, hinner, rfl⟩, ((hsuited state _ hcalled inner hinner).same).symm⟩
    · rintro ⟨_, ⟨inner, hinner, rfl⟩, rfl⟩
      exact ⟨inner, hinner, (hsuited state _ hcalled inner hinner).same⟩
  · simp only [if_neg hfn]

end Transparent

def worker : CompiledGraph where
  nodes := ⟨[("work", ⟨0, none, none⟩)], by decide⟩
  edges := ⟨[(START, .static "work")], by decide⟩
  maxSteps := 3

-- An environment whose nodes and branches are all the one callable.
def performing [Dumping] (callable : NodeCallable) : Handler Core
  | .leave (.node _ _ state) | .leave (.branch _ _ _ state) => callable.run state
  | op => obliging (fun _ => .dict []) op

theorem performing_runs [Sha256] [Dumping] {g : CompiledGraph} {gate : Option Gate} {init : State}
    {callable : NodeCallable} : Runs g gate init (fun _ => Eq callable)
      ((run g gate init).simulate (performing callable)).1
      ((run g gate init).simulate (performing callable)).2 := by
  refine ⟨exec_simulate _ _, fun fn state reply hcalled => ⟨callable, rfl, ?_⟩⟩
  cases hcalled with
  | node name h => exact obeys_simulate _ _ _ _ h
  | branch source name h => exact obeys_simulate _ _ _ _ h

theorem validated_transparent_worker :
    letI := Sha256.verbatim
    letI := Dumping.verbatim
    Runs worker none (State.new "s")
      (wrapping (fun _ => Eq spreading) ⟨0, none, none⟩ (some ⟨fun _ => true⟩) none)
      ((run worker none (State.new "s")).simulate (performing spreading)).1
      ((run worker none (State.new "s")).simulate (performing spreading)).2 :=
  letI := Sha256.verbatim
  letI := Dumping.verbatim
  (validated_transparent fun state _ _ _ hinner => hinner ▸
    { delivers := fun _ hv => ⟨Dict.ofList [("scratchpad", state.get "scratchpad")],
        (Except.ok.inj hv).symm⟩
      accepted := rfl
      holds := nofun
      direct := .inr nofun
      passes := nofun
      covered := nofun }).mp performing_runs

-- An object with an async `__call__`.
def agent : NodeCallable := .object fun state => ⟨.ok (.dict []), state⟩

theorem agent_unawaited :
    ¬∀ [Sha256] [Dumping] (g : CompiledGraph) (gate : Option Gate) (init : State)
      (bind : Fn → NodeCallable → Prop) (fn : Fn) (pre post : Option Schema) (t : Run)
      (o : Except Exn Unit),
      (∀ state reply, Called t fn state reply → ∀ inner, bind fn inner →
        Fitting inner pre post state) →
      Runs g gate init bind t o → Runs g gate init (wrapping bind fn pre post) t o := by
  intro h
  let := Sha256.verbatim
  let := Dumping.verbatim
  have hruns := h worker none (State.new "s") (fun _ => Eq agent) ⟨0, none, none⟩ none none _ _
    (fun state _ _ _ hinner => hinner ▸
      ⟨fun _ hv => ⟨.empty, (Except.ok.inj hv).symm⟩, rfl, nofun⟩) performing_runs
  have hleave := List.mem_of_getElem? (show ((run worker none (State.new "s")).simulate
    (performing agent)).1[3]? = some (Event.leave (.node "work" ⟨0, none, none⟩ _) _) from rfl)
  obtain ⟨_, ⟨inner, rfl, rfl⟩, hreply⟩ := hruns.2 _ _ _ (.node "work" hleave)
  cases hreply

end PerpetuaCore.Graph.Validator
