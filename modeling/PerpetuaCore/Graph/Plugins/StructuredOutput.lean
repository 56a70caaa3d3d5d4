import PerpetuaCore.Interaction.Eval
import PerpetuaCore.Interaction.Retry
import PerpetuaCore.Json.Dumps
import PerpetuaCore.State

namespace PerpetuaCore.Graph.StructuredOutput

open Interaction
open Python (Str Value Dict)

structure ChatRequest where
  model : Str
  messages : List Value
  deriving DecidableEq

-- A completion as far as it is read: the content of each choice, where it has one.
structure Completion where
  choices : List (Option Str)

-- `LLMClient.chat`.
@[reducible] def Llm : Signature where
  Op := ChatRequest
  Ans _ := Except Exn Completion

-- `response.choices[0].message.content or ""`.
def Completion.raw (response : Completion) : Except Exn Str :=
  match response.choices with
  | [] => .error (.other "IndexError" none none 0)
  | content :: _ => .ok (content.getD [])

-- A text is accepted, or rejected with a ValueError, of which ValidationError is one.
inductive Verdict (T : Type) where
  | valid (value : T)
  | invalid (error : Exn)

-- A Pydantic model: the text of its JSON schema, and `model_validate_json`, which may also
-- raise an error of another kind.
structure OutputSchema (T : Type) where
  schemaHint : Except Exn Str
  modelValidateJson : Str → Except Exn (Verdict T)

variable {T : Type} (schema : OutputSchema T) (model : Str) (messages : List Value)

def hintMessage (schemaHint : Str) : Value :=
  .dict [("role", "user"), ("content", .str (("Your previous response failed JSON validation. " : Str) ++
    ("Respond ONLY with valid JSON matching: " : Str) ++ schemaHint))]

-- `msgs`, always built from the caller's messages.
def prompt (attempt : Nat) : Except Exn (List Value) :=
  if attempt > 0 then do
    let schemaHint ← schema.schemaHint
    return messages ++ [hintMessage schemaHint]
  else .ok messages

def judge (answer : Except Exn Completion) : Except Exn (Verdict T) := do
  let response ← answer
  let raw ← response.raw
  schema.modelValidateJson raw

-- `count + 1`. For what is no integer it is `plus`.
def increment (plus : Value → Except Exn Value) : Value → Except Exn Value
  | .int count => .ok (.int (count + 1))
  | .bool count => .ok (.int (count.toInt + 1))
  | count => plus count

variable (plus : Value → Except Exn Value)

def countRetry : Option State → Except Exn (Option State)
  | none => .ok none
  | some state => do
      let retryCount ← increment plus (state.get "retry_count")
      return some (← state.merge (Dict.ofList [("retry_count", retryCount)]))

def attempt (k : Nat) (state : Option State) : Prog Llm Exn (T ⊕ Option State) := do
  let msgs ← .ofExcept (prompt schema messages k)
  let answer ← Prog.call (S := Llm) ⟨model, msgs⟩
  match ← .ofExcept (judge schema answer) with
  | .valid value => return .inl value
  | .invalid _ => return .inr (← .ofExcept (countRetry plus state))

def exhausted (maxRetries : Int) : Exn :=
  .valueError ["Structured output validation failed after ",
    .insert (Json.toStr (Json.intText (maxRetries + 1))), " attempts"]

-- `chat_structured`. A negative `MAX_RETRIES` leaves no attempt.
def chatStructured (maxRetries : Int) (state : Option State) : Prog Llm Exn T := do
  match ← Prog.retry (attempt schema model messages plus) (maxRetries + 1).toNat 0 state with
  | .inl value => return value
  | .inr _ => .raise (exhausted maxRetries)

-- What the retries so far have made of the state.
def countAll (state : Option State) : Nat → Except Exn (Option State)
  | 0 => .ok state
  | k + 1 => countAll state k >>= countRetry plus

-- A state as it is meant to be: its count is an integer.
def Countable (state : Option State) : Prop :=
  ∀ s, state = some s → s.copyable = true ∧ ∃ count, s.get "retry_count" = .int count

-- After `k` rejected answers the state, where there is one, has counted each of them.
structure Counted (start : Option State) (k : Nat) (last : Option State) : Prop where
  counted : countAll plus start k = .ok last
  retries : ∀ s count, start = some s → s.copyable = true → s.get "retry_count" = .int count →
    ∃ s', last = some s' ∧ s'.get "retry_count" = .int (count + k)

def answers (t : Trace Llm Empty) : List (Except Exn Completion) :=
  t.filterMap fun
    | .act _ answer => some answer
    | .emit _ => none

def Rejected (answer : Except Exn Completion) : Prop :=
  ∃ error, judge schema answer = .ok (.invalid error)

-- The k-th request carries the prompt of the k-th attempt.
def Asks (t : Trace Llm Empty) : Prop :=
  ∀ k entry, t[k]? = some entry → ∃ msgs answer,
    prompt schema messages k = .ok msgs ∧ entry = .act ⟨model, msgs⟩ answer

-- How the answers decide the outcome.
inductive Ends (state : Option State) (maxRetries : Int) (given : List (Except Exn Completion)) :
    Except Exn T → Prop
  | accepted {value : T} {answer : Except Exn Completion} {last : Option State}
      (hlast : given.getLast? = some answer) (hjudge : judge schema answer = .ok (.valid value))
      (hcounted : Counted plus state given.dropLast.length last) :
      Ends state maxRetries given (.ok value)
  | failed {error : Exn} {answer : Except Exn Completion} {last : Option State}
      (hlast : given.getLast? = some answer) (hjudge : judge schema answer = .error error)
      (hcounted : Counted plus state given.dropLast.length last) :
      Ends state maxRetries given (.error error)
  | exhausted {last : Option State} (hall : ∀ answer ∈ given, Rejected schema answer)
      (hlength : given.length = (maxRetries + 1).toNat)
      (hcounted : Counted plus state given.length last) :
      Ends state maxRetries given (.error (exhausted maxRetries))
  | unhinted {error : Exn} {last : Option State} (hall : ∀ answer ∈ given, Rejected schema answer)
      (hlength : given.length < (maxRetries + 1).toNat)
      (hcounted : Counted plus state given.length last)
      (hprompt : prompt schema messages given.length = .error error) :
      Ends state maxRetries given (.error error)
  | uncounted {error : Exn} (hall : ∀ answer ∈ given, Rejected schema answer)
      (hcount : countAll plus state given.length = .error error) (hstate : ¬Countable state) :
      Ends state maxRetries given (.error error)

variable {schema model messages plus} {state : Option State} {maxRetries : Int}
  {t : Trace Llm Empty} {k : Nat}

@[simp] theorem answers_append (s t : Trace Llm Empty) : answers (s ++ t) = answers s ++ answers t :=
  List.filterMap_append

@[simp] theorem answers_act (request : ChatRequest) (answer : Except Exn Completion) :
    answers [.act request answer] = [answer] := rfl

theorem length_answers (t : Trace Llm Empty) : (answers t).length = t.length := by
  induction t with
  | nil => rfl
  | cons entry t ih =>
      cases entry with
      | act request answer => exact congrArg (· + 1) ih
      | emit value => cases value

variable (plus) in
theorem countRetry_some {s : State} {count : Int} (hcopy : s.copyable = true)
    (hcount : s.get "retry_count" = .int count) :
    ∃ next, countRetry plus (some s) = .ok (some next) ∧ next.copyable = true ∧
      next.get "retry_count" = .int (count + 1) := by
  have hmerge : s.merge (Dict.ofList [("retry_count", .int (count + 1))]) = .ok _ :=
    State.merge_ok hcopy (by rfl)
  refine ⟨s.update (Dict.ofList [("retry_count", .int (count + 1))]), ?_,
    State.merge_copyable hmerge, State.get_update ..⟩
  rw [countRetry, hcount]
  change some <$> s.merge _ = _
  rw [hmerge]
  rfl

variable (plus) in
theorem countAll_some {s : State} {count : Int} (hcopy : s.copyable = true)
    (hcount : s.get "retry_count" = .int count) (k : Nat) :
    ∃ last, countAll plus (some s) k = .ok (some last) ∧ last.copyable = true ∧
      last.get "retry_count" = .int (count + k) := by
  induction k with
  | zero => exact ⟨s, rfl, hcopy, by simpa using hcount⟩
  | succ k ih =>
      obtain ⟨last, hlast, hc, hcounted⟩ := ih
      obtain ⟨next, hnext, hn, hretries⟩ := countRetry_some plus hc hcounted
      refine ⟨next, ?_, hn, ?_⟩
      · rw [countAll, hlast]
        exact hnext
      · rw [hretries, Int.add_assoc]
        rfl

theorem countAll_none (k : Nat) : countAll plus none k = .ok none := by
  induction k with
  | zero => rfl
  | succ k ih =>
      rw [countAll, ih]
      rfl

variable (plus) in
theorem countAll_countable (h : Countable state) (k : Nat) :
    ∃ last, countAll plus state k = .ok last := by
  cases state with
  | none => exact ⟨none, countAll_none k⟩
  | some s =>
      obtain ⟨hcopy, count, hcount⟩ := h s rfl
      obtain ⟨last, hlast, -⟩ := countAll_some plus hcopy hcount k
      exact ⟨some last, hlast⟩

theorem counted_of_countAll {last : Option State} (h : countAll plus state k = .ok last) :
    Counted plus state k last := by
  refine ⟨h, ?_⟩
  rintro s count rfl hcopy hcount
  obtain ⟨s', hs', -, hretries⟩ := countAll_some plus hcopy hcount k
  exact ⟨s', Except.ok.inj (h.symm.trans hs'), hretries⟩

-- One attempt asks once, and hands on exactly where its answer is rejected and can be counted.
theorem attempt_cases {o : Except Exn (T ⊕ Option State)}
    (h : Exec acting (attempt schema model messages plus k state) t o) :
    (∃ error, prompt schema messages k = .error error ∧ t = [] ∧ o = .error error) ∨
      ∃ msgs answer, prompt schema messages k = .ok msgs ∧ t = [.act ⟨model, msgs⟩ answer] ∧
        ((∃ value, judge schema answer = .ok (.valid value) ∧ o = .ok (.inl value)) ∨
          (∃ error, judge schema answer = .error error ∧ o = .error error) ∨
          Rejected schema answer ∧ o = (countRetry plus state).map .inr) := by
  unfold attempt at h
  cases hprompt : prompt schema messages k with
  | error error =>
      rw [hprompt] at h
      obtain ⟨rfl, rfl⟩ := exec_raise h
      exact .inl ⟨error, rfl, rfl, rfl⟩
  | ok msgs =>
      rw [hprompt] at h
      cases h with
      | @ask _ _ s u answer _ hop hnext =>
          obtain rfl : s = [.act ⟨model, msgs⟩ answer] := hop
          refine .inr ⟨msgs, answer, rfl, ?_⟩
          simp only [Prog.bind_eq, Prog.ret_bind] at hnext
          cases hjudge : judge schema answer with
          | error error =>
              rw [hjudge] at hnext
              obtain ⟨rfl, rfl⟩ := exec_raise hnext
              exact ⟨rfl, .inr (.inl ⟨error, rfl, rfl⟩)⟩
          | ok verdict =>
              rw [hjudge] at hnext
              cases verdict with
              | valid value =>
                  obtain ⟨rfl, rfl⟩ := exec_ret hnext
                  exact ⟨rfl, .inl ⟨value, rfl, rfl⟩⟩
              | invalid error =>
                  cases hcount : countRetry plus state with
                  | error failure =>
                      rw [hcount] at hnext
                      obtain ⟨rfl, rfl⟩ := exec_raise hnext
                      exact ⟨rfl, .inr (.inr ⟨⟨error, hjudge⟩, rfl⟩)⟩
                  | ok next =>
                      rw [hcount] at hnext
                      obtain ⟨rfl, rfl⟩ := exec_ret hnext
                      exact ⟨rfl, .inr (.inr ⟨⟨error, hjudge⟩, rfl⟩)⟩

-- After `k` attempts that handed on.
structure Retrying (schema : OutputSchema T) (model : Str) (messages : List Value)
    (plus : Value → Except Exn Value) (start : Option State) (k : Nat) (state : Option State)
    (t : Trace Llm Empty) : Prop where
  asks : Asks schema model messages t
  length : t.length = k
  rejected : ∀ answer ∈ answers t, Rejected schema answer
  counted : countAll plus start k = .ok state

theorem Asks.snoc (h : Asks schema model messages t) {msgs : List Value} {answer : Except Exn Completion}
    (hp : prompt schema messages t.length = .ok msgs) :
    Asks schema model messages (t ++ [.act ⟨model, msgs⟩ answer]) := by
  intro k entry hentry
  rcases Nat.lt_trichotomy k t.length with hk | rfl | hk
  · rw [List.getElem?_append_left hk] at hentry
    exact h k entry hentry
  · rw [List.getElem?_concat_length] at hentry
    exact ⟨msgs, answer, hp, (Option.some.inj hentry).symm⟩
  · rw [List.getElem?_eq_none (by rw [List.length_append]; exact hk)] at hentry
    cases hentry

theorem Retrying.step {start next : Option State} {u : Trace Llm Empty}
    (h : Retrying schema model messages plus start k state t)
    (hrun : Exec acting (attempt schema model messages plus k state) u (.ok (.inr next))) :
    Retrying schema model messages plus start (k + 1) next (t ++ u) := by
  rcases attempt_cases hrun with ⟨_, _, _, ho⟩ | ⟨msgs, answer, hp, rfl, hend⟩
  · cases ho
  rcases hend with ⟨_, _, ho⟩ | ⟨_, _, ho⟩ | ⟨hrejected, ho⟩
  · cases ho
  · cases ho
  · constructor
    · exact h.asks.snoc (h.length.symm ▸ hp)
    · simp [h.length]
    · intro answer' hm
      rw [answers_append, answers_act, List.mem_append, List.mem_singleton] at hm
      rcases hm with hm | rfl
      · exact h.rejected answer' hm
      · exact hrejected
    · rw [countAll, h.counted]
      change countRetry plus state = .ok next
      cases hcount : countRetry plus state with
      | error error =>
          rw [hcount] at ho
          cases ho
      | ok counted =>
          rw [hcount] at ho
          cases ho
          rfl

-- What `chat_structured` makes of the end of its loop.
def close (maxRetries : Int) : Except Exn (T ⊕ Option State) → Except Exn T
  | .ok (.inl value) => .ok value
  | .ok (.inr _) => .error (exhausted maxRetries)
  | .error error => .error error

theorem exec_chatStructured {o : Except Exn T}
    (h : Exec acting (chatStructured schema model messages plus maxRetries state) t o) :
    ∃ r, Exec acting (Prog.retry (attempt schema model messages plus) (maxRetries + 1).toNat 0 state) t r ∧
      o = close maxRetries r := by
  rcases exec_bind h with ⟨s, u, result, rfl, hretry, hend⟩ | ⟨error, hretry, rfl⟩
  · cases result with
    | inl value =>
        obtain ⟨rfl, rfl⟩ := exec_ret hend
        exact ⟨_, by simpa using hretry, rfl⟩
    | inr last =>
        obtain ⟨rfl, rfl⟩ := exec_raise hend
        exact ⟨_, by simpa using hretry, rfl⟩
  · exact ⟨_, hretry, rfl⟩

-- The answer to the attempt that did not hand on decides the outcome.
theorem Retrying.ends {start : Option State} {msgs : List Value} {answer : Except Exn Completion}
    {r : Except Exn (T ⊕ Option State)} (h : Retrying schema model messages plus start k state t)
    (hother : ∀ next, r ≠ .ok (.inr next))
    (hcase : (∃ value, judge schema answer = .ok (.valid value) ∧ r = .ok (.inl value)) ∨
      (∃ error, judge schema answer = .error error ∧ r = .error error) ∨
      Rejected schema answer ∧ r = (countRetry plus state).map .inr) :
    Ends schema messages plus start maxRetries (answers (t ++ [.act ⟨model, msgs⟩ answer]))
      (close maxRetries r) := by
  rw [answers_append, answers_act]
  have hgiven : (answers t ++ [answer]).getLast? = some answer := List.getLast?_concat
  have hcounted : Counted plus start (answers t ++ [answer]).dropLast.length state := by
    rw [List.dropLast_concat, length_answers, h.length]
    exact counted_of_countAll h.counted
  rcases hcase with ⟨value, hjudge, rfl⟩ | ⟨error, hjudge, rfl⟩ | ⟨hrejected, rfl⟩
  · exact .accepted hgiven hjudge hcounted
  · exact .failed hgiven hjudge hcounted
  · cases hcount : countRetry plus state with
    | ok next =>
        rw [hcount] at hother
        exact absurd rfl (hother next)
    | error error =>
        have hall : countAll plus start (k + 1) = .error error := by
          rw [countAll, h.counted]
          exact hcount
        refine .uncounted (fun given hm => ?_) ?_ fun hc => ?_
        · rcases List.mem_append.mp hm with hm | hm
          · exact h.rejected given hm
          · exact List.mem_singleton.mp hm ▸ hrejected
        · rwa [List.length_append, length_answers, h.length]
        · obtain ⟨counted, hcounted⟩ := countAll_countable plus hc (k + 1)
          cases hall.symm.trans hcounted

-- Every call asks anew from the caller's messages, all answers but the last were rejected, and
-- the first that was not decides the outcome.
theorem chat_structured_retries {o : Except Exn T}
    (h : Exec acting (chatStructured schema model messages plus maxRetries state) t o) :
    Asks schema model messages t ∧ t.length ≤ (maxRetries + 1).toNat ∧
      (∀ answer ∈ (answers t).dropLast, Rejected schema answer) ∧
      Ends schema messages plus state maxRetries (answers t) o := by
  obtain ⟨r, hretry, rfl⟩ := exec_chatStructured h
  obtain ⟨ts, last, hts, hend⟩ := exec_retry hretry
  have hi : Retrying schema model messages plus state ts.length last ts.flatten := by
    have hinit : Retrying schema model messages plus state 0 state [] := ⟨nofun, rfl, nofun, rfl⟩
    have hall := hts.invariant (I := Retrying schema model messages plus state) hinit
      fun _ _ _ _ _ hi he => hi.step he
    rwa [Nat.zero_add, List.nil_append] at hall
  have hlength : (answers ts.flatten).length = ts.length := (length_answers _).trans hi.length
  have hrejected : ∀ answer ∈ (answers ts.flatten).dropLast, Rejected schema answer :=
    fun answer hm => hi.rejected answer (List.dropLast_subset _ hm)
  have hcounted : Counted plus state (answers ts.flatten).length last :=
    hlength.symm ▸ counted_of_countAll hi.counted
  rcases hend with ⟨hn, rfl, rfl⟩ | ⟨hn, u, rfl, hlast, hother⟩
  · exact ⟨hi.asks, (hi.length.trans hn).le, hrejected,
      .exhausted hi.rejected (hlength.trans hn) hcounted⟩
  rw [Nat.zero_add] at hlast
  rcases attempt_cases hlast with ⟨error, hp, rfl, rfl⟩ | ⟨msgs, answer, hp, rfl, hcase⟩
  · rw [List.append_nil]
    refine ⟨hi.asks, hi.length.trans_le hn.le, hrejected, ?_⟩
    exact .unhinted hi.rejected (hlength.trans_lt hn) hcounted (hlength.symm ▸ hp)
  · refine ⟨hi.asks.snoc (hi.length.symm ▸ hp), ?_, ?_, hi.ends hother hcase⟩
    · rw [List.length_append, hi.length]
      exact hn
    · rw [answers_append, answers_act, List.dropLast_concat]
      exact hi.rejected

-- A schema of which only the text "1" is an instance.
def one : OutputSchema Int where
  schemaHint := .ok "\x7b\"const\": 1\x7d"
  modelValidateJson raw :=
    if raw = "1" then .ok (.valid 1) else .ok (.invalid (.valueError ["Invalid JSON"]))

-- Answers nothing at first, and "1" when it is hinted at.
def hinted : Handler Llm := fun request =>
  .ok ⟨[if request.messages.length > 1 then some "1" else none]⟩

theorem chat_structured_retries_hinted :
    let chat := chatStructured one "m" [.str "question"] .ok 2 (some (State.new "s"))
    let t : Trace Llm Empty := (chat.eval hinted.acting).1
    Exec acting chat t (.ok 1) ∧ t.length = 2 ∧
      Ends one [.str "question"] .ok (some (State.new "s")) 2 (answers t) (.ok 1) := by
  intro chat t
  have hrun : Exec acting chat t (chat.eval (hinted.acting (O := Empty))).2 :=
    exec_eval (fun _ => rfl) chat
  have hok : (chat.eval (hinted.acting (O := Empty))).2 = .ok 1 := by rfl
  rw [hok] at hrun
  obtain ⟨-, -, -, hends⟩ := chat_structured_retries hrun
  exact ⟨hrun, rfl, hends⟩

end PerpetuaCore.Graph.StructuredOutput
