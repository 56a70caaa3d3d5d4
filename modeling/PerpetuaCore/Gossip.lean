import Mathlib.Data.List.Induction
import PerpetuaCore.Graph.Spec.Text
import PerpetuaCore.Json.Loose

namespace PerpetuaCore.Gossip

open Python (Str Value Float64)
open Json (Legible Wellformed isJson reread)
open PerpetuaCore.Graph (Exn encodable jsonLoads)

-- `τ` is what the clock shows.
variable {τ : Type}

-- A row of the table; the rows stand in the order of their ids.
structure Row (τ : Type) where
  ts : τ
  eventType : Str
  payloadJson : Str

-- The database file, before and after its table was created.
abbrev Bus (τ : Type) := Option (List (Row τ))

structure Event (τ : Type) where
  ts : τ
  eventType : Str
  payload : Value
  deriving DecidableEq

-- `CREATE TABLE IF NOT EXISTS`.
def initDb (bus : Bus τ) : Bus τ := some (bus.getD [])

def noTable : Exn := .other "OperationalError" none none 0

def notSerializable : Exn := .typeError ["Object is not JSON serializable"]

def notEncodable : Exn := .other "UnicodeEncodeError" none none 0

-- The payload is dumped before the statement is prepared, and the type is bound after.
def emit (bus : Bus τ) (now : τ) (eventType : Str) (payload : Value) : Except Exn (Bus τ) :=
  match Json.dumps payload, bus with
  | none, _ => .error notSerializable
  | some _, none => .error noTable
  | some payloadJson, some rows =>
      if encodable eventType then .ok (some (rows ++ [⟨now, eventType, payloadJson⟩]))
      else .error notEncodable

-- `WHERE ts > ? ORDER BY id DESC LIMIT ?`; a negative limit is none.
def newest {α : Type} [LinearOrder τ] (ts : α → τ) (items : List α) (since : τ) (limit : Int) :
    List α :=
  let recent := (items.filter fun item => since < ts item).reverse
  if limit < 0 then recent else recent.take limit.toNat

-- What an INTEGER parameter can hold.
def bindable (limit : Int) : Bool := decide (-2 ^ 63 ≤ limit ∧ limit < 2 ^ 63)

def tooLarge : Exn := .other "OverflowError" none none 0

def tail [LinearOrder τ] (readFloat : Str → Float64) (bus : Bus τ) (since : τ) (limit : Int) :
    Except Exn (List (Event τ)) :=
  match bus with
  | none => .error noTable
  | some rows =>
      if bindable limit then
        (newest Row.ts rows since limit).mapM fun row => do
          let payload ← jsonLoads readFloat row.payloadJson
          return ⟨row.ts, row.eventType, payload⟩
      else .error tooLarge

inductive Call (τ : Type) where
  | initDb
  | emit (now : τ) (eventType : Str) (payload : Value)

-- A call that raises commits nothing.
def step (bus : Bus τ) : Call τ → Bus τ
  | .initDb => initDb bus
  | .emit now eventType payload => (emit bus now eventType payload).toOption.getD bus

def after (history : List (Call τ)) : Bus τ := history.foldl step none

-- The log the bus stands for: once it is opened, every event that can be written, with its
-- payload as it is kept.
def record (keep : Value → Value) (log : Option (List (Event τ))) : Call τ → Option (List (Event τ))
  | .initDb => some (log.getD [])
  | .emit now eventType payload =>
      if (Json.dumps payload).isSome && encodable eventType then
        log.map (· ++ [⟨now, eventType, keep payload⟩])
      else log

def recorded (keep : Value → Value) (history : List (Call τ)) : Option (List (Event τ)) :=
  history.foldl (record keep) none

-- How an `emit` after the history ends: the payload is looked at first, the table next, and the
-- event type last; what raises leaves no trace.
inductive Emits (history : List (Call τ)) (now : τ) (eventType : Str) (payload : Value) :
    Except Exn (Bus τ) → Prop
  | undumped (hpayload : Json.dumps payload = none)
      (hsame : after (history ++ [.emit now eventType payload]) = after history) :
      Emits history now eventType payload (.error notSerializable)
  | unopened (hpayload : (Json.dumps payload).isSome = true) (hopened : .initDb ∉ history)
      (hsame : after (history ++ [.emit now eventType payload]) = after history) :
      Emits history now eventType payload (.error noTable)
  | unencoded (hpayload : (Json.dumps payload).isSome = true) (hopened : .initDb ∈ history)
      (htype : encodable eventType = false)
      (hsame : after (history ++ [.emit now eventType payload]) = after history) :
      Emits history now eventType payload (.error notEncodable)
  | written (hpayload : (Json.dumps payload).isSome = true) (hopened : .initDb ∈ history)
      (htype : encodable eventType = true) :
      Emits history now eventType payload (.ok (after (history ++ [.emit now eventType payload])))

-- A tail of the log.
def shown [LinearOrder τ] (log : Option (List (Event τ))) (since : τ) (limit : Int) :
    Except Exn (List (Event τ)) :=
  match log with
  | none => .error noTable
  | some events =>
      if bindable limit then .ok (newest Event.ts events since limit) else .error tooLarge

section Simulation

variable {readFloat : Str → Float64} {history : List (Call τ)} {bus : Bus τ}
  {log : Option (List (Event τ))}

-- The row reads as the event.
structure Shows (readFloat : Str → Float64) (row : Row τ) (event : Event τ) : Prop where
  ts : row.ts = event.ts
  eventType : row.eventType = event.eventType
  payload : jsonLoads readFloat row.payloadJson = .ok event.payload

-- The bus holds the rows of the log.
def Holds (readFloat : Str → Float64) : Bus τ → Option (List (Event τ)) → Prop :=
  Option.Rel (List.Forall₂ (Shows readFloat))

-- The payload is one that is read back, if it can be dumped: no string in it has a surrogate, and
-- each float is read from its text.
def Readable (readFloat : Str → Float64) : Call τ → Prop
  | .initDb => True
  | .emit _ _ payload => (Json.dumps payload).isSome = true → Legible readFloat Wellformed payload

theorem Holds.step (h : Holds readFloat bus log) {call : Call τ} (hc : Readable readFloat call) :
    Holds readFloat (step bus call) (record reread log call) := by
  cases call with
  | initDb =>
      cases h with
      | none => exact .some .nil
      | some h => exact .some h
  | emit now eventType payload =>
      cases htext : Json.dumps payload with
      | none =>
          simp only [Gossip.step, emit, record, htext]
          exact h
      | some payloadJson =>
          have hreads : jsonLoads readFloat payloadJson = .ok (reread payload) := by
            rw [jsonLoads, Json.loads_dumps (hc (by rw [htext]; rfl)) htext]
          cases h with
          | none =>
              simp only [Gossip.step, emit, record, htext]
              split_ifs <;> exact .none
          | @some rows events h =>
              cases hencodable : encodable eventType with
              | true =>
                  simp only [Gossip.step, emit, record, htext, hencodable]
                  exact .some (List.rel_append h (.cons ⟨rfl, rfl, hreads⟩ .nil))
              | false =>
                  simp only [Gossip.step, emit, record, htext, hencodable]
                  exact .some h

theorem holds_after (hh : ∀ call ∈ history, Readable readFloat call) :
    Holds readFloat (after history) (recorded reread history) := by
  induction history using List.reverseRecOn with
  | nil => exact .none
  | append_singleton history call ih =>
      obtain ⟨hhistory, hcall⟩ := List.forall_mem_append.mp hh
      rw [after, recorded, List.foldl_append, List.foldl_append]
      exact (ih hhistory).step (hcall call (List.mem_singleton_self call))

theorem after_snoc {call : Call τ} : after (history ++ [call]) = step (after history) call :=
  List.foldl_append

-- No event opens the log.
theorem emit_isSome {now : τ} {eventType : Str} {payload : Value} :
    (step bus (.emit now eventType payload)).isSome = bus.isSome := by
  cases hpayload : Json.dumps payload with
  | none =>
      simp only [step, emit, hpayload]
      rfl
  | some payloadJson =>
      cases bus with
      | none =>
          simp only [step, emit, hpayload]
          rfl
      | some rows =>
          simp only [step, emit, hpayload]
          split_ifs <;> rfl

theorem opened_iff : (after history).isSome = true ↔ .initDb ∈ history := by
  induction history using List.reverseRecOn with
  | nil => simp [after]
  | append_singleton history call ih =>
      rw [after_snoc, List.mem_append, List.mem_singleton, ← ih]
      cases call with
      | initDb => simp [step, initDb]
      | emit now eventType payload =>
          simp [emit_isSome]

theorem emit_emits (now : τ) (eventType : Str) (payload : Value) :
    Emits history now eventType payload (emit (after history) now eventType payload) := by
  have hstep : after (history ++ [.emit now eventType payload]) =
      (emit (after history) now eventType payload).toOption.getD (after history) := after_snoc
  cases hpayload : Json.dumps payload with
  | none =>
      have hemit : emit (after history) now eventType payload = .error notSerializable := by
        simp only [emit, hpayload]
      rw [hemit] at hstep ⊢
      exact .undumped hpayload hstep
  | some payloadJson =>
      have hdumped : (Json.dumps payload).isSome = true := by rw [hpayload]; rfl
      cases hbus : after history with
      | none =>
          have hopened : .initDb ∉ history := by
            rw [← opened_iff, hbus]
            exact Bool.false_ne_true
          have hemit : emit (after history) now eventType payload = .error noTable := by
            simp only [emit, hpayload, hbus]
          rw [hemit] at hstep
          rw [← hbus, hemit]
          exact .unopened hdumped hopened hstep
      | some rows =>
          have hopened : .initDb ∈ history := opened_iff.mp (by rw [hbus]; rfl)
          rw [← hbus]
          cases htype : encodable eventType with
          | true =>
              have hemit : emit (after history) now eventType payload =
                  .ok (some (rows ++ [⟨now, eventType, payloadJson⟩])) := by
                simp only [emit, hpayload, hbus, htype, if_true]
              rw [hemit] at hstep ⊢
              have hwritten : after (history ++ [.emit now eventType payload]) = some _ := hstep
              exact hwritten ▸ .written hdumped hopened htype
          | false =>
              have hemit : emit (after history) now eventType payload = .error notEncodable := by
                simp only [emit, hpayload, hbus, htype, Bool.false_eq_true, if_false]
              rw [hemit] at hstep ⊢
              exact .unencoded hdumped hopened htype hstep

theorem recorded_eq {keep keep' : Value → Value}
    (hkeep : ∀ now eventType payload, Call.emit now eventType payload ∈ history →
      keep payload = keep' payload) :
    recorded keep history = recorded keep' history := by
  refine List.foldl_ext _ _ _ fun log call hcall => ?_
  cases call with
  | initDb => rfl
  | emit now eventType payload => rw [record, record, hkeep now eventType payload hcall]

variable [LinearOrder τ] {since : τ} {limit : Int}

theorem newest_shows {rows : List (Row τ)} {events : List (Event τ)}
    (h : List.Forall₂ (Shows readFloat) rows events) :
    List.Forall₂ (Shows readFloat) (newest Row.ts rows since limit)
      (newest Event.ts events since limit) := by
  have hrecent := List.rel_reverse (List.rel_filter (p := fun row : Row τ => since < row.ts)
    (q := fun event : Event τ => since < event.ts)
    (fun row event hrow => by simp only [hrow.ts]) h)
  unfold newest
  dsimp only
  split_ifs
  · exact hrecent
  · exact List.forall₂_take _ hrecent

theorem Holds.tail (h : Holds readFloat bus log) :
    tail readFloat bus since limit = shown log since limit := by
  cases h with
  | none => rfl
  | @some rows events h =>
      simp only [Gossip.tail, shown]
      split_ifs
      · refine Python.mapM_eq_ok_iff_forall₂.mpr
          ((newest_shows h).imp fun row event hrow => ?_)
        rw [hrow.payload, hrow.ts, hrow.eventType]
        rfl
      · rfl

theorem tail_reads_log (hreadable : ∀ call ∈ history, Readable readFloat call) :
    tail readFloat (after history) since limit = shown (recorded reread history) since limit ∧
    ((∀ now eventType payload, Call.emit now eventType payload ∈ history → isJson payload = true) →
      recorded reread history = recorded id history) ∧
    ∀ now eventType payload,
      Emits history now eventType payload (emit (after history) now eventType payload) :=
  ⟨(holds_after hreadable).tail, fun hjson =>
    recorded_eq fun now eventType payload hcall => Json.reread_self (hjson now eventType payload hcall),
    emit_emits⟩

-- An event before the table was there, one with a tuple, one that cannot be dumped and one
-- under a key that is no string.
def sampleHistory : List (Call Int) :=
  [.emit 1 "load" (.dict []),
   .initDb,
   .emit 2 "route" (.dict [(.str "peers", .tuple [.int 1, .none])]),
   .emit 2 "error" (.dict [(.str "cause", .object "Peer" 7 false)]),
   .emit 3 "dispatch" (.dict [(.int 1, .bool true)])]

theorem tail_reads_log_sample :
    tail Graph.GraphSpec.readVerbatim (after sampleHistory) 1 2 =
        .ok [⟨3, "dispatch", .dict [(.str "1", .bool true)]⟩,
             ⟨2, "route", .dict [(.str "peers", .list [.int 1, .none])]⟩] ∧
      Emits sampleHistory 4 "error" (.object "Peer" 7 false) (.error notSerializable) := by
  have hreadable : ∀ call ∈ sampleHistory, Readable Graph.GraphSpec.readVerbatim call := by
    refine List.forall_iff_forall_mem.mp ⟨fun _ => .dict nofun nofun, trivial, fun _ => ?_,
      fun hdumped => absurd hdumped (by decide), fun _ => ?_⟩
    · refine .dict (List.forall_iff_forall_mem.mp fun s hs => ?_) (List.forall_iff_forall_mem.mp
        (.tuple (List.forall_iff_forall_mem.mp ⟨.int 1, .none⟩)))
      cases hs
      exact List.forall_iff_forall_mem.mp (by decide)
    · exact .dict (List.forall_iff_forall_mem.mp nofun) (List.forall_iff_forall_mem.mp (.bool true))
  obtain ⟨htail, -, hemits⟩ := @tail_reads_log _ _ sampleHistory _ 1 2 hreadable
  exact ⟨htail.trans (by rfl), hemits 4 "error" (.object "Peer" 7 false)⟩

end Simulation

end PerpetuaCore.Gossip
