import PerpetuaCore.Graph.Lineage
import PerpetuaCore.Graph.Plugins.Observer
import Mathlib.Data.List.Induction

namespace PerpetuaCore.Graph.Checkpointer

open Interaction
open Python (Str Value Dict)
open Ledger (publishes)
open Observer

-- A row of the table; the rows stand in the order of their ids.
structure Row where
  sessionId : Str
  node : Str
  stateJson : Str

abbrev Database := List Row

-- Pydantic's `model_dump_json` and `model_validate_json`, and what a `TEXT NOT NULL` column
-- makes of a value bound to it: a string is stored as it is.
structure Storage where
  dump : State → Except Exn Str
  validate : Str → Except Exn State
  column : Value → Except Exn Str
  column_str : ∀ text, column (.str text) = .ok text

def save (storage : Storage) (db : Database) (state : State) (node : Str) : Except Exn Database := do
  let stateJson ← storage.dump state
  let sessionId ← storage.column (state.get "session_id")
  return db ++ [⟨sessionId, node, stateJson⟩]

def onObservation (storage : Storage) (db : Database) (observation : GraphObservation) :
    Except Exn Database :=
  match observation.event.kind, observation.event.node with
  | .nodeEnd, some node => save storage db observation.state node
  | _, _ => .ok db

-- `WHERE session_id=? ORDER BY id DESC LIMIT 1`.
def latest (db : Database) (sessionId : Str) : Option Row :=
  (db.filter fun row => row.sessionId = sessionId).getLast?

def loadLatest (storage : Storage) (db : Database) (sessionId : Str) : Except Exn (Option State) :=
  match latest db sessionId with
  | none => .ok none
  | some row => (storage.validate row.stateJson).map some

-- One `run_with_plugins`.
structure Session where
  id : Str
  graph : CompiledGraph
  gate : Option Gate
  state : State
  plugins : List Listener
  delivery : Option Listener
  named : state.get "session_id" = .str id

namespace Session

def listeners (session : Session) : List Listener := receivers session.plugins session.delivery

def program [Sha256] (session : Session) :
    Prog (Draining Core Host GraphObservation Exn Settled) Failure State :=
  runWithPlugins session.graph session.state session.plugins session.delivery session.gate

end Session

-- What happens in several sessions, each turn with the id of the session it is of.
abbrev History := List (Str × Turn Core Host GraphObservation)

def own (sessionId : Str) (u : History) : Turns :=
  u.filterMap fun item => if item.1 = sessionId then some item.2 else none

-- Sessions of different ids that have come so far, side by side.
structure Together [Sha256] (sessions : List Session) (u : History) : Prop where
  distinct : (sessions.map Session.id).Nodup
  known : ∀ item ∈ u, ∃ session ∈ sessions, session.id = item.1
  runs : ∀ session ∈ sessions, ∃ more o, Exec draining session.program (own session.id u ++ more) o

-- A turn under which the database becomes another. The checkpointer answers a call as
-- `on_observation` does; nothing else writes.
def step (storage : Storage) (checkpointer : Listener) (db : Database) :
    Turn Core Host GraphObservation → Option Database
  | .outer (.onObservation listener payload) response =>
      if listener = checkpointer then
        match onObservation storage db payload, (response : Response).result with
        | .ok stored, .ok () => some stored
        | .error _, .error _ => some db
        | _, _ => none
      else some db
  | _ => some db

def stores (storage : Storage) (checkpointer : Listener) : Database → History → Option Database
  | db, [] => some db
  | db, item :: rest => (step storage checkpointer db item.2).bind (stores storage checkpointer · rest)

-- The state of the last commit of a run: of a linear node, or of a region.
def committed (t : Run) : Option State :=
  (((observations t).filter fun observation => publishes observation.event.kind).map (·.state)).getLast?

-- The states at the end of a node.
def ended (shown : List GraphObservation) : List State :=
  (shown.filter fun observation => observation.event.kind = .nodeEnd).map (·.state)

-- The states the checkpointer was told to save.
def saved (checkpointer : Listener) (told : List (Listener × GraphObservation)) : List State :=
  ended ((told.filter fun call => call.1 = checkpointer).map Prod.snd)

-- The state can be dumped and read back.
def Kept (storage : Storage) (state : State) : Prop :=
  ∃ text, storage.dump state = .ok text ∧ storage.validate text = .ok state

-- The checkpointer is a listener of every session. No delta writes a session's id, what is saved
-- can be read back, and no listener that is told before the checkpointer fails.
structure Sharing [Sha256] (storage : Storage) (checkpointer : Listener) (sessions : List Session)
    (u : History) : Prop extends Together sessions u where
  listening : ∀ session ∈ sessions, checkpointer ∈ session.listeners
  spared : ∀ session ∈ sessions, ∀ e ∈ pulled (own session.id u),
    Lineage.spares "session_id" e = true
  kept : ∀ session ∈ sessions, ∀ state ∈ saved checkpointer (calls (own session.id u)),
    Kept storage state
  ahead : ∀ session ∈ sessions, ∀ turn ∈ own session.id u, ∀ call, call? turn = some call →
    call.1 ∈ session.listeners.takeWhile (· ≠ checkpointer) → failure? turn = none

-- The last observation was delivered and the scheduler moves next, or the run is over.
inductive Rests [Sha256] (session : Session) (t : Turns) : Prop
  | advancing {before : Turns} {observation : GraphObservation} {told : Trace Host Empty}
      (ht : t = before ++ .inner (.emit observation) :: outward told)
      (hkind : observation.event.kind ∈ [EventKind.nodeEnd, .edgeSelected, .superstepCommit])
      (hdelivered : calls t = delivered session.listeners (observations (pulled t)))
  | ended {o : Except Failure State} (he : Exec draining session.program t o)

-- What `load_latest` gives for a session that has come to `t`, over a table that held `db`.
structure Current [Sha256] (storage : Storage) (db db' : Database) (session : Session) (t : Turns) :
    Prop where
  latest : loadLatest storage db' session.id =
    (committed (pulled t)).elim (loadLatest storage db session.id) fun state => .ok (some state)
  none_iff : loadLatest storage db' session.id = .ok none ↔
    committed (pulled t) = none ∧ ∀ row ∈ db, row.sessionId ≠ session.id
  built : ∀ state, committed (pulled t) = some state → ∃ past observation post,
    pulled t = past ++ .emit observation :: post ∧ publishes observation.event.kind = true ∧
    observation.state = state ∧
    Lineage.Built session.graph session.gate session.state past state ∧ Lineage.Approved past

section Database

variable {storage : Storage} {checkpointer : Listener} {db db' : Database} {sessionId : Str}

theorem onObservation_other {observation : GraphObservation} (hkind : observation.event.kind ≠ .nodeEnd) :
    onObservation storage db observation = .ok db := by
  unfold onObservation
  split
  · rename_i hend _
    exact absurd hend hkind
  · rfl

variable (storage db) in
theorem onObservation_nodeEnd {observation : GraphObservation} {id : Str}
    (hkind : observation.event.kind = .nodeEnd) (hnode : observation.event.node ≠ none)
    (hid : observation.state.get "session_id" = .str id) :
    ∃ node, onObservation storage db observation =
      (storage.dump observation.state).map fun stateJson => db ++ [⟨id, node, stateJson⟩] := by
  obtain ⟨node, hnode⟩ := Option.ne_none_iff_exists'.mp hnode
  refine ⟨node, ?_⟩
  unfold onObservation save
  rw [hkind, hnode, hid, storage.column_str]
  dsimp only
  cases storage.dump observation.state <;> rfl

-- A turn that changes the database is a call of the checkpointer.
theorem step_eq_some {turn : Turn Core Host GraphObservation}
    (h : step storage checkpointer db turn = some db') :
    (∃ payload, call? turn = some (checkpointer, payload) ∧
      (onObservation storage db payload = .ok db' ∧ failure? turn = none ∨
        db' = db ∧ ∃ error, onObservation storage db payload = .error error)) ∨
    (∀ payload, call? turn ≠ some (checkpointer, payload)) ∧ db' = db := by
  unfold step at h
  split at h
  · rename_i listener payload response
    split_ifs at h with hlistener
    · subst hlistener
      split at h
      · rename_i stored hstored hanswer
        refine .inl ⟨payload, rfl, .inl ⟨hstored.trans (congrArg _ (Option.some.inj h)), ?_⟩⟩
        simp only [failure?, hanswer]
      · rename_i error _ hfails _
        exact .inl ⟨payload, rfl, .inr ⟨(Option.some.inj h).symm, error, hfails⟩⟩
      · cases h
    · refine .inr ⟨fun payload' hcall => ?_, (Option.some.inj h).symm⟩
      exact hlistener (Prod.mk.inj (Option.some.inj hcall)).1
  · rename_i hother
    refine .inr ⟨fun payload hcall => ?_, (Option.some.inj h).symm⟩
    unfold call? at hcall
    split at hcall
    · rename_i listener payload' response
      exact hother listener payload' response rfl
    · cases hcall

theorem latest_snoc (row : Row) :
    latest (db ++ [row]) sessionId =
      if row.sessionId = sessionId then some row else latest db sessionId := by
  unfold latest
  rw [List.filter_append, List.filter_singleton]
  split_ifs with h
  · simp [h]
  · simp [h]

theorem loadLatest_other {row : Row} (h : row.sessionId ≠ sessionId) :
    loadLatest storage (db ++ [row]) sessionId = loadLatest storage db sessionId := by
  rw [loadLatest, latest_snoc, if_neg h]
  rfl

theorem loadLatest_own {row : Row} {state : State} (h : row.sessionId = sessionId)
    (hstate : storage.validate row.stateJson = .ok state) :
    loadLatest storage (db ++ [row]) sessionId = .ok (some state) := by
  rw [loadLatest, latest_snoc, if_pos h]
  dsimp only
  rw [hstate]
  rfl

-- A call of the checkpointer at the end of a node is about a state of the session it is made in.
def Proper (checkpointer : Listener) (item : Str × Turn Core Host GraphObservation) : Prop :=
  ∀ payload, call? item.2 = some (checkpointer, payload) → payload.event.kind = .nodeEnd →
    payload.event.node ≠ none ∧ payload.state.get "session_id" = .str item.1

theorem own_append (u v : History) : own sessionId (u ++ v) = own sessionId u ++ own sessionId v :=
  List.filterMap_append

theorem own_self (turn : Turn Core Host GraphObservation) : own sessionId [(sessionId, turn)] = [turn] := by
  simp [own]

theorem own_other {item : Str × Turn Core Host GraphObservation} (h : item.1 ≠ sessionId) :
    own sessionId [item] = [] := by
  simp [own, h]

theorem saved_append (told told' : List (Listener × GraphObservation)) :
    saved checkpointer (told ++ told') = saved checkpointer told ++ saved checkpointer told' := by
  simp only [saved, ended, List.filter_append, List.map_append]

theorem saved_own {payload : GraphObservation} (hkind : payload.event.kind = .nodeEnd) :
    saved checkpointer [(checkpointer, payload)] = [payload.state] := by
  simp [saved, ended, hkind]

theorem saved_none {turn : Turn Core Host GraphObservation}
    (h : ∀ payload, call? turn = some (checkpointer, payload) → payload.event.kind ≠ .nodeEnd) :
    saved checkpointer (calls [turn]) = [] := by
  unfold calls
  cases hcall : call? turn with
  | none => simp [hcall, saved, ended]
  | some call =>
      obtain ⟨listener, payload⟩ := call
      by_cases hlistener : listener = checkpointer
      · subst hlistener
        simp [hcall, saved, ended, h payload hcall]
      · simp [hcall, saved, ended, hlistener]

-- What `load_latest` gives after one turn.
theorem step_latest {item : Str × Turn Core Host GraphObservation}
    (h : step storage checkpointer db item.2 = some db') (hproper : Proper checkpointer item)
    (hkept : ∀ state ∈ saved checkpointer (calls (own sessionId [item])), Kept storage state) :
    loadLatest storage db' sessionId =
      (saved checkpointer (calls (own sessionId [item]))).getLast?.elim
        (loadLatest storage db sessionId) fun state => .ok (some state) := by
  obtain ⟨id, turn⟩ := item
  by_cases hend : ∃ payload, call? turn = some (checkpointer, payload) ∧ payload.event.kind = .nodeEnd
  · obtain ⟨payload, hcall, hkind⟩ := hend
    obtain ⟨hnode, hid⟩ := hproper payload hcall hkind
    obtain ⟨node, hsave⟩ := onObservation_nodeEnd storage db hkind hnode hid
    have hdone : onObservation storage db payload = .ok db' ∧ failure? turn = none ∨
        db' = db ∧ ∃ error, onObservation storage db payload = .error error := by
      rcases step_eq_some h with ⟨payload', hcall', hdone⟩ | ⟨hother, -⟩
      · obtain rfl := (Prod.mk.inj (Option.some.inj (hcall.symm.trans hcall'))).2
        exact hdone
      · exact absurd hcall (hother payload)
    rw [hsave] at hdone
    by_cases hown : id = sessionId
    · subst hown
      have hcalls : calls [turn] = [(checkpointer, payload)] := by simp [calls, hcall]
      rw [own_self, hcalls, saved_own hkind] at hkept ⊢
      obtain ⟨text, hdump, hvalidate⟩ := hkept payload.state List.mem_cons_self
      rw [hdump] at hdone
      rcases hdone with ⟨hdb, -⟩ | ⟨-, error, hfails⟩
      · obtain rfl := Except.ok.inj hdb
        exact loadLatest_own rfl hvalidate
      · cases hfails
    · rw [own_other hown]
      rcases hdone with ⟨hdb, -⟩ | ⟨rfl, -⟩
      · cases hdump : storage.dump payload.state with
        | ok text =>
            rw [hdump] at hdb
            obtain rfl := Except.ok.inj hdb
            exact loadLatest_other hown
        | error error =>
            rw [hdump] at hdb
            cases hdb
      · rfl
  · have hkind : ∀ payload, call? turn = some (checkpointer, payload) →
        payload.event.kind ≠ .nodeEnd := fun payload hcall hkind => hend ⟨payload, hcall, hkind⟩
    have hsaved : saved checkpointer (calls (own sessionId [(id, turn)])) = [] := by
      by_cases hown : id = sessionId
      · subst hown
        rw [own_self, saved_none hkind]
      · rw [own_other hown]
        rfl
    have hdb : db' = db := by
      rcases step_eq_some h with ⟨payload, hcall, hdone⟩ | ⟨-, hdb⟩
      · rw [onObservation_other (hkind payload hcall)] at hdone
        rcases hdone with ⟨hdb, -⟩ | ⟨hdb, -⟩
        · exact (Except.ok.inj hdb).symm
        · exact hdb
      · exact hdb
    rw [hdb, hsaved]
    rfl

-- `load_latest` gives the last state saved in the session, or what was there before.
theorem stores_latest {u : History} (h : stores storage checkpointer db u = some db')
    (hproper : ∀ item ∈ u, Proper checkpointer item)
    (hkept : ∀ state ∈ saved checkpointer (calls (own sessionId u)), Kept storage state) :
    loadLatest storage db' sessionId =
      (saved checkpointer (calls (own sessionId u))).getLast?.elim (loadLatest storage db sessionId)
        fun state => .ok (some state) := by
  induction u generalizing db with
  | nil =>
      obtain rfl := Option.some.inj h
      rfl
  | cons item rest ih =>
      obtain ⟨mid, hstep, hrest⟩ := Option.bind_eq_some_iff.mp h
      obtain ⟨hitem, hproper⟩ := List.forall_mem_cons.mp hproper
      have hown : own sessionId (item :: rest) = own sessionId [item] ++ own sessionId rest :=
        own_append [item] rest
      rw [hown, calls_append, saved_append] at hkept ⊢
      rw [List.forall_mem_append] at hkept
      rw [ih hrest hproper hkept.2, step_latest hstep hitem hkept.1, List.getLast?_append]
      cases (saved checkpointer (calls (own sessionId rest))).getLast? <;> rfl

end Database

section Listening

variable {checkpointer : Listener} {listeners : List Listener}

theorem ended_append (shown shown' : List GraphObservation) :
    ended (shown ++ shown') = ended shown ++ ended shown' := by
  simp only [ended, List.filter_append, List.map_append]

theorem ended_nodeEnd {observation : GraphObservation} (h : observation.event.kind = .nodeEnd) :
    ended [observation] = [observation.state] := by
  simp [ended, h]

theorem ended_other {observation : GraphObservation} (h : observation.event.kind ≠ .nodeEnd) :
    ended [observation] = [] := by
  simp [ended, h]

-- What the checkpointer is told of one observation that some listeners hear.
theorem saved_told (hc : checkpointer ∈ listeners) (observation : GraphObservation) :
    (saved checkpointer (listeners.map (·, observation))).getLast? =
      (ended [observation]).getLast? := by
  have htold : ((listeners.map (·, observation)).filter fun call => call.1 = checkpointer).map Prod.snd =
      (listeners.filter (· = checkpointer)).map fun _ => observation := by
    rw [List.filter_map, List.map_map]
    rfl
  rw [saved, htold]
  by_cases hkind : observation.event.kind = .nodeEnd
  · have hall : ended ((listeners.filter (· = checkpointer)).map fun _ => observation) =
        (listeners.filter (· = checkpointer)).map fun _ => observation.state := by
      rw [ended, List.filter_eq_self.mpr, List.map_map]
      · rfl
      · intro o ho
        obtain ⟨_, -, rfl⟩ := List.mem_map.mp ho
        exact decide_eq_true hkind
    rw [hall, ended_nodeEnd hkind, List.getLast?_map]
    have hne : listeners.filter (· = checkpointer) ≠ [] :=
      List.ne_nil_of_mem (List.mem_filter.mpr ⟨hc, by simp⟩)
    rw [List.getLast?_eq_some_getLast hne]
    rfl
  · have hnone : ended ((listeners.filter (· = checkpointer)).map fun _ => observation) = [] := by
      rw [ended, List.map_eq_nil_iff, List.filter_eq_nil_iff]
      intro o ho
      obtain ⟨_, -, rfl⟩ := List.mem_map.mp ho
      simpa using hkind
    rw [hnone, ended_other hkind]

theorem saved_delivered (hc : checkpointer ∈ listeners) (shown : List GraphObservation) :
    (saved checkpointer (delivered listeners shown)).getLast? = (ended shown).getLast? := by
  induction shown using List.reverseRecOn with
  | nil => rfl
  | append_singleton shown last ih =>
      have hlast : delivered listeners [last] = listeners.map (·, last) := List.flatMap_singleton ..
      rw [delivered_append, saved_append, List.getLast?_append, ih, hlast, saved_told hc, ended_append,
        List.getLast?_append]

end Listening

section Sessions

variable [Sha256] {storage : Storage} {checkpointer : Listener} {db db' : Database}
  {sessions : List Session} {session : Session} {u : History} {sessionId : Str}

omit [Sha256] in
theorem committed_emit {h : Run} {observation : GraphObservation} :
    committed (h ++ [.emit observation]) =
      if publishes observation.event.kind = true then some observation.state else committed h := by
  rw [committed, observations_append, List.filter_append, List.map_append, List.getLast?_append]
  split_ifs with hpublishes
  · simp [hpublishes]
  · simp [hpublishes, committed]

-- The state published last is that of the last end of a node.
theorem committed_eq {g : CompiledGraph} {gate : Option Gate} {init : State} {h : Run}
    (hd : Lineage.Descending g gate init h) :
    committed h = (ended (observations h)).getLast? := by
  induction h using List.reverseRecOn with
  | nil => rfl
  | append_singleton h e ih =>
      obtain ⟨hd, hlast⟩ := always_snoc.mp hd
      have ih := ih hd
      cases e with
      | act op answer =>
          rw [committed, observations_append] at *
          simpa using ih
      | emit observation =>
          rw [committed_emit, observations_append, observations_emit, observations_nil, ended_append,
            List.getLast?_append]
          by_cases hkind : observation.event.kind = .nodeEnd
          · rw [ended_nodeEnd hkind, hkind]
            rfl
          · rw [ended_other hkind]
            by_cases hcommit : observation.event.kind = .superstepCommit
            · rw [hcommit]
              obtain ⟨before, last, rfl, hend, hstate⟩ :=
                (hlast observation rfl (by rw [hcommit]; rfl)).branch hcommit
              rw [observations_append, observations_emit, observations_nil, ended_append,
                ended_nodeEnd hend, List.getLast?_append, hstate]
              rfl
            · have hsilent : publishes observation.event.kind = false := by
                cases hk : observation.event.kind <;> first | rfl | contradiction
              rw [hsilent, ih]
              rfl

omit [Sha256] in
theorem loadLatest_none : loadLatest storage db sessionId = .ok none ↔
    ∀ row ∈ db, row.sessionId ≠ sessionId := by
  unfold loadLatest
  cases hlatest : latest db sessionId with
  | none =>
      have hnone := List.filter_eq_nil_iff.mp (List.getLast?_eq_none_iff.mp hlatest)
      simpa using hnone
  | some row =>
      have hrow := List.mem_filter.mp (List.mem_of_getLast? hlatest)
      constructor
      · intro h
        dsimp only at h
        cases hstate : storage.validate row.stateJson <;> rw [hstate] at h <;> cases h
      · exact fun h => absurd (of_decide_eq_true hrow.2) (h row hrow.1)

theorem Current.latest_some {t : Turns} {state : State} (h : Current storage db db' session t)
    (hstate : committed (pulled t) = some state) :
    loadLatest storage db' session.id = .ok (some state) := by
  rw [h.latest, hstate]
  rfl

theorem Together.descending (h : Together sessions u) (hm : session ∈ sessions) :
    Lineage.Descending session.graph session.gate session.state (pulled (own session.id u)) := by
  obtain ⟨more, o, he⟩ := h.runs session hm
  obtain ⟨rest, r, hrun⟩ := pulled_begins he
  rw [pulled_append, List.append_assoc] at hrun
  exact (always_append.mp (Lineage.run_descends hrun)).1

theorem Together.heeds (h : Together sessions u) (hm : session ∈ sessions) :
    ∀ call ∈ calls (own session.id u), call.2 ∈ observations (pulled (own session.id u)) := by
  obtain ⟨more, o, he⟩ := h.runs session hm
  exact always_heeds (always_append.mp (run_heeds he)).1

-- The committed state is one the scheduler had when it published it.
theorem committed_built {g : CompiledGraph} {gate : Option Gate} {init state : State} {h : Run}
    (hd : Lineage.Descending g gate init h) (hstate : committed h = some state) :
    ∃ past observation post, h = past ++ .emit observation :: post ∧
      publishes observation.event.kind = true ∧ observation.state = state ∧
      Lineage.Built g gate init past state ∧ Lineage.Approved past := by
  obtain ⟨observation, hm, rfl⟩ := List.mem_map.mp (List.mem_of_getLast? hstate)
  obtain ⟨hm, hpublishes⟩ := List.mem_filter.mp hm
  obtain ⟨past, post, rfl⟩ := List.append_of_mem (emit_mem_iff.mpr hm)
  have hlast := hd past _ post rfl observation rfl hpublishes
  exact ⟨past, observation, post, rfl, hpublishes, rfl, hlast.built, hlast.approved⟩

-- Where nothing writes or changes a session's id, the states it saves carry it.
theorem Sharing.proper (h : Sharing storage checkpointer sessions u)
    (hleaves : ∀ session ∈ sessions, ∀ e ∈ pulled (own session.id u),
      Lineage.leaves "session_id" e = true) :
    ∀ item ∈ u, Proper checkpointer item := by
  intro item hitem payload hcall hkind
  obtain ⟨session, hm, hid⟩ := h.known item hitem
  have hturn : item.2 ∈ own session.id u :=
    List.mem_filterMap.mpr ⟨item, hitem, if_pos hid.symm⟩
  have hshown := h.heeds hm _ (List.mem_filterMap.mpr ⟨item.2, hturn, hcall⟩)
  obtain ⟨past, post, hsplit⟩ := List.append_of_mem (emit_mem_iff.mpr hshown)
  have hlast := h.descending hm past _ post hsplit payload rfl (by rw [hkind]; rfl)
  refine ⟨hlast.named hkind, ?_⟩
  have hbuilt := hlast.built.mono (hsplit ▸ List.subset_append_left past (.emit payload :: post))
  rw [← hid, ← session.named]
  exact hbuilt.get_eq (by decide) (h.spared session hm) (hleaves session hm)

-- A listener that is not ahead of the checkpointer is told after it, or is the checkpointer.
omit [Sha256] in
theorem mem_told {listeners front back : List Listener} {listener : Listener}
    (hlisteners : listeners = front ++ listener :: back)
    (hahead : listener ∉ listeners.takeWhile (· ≠ checkpointer)) :
    checkpointer ∈ front ++ [listener] := by
  by_contra hnot
  rw [List.mem_append, List.mem_singleton, not_or] at hnot
  obtain ⟨hfront, hlistener⟩ := hnot
  refine hahead ?_
  rw [hlisteners, List.takeWhile_append_of_pos, List.takeWhile_cons_of_pos]
  · exact List.mem_append_right _ List.mem_cons_self
  · exact decide_eq_true (Ne.symm hlistener)
  · exact fun other hm => decide_eq_true fun he => hfront (he ▸ hm)

-- What the checkpointer was told of a last observation on which the dispatch failed.
omit [Sha256] in
theorem saved_heard {listeners : List Listener} {observation : GraphObservation}
    {before : Trace Host Empty} {error : Exn} (h : Heard observation listeners before (.error error))
    (hcopies : observation.event.kind = .nodeEnd → detachable observation = true)
    (hahead : ∀ turn ∈ (outward before : Turns), ∀ call, call? turn = some call →
      call.1 ∈ listeners.takeWhile (· ≠ checkpointer) → failure? turn = none) :
    (saved checkpointer (calls (outward before))).getLast? = (ended [observation]).getLast? := by
  cases h with
  | uncopied hnone hcopy _ =>
      subst hnone
      have hkind : observation.event.kind ≠ .nodeEnd := fun hkind =>
        absurd ((hcopies hkind).symm.trans hcopy) (by decide)
      rw [ended_other hkind]
      rfl
  | @failed front back listener before response _ hlisteners hb hcalls _ _ hresponse =>
      subst hb
      rw [outward_append] at hahead ⊢
      have hlast := hahead _ (List.mem_append_right _ List.mem_cons_self) (listener, observation) rfl
      have hmem : checkpointer ∈ front ++ [listener] := mem_told hlisteners fun hm =>
        nomatch (failure?_of_error hresponse).symm.trans (hlast hm)
      rw [calls_append, hcalls, ← saved_told hmem, List.map_append]
      rfl

-- The checkpointer was told of every end of a node.
theorem saved_rests {t : Turns} (h : Rests session t) (hc : checkpointer ∈ session.listeners)
    (hcopies : ∀ observation ∈ observations (pulled t), observation.event.kind = .nodeEnd →
      detachable observation = true)
    (hahead : ∀ turn ∈ t, ∀ call, call? turn = some call →
      call.1 ∈ session.listeners.takeWhile (· ≠ checkpointer) → failure? turn = none) :
    (saved checkpointer (calls t)).getLast? = (ended (observations (pulled t))).getLast? := by
  cases h with
  | advancing _ _ hdelivered =>
      rw [hdelivered]
      exact saved_delivered hc _
  | ended he =>
      cases exec_drain he with
      | returned _ hstep | raised _ hstep =>
          rw [(lockstep_delivered hstep).1.calls]
          exact saved_delivered hc _
      | @failed s v value b held' rest error hrun hstep hfailed ht =>
          rcases exec_onObservation hfailed with ⟨-, herror⟩ | ⟨before, error, reply, hheard, rfl, -⟩
          · cases herror
          · have hpulled : pulled t = s ++ [Entry.emit value] := by
              rw [ht, pulled_append, hstep.pulled_eq, pulled_cons, pulled_outward]
            have hshown : observations (pulled t) = observations s ++ [value] := by
              rw [hpulled, observations_append]
              rfl
            have hcalls : calls t = delivered session.listeners (observations s) ++
                calls (outward before) := by
              rw [ht, calls_append, calls_inner, outward_append, calls_append,
                (lockstep_delivered hstep).1.calls]
              exact congrArg _ (List.append_nil _)
            have hlast : (saved checkpointer (calls (outward before))).getLast? =
                (ended [value]).getLast? := by
              refine saved_heard hheard (hcopies value (by simp [hshown])) fun turn hm => ?_
              refine hahead turn ?_
              rw [ht, outward_append]
              exact List.mem_append_right _ (List.mem_cons_of_mem _ (List.mem_append_left _ hm))
            rw [hcalls, hshown, saved_append, ended_append, List.getLast?_append, hlast,
              saved_delivered hc, List.getLast?_append]

-- The latest checkpoint of a session is the state it committed last.
theorem checkpoint_current (h : Sharing storage checkpointer sessions u)
    (hstores : stores storage checkpointer db u = some db') (hm : session ∈ sessions)
    (hrests : Rests session (own session.id u))
    (hleaves : ∀ session ∈ sessions, ∀ e ∈ pulled (own session.id u),
      Lineage.leaves "session_id" e = true)
    (hcopies : ∀ observation ∈ observations (pulled (own session.id u)),
      observation.event.kind = .nodeEnd → detachable observation = true) :
    Current storage db db' session (own session.id u) := by
  have hd := h.descending hm
  have hlatest : loadLatest storage db' session.id =
      (committed (pulled (own session.id u))).elim (loadLatest storage db session.id)
        fun state => .ok (some state) := by
    rw [stores_latest hstores (h.proper hleaves) (h.kept session hm), committed_eq hd,
      saved_rests hrests (h.listening session hm) hcopies (h.ahead session hm)]
  refine ⟨hlatest, ?_, fun state hstate => committed_built hd hstate⟩
  rw [hlatest]
  cases committed (pulled (own session.id u)) with
  | none => simpa using loadLatest_none
  | some state => simp

end Sessions

-- `model_dump_json` of a state that can be dumped.
def modelJson (state : State) : Option Str :=
  (modelFields.mapM fun field => (Json.toDoc id (state.get field)).map (field, ·)).map fun members =>
    Json.render Json.escapeUnicode (.object members)

-- Only the dumps of these states are read back.
def snapshots (known : List State) : Storage where
  dump state := match modelJson state with
    | some text => .ok text
    | none => .error (.other "PydanticSerializationError" none none 0)
  validate text := match known.find? (modelJson · = some text) with
    | some state => .ok state
    | none => .error (.other "ValidationError" none none 0)
  column
    | .str text => .ok text
    | _ => .error (.other "InterfaceError" none none 0)
  column_str _ := rfl

def readable (known : List State) (state : State) : Bool :=
  match modelJson state with
  | some text => (known.find? (modelJson · = some text)).map State.attrs = some state.attrs
  | none => false

theorem kept_of_readable {known : List State} {state : State} (h : readable known state = true) :
    Kept (snapshots known) state := by
  unfold readable at h
  cases hjson : modelJson state with
  | none =>
      rw [hjson] at h
      cases h
  | some text =>
      rw [hjson] at h
      obtain ⟨found, hfound, hattrs⟩ := Option.map_eq_some_iff.mp (of_decide_eq_true h)
      obtain ⟨attrs, declared⟩ := found
      obtain rfl : attrs = state.attrs := hattrs
      refine ⟨text, ?_, ?_⟩
      · simp only [snapshots, hjson]
      · simp only [snapshots, hfound]

-- Listeners that only listen.
def listening : Handler Host
  | .onObservation _ payload => ⟨.ok (), payload⟩
  | .aclose => .ok ()

def Session.simulated [Sha256] (session : Session) (handler : Handler Core) :
    Turns × Except Failure State :=
  session.program.eval (handler.draining listening)

-- Turns of one session.
def within (id : Str) (t : Turns) : History := t.map (id, ·)

theorem own_within (id : Str) (t : Turns) : own id (within id t) = t := by
  rw [own, within, List.filterMap_map]
  simp

theorem mem_within {id : Str} {t : Turns} {item : Str × Turn Core Host GraphObservation}
    (h : item ∈ within id t) : id = item.1 := by
  obtain ⟨_, -, rfl⟩ := List.mem_map.mp h
  rfl

theorem own_within_other {id id' : Str} (h : id ≠ id') (t : Turns) : own id' (within id t) = [] := by
  rw [own, within, List.filterMap_map]
  simp [h]

theorem sharing_of_runs [Sha256] {known : List State} {checkpointer : Listener}
    {sessions : List Session} {u : History} (hdistinct : (sessions.map Session.id).Nodup)
    (hknown : ∀ item ∈ u, ∃ session ∈ sessions, session.id = item.1)
    (hruns : ∀ session ∈ sessions, ∃ t o, own session.id u = t ∧ Exec draining session.program t o ∧
      checkpointer ∈ session.listeners ∧ (∀ e ∈ pulled t, Lineage.spares "session_id" e = true) ∧
      (∀ state ∈ saved checkpointer (calls t), readable known state = true) ∧
      ∀ turn ∈ t, failure? turn = none) :
    Sharing (snapshots known) checkpointer sessions u where
  distinct := hdistinct
  known := hknown
  runs session hm := by
    obtain ⟨t, o, rfl, he, -⟩ := hruns session hm
    exact ⟨[], o, (List.append_nil _).symm ▸ he⟩
  listening session hm := by
    obtain ⟨t, o, -, -, hc, -⟩ := hruns session hm
    exact hc
  spared session hm := by
    obtain ⟨t, o, rfl, -, -, hspared, -⟩ := hruns session hm
    exact hspared
  kept session hm := by
    obtain ⟨t, o, rfl, -, -, -, hread, -⟩ := hruns session hm
    exact fun state hstate => kept_of_readable (hread state hstate)
  ahead session hm := by
    obtain ⟨t, o, rfl, -, -, -, -, hfine⟩ := hruns session hm
    exact fun turn hturn _ _ _ => hfine turn hturn

-- A delivery and the checkpointer, which is the plugin.
def recorded (id : Str) (gate : Option Gate) (reducers : Dict Str Reducer) : Session where
  id := id
  graph := { CompiledGraph.diamond with reducers := reducers }
  gate := gate
  state := State.new id
  plugins := [⟨1⟩]
  delivery := some ⟨0⟩
  named := rfl

-- A gated session runs to its end in the middle of an ungated one.
theorem checkpoint_current_interleaved :
    letI := Sha256.verbatim
    let allowing := obliging fun _ => .dict [("retry_count", .int 1)]
    let outer := recorded "outer" none .empty
    let inner := recorded "inner" (some ⟨true, true⟩) .empty
    let t := (outer.simulated allowing).1
    let t' := (inner.simulated allowing).1
    let u := within "outer" (t.take 9) ++ within "inner" t' ++ within "outer" (t.drop 9)
    let storage := snapshots (saved ⟨1⟩ (calls t) ++ saved ⟨1⟩ (calls t'))
    ∃ db, stores storage ⟨1⟩ [] u = some db ∧ db.length = 6 ∧
      Current storage [] db outer t ∧ Current storage [] db inner t' := by
  let := Sha256.verbatim
  intro allowing outer inner t t' u storage
  have he : Exec draining outer.program t _ := exec_draining allowing listening _
  have he' : Exec draining inner.program t' _ := exec_draining allowing listening _
  have hown : own "outer" u = t := by
    rw [own_append, own_append, own_within, own_within, own_within_other (by decide),
      List.append_nil, List.take_append_drop]
  have hown' : own "inner" u = t' := by
    rw [own_append, own_append, own_within, own_within_other (by decide),
      own_within_other (by decide), List.append_nil, List.nil_append]
  have hsharing : Sharing storage ⟨1⟩ [outer, inner] u := by
    refine sharing_of_runs (by decide) ?_ ?_
    · intro item hm
      rcases List.mem_append.mp hm with hm | hm
      · rcases List.mem_append.mp hm with hm | hm
        · exact ⟨outer, by simp, mem_within hm⟩
        · exact ⟨inner, by simp, mem_within hm⟩
      · exact ⟨outer, by simp, mem_within hm⟩
    · refine List.forall_mem_cons.mpr ⟨⟨t, _, hown, he, by decide, ?_, ?_, ?_⟩,
        List.forall_mem_singleton.mpr ⟨t', _, hown', he', by decide, ?_, ?_, ?_⟩⟩
      all_goals decide +kernel
  have hstored : (stores storage ⟨1⟩ [] u).map List.length = some 6 := by decide +kernel
  obtain ⟨db, hdb, hlength⟩ := Option.map_eq_some_iff.mp hstored
  have hleaves : ∀ session ∈ [outer, inner], ∀ e ∈ pulled (own session.id u),
      Lineage.leaves "session_id" e = true := by
    refine List.forall_mem_cons.mpr ⟨?_, List.forall_mem_singleton.mpr ?_⟩
    · show ∀ e ∈ pulled (own "outer" u), _
      rw [hown]
      decide +kernel
    · show ∀ e ∈ pulled (own "inner" u), _
      rw [hown']
      decide +kernel
  have hcopies : ∀ observation ∈ observations (pulled t), observation.event.kind = .nodeEnd →
      detachable observation = true := by decide +kernel
  have hcopies' : ∀ observation ∈ observations (pulled t'), observation.event.kind = .nodeEnd →
      detachable observation = true := by decide +kernel
  refine ⟨db, hdb, hlength, ?_, ?_⟩
  · rw [← hown] at he hcopies ⊢
    exact checkpoint_current hsharing hdb List.mem_cons_self (.ended he) hleaves hcopies
  · rw [← hown'] at he' hcopies' ⊢
    exact checkpoint_current hsharing hdb (List.mem_cons_of_mem _ List.mem_cons_self) (.ended he')
      hleaves hcopies'

-- A node gives the run's state another session id in place.
def relabelling : Handler Core
  | .leave (.node _ _ state) =>
      ⟨.ok (.dict []), state.update (Dict.ofList [("session_id", "other")])⟩
  | op => obliging (fun _ => .dict []) op

-- The delta of the first branch cannot be copied; the reducer drops what it wrote.
def locking : Handler Core
  | .leave (.branch _ name _ state) =>
      ⟨.ok (.dict [("metadata", if name = "b" then .dict [("lock", .object "Lock" 1 false)]
        else .dict [])]), state⟩
  | op => obliging (fun _ => .dict []) op

theorem relabelled :
    letI := Sha256.verbatim
    let session := recorded "s" none .empty
    let t := (session.simulated relabelling).1
    let storage := snapshots (saved ⟨1⟩ (calls t))
    Sharing storage ⟨1⟩ [session] (within "s" t) ∧ Rests session t ∧
      (∀ observation ∈ observations (pulled t), observation.event.kind = .nodeEnd →
        detachable observation = true) ∧
      ∃ db, stores storage ⟨1⟩ [] (within "s" t) = some db ∧ loadLatest storage db "s" = .ok none ∧
        committed (pulled t) ≠ none := by
  let := Sha256.verbatim
  intro session t storage
  have he : Exec draining session.program t _ := exec_draining relabelling listening _
  refine ⟨?_, .ended he, by decide +kernel, ?_⟩
  · refine sharing_of_runs (by decide) (fun item hm => ⟨session, by simp, mem_within hm⟩) ?_
    refine List.forall_mem_singleton.mpr ⟨t, _, own_within "s" t, he, by decide, ?_, ?_, ?_⟩
    all_goals decide +kernel
  · have hstored : (stores storage ⟨1⟩ [] (within "s" t)).map (fun db => (latest db "s").isNone) =
        some true := by decide +kernel
    obtain ⟨db, hdb, hlatest⟩ := Option.map_eq_some_iff.mp hstored
    have hcommitted : (committed (pulled t)).isSome = true := by decide +kernel
    refine ⟨db, hdb, ?_, Option.isSome_iff_ne_none.mp hcommitted⟩
    rw [loadLatest, Option.isNone_iff_eq_none.mp hlatest]

theorem uncopied :
    letI := Sha256.verbatim
    let session := recorded "s" none (Dict.ofList [("metadata", .last)])
    let t := (session.simulated locking).1
    let storage := snapshots (saved ⟨1⟩ (calls t))
    Sharing storage ⟨1⟩ [session] (within "s" t) ∧ Rests session t ∧
      (∀ e ∈ pulled t, Lineage.leaves "session_id" e = true) ∧
      ∃ db state, stores storage ⟨1⟩ [] (within "s" t) = some db ∧
        committed (pulled t) = some state ∧ loadLatest storage db "s" ≠ .ok (some state) := by
  let := Sha256.verbatim
  intro session t storage
  have he : Exec draining session.program t _ := exec_draining locking listening _
  refine ⟨?_, .ended he, by decide +kernel, ?_⟩
  · refine sharing_of_runs (by decide) (fun item hm => ⟨session, by simp, mem_within hm⟩) ?_
    refine List.forall_mem_singleton.mpr ⟨t, _, own_within "s" t, he, by decide, ?_, ?_, ?_⟩
    all_goals decide +kernel
  · have hstored : (stores storage ⟨1⟩ [] (within "s" t)).map (fun db => decide
        ((loadLatest storage db "s").toOption.map (Option.map State.attrs) =
          some ((committed (pulled t)).map State.attrs))) = some false := by decide +kernel
    obtain ⟨db, hdb, hstale⟩ := Option.map_eq_some_iff.mp hstored
    have hcommitted : (committed (pulled t)).isSome = true := by decide +kernel
    obtain ⟨state, hstate⟩ := Option.isSome_iff_exists.mp hcommitted
    refine ⟨db, state, hdb, hstate, fun hlatest => of_decide_eq_false hstale ?_⟩
    rw [hlatest, hstate]
    rfl

-- Without either condition the latest checkpoint need not be the last committed state.
theorem checkpoint_stale :
    (¬∀ [Sha256] (storage : Storage) (checkpointer : Listener) (sessions : List Session)
        (u : History) (db db' : Database) (session : Session),
      Sharing storage checkpointer sessions u → stores storage checkpointer db u = some db' →
      session ∈ sessions → Rests session (own session.id u) →
      (∀ observation ∈ observations (pulled (own session.id u)),
        observation.event.kind = .nodeEnd → detachable observation = true) →
      Current storage db db' session (own session.id u)) ∧
    ¬∀ [Sha256] (storage : Storage) (checkpointer : Listener) (sessions : List Session)
        (u : History) (db db' : Database) (session : Session),
      Sharing storage checkpointer sessions u → stores storage checkpointer db u = some db' →
      session ∈ sessions → Rests session (own session.id u) →
      (∀ session ∈ sessions, ∀ e ∈ pulled (own session.id u),
        Lineage.leaves "session_id" e = true) →
      Current storage db db' session (own session.id u) := by
  constructor
  · intro h
    let := Sha256.verbatim
    obtain ⟨hsharing, hrests, hcopies, db, hdb, hlatest, hcommitted⟩ := relabelled
    rw [← own_within "s" ((recorded "s" none .empty).simulated relabelling).1]
      at hrests hcopies hcommitted
    have hcurrent := h _ _ _ _ _ _ _ hsharing hdb List.mem_cons_self hrests hcopies
    exact hcommitted (hcurrent.none_iff.mp hlatest).1
  · intro h
    let := Sha256.verbatim
    obtain ⟨hsharing, hrests, hleaves, db, state, hdb, hstate, hlatest⟩ := uncopied
    rw [← own_within "s"
      ((recorded "s" none (Dict.ofList [("metadata", .last)])).simulated locking).1]
      at hrests hleaves hstate
    have hcurrent := h _ _ _ _ _ _ _ hsharing hdb List.mem_cons_self hrests
      (List.forall_mem_singleton.mpr hleaves)
    exact hlatest (hcurrent.latest_some hstate)

end PerpetuaCore.Graph.Checkpointer
