import PerpetuaCore.Python.Journal
import PerpetuaCore.Python.Value

namespace PerpetuaCore.Discovery

open Python (Str Dict)
open Python.Journal (Current Earliest)

inductive BackendKind where
  | ollama
  | lmstudio
  | openrouter
  deriving DecidableEq

inductive BackendHealth where
  | unknown
  | online
  | offline
  | degraded
  deriving DecidableEq

structure Backend where
  name : Str
  baseUrl : Str
  kind : BackendKind
  models : List Str := []
  health : BackendHealth := .unknown
  lastSeen : Option Nat := none
  deriving DecidableEq

abbrev BackendRegistry := Dict Str Backend

namespace BackendRegistry

def online (registry : BackendRegistry) : List Backend :=
  registry.values.filter (·.health = .online)

def record (registry : BackendRegistry) (backend : Backend) : BackendRegistry :=
  registry.set backend.name backend

end BackendRegistry

inductive TaskType where
  | coding
  | reasoning
  | research
  | ops
  deriving DecidableEq

def TaskType.name : TaskType → Str
  | .coding => "coding"
  | .reasoning => "reasoning"
  | .research => "research"
  | .ops => "ops"

inductive Tier where
  | mac
  | windows
  | shared
  deriving DecidableEq

def Tier.name : Tier → Str
  | .mac => "mac"
  | .windows => "windows"
  | .shared => "shared"

-- `_MIRROR_BACKENDS`.
def mirrorBackends : List Str := ["lmstudio-mac"]

-- `_TIER_PREF.get(..., default)`; the last case is the default.
def tierPref : Tier → TaskType → List BackendKind
  | .mac, .coding | .mac, .reasoning => [.ollama]
  | .windows, .coding | .windows, .reasoning => [.lmstudio]
  | .shared, .coding | .shared, .research => [.lmstudio, .ollama]
  | .shared, .reasoning | .shared, .ops => [.ollama, .lmstudio]
  | _, _ => [.ollama, .lmstudio]

-- `_TIER_HOSTS`; an empty set is no constraint.
def tierHosts : Tier → List Str
  | .mac => ["ollama-local"]
  | .windows => ["lmstudio-win"]
  | .shared => []

structure NoBackendAvailableError where
  message : Str
  deriving DecidableEq

def isMirror (b : Backend) : Bool := mirrorBackends.contains b.name

def isHosted (tier : Tier) (b : Backend) : Bool :=
  (tierHosts tier).isEmpty || (tierHosts tier).contains b.name

-- The first phase; an empty hint is no hint.
def hinted (online : List Backend) (modelHint : Option Str) : Option Backend :=
  (modelHint.filter (· ≠ [])).bind fun hint =>
    online.find? fun b => b.models.contains hint && !isMirror b

def candidates (online : List Backend) (targetTier : Tier) : List Backend :=
  online.filter fun b => isHosted targetTier b && !isMirror b

-- The second phase.
def placed (online : List Backend) (taskType : TaskType) (targetTier : Tier) : Option Backend :=
  (tierPref targetTier taskType).findSome? fun kind =>
    (candidates online targetTier).find? (·.kind = kind)

def selectBackend (registry : BackendRegistry) (modelHint : Option Str) (taskType : TaskType)
    (targetTier : Tier) : Except NoBackendAvailableError Backend :=
  match (hinted registry.online modelHint).or (placed registry.online taskType targetTier) with
  | some b => .ok b
  | none => .error
      ⟨("No online backend matches tier=" : Str) ++ targetTier.name ++ (" task=" : Str) ++
        taskType.name ++ (" hint=" : Str) ++ modelHint.getD "None"⟩

-- The registry after a history of records.
def recordAll (history : List Backend) : BackendRegistry :=
  history.foldl BackendRegistry.record Dict.empty

-- The most recent record of a name, online, and not of a mirror.
structure Eligible (history : List Backend) (b : Backend) : Prop where
  current : Current Backend.name history b
  online : b.health = .online
  name : b.name ∉ mirrorBackends

def Lists (history : List Backend) (modelHint : Option Str) (b : Backend) : Prop :=
  Eligible history b ∧ ∃ hint, modelHint = some hint ∧ hint ≠ [] ∧ hint ∈ b.models

def Hosted (history : List Backend) (targetTier : Tier) (kind : BackendKind) (b : Backend) : Prop :=
  Eligible history b ∧ (tierHosts targetTier = [] ∨ b.name ∈ tierHosts targetTier) ∧ b.kind = kind

-- A backend that lists the hint, else one of the first preferred kind that the tier has; of
-- several, the one whose name was recorded first.
def Selected (history : List Backend) (modelHint : Option Str) (taskType : TaskType)
    (targetTier : Tier) (b : Backend) : Prop :=
  Earliest Backend.name history (Lists history modelHint) b ∨
    (∀ other, ¬Lists history modelHint other) ∧
      ∃ before kind after, tierPref targetTier taskType = before ++ kind :: after ∧
        (∀ earlier ∈ before, ∀ other, ¬Hosted history targetTier earlier other) ∧
        Earliest Backend.name history (Hosted history targetTier kind) b

variable {history : List Backend} {modelHint : Option Str} {taskType : TaskType}
  {targetTier : Tier} {b : Backend}

theorem recordAll_eq : recordAll history = Python.Journal.recorded Backend.name history := rfl

-- Searching the online backends of a registry.
theorem find?_online {p : Backend → Bool} {P : Backend → Prop}
    (hp : ∀ b, P b ↔ Current Backend.name history b ∧ b.health = .online ∧ p b) :
    ((recordAll history).online.find? p = some b ↔ Earliest Backend.name history P b) ∧
      ((recordAll history).online.find? p = none ↔ ∀ other, ¬P other) := by
  obtain rfl : P = fun b => Current Backend.name history b ∧
      decide (decide (b.health = .online) = true ∧ p b = true) = true := by
    funext b
    simp [hp]
  rw [recordAll_eq, BackendRegistry.online, List.find?_filter]
  exact ⟨Python.Journal.find?_recorded, Python.Journal.find?_recorded_eq_none⟩

theorem hinted_spec :
    (hinted (recordAll history).online modelHint = some b ↔
      Earliest Backend.name history (Lists history modelHint) b) ∧
    (hinted (recordAll history).online modelHint = none ↔ ∀ other, ¬Lists history modelHint other) := by
  unfold hinted
  rcases hhint : modelHint.filter (· ≠ []) with _ | hint
  · have hnone : ∀ other, ¬Lists history modelHint other := by
      rintro other ⟨-, hint, rfl, hne, -⟩
      simp [hne] at hhint
    exact ⟨iff_of_false nofun fun h => hnone b h.holds, iff_of_true rfl hnone⟩
  · obtain ⟨rfl, hne⟩ := Option.filter_eq_some_iff.mp hhint
    have hne : hint ≠ [] := by simpa using hne
    refine find?_online fun b => ?_
    constructor
    · rintro ⟨he, _, ⟨⟩, -, hm⟩
      exact ⟨he.current, he.online, by simp [isMirror, he.name, hm]⟩
    · rintro ⟨hcurrent, honline, hp⟩
      simp only [isMirror, Bool.and_eq_true, List.contains_iff_mem, Bool.not_eq_true',
        ← Bool.not_eq_true] at hp
      exact ⟨⟨hcurrent, honline, hp.2⟩, hint, rfl, hne, hp.1⟩

theorem candidates_spec (kind : BackendKind) :
    ((candidates (recordAll history).online targetTier).find? (·.kind = kind) = some b ↔
      Earliest Backend.name history (Hosted history targetTier kind) b) ∧
    ((candidates (recordAll history).online targetTier).find? (·.kind = kind) = none ↔
      ∀ other, ¬Hosted history targetTier kind other) := by
  rw [candidates, List.find?_filter]
  refine find?_online fun b => ?_
  simp only [isHosted, isMirror, Bool.and_eq_true, Bool.or_eq_true, List.contains_iff_mem,
    List.isEmpty_iff, decide_eq_true_eq, Bool.not_eq_true', ← Bool.not_eq_true]
  constructor
  · rintro ⟨he, hhost, hkind⟩
    exact ⟨he.current, he.online, ⟨hhost, he.name⟩, hkind⟩
  · rintro ⟨hcurrent, honline, ⟨hhost, hname⟩, hkind⟩
    exact ⟨⟨hcurrent, honline, hname⟩, hhost, hkind⟩

theorem placed_spec :
    (placed (recordAll history).online taskType targetTier = some b ↔
      ∃ before kind after, tierPref targetTier taskType = before ++ kind :: after ∧
        (∀ earlier ∈ before, ∀ other, ¬Hosted history targetTier earlier other) ∧
        Earliest Backend.name history (Hosted history targetTier kind) b) ∧
    (placed (recordAll history).online taskType targetTier = none ↔
      ∀ kind ∈ tierPref targetTier taskType, ∀ other, ¬Hosted history targetTier kind other) := by
  constructor
  · rw [placed, List.findSome?_eq_some_iff]
    constructor
    · rintro ⟨before, kind, after, hprefs, hfound, hbefore⟩
      exact ⟨before, kind, after, hprefs, fun earlier hm =>
        (candidates_spec (b := b) earlier).2.mp (hbefore earlier hm), (candidates_spec kind).1.mp hfound⟩
    · rintro ⟨before, kind, after, hprefs, hbefore, hfound⟩
      exact ⟨before, kind, after, hprefs, (candidates_spec kind).1.mpr hfound, fun earlier hm =>
        (candidates_spec (b := b) earlier).2.mpr (hbefore earlier hm)⟩
  · rw [placed, List.findSome?_eq_none_iff]
    exact forall₂_congr fun kind _ => (candidates_spec (b := b) kind).2

theorem selectBackend_eq_ok_iff :
    selectBackend (recordAll history) modelHint taskType targetTier = .ok b ↔
      Selected history modelHint taskType targetTier b := by
  have hok : selectBackend (recordAll history) modelHint taskType targetTier = .ok b ↔
      (hinted (recordAll history).online modelHint).or
        (placed (recordAll history).online taskType targetTier) = some b := by
    unfold selectBackend
    split
    · rename_i found hfound
      simp [hfound]
    · rename_i hnone
      simp [hnone]
  rw [hok, Option.or_eq_some_iff, hinted_spec.1, (hinted_spec (b := b)).2, placed_spec.1]
  rfl

theorem Selected.eligible (h : Selected history modelHint taskType targetTier b) :
    Eligible history b := by
  rcases h with h | ⟨-, _, _, _, -, -, h⟩
  · exact h.holds.1
  · exact h.holds.1

-- Nothing is selected exactly where neither phase has a candidate.
theorem selectBackend_eq_error_iff :
    (∃ error, selectBackend (recordAll history) modelHint taskType targetTier = .error error) ↔
      ¬∃ b, Lists history modelHint b ∨
        ∃ kind ∈ tierPref targetTier taskType, Hosted history targetTier kind b := by
  have herror : (∃ error, selectBackend (recordAll history) modelHint taskType targetTier = .error error) ↔
      hinted (recordAll history).online modelHint = none ∧
        placed (recordAll history).online taskType targetTier = none := by
    rw [← Option.or_eq_none_iff]
    unfold selectBackend
    split
    · rename_i found hfound
      simp [hfound]
    · rename_i hnone
      simp [hnone]
  rw [herror]
  constructor
  · rintro ⟨hhinted, hplaced⟩ ⟨b, hlists | ⟨kind, hkind, hhosted⟩⟩
    · exact (hinted_spec (b := b)).2.mp hhinted b hlists
    · exact (placed_spec (b := b)).2.mp hplaced kind hkind b hhosted
  · intro hnone
    constructor
    · cases hhinted : hinted (recordAll history).online modelHint with
      | none => rfl
      | some b => exact absurd ⟨b, .inl (hinted_spec.1.mp hhinted).holds⟩ hnone
    · cases hplaced : placed (recordAll history).online taskType targetTier with
      | none => rfl
      | some b =>
          obtain ⟨before, kind, after, hprefs, -, hfound⟩ := placed_spec.1.mp hplaced
          have hkind : kind ∈ tierPref targetTier taskType := by simp [hprefs]
          exact absurd ⟨b, .inr ⟨kind, hkind, hfound.holds⟩⟩ hnone

-- A record that is not online revokes the name until it is recorded online again.
theorem Eligible.not_revoked {before after : List Backend} {revoked : Backend}
    (h : Eligible (before ++ revoked :: after) b) (hrevoked : revoked.health ≠ .online)
    (hafter : ∀ later ∈ after, later.name = revoked.name → later.health ≠ .online) :
    b.name ≠ revoked.name := by
  intro hname
  have hcurrent := Python.Journal.current_iff.mp h.current
  rw [Python.Journal.get?_recorded, List.reverse_append, List.reverse_cons, List.append_assoc,
    List.find?_append, hname] at hcurrent
  rcases Option.or_eq_some_iff.mp hcurrent with hlater | ⟨-, hlast⟩
  · have hm := List.mem_reverse.mp (List.mem_of_find?_eq_some hlater)
    exact hafter b hm hname h.online
  · obtain rfl : revoked = b := by simpa using hlast
    exact hrevoked h.online

-- The selection over any history of records.
theorem selectBackend_recorded (history : List Backend) (modelHint : Option Str)
    (taskType : TaskType) (targetTier : Tier) :
    (∀ b, selectBackend (recordAll history) modelHint taskType targetTier = .ok b ↔
      Selected history modelHint taskType targetTier b) ∧
    (∀ b, selectBackend (recordAll history) modelHint taskType targetTier = .ok b →
      Eligible history b) ∧
    ((∃ error, selectBackend (recordAll history) modelHint taskType targetTier = .error error) ↔
      ¬∃ b, Lists history modelHint b ∨
        ∃ kind ∈ tierPref targetTier taskType, Hosted history targetTier kind b) ∧
    ∀ before revoked after, history = before ++ revoked :: after → revoked.health ≠ .online →
      (∀ later ∈ after, later.name = revoked.name → later.health ≠ .online) →
      ∀ b, selectBackend (recordAll history) modelHint taskType targetTier = .ok b →
        b.name ≠ revoked.name := by
  have heligible : ∀ b, selectBackend (recordAll history) modelHint taskType targetTier = .ok b →
      Eligible history b := fun b hb => (selectBackend_eq_ok_iff.mp hb).eligible
  refine ⟨fun b => selectBackend_eq_ok_iff, heligible, selectBackend_eq_error_iff, ?_⟩
  rintro before revoked after rfl hrevoked hafter b hb
  exact (heligible b hb).not_revoked hrevoked hafter

def worker : Backend :=
  { name := "ollama-local", baseUrl := "http://localhost:11434/v1", kind := .ollama,
    models := ["qwen"], health := .online }

-- A backend that went offline and was recorded online anew, beside a spare one.
def flapping : List Backend :=
  [worker, { worker with health := .offline },
   { name := "lmstudio-win", baseUrl := "http://win:1234/v1", kind := .lmstudio,
     models := ["qwen"], health := .online },
   { worker with models := ["qwen", "llama"] }]

theorem selectBackend_recorded_flapping :
    (∀ b, selectBackend (recordAll (flapping.take 3)) (some "qwen") .ops .shared = .ok b →
      b.name ≠ ("ollama-local" : Str)) ∧
    Selected flapping (some "llama") .ops .shared flapping[3] :=
  ⟨(selectBackend_recorded (flapping.take 3) (some "qwen") .ops .shared).2.2.2 [flapping[0]]
      flapping[1] [flapping[2]] rfl (by decide) (by decide),
    ((selectBackend_recorded flapping (some "llama") .ops .shared).1 flapping[3]).mp (by decide)⟩

-- Two backends online, the second with a model of the empty name.
def unnamedModel : List Backend :=
  [{ name := "ollama-local", baseUrl := "http://localhost:11434/v1", kind := .ollama,
     models := ["qwen"], health := .online },
   { name := "lmstudio-win", baseUrl := "http://win:1234/v1", kind := .lmstudio,
     models := [""], health := .online }]

-- The empty hint chooses nothing, though a backend lists it.
theorem selectBackend_unnamed : ¬∀ history hint taskType targetTier b,
    Earliest Backend.name history (fun b => Eligible history b ∧ hint ∈ b.models) b →
      selectBackend (recordAll history) (some hint) taskType targetTier = .ok b := by
  intro h
  have hlisted : Earliest Backend.name unnamedModel
      (fun b => Eligible unnamedModel b ∧ ("" : Str) ∈ b.models) unnamedModel[1] := by
    refine ⟨⟨⟨⟨[unnamedModel[0]], [], rfl, by simp⟩, rfl, by decide⟩, by decide⟩, ?_⟩
    rintro other ⟨⟨⟨before, after, hsplit, -⟩, -, -⟩, hm⟩
    have hmem : other ∈ unnamedModel := by simp [hsplit]
    rcases List.mem_cons.mp hmem with rfl | hmem
    · exact absurd hm (by decide)
    · obtain rfl := List.mem_singleton.mp hmem
      exact Nat.le_refl _
  have hchosen := h unnamedModel "" .ops .shared _ hlisted
  exact absurd hchosen (by decide)

end PerpetuaCore.Discovery
