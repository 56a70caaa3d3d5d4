import PerpetuaCore.Python.Dict
import PerpetuaCore.Python.Value

namespace PerpetuaCore.Policy

open Python (Str Dict)

inductive Verdict where
  | allow
  | prefer
  | never
  deriving DecidableEq

inductive Tier where
  | mac
  | windows
  | shared
  deriving DecidableEq

-- `_TIERS`.
def tiers : List Tier := [.mac, .windows, .shared]

theorem mem_tiers (tier : Tier) : tier ∈ tiers := by
  cases tier <;> simp [tiers]

def Tier.name : Tier → Str
  | .mac => "mac"
  | .windows => "windows"
  | .shared => "shared"

-- `agate.ModelSpec`, as far as placement reads it.
structure ModelSpec where
  verdictForTier : Tier → Verdict

-- `agate.PolicyStore`.
structure PolicyStore where
  models : Dict Str ModelSpec
  routing : Dict Str Str

-- One model of the legacy mapping: a tier it leaves out is forbidden.
structure LegacySpec where
  mac : Option Verdict := none
  windows : Option Verdict := none
  shared : Option Verdict := none

def LegacySpec.normalize (spec : LegacySpec) : ModelSpec where
  verdictForTier
    | .mac => spec.mac.getD .never
    | .windows => spec.windows.getD .never
    | .shared => spec.shared.getD .never

-- `_normalize_store` of a raw mapping.
def normalizeStore (models : Dict Str LegacySpec) (routing : Dict Str Str) : PolicyStore where
  models :=
    { items := models.items.map fun item => (item.1, item.2.normalize)
      nodup := by simpa [Function.comp_def] using models.nodup }
  routing

structure HardwareDecision where
  provider : Str
  hardwareTier : Tier
  model : Str
  reason : Str
  deriving DecidableEq

inductive PolicyError where
  | hardwareAffinityError (message : Str)
  | keyError (key : Str)
  deriving DecidableEq

def checkAffinity (store : PolicyStore) (model : Str) (targetTier : Tier) :
    Except PolicyError Verdict :=
  match store.models.get? model with
  | none => .ok .allow
  | some spec =>
      if spec.verdictForTier targetTier = .never then
        .error (.hardwareAffinityError (("Model '" : Str) ++ model ++ ("' is forbidden on tier '" : Str) ++
          targetTier.name ++ ("'" : Str)))
      else .ok (spec.verdictForTier targetTier)

-- `next((t ... "PREFER"), next((t ... "ALLOW"), ...))`, the last default left to the caller.
def preferred (spec : ModelSpec) : Option Tier :=
  (tiers.find? (spec.verdictForTier · = .prefer)).or (tiers.find? (spec.verdictForTier · = .allow))

-- `routing.get(key)` where it is truthy.
def PolicyStore.routed? (store : PolicyStore) (key : Str) : Option Str :=
  (store.routing.get? key).filter (· ≠ [])

def resolveHint (store : PolicyStore) (hint : Str) : Except PolicyError HardwareDecision :=
  match store.models.get? hint with
  | none => .error (.hardwareAffinityError (("Unknown model hint: " : Str) ++ hint))
  | some spec =>
      match preferred spec with
      | none => .error (.hardwareAffinityError (("Model '" : Str) ++ hint ++
          ("' has no available tier" : Str)))
      | some tier => .ok
          { provider := tier.name, hardwareTier := tier, model := hint, reason := "explicit_model_hint" }

-- `routing.get(route_key) or routing.get(f"{task_type}:default") or routing["default"]`.
def routeModel (store : PolicyStore) (taskType optimizeFor : Str) : Except PolicyError Str :=
  match store.routed? (taskType ++ (":" : Str) ++ optimizeFor) with
  | some name => .ok name
  | none =>
      match store.routed? (taskType ++ (":default" : Str)) with
      | some name => .ok name
      | none =>
          match store.routing.get? ("default" : Str) with
          | some name => .ok name
          | none => .error (.keyError "default")

-- A route falls back to the shared tier where a hint is refused.
def placeRoute (store : PolicyStore) (name reason : Str) : Except PolicyError HardwareDecision :=
  match store.models.get? name with
  | none => .error (.keyError name)
  | some spec => .ok
      { provider := ((preferred spec).getD .shared).name
        hardwareTier := (preferred spec).getD .shared
        model := name, reason }

def resolve (store : PolicyStore) (taskType : Str) (optimizeFor : Str) (modelHint : Option Str) :
    Except PolicyError HardwareDecision :=
  match modelHint.filter (· ≠ []) with
  | some hint => resolveHint store hint
  | none => do
      let name ← routeModel store taskType optimizeFor
      placeRoute store name (("policy:" : Str) ++ taskType ++ (":" : Str) ++ optimizeFor)

-- What a placement must honour: it is not forbidden, and no preferred tier is passed over.
structure Honours (store : PolicyStore) (decision : HardwareDecision) : Prop where
  affinity : ∃ verdict, checkAffinity store decision.model decision.hardwareTier = .ok verdict
  preference : ∀ spec, store.models.get? decision.model = some spec →
    (∃ tier, spec.verdictForTier tier = .prefer) → spec.verdictForTier decision.hardwareTier = .prefer

-- Forbidden on every tier.
def Banned (spec : ModelSpec) : Prop := ∀ tier, spec.verdictForTier tier = .never

-- The routing map sends a request to `name`: the exact route, else the task's default, else
-- the global one; an empty entry counts as none.
def Routes (routing : Dict Str Str) (taskType optimizeFor name : Str) : Prop :=
  let exact := (routing.get? (taskType ++ (":" : Str) ++ optimizeFor)).getD []
  let fallback := (routing.get? (taskType ++ (":default" : Str))).getD []
  exact = name ∧ exact ≠ [] ∨ exact = [] ∧ fallback = name ∧ fallback ≠ [] ∨
    exact = [] ∧ fallback = [] ∧ routing.get? ("default" : Str) = some name

variable {store : PolicyStore} {taskType optimizeFor : Str}

theorem preferred_eq_none_iff {spec : ModelSpec} : preferred spec = none ↔ Banned spec := by
  simp only [preferred, Option.or_eq_none_iff, List.find?_eq_none, mem_tiers, forall_const,
    decide_eq_true_eq, ← forall_and]
  refine forall_congr' fun tier => ?_
  cases spec.verdictForTier tier <;> simp

theorem preferred_spec {spec : ModelSpec} {tier : Tier} (h : preferred spec = some tier) :
    spec.verdictForTier tier ≠ .never ∧
      ((∃ other, spec.verdictForTier other = .prefer) → spec.verdictForTier tier = .prefer) := by
  rcases Option.or_eq_some_iff.mp h with hprefer | ⟨hnone, hallow⟩
  · have hp : spec.verdictForTier tier = .prefer := by simpa using List.find?_some hprefer
    exact ⟨by simp [hp], fun _ => hp⟩
  · have ha : spec.verdictForTier tier = .allow := by simpa using List.find?_some hallow
    refine ⟨by simp [ha], ?_⟩
    rintro ⟨other, hp⟩
    have hother := List.find?_eq_none.mp hnone other (mem_tiers other)
    simp [hp] at hother

theorem honours_iff {decision : HardwareDecision} {spec : ModelSpec}
    (h : store.models.get? decision.model = some spec) :
    Honours store decision ↔ spec.verdictForTier decision.hardwareTier ≠ .never ∧
      ((∃ tier, spec.verdictForTier tier = .prefer) →
        spec.verdictForTier decision.hardwareTier = .prefer) := by
  have haffinity : (∃ verdict, checkAffinity store decision.model decision.hardwareTier = .ok verdict) ↔
      spec.verdictForTier decision.hardwareTier ≠ .never := by
    simp only [checkAffinity, h]
    split_ifs with hnever <;> simp [hnever]
  constructor
  · exact fun hd => ⟨haffinity.mp hd.affinity, hd.preference spec h⟩
  · rintro ⟨hv, hp⟩
    refine ⟨haffinity.mpr hv, fun spec' hs => ?_⟩
    obtain rfl := Option.some.inj (h.symm.trans hs)
    exact hp

-- An explicit hint is placed as the policy says or refused.
theorem resolveHint_honours {hint : Str} {decision : HardwareDecision}
    (h : resolveHint store hint = .ok decision) : Honours store decision := by
  unfold resolveHint at h
  split at h
  · cases h
  · rename_i spec hspec
    split at h
    · cases h
    · rename_i tier htier
      obtain rfl := Except.ok.inj h
      exact (honours_iff hspec).mpr (preferred_spec htier)

theorem routeModel_eq_ok_iff {name : Str} :
    routeModel store taskType optimizeFor = .ok name ↔ Routes store.routing taskType optimizeFor name := by
  unfold routeModel PolicyStore.routed? Routes
  rcases store.routing.get? (taskType ++ (":" : Str) ++ optimizeFor) with _ | (_ | ⟨c, exact⟩) <;>
    rcases store.routing.get? (taskType ++ (":default" : Str)) with _ | (_ | ⟨c', fallback⟩) <;>
    cases store.routing.get? ("default" : Str) <;> simp [Option.filter]

-- Off the hint, the policy is honoured unless it forbids the model everywhere.
theorem placeRoute_honours_iff {name reason : Str} :
    (∀ decision, placeRoute store name reason = .ok decision → Honours store decision) ↔
      ∀ spec, store.models.get? name = some spec → ¬Banned spec := by
  unfold placeRoute
  cases hspec : store.models.get? name with
  | none => simp
  | some spec =>
      simp only [Except.ok.injEq, forall_eq', Option.some.injEq]
      rw [honours_iff hspec]
      cases htier : preferred spec with
      | some tier =>
          have hbanned : ¬Banned spec := fun hb => by simp [preferred_eq_none_iff.mpr hb] at htier
          exact iff_of_true (preferred_spec htier) hbanned
      | none =>
          have hbanned := preferred_eq_none_iff.mp htier
          exact iff_of_false (fun h => h.1 (hbanned _)) (not_not.mpr hbanned)

-- A placement the policy forbids is made exactly where no hint is given and the route leads
-- to a model that is forbidden everywhere.
theorem resolve_honours_iff {modelHint : Option Str} :
    (∀ decision, resolve store taskType optimizeFor modelHint = .ok decision → Honours store decision) ↔
      (modelHint.getD [] ≠ [] ∨ ∀ name spec, Routes store.routing taskType optimizeFor name →
        store.models.get? name = some spec → ¬Banned spec) := by
  rcases hhint : modelHint.filter (· ≠ []) with _ | hint
  · have hnone : modelHint.getD [] = [] := by
      rcases modelHint with _ | (_ | ⟨c, hint⟩) <;> simp [Option.filter] at hhint ⊢
    simp only [resolve, hhint, hnone, ne_eq, not_true_eq_false, false_or]
    constructor
    · intro h name spec hroute
      rw [routeModel_eq_ok_iff.mpr hroute] at h
      exact placeRoute_honours_iff.mp h spec
    · intro h decision hd
      cases hroute : routeModel store taskType optimizeFor with
      | error error =>
          rw [hroute] at hd
          cases hd
      | ok name =>
          rw [hroute] at hd
          refine placeRoute_honours_iff.mpr (fun spec => ?_) decision hd
          exact h name spec (routeModel_eq_ok_iff.mp hroute)
  · have hsome : modelHint.getD [] ≠ [] := by
      rcases modelHint with _ | (_ | ⟨c, hint⟩) <;> simp [Option.filter] at hhint ⊢
    refine iff_of_true (fun decision hd => ?_) (.inl hsome)
    simp only [resolve, hhint] at hd
    exact resolveHint_honours hd

-- A model with no tiers, and a routing map that leads there.
def bannedStore : PolicyStore :=
  normalizeStore ⟨[("banned-model", {})], by decide⟩ ⟨[("default", "banned-model")], by decide⟩

theorem banned_default_placed :
    ∃ decision, resolve bannedStore "ops" "reliability" none = .ok decision ∧
      decision.hardwareTier = .shared ∧ ¬Honours bannedStore decision := by
  refine ⟨_, rfl, rfl, fun h => ?_⟩
  obtain ⟨verdict, hv⟩ := h.affinity
  cases hv

end PerpetuaCore.Policy
