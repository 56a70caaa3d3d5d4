import PerpetuaCore.Python.Dict
import Mathlib.Data.List.Induction

-- Values recorded one after another in a dict, each under a key of its own.
namespace Python.Journal

variable {K V : Type} [DecidableEq K]

def recorded (key : V → K) (history : List V) : Dict K V :=
  history.foldl (fun d value => d.set (key value) value) Dict.empty

-- The value is the last one recorded under its key.
def Current (key : V → K) (history : List V) (value : V) : Prop :=
  ∃ before after, history = before ++ value :: after ∧ ∀ later ∈ after, key later ≠ key value

-- How many records were made before the first one under `k`.
def firstRecorded (key : V → K) (history : List V) (k : K) : Nat :=
  history.findIdx (key · = k)

-- Of the values with a property, the one whose key was recorded first.
structure Earliest (key : V → K) (history : List V) (P : V → Prop) (value : V) : Prop where
  holds : P value
  first : ∀ other, P other → firstRecorded key history (key value) ≤ firstRecorded key history (key other)

variable {key : V → K} {history : List V} {value : V} {k : K}

theorem recorded_snoc : recorded key (history ++ [value]) = (recorded key history).set (key value) value := by
  rw [recorded, List.foldl_append]
  rfl

theorem get?_recorded : (recorded key history).get? k = history.reverse.find? (key · = k) := by
  induction history using List.reverseRecOn with
  | nil => rfl
  | append_singleton history value ih =>
      rw [recorded_snoc, Dict.get?_set, List.reverse_concat, List.find?_cons, ih]
      by_cases hk : k = key value
      · simp [hk]
      · have hne : key value ≠ k := Ne.symm hk
        simp [hk, hne]

theorem current_iff : Current key history value ↔ (recorded key history).get? (key value) = some value := by
  rw [get?_recorded, List.find?_eq_some_iff_append]
  constructor
  · rintro ⟨before, after, rfl, hlater⟩
    refine ⟨by simp, after.reverse, before.reverse, by simp, fun later hm => ?_⟩
    simpa using hlater later (List.mem_reverse.mp hm)
  · rintro ⟨-, after, before, hsplit, hlater⟩
    refine ⟨before.reverse, after.reverse, ?_, fun later hm => ?_⟩
    · rw [← List.reverse_reverse history, hsplit]
      simp
    · simpa using hlater later (List.mem_reverse.mp hm)

theorem key_of_get? (h : (recorded key history).get? k = some value) : key value = k := by
  rw [get?_recorded] at h
  simpa using List.find?_some h

theorem mem_values_iff : value ∈ (recorded key history).values ↔ Current key history value := by
  rw [current_iff, Dict.values, List.mem_map]
  constructor
  · rintro ⟨⟨k, _⟩, hm, rfl⟩
    have hget := Dict.get?_of_mem hm
    rwa [key_of_get? hget]
  · exact fun h => ⟨_, Dict.mem_items_of_get? h, rfl⟩

theorem firstRecorded_lt (h : k ∈ history.map key) : firstRecorded key history k < history.length := by
  obtain ⟨value, hm, rfl⟩ := List.mem_map.mp h
  exact List.findIdx_lt_length_of_exists ⟨value, hm, by simp⟩

theorem mem_keys_iff : k ∈ (recorded key history).keys ↔ k ∈ history.map key := by
  rw [← Dict.get?_isSome_iff, get?_recorded, List.find?_isSome]
  simp

private theorem firstRecorded_snoc (h : k ∈ history.map key) :
    firstRecorded key (history ++ [value]) k = firstRecorded key history k := by
  have hlt := firstRecorded_lt h
  rw [firstRecorded] at hlt ⊢
  rw [List.findIdx_append, if_pos hlt]
  rfl

private theorem firstRecorded_new (h : key value ∉ history.map key) :
    firstRecorded key (history ++ [value]) (key value) = history.length := by
  have hend : history.findIdx (key · = key value) = history.length := by
    refine List.findIdx_eq_length.mpr fun other hm => ?_
    simpa using fun he => h (List.mem_map.mpr ⟨other, hm, he⟩)
  rw [firstRecorded, List.findIdx_append, hend, if_neg (Nat.lt_irrefl _)]
  simp

-- The keys stand in the order of their first records.
variable (key history) in
theorem keys_ordered : (recorded key history).keys.Pairwise
    fun a b => firstRecorded key history a < firstRecorded key history b := by
  induction history using List.reverseRecOn with
  | nil => exact .nil
  | append_singleton history value ih =>
      have hkept : (recorded key history).keys.Pairwise fun a b =>
          firstRecorded key (history ++ [value]) a < firstRecorded key (history ++ [value]) b := by
        refine ih.imp_of_mem fun ha hb hlt => ?_
        rwa [firstRecorded_snoc (mem_keys_iff.mp ha), firstRecorded_snoc (mem_keys_iff.mp hb)]
      rw [recorded_snoc]
      by_cases hknown : key value ∈ history.map key
      · rwa [Dict.keys_set_known (mem_keys_iff.mpr hknown)]
      · rw [Dict.keys_set_fresh (mt mem_keys_iff.mp hknown), List.pairwise_append]
        refine ⟨hkept, List.pairwise_singleton _ _, fun k hk _ hm => ?_⟩
        obtain rfl := List.mem_singleton.mp hm
        have hm := mem_keys_iff.mp hk
        rw [firstRecorded_snoc hm, firstRecorded_new hknown]
        exact firstRecorded_lt hm

theorem values_ordered : (recorded key history).values.Pairwise
    fun a b => firstRecorded key history (key a) < firstRecorded key history (key b) := by
  have hkeys : (recorded key history).values.map key = (recorded key history).keys := by
    rw [Dict.values, Dict.keys, List.map_map]
    refine List.map_congr_left fun item hm => ?_
    have hget : (recorded key history).get? item.1 = some item.2 := Dict.get?_of_mem hm
    show key item.2 = item.1
    exact key_of_get? hget
  have hordered := keys_ordered key history
  rwa [← hkeys, List.pairwise_map] at hordered

-- A search through a list that climbs finds the lowest value.
theorem find?_eq_some_iff_of_pairwise {rank : V → Nat} {values : List V} {p : V → Bool}
    (h : values.Pairwise fun a b => rank a < rank b) :
    values.find? p = some value ↔
      (value ∈ values ∧ p value) ∧ ∀ other, other ∈ values ∧ p other → rank value ≤ rank other := by
  induction values with
  | nil => simp
  | cons head rest ih =>
      obtain ⟨hhead, hrest⟩ := List.pairwise_cons.mp h
      rw [List.find?_cons]
      cases hp : p head with
      | true =>
          constructor
          · rintro ⟨⟩
            refine ⟨⟨List.mem_cons_self, hp⟩, ?_⟩
            rintro other ⟨hm, -⟩
            rcases List.mem_cons.mp hm with rfl | hm
            · exact Nat.le_refl _
            · exact Nat.le_of_lt (hhead other hm)
          · rintro ⟨⟨hm, -⟩, hfirst⟩
            rcases List.mem_cons.mp hm with rfl | hm
            · rfl
            · exact absurd (hhead value hm) (Nat.not_lt.mpr (hfirst head ⟨List.mem_cons_self, hp⟩))
      | false =>
          have hskip : ∀ other, other ∈ head :: rest ∧ p other ↔ other ∈ rest ∧ p other := by
            intro other
            constructor
            · rintro ⟨hm, ho⟩
              rcases List.mem_cons.mp hm with rfl | hm
              · simp [hp] at ho
              · exact ⟨hm, ho⟩
            · exact fun ho => ⟨List.mem_cons_of_mem _ ho.1, ho.2⟩
          simp only [hskip]
          exact ih hrest

-- A search through the recorded values finds the earliest key.
theorem find?_recorded {p : V → Bool} :
    (recorded key history).values.find? p = some value ↔
      Earliest key history (fun other => Current key history other ∧ p other) value := by
  rw [find?_eq_some_iff_of_pairwise values_ordered]
  simp only [mem_values_iff]
  exact ⟨fun h => ⟨h.1, h.2⟩, fun h => ⟨h.holds, h.first⟩⟩

theorem find?_recorded_eq_none {p : V → Bool} :
    (recorded key history).values.find? p = none ↔ ∀ other, ¬(Current key history other ∧ p other) := by
  rw [List.find?_eq_none]
  simp only [mem_values_iff, not_and]

end Python.Journal
