import Mathlib.Data.List.Basic
import Mathlib.Data.List.Nodup
import Mathlib.Data.Option.Basic
import Mathlib.Data.Prod.Basic

namespace Python

-- A `dict`: its items in insertion order, no key twice.
structure Dict (K V : Type) where
  items : List (K × V)
  nodup : (items.map Prod.fst).Nodup

namespace Dict

variable {K V W : Type} [DecidableEq K]

instance [DecidableEq V] : DecidableEq (Dict K V) := fun a b =>
  decidable_of_iff (a.items = b.items) (by cases a; cases b; simp)

def empty : Dict K V := ⟨[], List.nodup_nil⟩

def keys (d : Dict K V) : List K := d.items.map Prod.fst

def values (d : Dict K V) : List V := d.items.map Prod.snd

def get? (d : Dict K V) (key : K) : Option V := d.items.lookup key

def contains (d : Dict K V) (key : K) : Bool := d.keys.contains key

-- `items` with the value at `key` replaced, or the pair appended when `key` is new.
def setItem (key : K) (value : V) : List (K × V) → List (K × V)
  | [] => [(key, value)]
  | (k, v) :: rest => if k = key then (k, value) :: rest else (k, v) :: setItem key value rest

theorem mem_keys_setItem {key k : K} {value : V} {items : List (K × V)} :
    k ∈ (setItem key value items).map Prod.fst ↔ k = key ∨ k ∈ items.map Prod.fst := by
  induction items with
  | nil => simp [setItem]
  | cons item rest ih =>
      obtain ⟨k', v⟩ := item
      by_cases hk : k' = key
      · subst hk; simp [setItem]
      · simp only [setItem, hk, if_false, List.map_cons, List.mem_cons, ih]
        exact or_left_comm

theorem nodup_setItem {key : K} {value : V} {items : List (K × V)}
    (h : (items.map Prod.fst).Nodup) : ((setItem key value items).map Prod.fst).Nodup := by
  induction items with
  | nil => simp [setItem]
  | cons item rest ih =>
      obtain ⟨k, v⟩ := item
      obtain ⟨hnot, hrest⟩ := List.nodup_cons.mp h
      by_cases hk : k = key
      · subst hk; simpa [setItem] using h
      · simp only [setItem, hk, if_false, List.map_cons, List.nodup_cons]
        refine ⟨fun hm => ?_, ih hrest⟩
        rcases mem_keys_setItem.mp hm with he | hm
        · exact hk he
        · exact hnot hm

def set (d : Dict K V) (key : K) (value : V) : Dict K V :=
  ⟨setItem key value d.items, nodup_setItem d.nodup⟩

-- `d.update(other)`, and `{**d, **other}` when `d` is fresh.
def update (d other : Dict K V) : Dict K V :=
  other.items.foldl (fun d item => d.set item.1 item.2) d

def ofList (items : List (K × V)) : Dict K V :=
  items.foldl (fun d item => d.set item.1 item.2) empty

@[simp] theorem get?_empty (key : K) : (empty : Dict K V).get? key = none := rfl

theorem lookup_cons_ite (key k : K) (v : V) (rest : List (K × V)) :
    ((k, v) :: rest).lookup key = if key = k then some v else rest.lookup key := by
  by_cases hk : key = k
  · subst hk; simp
  · have hne : (key == k) = false := by simpa using hk
    simp [List.lookup_cons, hne, hk]

theorem lookup_setItem (key k : K) (value : V) (items : List (K × V)) :
    (setItem key value items).lookup k = if k = key then some value else items.lookup k := by
  induction items with
  | nil => rw [setItem, lookup_cons_ite]
  | cons item rest ih =>
      obtain ⟨k', v⟩ := item
      by_cases hk' : k' = key
      · subst hk'
        simp only [setItem, if_true, lookup_cons_ite]
        split_ifs <;> rfl
      · simp only [setItem, hk', if_false, lookup_cons_ite, ih]
        by_cases hk : k = k'
        · subst hk; simp [hk']
        · simp [hk]

@[simp] theorem get?_set (d : Dict K V) (key k : K) (value : V) :
    (d.set key value).get? k = if k = key then some value else d.get? k :=
  lookup_setItem key k value d.items

theorem get?_eq_none_iff {d : Dict K V} {key : K} : d.get? key = none ↔ key ∉ d.keys := by
  rw [get?, List.lookup_eq_none_iff, keys]
  constructor
  · rintro h hm
    obtain ⟨item, hi, rfl⟩ := List.mem_map.mp hm
    simpa using h item hi
  · intro h item hi
    have hne : item.1 ≠ key := fun he => h (he ▸ List.mem_map_of_mem hi)
    simpa using Ne.symm hne

theorem get?_isSome_iff {d : Dict K V} {key : K} : (d.get? key).isSome ↔ key ∈ d.keys := by
  rw [← not_iff_not, ← get?_eq_none_iff]
  simp

theorem mem_keys_iff {d : Dict K V} {key : K} : key ∈ d.keys ↔ ∃ value, d.get? key = some value := by
  rw [← get?_isSome_iff, Option.isSome_iff_exists]

theorem contains_iff {d : Dict K V} {key : K} : d.contains key = true ↔ key ∈ d.keys := by
  simp [contains]

theorem mem_of_lookup {items : List (K × V)} {key : K} {value : V}
    (h : items.lookup key = some value) : (key, value) ∈ items := by
  induction items with
  | nil => cases h
  | cons item rest ih =>
      obtain ⟨k, v⟩ := item
      rw [lookup_cons_ite] at h
      split_ifs at h with hk
      · obtain rfl := Option.some.inj h
        exact hk ▸ List.mem_cons_self
      · exact List.mem_cons_of_mem _ (ih h)

theorem mem_items_of_get? {d : Dict K V} {key : K} {value : V} (h : d.get? key = some value) :
    (key, value) ∈ d.items :=
  mem_of_lookup h

theorem get?_of_mem {d : Dict K V} {key : K} {value : V} (h : (key, value) ∈ d.items) :
    d.get? key = some value := by
  obtain ⟨first, rest, hitems⟩ := List.append_of_mem h
  refine List.lookup_eq_some_iff.mpr ⟨first, rest, hitems, fun item hm => ?_⟩
  have hn := d.nodup
  rw [hitems, List.map_append, List.map_cons] at hn
  have hfresh := (List.nodup_middle.mp hn).notMem
  have hne : key ≠ item.1 := by
    rintro rfl
    exact hfresh (List.mem_append_left _ (List.mem_map.mpr ⟨item, hm, rfl⟩))
  simpa using hne

private theorem get?_foldl_set (items : List (K × V)) (hn : (items.map Prod.fst).Nodup)
    (d : Dict K V) (key : K) :
    (items.foldl (fun d item => d.set item.1 item.2) d).get? key =
      (items.lookup key).or (d.get? key) := by
  induction items generalizing d with
  | nil => rfl
  | cons item rest ih =>
      obtain ⟨k, v⟩ := item
      obtain ⟨hnot, hrest⟩ := List.nodup_cons.mp hn
      simp only [List.foldl_cons, ih hrest, get?_set, lookup_cons_ite]
      by_cases hk : key = k
      · subst hk
        have hl : rest.lookup key = none :=
          get?_eq_none_iff (d := ⟨rest, hrest⟩) |>.mpr hnot
        simp [hl]
      · simp [hk]

-- Updating overrides exactly the other dict's keys.
@[simp] theorem get?_update (d other : Dict K V) (key : K) :
    (d.update other).get? key = (other.get? key).or (d.get? key) :=
  get?_foldl_set other.items other.nodup d key

theorem get?_ofList {items : List (K × V)} (hn : (items.map Prod.fst).Nodup) (key : K) :
    (ofList items).get? key = items.lookup key := by
  simp [ofList, get?_foldl_set items hn]

@[simp] theorem get?_ofList_items (d : Dict K V) (key : K) : (ofList d.items).get? key = d.get? key :=
  get?_ofList d.nodup key

theorem mem_keys_update {d other : Dict K V} {key : K} :
    key ∈ (d.update other).keys ↔ key ∈ other.keys ∨ key ∈ d.keys := by
  rw [← get?_isSome_iff, ← get?_isSome_iff, ← get?_isSome_iff, get?_update]
  cases other.get? key <;> simp

theorem mem_setItem {key : K} {value : V} {items : List (K × V)} {item : K × V}
    (h : item ∈ setItem key value items) : item = (key, value) ∨ item ∈ items := by
  induction items with
  | nil => simpa [setItem] using h
  | cons head rest ih =>
      obtain ⟨k, v⟩ := head
      by_cases hk : k = key
      · subst hk
        simp only [setItem, if_true, List.mem_cons] at h
        exact h.imp_right (List.mem_cons_of_mem _)
      · simp only [setItem, hk, if_false, List.mem_cons] at h
        rcases h with rfl | h
        · exact .inr List.mem_cons_self
        · exact (ih h).imp_right (List.mem_cons_of_mem _)

private theorem mem_foldl_set {items : List (K × V)} {d : Dict K V} {item : K × V}
    (h : item ∈ (items.foldl (fun d item => d.set item.1 item.2) d).items) :
    item ∈ items ∨ item ∈ d.items := by
  induction items generalizing d with
  | nil => exact .inr h
  | cons head rest ih =>
      rcases ih h with hm | hm
      · exact .inl (List.mem_cons_of_mem _ hm)
      · rcases mem_setItem hm with rfl | hm
        · exact .inl List.mem_cons_self
        · exact .inr hm

-- Nothing is in an updated dict that was in neither.
theorem mem_items_update {d other : Dict K V} {item : K × V} (h : item ∈ (d.update other).items) :
    item ∈ other.items ∨ item ∈ d.items :=
  mem_foldl_set h

theorem mem_keys_ofList {items : List (K × V)} {key : K} :
    key ∈ (ofList items).keys ↔ key ∈ items.map Prod.fst := by
  have hfold : ∀ d : Dict K V, key ∈ (items.foldl (fun d item => d.set item.1 item.2) d).keys ↔
      key ∈ items.map Prod.fst ∨ key ∈ d.keys := by
    induction items with
    | nil => simp
    | cons item rest ih =>
        intro d
        have hset : key ∈ (d.set item.1 item.2).keys ↔ key = item.1 ∨ key ∈ d.keys := mem_keys_setItem
        rw [List.foldl_cons, ih, hset, List.map_cons, List.mem_cons, or_left_comm, or_assoc]
  exact (hfold empty).trans (or_iff_left List.not_mem_nil)

theorem mem_ofList {items : List (K × V)} {item : K × V} (h : item ∈ (ofList items).items) :
    item ∈ items :=
  (mem_foldl_set h).resolve_right (by simp [empty])

theorem setItem_fresh {key : K} {value : V} {items : List (K × V)}
    (h : key ∉ items.map Prod.fst) : setItem key value items = items ++ [(key, value)] := by
  induction items with
  | nil => rfl
  | cons item rest ih =>
      simp only [List.map_cons, List.mem_cons, not_or] at h
      rw [setItem, if_neg (Ne.symm h.1), ih h.2, List.cons_append]

theorem setItem_known {key : K} {value : V} {items : List (K × V)}
    (h : key ∈ items.map Prod.fst) : (setItem key value items).map Prod.fst = items.map Prod.fst := by
  induction items with
  | nil => cases h
  | cons item rest ih =>
      by_cases hk : item.1 = key
      · simp [setItem, hk]
      · have hrest := List.mem_of_ne_of_mem (Ne.symm hk) h
        rw [setItem, if_neg hk, List.map_cons, ih hrest, List.map_cons]

-- A new key comes last; a known one keeps its place.
theorem keys_set_fresh {d : Dict K V} {key : K} {value : V} (h : key ∉ d.keys) :
    (d.set key value).keys = d.keys ++ [key] := by
  have hitems : (d.set key value).items = d.items ++ [(key, value)] := setItem_fresh h
  rw [keys, hitems, List.map_append]
  rfl

theorem keys_set_known {d : Dict K V} {key : K} {value : V} (h : key ∈ d.keys) :
    (d.set key value).keys = d.keys :=
  setItem_known h

-- A dict is its keys in their order and what is at each.
theorem ext_get? {d d' : Dict K V} (hkeys : d.keys = d'.keys) (h : ∀ key, d.get? key = d'.get? key) :
    d = d' := by
  have hitems : ∀ d : Dict K V, d.items.map (Prod.map id some) = d.keys.map fun k => (k, d.get? k) := by
    intro d
    rw [keys, List.map_map]
    exact List.map_congr_left fun item hm => Prod.ext rfl (get?_of_mem hm).symm
  have hsame : d.items.map (Prod.map id some) = d'.items.map (Prod.map id some) := by
    rw [hitems, hitems, hkeys]
    exact List.map_congr_left fun key _ => Prod.ext rfl (h key)
  have hinj : Function.Injective (Prod.map id some : K × V → K × Option V) :=
    Function.injective_id.prodMap (Option.some_injective V)
  cases d
  cases d'
  simpa using List.map_injective_iff.mpr hinj hsame

-- Where every lookup is the same, the items are the same but for their order.
theorem items_perm {d d' : Dict K V} (h : ∀ key, d.get? key = d'.get? key) : d.items.Perm d'.items := by
  have hmem : ∀ {d d' : Dict K V}, (∀ key, d.get? key = d'.get? key) → ∀ item ∈ d.items, item ∈ d'.items :=
    fun h item hm => mem_items_of_get? ((h item.1).symm.trans (get?_of_mem hm))
  exact (List.perm_ext_iff_of_nodup (List.Nodup.of_map _ d.nodup) (List.Nodup.of_map _ d'.nodup)).mpr
    fun item => ⟨hmem h item, hmem (fun key => (h key).symm) item⟩

private theorem items_foldl_set {items : List (K × V)} {d : Dict K V}
    (h : ((d.items ++ items).map Prod.fst).Nodup) :
    (items.foldl (fun d item => d.set item.1 item.2) d).items = d.items ++ items := by
  induction items generalizing d with
  | nil => rw [List.foldl_nil, List.append_nil]
  | cons item rest ih =>
      have hfresh : item.1 ∉ d.items.map Prod.fst := by
        rw [List.map_append, List.map_cons] at h
        exact fun hm => (List.nodup_middle.mp h).notMem (List.mem_append_left _ hm)
      have hset : (d.set item.1 item.2).items = d.items ++ [item] := setItem_fresh hfresh
      rw [List.foldl_cons, ih (by rwa [hset, ← List.append_cons]), hset, ← List.append_cons]

-- Items without a repeated key are kept as they are.
theorem items_ofList {items : List (K × V)} (h : (items.map Prod.fst).Nodup) :
    (ofList items).items = items := by
  simpa [ofList, empty] using items_foldl_set (d := empty) h

theorem ofList_self (d : Dict K V) : ofList d.items = d :=
  ext_get? (congrArg (List.map Prod.fst) (items_ofList d.nodup)) (get?_ofList_items d)

end Dict

end Python
