import PerpetuaCore.Json.Reading
import PerpetuaCore.Python.Dict

namespace Json

open Python (Str Value Dict)

variable {α σ : Type}

mutual

-- A JSON value: sequences are lists, keys are strings and no dict has one twice.
def isJson : Value → Bool
  | .none | .bool _ | .int _ | .str _ | .float (.finite _) => true
  | .list items => isJsonList items
  | .dict items => decide (items.map Prod.fst).Nodup && isJsonItems items
  | _ => false

def isJsonList : List Value → Bool
  | [] => true
  | x :: rest => isJson x && isJsonList rest

def isJsonItems : List (Value × Value) → Bool
  | [] => true
  | (k, v) :: rest => isStr k && isJson v && isJsonItems rest

end

theorem isJsonList_iff {items : List Value} :
    isJsonList items = true ↔ ∀ x ∈ items, isJson x = true := by
  induction items with
  | nil => simp [isJsonList]
  | cons x rest ih => simp [isJsonList, ih]

theorem isJsonItems_iff {items : List (Value × Value)} :
    isJsonItems items = true ↔ ∀ item ∈ items, isStr item.1 = true ∧ isJson item.2 = true := by
  induction items with
  | nil => simp [isJsonItems]
  | cons item rest ih => simp [isJsonItems, ih]

-- Items under string keys.
abbrev named (strings : List (Str × α)) : List (Value × α) :=
  strings.map fun p => (.str p.1, p.2)

theorem exists_named {items : List (Value × α)} (h : ∀ item ∈ items, isStr item.1 = true) :
    ∃ strings : List (Str × α), items = named strings := by
  have hall : ∀ item ∈ items, ∃ p : Str × α, id item = (Value.str p.1, p.2) := by
    rintro ⟨k, x⟩ hm
    have hk := h _ hm
    cases k <;> first | exact ⟨(_, x), rfl⟩ | cases hk
  obtain ⟨strings, hs⟩ := exists_map_eq hall
  exact ⟨strings, by simpa using hs⟩

theorem named_injective : Function.Injective fun p : Str × α => (Value.str p.1, p.2) := by
  rintro ⟨s, x⟩ ⟨t, y⟩ he
  cases he
  rfl

theorem sortKeys_named (strings : List (Str × α)) :
    sortKeys (named strings) = some (named (Python.sorted Prod.fst strings)) := by
  simp only [sortKeys, named, allStrings_of_keys]

-- Sorting gives the one ascending order of the items.
theorem sortKeys_of_perm {items : List (Value × α)} {strings : List (Str × α)}
    (hp : items.Perm (named strings)) (hs : strings.Pairwise fun a b => a.1 < b.1) :
    sortKeys items = some (named strings) := by
  obtain ⟨strings', rfl⟩ : ∃ strings', items = named strings' := by
    refine exists_named fun item hm => ?_
    obtain ⟨p, -, rfl⟩ := List.mem_map.mp (hp.mem_iff.mp hm)
    rfl
  have hp' := (List.map_perm_map_iff named_injective).mp hp
  rw [sortKeys_named, Python.sorted_eq_of_ascending hp' hs]

theorem named_map {β : Type} (f : α → β) (strings : List (Str × α)) :
    named (strings.map (Prod.map id f)) = strings.map fun p => (.str p.1, f p.2) :=
  List.map_map

theorem nodup_named {strings : List (Str × α)} (h : strings.Pairwise fun a b => a.1 < b.1) :
    ((named strings).map Prod.fst).Nodup := by
  rw [List.map_map]
  exact List.pairwise_map.mpr (h.imp fun hlt he => hlt.ne (Value.str.inj he))

theorem named_inj {strings strings' : List (Str × α)} (h : named strings = named strings') :
    strings = strings' :=
  List.map_injective_iff.mpr named_injective h

-- String keys without a repetition are sorted to ascending order.
theorem ascending_of_sortKeys {items : List (Value × α)} {strings : List (Str × α)}
    (hn : (items.map Prod.fst).Nodup) (h : sortKeys items = some (named strings)) :
    items.Perm (named strings) ∧ strings.Pairwise fun a b => a.1 < b.1 := by
  have hp := (sortKeys_spec h).1
  obtain ⟨strings', rfl⟩ : ∃ strings', items = named strings' := by
    refine exists_named fun item hm => ?_
    obtain ⟨p, -, rfl⟩ := List.mem_map.mp (hp.mem_iff.mp hm)
    rfl
  rw [sortKeys_named] at h
  obtain rfl := named_inj (Option.some.inj h)
  have hkeys : ((Python.sorted Prod.fst strings').map Prod.fst).Nodup := by
    rw [((Python.sorted_perm Prod.fst strings').map Prod.fst).nodup_iff]
    rw [List.map_map] at hn
    exact List.Nodup.of_map Value.str (by rwa [List.map_map])
  have hdistinct := List.pairwise_map.mp hkeys
  exact ⟨hp, ((Python.sorted_pairwise Prod.fst strings').and hdistinct).imp
    fun h => lt_of_le_of_ne h.1 h.2⟩

-- Every JSON value can be written.
theorem toDoc_isSome {units : Str → σ} {v : Value} (h : isJson v = true) :
    ∃ d, toDoc units v = some d := by
  induction v using Value.inside with
  | none | int i | str s => exact ⟨_, rfl⟩
  | bool b => cases b <;> exact ⟨_, rfl⟩
  | float x =>
      cases x with
      | finite x => exact ⟨_, rfl⟩
      | infinite | nan => cases h
  | list items ih =>
      have hitems : ∀ x ∈ items, ∃ d, toDoc units x = some d :=
        fun x hx => ih x hx (isJsonList_iff.mp h x hx)
      obtain ⟨ds, hds⟩ := exists_map_eq hitems
      exact ⟨.array ds, by rw [toDoc, toDocs_iff.mpr hds, Option.map_some]⟩
  | dict items ih =>
      have hinside := isJsonItems_iff.mp (Bool.and_eq_true_iff.mp h).2
      obtain ⟨strings, rfl⟩ := exists_named fun item hm => (hinside item hm).1
      have hvalues : ∀ p ∈ named (Python.sorted Prod.fst strings), ∃ member : σ × Doc σ,
          ((keyText p.1).map units, toDoc units p.2) = Prod.map some some member := by
        rintro _ hmem
        obtain ⟨p, hp, rfl⟩ := List.mem_map.mp hmem
        have hm : (Value.str p.1, p.2) ∈ named strings :=
          List.mem_map.mpr ⟨p, Python.mem_sorted.mp hp, rfl⟩
        obtain ⟨d, hd⟩ := ih _ hm (hinside _ hm).2
        exact ⟨(units p.1, d), Prod.ext rfl hd⟩
      obtain ⟨members, hmembers⟩ := exists_map_eq hvalues
      exact ⟨.object members, toDoc_dict_iff.mpr ⟨_, members, sortKeys_named strings, hmembers, rfl⟩⟩
  | tuple | object => cases h

-- A JSON value reads as itself.
theorem same_refl {v : Value} (h : isJson v = true) : Same v v := by
  induction v using Value.inside with
  | none | int i => exact .scalar rfl
  | bool b => cases b <;> exact .scalar rfl
  | float x =>
      cases x with
      | finite x => exact .scalar rfl
      | infinite | nan => cases h
  | str s => exact .str
  | list items ih =>
      exact .list (List.forall₂_same.mpr fun x hx => ih x hx (isJsonList_iff.mp h x hx))
  | dict items ih =>
      have hinside := isJsonItems_iff.mp (Bool.and_eq_true_iff.mp h).2
      refine .dict .rfl .rfl rfl (List.forall₂_same.mpr fun x hx => ?_)
      obtain ⟨item, hm, rfl⟩ := List.mem_map.mp hx
      exact ih item hm (hinside item hm).2
  | tuple | object => cases h

theorem dumpsUnicode_isSome {v : Value} (h : isJson v = true) : (dumpsUnicode v).isSome = true := by
  obtain ⟨d, hd⟩ : ∃ d, toDoc id v = some d := toDoc_isSome h
  simp [dumpsUnicode, hd]

theorem same_str_iff {s : Str} {w : Value} : Same (.str s) w ↔ w = .str s := by
  constructor
  · intro h
    cases h <;> rfl
  · rintro rfl
    exact .str

theorem exists_str {v : Value} (h : isStr v = true) : ∃ s, v = .str s := by
  cases v with
  | str s => exact ⟨s, rfl⟩
  | _ => cases h

theorem map_eq_zip {α β γ : Type} {f : α → γ} {g : β → γ} {xs : List α} {ys : List β}
    (h : xs.map f = ys.map g) : xs.length = ys.length ∧ ∀ x y, (x, y) ∈ xs.zip ys → f x = g y := by
  rw [← List.forall₂_eq_eq_eq, List.forall₂_map_left_iff, List.forall₂_map_right_iff,
    List.forall₂_iff_zip] at h
  exact ⟨h.1, fun _ _ => h.2⟩

-- JSON values written alike are the same.
theorem same_of_toDoc {v w : Value} {d : Doc Str} (hv : isJson v = true) (hw : isJson w = true)
    (h : toDoc id v = some d) (h' : toDoc id w = some d) : Same v w := by
  have hscalar : ∀ {v w : Value} {d : Doc Str}, Scalar v → (scalarAtom v).map Doc.atom = some d →
      toDoc id v = some d → toDoc id w = some d → Same v w := by
    intro v w d hv ha hd hd'
    obtain ⟨a, -, rfl⟩ := Option.map_eq_some_iff.mp ha
    obtain ⟨t, ht, htext⟩ := toDoc_eq_atom_iff.mp hd
    obtain ⟨t', ht', htext'⟩ := toDoc_eq_atom_iff.mp hd'
    obtain rfl := toStr_injective (htext.symm.trans htext')
    obtain rfl := scalarText_injective ht ht'
    exact .scalar hv
  induction v using Value.inside generalizing w d with
  | none | int i => exact hscalar (by exact rfl) h h h'
  | bool b => cases b <;> exact hscalar (by exact rfl) h h h'
  | float x =>
      cases x with
      | finite x => exact hscalar (by exact rfl) h h h'
      | infinite | nan => cases hv
  | str s =>
      obtain rfl := Option.some.inj h
      obtain ⟨t, rfl, ht⟩ := toDoc_eq_string_iff.mp h'
      exact same_str_iff.mpr (congrArg Value.str ht)
  | list items ih =>
      obtain ⟨ds, hds, rfl⟩ := Option.map_eq_some_iff.mp h
      have hdocs := toDocs_iff.mp hds
      obtain ⟨items', rfl | rfl, hdocs'⟩ := toDoc_eq_array_iff.mp h'
      · obtain ⟨hlength, hzip⟩ := map_eq_zip (hdocs.trans hdocs'.symm)
        refine .list (List.forall₂_iff_zip.mpr ⟨hlength, fun {x y} hxy => ?_⟩)
        obtain ⟨hx, hy⟩ := List.of_mem_zip hxy
        have hd := List.mem_map_of_mem (f := toDoc id) hx
        rw [hdocs] at hd
        obtain ⟨d, -, hd⟩ := List.mem_map.mp hd
        exact ih x hx (isJsonList_iff.mp hv x hx) (isJsonList_iff.mp hw y hy) hd.symm
          ((hzip x y hxy).symm.trans hd.symm)
      · cases hw
  | dict items ih =>
      obtain ⟨sorted, members, hsorted, hmembers, rfl⟩ := toDoc_dict_iff.mp h
      obtain ⟨items', sorted', rfl, hsorted', hmembers'⟩ := toDoc_eq_object_iff.mp h'
      have hinside := isJsonItems_iff.mp (Bool.and_eq_true_iff.mp hv).2
      have hinside' := isJsonItems_iff.mp (Bool.and_eq_true_iff.mp hw).2
      have hperm := (sortKeys_spec hsorted).1
      have hperm' := (sortKeys_spec hsorted').1
      obtain ⟨hlength, hzip⟩ := map_eq_zip (hmembers.trans hmembers'.symm)
      refine .dict hperm hperm' (map_fst_eq_iff.mpr ⟨hlength, fun p q hpq => ?_⟩)
        (forall₂_snd_iff.mpr ⟨hlength, fun p q hpq => ?_⟩)
      · have hp := (hinside p (hperm.mem_iff.mpr (List.of_mem_zip hpq).1)).1
        have hq := (hinside' q (hperm'.mem_iff.mpr (List.of_mem_zip hpq).2)).1
        have hkey := (Prod.mk.inj (hzip p q hpq)).1
        obtain ⟨s, hs⟩ := exists_str hp
        obtain ⟨t, ht⟩ := exists_str hq
        rw [hs, ht] at hkey ⊢
        exact congrArg Value.str (Option.some.inj hkey)
      · have hp := hperm.mem_iff.mpr (List.of_mem_zip hpq).1
        have hq := hperm'.mem_iff.mpr (List.of_mem_zip hpq).2
        have hd := List.mem_map_of_mem (f := fun item : Value × Value =>
          ((keyText item.1).map id, toDoc id item.2)) (List.of_mem_zip hpq).1
        rw [hmembers] at hd
        obtain ⟨member, -, hd⟩ := List.mem_map.mp hd
        have hd := (Prod.mk.inj hd).2
        exact ih p hp (hinside p hp).2 (hinside' q hq).2 hd.symm
          ((Prod.mk.inj (hzip p q hpq)).2.symm.trans hd.symm)
  | tuple | object => cases hv

section Same

theorem same_list_iff {items : List Value} {w : Value} :
    Same (.list items) w ↔ ∃ items', w = .list items' ∧ List.Forall₂ Same items items' := by
  constructor
  · intro h
    cases h with
    | scalar hv => cases hv
    | list h => exact ⟨_, rfl, h⟩
  · rintro ⟨items', rfl, h⟩
    exact .list h

-- What is the same as a value that is one text is that value.
theorem same_scalar_iff {v w : Value} (hv : Scalar v) : Same v w ↔ w = v := by
  constructor
  · intro h
    cases h <;> first | rfl | cases hv
  · rintro rfl
    exact .scalar hv

theorem same_dict {items : List (Value × Value)} {w : Value} (h : Same (.dict items) w) :
    ∃ items', w = .dict items' ∧ (items.map Prod.fst).Perm (items'.map Prod.fst) := by
  cases h with
  | scalar hv => cases hv
  | dict ha hb hkeys hvalues => exact ⟨_, rfl, same_dict_keys (.dict ha hb hkeys hvalues)⟩

theorem same_dict_cons {a b : List (Value × Value)} {key x y : Value} (h : Same (.dict a) (.dict b))
    (hxy : Same x y) : Same (.dict ((key, x) :: a)) (.dict ((key, y) :: b)) := by
  cases h with
  | scalar hv => cases hv
  | dict ha hb hkeys hvalues =>
      exact .dict (ha.cons _) (hb.cons _) (congrArg (key :: ·) hkeys) (.cons hxy hvalues)

-- Two equal dicts hold equal values under each key.
theorem same_get? {a b : List (Value × Value)} (h : Same (.dict a) (.dict b))
    (hn : (a.map Prod.fst).Nodup) (key : Value) :
    Option.Rel Same ((Dict.ofList a).get? key) ((Dict.ofList b).get? key) := by
  have hkeys := same_dict_keys h
  have hn' := hkeys.nodup_iff.mp hn
  rw [Dict.get?_ofList hn, Dict.get?_ofList hn']
  cases ha : a.lookup key with
  | none =>
      have hnone : key ∉ a.map Prod.fst := Dict.get?_eq_none_iff (d := ⟨a, hn⟩) |>.mp ha
      have hnone' : b.lookup key = none :=
        Dict.get?_eq_none_iff (d := ⟨b, hn'⟩) |>.mpr fun hm => hnone (hkeys.mem_iff.mpr hm)
      rw [hnone']
      exact .none
  | some x =>
      have hx := Dict.mem_of_lookup ha
      obtain ⟨⟨k, y⟩, hy, rfl⟩ := List.mem_map.mp (hkeys.mem_iff.mp (List.mem_map_of_mem hx))
      have hget : b.lookup k = some y := Dict.get?_of_mem (d := ⟨b, hn'⟩) hy
      rw [hget]
      exact .some (same_dict_values h hn' hx hy)

end Same

end Json
