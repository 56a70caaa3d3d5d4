import PerpetuaCore.Json.Loads

namespace Json

open Python (CodePoint Str Value FloatText Float64 Dict)

-- With `allow_nan=True` every float has a text.
def looseText : Value → Option (List Char)
  | .float .nan => some "NaN".toList
  | .float (.infinite false) => some "Infinity".toList
  | .float (.infinite true) => some "-Infinity".toList
  | v => scalarText v

theorem looseText_plain {v : Value} {t : List Char} (h : looseText v = some t) :
    t ≠ [] ∧ ∀ c ∈ t, plainChar c = true := by
  unfold looseText at h
  split at h
  · cases h
    exact ⟨by decide, List.forall_iff_forall_mem.mp (by decide)⟩
  · cases h
    exact ⟨by decide, List.forall_iff_forall_mem.mp (by decide)⟩
  · cases h
    exact ⟨by decide, List.forall_iff_forall_mem.mp (by decide)⟩
  · exact scalarText_plain h

def looseAtom (v : Value) : Option Atom :=
  match h : looseText v with
  | none => none
  | some t => some
      { text := toStr t
        nonempty := by simpa [toStr] using (looseText_plain h).1
        plain := by
          intro c hc
          obtain ⟨d, hd, rfl⟩ := List.mem_map.mp hc
          simpa [plainChar] using (looseText_plain h).2 d hd }

def looseKey : Value → Option Str
  | .str s => some s
  | v => (looseText v).map toStr

variable {σ : Type}

mutual

-- The document `json.dumps(value)` writes: members keep the order of the dict.
def looseDoc (units : Str → σ) : Value → Option (Doc σ)
  | .str s => some (.string (units s))
  | .list items | .tuple items => (looseDocs units items).map .array
  | .dict items => (looseMembers units items).map .object
  | .object .. => none
  | v => (looseAtom v).map .atom

def looseDocs (units : Str → σ) : List Value → Option (List (Doc σ))
  | [] => some []
  | x :: rest =>
      match looseDoc units x, looseDocs units rest with
      | some d, some ds => some (d :: ds)
      | _, _ => none

def looseMembers (units : Str → σ) : List (Value × Value) → Option (List (σ × Doc σ))
  | [] => some []
  | (k, v) :: rest =>
      match looseKey k, looseDoc units v, looseMembers units rest with
      | some text, some d, some members => some ((units text, d) :: members)
      | _, _, _ => none

end

-- `json.dumps(value)`; `none` where it raises TypeError.
def dumps (v : Value) : Option Str :=
  (looseDoc utf16 v).map (renderWith [.ofChar ' '] escapeAscii)

mutual

-- What JSON keeps of a value: a tuple is a list, and a key is its text.
def reread : Value → Value
  | .list items | .tuple items => .list (rereadList items)
  | .dict items => dictOf (rereadItems items)
  | v => v

def rereadList : List Value → List Value
  | [] => []
  | x :: rest => reread x :: rereadList rest

def rereadItems : List (Value × Value) → List (Str × Value)
  | [] => []
  | (k, v) :: rest => ((looseKey k).getD [], reread v) :: rereadItems rest

end

theorem rereadList_eq (items : List Value) : rereadList items = items.map reread := by
  induction items with
  | nil => rfl
  | cons x rest ih => rw [rereadList, ih, List.map_cons]

theorem rereadItems_eq (items : List (Value × Value)) :
    rereadItems items = items.map fun item => ((looseKey item.1).getD [], reread item.2) := by
  induction items with
  | nil => rfl
  | cons item rest ih => rw [rereadItems, ih, List.map_cons]

-- A JSON value is kept as it is.
theorem reread_self {v : Value} (h : isJson v = true) : reread v = v := by
  induction v using Value.inside with
  | none | bool | int | float | str => rfl
  | list items ih =>
      have hitems := isJsonList_iff.mp h
      rw [reread, rereadList_eq]
      exact congrArg Value.list
        ((List.map_congr_left fun x hx => ih x hx (hitems x hx)).trans (List.map_id items))
  | dict items ih =>
      obtain ⟨hnodup, hinside⟩ := Bool.and_eq_true_iff.mp h
      have hinside := isJsonItems_iff.mp hinside
      obtain ⟨strings, rfl⟩ := exists_named fun item hm => (hinside item hm).1
      have hitems : rereadItems (named strings) = strings := by
        rw [rereadItems_eq, List.map_map]
        refine (List.map_congr_left fun p hp => ?_).trans (List.map_id strings)
        have hm : (Value.str p.1, p.2) ∈ named strings := List.mem_map.mpr ⟨p, hp, rfl⟩
        exact Prod.ext rfl (ih _ hm (hinside _ hm).2)
      have hdistinct : (strings.map Prod.fst).Nodup := by
        have hkeys := of_decide_eq_true hnodup
        rw [List.map_map] at hkeys
        exact List.Nodup.of_map Value.str (by rwa [List.map_map])
      rw [reread, hitems, dictOf_named hdistinct]
  | tuple | object => cases h

section Spells

variable {units : Str → σ} {readFloat : Str → Float64} {P : Str → Prop}

theorem forall₂_of_looseDocs {items : List Value} {ds : List (Doc σ)}
    (h : looseDocs units items = some ds) :
    List.Forall₂ (fun x d => looseDoc units x = some d) items ds := by
  induction items generalizing ds with
  | nil =>
      cases h
      exact .nil
  | cons x rest ih =>
      rw [looseDocs] at h
      split at h
      · rename_i d ds' hd hds
        cases h
        exact .cons hd (ih hds)
      · cases h

theorem forall₂_of_looseMembers {items : List (Value × Value)} {members : List (σ × Doc σ)}
    (h : looseMembers units items = some members) :
    List.Forall₂ (fun item m => ∃ text, looseKey item.1 = some text ∧ m.1 = units text ∧
      looseDoc units item.2 = some m.2) items members := by
  induction items generalizing members with
  | nil =>
      cases h
      exact .nil
  | cons item rest ih =>
      obtain ⟨k, v⟩ := item
      rw [looseMembers] at h
      split at h
      · rename_i text d ms hkey hd hms
        cases h
        exact .cons ⟨text, hkey, rfl, hd⟩ (ih hms)
      · cases h

theorem wellformed_toStr (t : List Char) : Wellformed (toStr t) := by
  intro c hc
  obtain ⟨d, -, rfl⟩ := List.mem_map.mp hc
  rcases d.valid with h | ⟨h, -⟩
  · exact .inl h
  · exact .inr h

theorem wellformed_looseKey {k : Value} {text : Str} (h : looseKey k = some text)
    (hk : ∀ s, k = .str s → Wellformed s) : Wellformed text := by
  unfold looseKey at h
  split at h
  · obtain rfl := Option.some.inj h
    exact hk _ rfl
  · obtain ⟨t, -, rfl⟩ := Option.map_eq_some_iff.mp h
    exact wellformed_toStr t

theorem spells_looseText {v : Value} {t : List Char} (hl : Legible readFloat P v)
    (h : looseText v = some t) : SpellsScalar readFloat (toStr t) v := by
  unfold looseText at h
  split at h
  · cases h
    exact spells_literal (by decide)
  · cases h
    exact spells_literal (by decide)
  · cases h
    exact spells_literal (by decide)
  · exact spells_scalarText hl h

theorem spells_looseAtom {v : Value} {a : Atom} (hl : Legible readFloat P v)
    (h : looseAtom v = some a) : SpellsScalar readFloat a.text v := by
  unfold looseAtom at h
  split at h
  · cases h
  · rename_i t ht
    cases h
    exact spells_looseText hl ht

-- What `dumps` writes of a value is read as what JSON keeps of it.
theorem spells_looseDoc {gap : Str} {v : Value} {d : Doc (List Unit16)} (hgap : Blank gap)
    (hl : Legible readFloat Wellformed v) (h : looseDoc utf16 v = some d) :
    Spells readFloat (renderWith gap escapeAscii d) (reread v) := by
  have hatom : ∀ {v : Value} {d : Doc (List Unit16)}, Legible readFloat Wellformed v →
      (looseAtom v).map Doc.atom = some d → Spells readFloat (renderWith gap escapeAscii d) v := by
    intro v d hl h
    obtain ⟨a, ha, rfl⟩ := Option.map_eq_some_iff.mp h
    exact .scalar (spells_looseAtom hl ha)
  induction hl generalizing d with
  | none => exact hatom .none h
  | bool b => exact hatom (.bool b) h
  | int i => exact hatom (.int i) h
  | finite hx => exact hatom (.finite hx) h
  | infinite negative => exact hatom (.infinite negative) h
  | nan => exact hatom .nan h
  | str hs =>
      cases h
      exact .string (spells_escapeAscii hs)
  | @list items _ ih | @tuple items _ ih =>
      obtain ⟨ds, hds, rfl⟩ := Option.map_eq_some_iff.mp h
      rw [reread, rereadList_eq]
      refine spells_array hgap (List.forall₂_map_right_iff.mpr (List.Forall₂.flip ?_))
      have hread : ∀ x ∈ items, ∀ d, looseDoc utf16 x = some d →
          Spells readFloat (renderWith gap escapeAscii d) (reread x) := fun x hx d hd => ih x hx hd
      exact ((List.forall₂_and_left _ _).mpr ⟨hread, forall₂_of_looseDocs hds⟩).imp
        fun x d hd => hd.1 d hd.2
  | @dict items hkeys _ ih =>
      obtain ⟨members, hmembers, rfl⟩ := Option.map_eq_some_iff.mp h
      rw [reread, rereadItems_eq]
      refine spells_object hgap (List.forall₂_map_right_iff.mpr (List.Forall₂.flip ?_))
      have hread : ∀ item ∈ items, ∀ m : List Unit16 × Doc (List Unit16),
          (∃ text, looseKey item.1 = some text ∧ m.1 = utf16 text ∧ looseDoc utf16 item.2 = some m.2) →
          SpellsMember readFloat gap escapeAscii m ((looseKey item.1).getD [], reread item.2) := by
        rintro item hm ⟨_, d⟩ ⟨text, hkey, rfl, hd⟩
        have htext : Wellformed text := wellformed_looseKey hkey (hkeys item hm)
        rw [hkey, Option.getD_some]
        exact ⟨spells_escapeAscii htext, ih item hm hd⟩
      exact ((List.forall₂_and_left _ _).mpr ⟨hread, forall₂_of_looseMembers hmembers⟩).imp
        fun item m hm => hm.1 m hm.2

-- `json.loads` of `json.dumps`.
theorem loads_dumps {v : Value} {text : Str} (hl : Legible readFloat Wellformed v)
    (h : dumps v = some text) : loads readFloat text = some (reread v) := by
  obtain ⟨d, hd, rfl⟩ := Option.map_eq_some_iff.mp h
  have hgap : Blank [.ofChar ' '] := List.forall_iff_forall_mem.mp (by decide)
  have hread := loads_spells blank_nil (spells_looseDoc hgap hl hd) blank_nil
  rwa [List.nil_append, List.append_nil] at hread

end Spells

end Json
