import Mathlib.Data.List.Perm.Basic
import PerpetuaCore.Json.Dumps

namespace Json

open Python (CodePoint Str Value Number FloatText)

-- A value without parts, and not a string: its text names it.
def Scalar (v : Value) : Prop := (scalarText v).isSome

-- The UTF-16 units each key is written as.
def keyUnits (items : List (Value × Value)) : List (Option (List Unit16)) :=
  items.map fun item => (keyText item.1).map utf16

-- Two values that JSON does not tell apart: sequences of either kind with such items, dicts
-- that in key order have keys of one text and such values, strings of the same UTF-16 units,
-- and equal scalars.
inductive Blurs : Value → Value → Prop
  | scalar {v : Value} (hv : Scalar v) : Blurs v v
  | str {s t : Str} (h : utf16 s = utf16 t) : Blurs (.str s) (.str t)
  | sequence {v w : Value} {a b : List Value} (hv : v = .list a ∨ v = .tuple a)
      (hw : w = .list b ∨ w = .tuple b) (h : List.Forall₂ Blurs a b) : Blurs v w
  | dict {a b a' b' : List (Value × Value)} {texts : List (List Unit16)}
      (ha : sortKeys a = some a') (hb : sortKeys b = some b') (hkeys : keyUnits a' = texts.map some)
      (hkeys' : keyUnits b' = texts.map some)
      (hvalues : List.Forall₂ Blurs (a'.map Prod.snd) (b'.map Prod.snd)) :
      Blurs (.dict a) (.dict b)

-- Somewhere the one has a list for the other's tuple, another spelling of a string or
-- another key of one text.
inductive Differs : Value → Value → Prop
  | listTuple {a b : List Value} : Differs (.list a) (.tuple b)
  | tupleList {a b : List Value} : Differs (.tuple a) (.list b)
  | str {s t : Str} (h : s ≠ t) : Differs (.str s) (.str t)
  | list {a b : List Value} {x y : Value} (hitem : (x, y) ∈ a.zip b) (h : Differs x y) :
      Differs (.list a) (.list b)
  | tuple {a b : List Value} {x y : Value} (hitem : (x, y) ∈ a.zip b) (h : Differs x y) :
      Differs (.tuple a) (.tuple b)
  | key {a b a' b' : List (Value × Value)} {k l x y : Value} (ha : sortKeys a = some a')
      (hb : sortKeys b = some b') (hitem : ((k, x), (l, y)) ∈ a'.zip b') (h : k ≠ l) :
      Differs (.dict a) (.dict b)
  | value {a b a' b' : List (Value × Value)} {k l x y : Value} (ha : sortKeys a = some a')
      (hb : sortKeys b = some b') (hitem : ((k, x), (l, y)) ∈ a'.zip b') (h : Differs x y) :
      Differs (.dict a) (.dict b)

-- The same value, types of containers and keys included; a dict has no order.
inductive Same : Value → Value → Prop
  | scalar {v : Value} (hv : Scalar v) : Same v v
  | str {s : Str} : Same (.str s) (.str s)
  | list {a b : List Value} (h : List.Forall₂ Same a b) : Same (.list a) (.list b)
  | tuple {a b : List Value} (h : List.Forall₂ Same a b) : Same (.tuple a) (.tuple b)
  | dict {a b a' b' : List (Value × Value)} (ha : a.Perm a') (hb : b.Perm b')
      (hkeys : a'.map Prod.fst = b'.map Prod.fst)
      (hvalues : List.Forall₂ Same (a'.map Prod.snd) (b'.map Prod.snd)) :
      Same (.dict a) (.dict b)

theorem digits_injective : Function.Injective digits := by
  intro m n h
  rw [← Nat.ofDigitChars_toDigits (b := 10) (by decide) (by decide) (n := m), ← digits, h, digits,
    Nat.ofDigitChars_toDigits (by decide) (by decide)]

theorem isDigit_of_mem_digits {n : Nat} {c : Char} (h : c ∈ digits n) : c.isDigit = true :=
  Nat.isDigit_of_mem_toDigits (by decide) (by decide) h

theorem intText_injective : Function.Injective intText := by
  intro i j h
  have hsign : ∀ m n : Nat, '-' :: digits m ≠ digits n := by
    intro m n he
    have hm : '-' ∈ digits n := he ▸ List.mem_cons_self
    exact absurd (isDigit_of_mem_digits hm) (by decide)
  unfold intText at h
  split_ifs at h with hi hj hj
  · have := digits_injective (List.cons.inj h).2
    omega
  · exact absurd h (hsign _ _)
  · exact absurd h.symm (hsign _ _)
  · have := digits_injective h
    omega

-- The characters of a number's text.
def numeric (c : Char) : Bool := c.isDigit || c ∈ ['-', '+', '.', 'e']

theorem intText_numeric {i : Int} {c : Char} (h : c ∈ intText i) :
    numeric c = true ∧ c ≠ '.' ∧ c ≠ 'e' := by
  have hdigit : ∀ n, c ∈ digits n → numeric c = true ∧ c ≠ '.' ∧ c ≠ 'e' := by
    intro n hc
    have hd := isDigit_of_mem_digits hc
    refine ⟨by simp [numeric, hd], ?_, ?_⟩ <;> rintro rfl <;> exact absurd hd (by decide)
  unfold intText at h
  split_ifs at h
  · rcases List.mem_cons.mp h with rfl | h
    · decide
    · exact hdigit _ h
  · exact hdigit _ h

theorem floatText_numeric {x : FloatText} {c : Char} (h : c ∈ x.text) : numeric c = true := by
  rcases x.chars c h with hd | hm
  · simp [numeric, hd]
  · simp [numeric, hm]

theorem numeric_lt {c : Char} (h : numeric c = true) : (CodePoint.ofChar c).val < 0x10000 := by
  rcases Bool.or_eq_true_iff.mp h with hd | hm
  · simp only [Char.isDigit, Bool.and_eq_true, decide_eq_true_eq, UInt32.le_iff_toNat_le] at hd
    have h9 : '9'.val.toNat = 57 := by decide
    have hval : (CodePoint.ofChar c).val = c.val.toNat := rfl
    omega
  · have hall : ∀ c ∈ ['-', '+', '.', 'e'], (CodePoint.ofChar c).val < 0x10000 :=
      List.forall_iff_forall_mem.mp (by decide)
    exact hall c (of_decide_eq_true hm)

theorem scalarText_lt {v : Value} {t : List Char} (h : scalarText v = some t) :
    ∀ c ∈ toStr t, c.val < 0x10000 := by
  intro c hc
  obtain ⟨d, hd, rfl⟩ := List.mem_map.mp hc
  match v with
  | .none | .bool true | .bool false =>
      cases h
      revert d
      exact List.forall_iff_forall_mem.mp (by decide)
  | .int i =>
      cases h
      exact numeric_lt (intText_numeric hd).1
  | .float (.finite x) =>
      cases h
      exact numeric_lt (floatText_numeric hd)

-- Without astral characters a string is its own UTF-16 units.
theorem utf16_of_lt {s : Str} (h : ∀ c ∈ s, c.val < 0x10000) :
    (utf16 s).map Unit16.toCodePoint = s := by
  induction s with
  | nil => rfl
  | cons c rest ih =>
      obtain ⟨hc, hrest⟩ := List.forall_mem_cons.mp h
      have hunit : Unit16.toCodePoint ⟨c.val % 0x10000, Nat.mod_lt _ (by decide)⟩ = c :=
        Fin.ext (Nat.mod_eq_of_lt hc)
      rw [utf16, List.flatMap_cons, if_pos hc, List.map_append, ← utf16, ih hrest, List.map_singleton,
        hunit, List.singleton_append]

-- A scalar is known by its text.
theorem scalarText_injective {v w : Value} {t : List Char} (hv : scalarText v = some t)
    (hw : scalarText w = some t) : v = w := by
  have hword : ∀ word ∈ ["null".toList, "true".toList, "false".toList],
      (∀ i, word ≠ intText i) ∧ ∀ x : FloatText, word ≠ x.text := by
    intro word hword
    obtain ⟨c, hc, hn⟩ : ∃ c ∈ word, numeric c = false := by
      have hall : ∀ word ∈ ["null".toList, "true".toList, "false".toList],
          word.any (fun c => !numeric c) = true := List.forall_iff_forall_mem.mp (by decide)
      simpa using hall word hword
    constructor
    · rintro i rfl
      exact absurd (intText_numeric hc).1 (by simp [hn])
    · rintro x rfl
      exact absurd (floatText_numeric hc) (by simp [hn])
  have hfloat : ∀ i (x : FloatText), intText i ≠ x.text := by
    intro i x he
    rcases x.pointed with hp | hp
    · exact (intText_numeric (he ▸ hp)).2.1 rfl
    · exact (intText_numeric (he ▸ hp)).2.2 rfl
  have htext : ∀ x y : FloatText, x.text = y.text → x = y := by
    rintro ⟨x, -, -⟩ ⟨y, -, -⟩ rfl
    rfl
  have hnull := hword "null".toList (by simp)
  have htrue := hword "true".toList (by simp)
  have hfalse := hword "false".toList (by simp)
  clear hword
  rcases v with _ | (_ | _) | i | (x | _ | _) | _ | _ | _ | _ | _ <;> cases hv <;>
    rcases w with _ | (_ | _) | j | (y | _ | _) | _ | _ | _ | _ | _ <;>
    simp only [scalarText, Option.some.injEq, reduceCtorEq] at hw <;>
    first | rfl | exact absurd hw (by decide) | grind [intText_injective.eq_iff]

section Sorting

variable {α β : Type} (f : α → β)

theorem allStrings_map (items : List (Value × α)) :
    allStrings (items.map (Prod.map id f)) = (allStrings items).map (List.map (Prod.map id f)) := by
  induction items with
  | nil => rfl
  | cons item rest ih =>
      obtain ⟨k, x⟩ := item
      cases k with
      | str s =>
          simp only [List.map_cons, Prod.map_apply, id, allStrings, ih]
          cases allStrings rest <;> rfl
      | _ => rfl

theorem allNumbers_map (items : List (Value × α)) :
    allNumbers (items.map (Prod.map id f)) =
      (allNumbers items).map (List.map (Prod.map id (Prod.map id f))) := by
  induction items with
  | nil => rfl
  | cons item rest ih =>
      obtain ⟨k, x⟩ := item
      simp only [List.map_cons, Prod.map_apply, id, allNumbers]
      cases k.number? with
      | none => rfl
      | some n =>
          simp only [ih]
          cases allNumbers rest <;> rfl

-- Only the keys decide about the order.
theorem sortKeys_map (items : List (Value × α)) :
    sortKeys (items.map (Prod.map id f)) = (sortKeys items).map (List.map (Prod.map id f)) := by
  simp only [sortKeys, allStrings_map, allNumbers_map]
  cases allStrings items with
  | some strings =>
      simp only [Option.map_some, Python.sorted]
      rw [← List.map_insertionSort (fun a b : Str × α => a.1 ≤ b.1) (fun a b : Str × β => a.1 ≤ b.1)
        (Prod.map id f) strings (by simp)]
      simp [Function.comp_def]
  | none =>
      cases allNumbers items with
      | some numbers =>
          simp only [Option.map_none, Option.map_some]
          rw [← List.map_insertionSort (fun a b : Number × Value × α => a.1.le b.1)
            (fun a b : Number × Value × β => a.1.le b.1) (Prod.map id (Prod.map id f)) numbers (by simp)]
          simp [Function.comp_def]
      | none => rcases items with _ | ⟨item, _ | ⟨item', rest⟩⟩ <;> rfl

theorem allStrings_eq {items : List (Value × α)} {strings : List (Str × α)}
    (h : allStrings items = some strings) : items = strings.map fun p => (.str p.1, p.2) := by
  induction items generalizing strings with
  | nil =>
      cases h
      rfl
  | cons item rest ih =>
      obtain ⟨k, x⟩ := item
      cases k with
      | str s =>
          obtain ⟨strings', hrest, rfl⟩ := Option.map_eq_some_iff.mp h
          rw [ih hrest]
          rfl
      | _ => cases h

theorem allNumbers_eq {items : List (Value × α)} {numbers : List (Number × Value × α)}
    (h : allNumbers items = some numbers) :
    items = numbers.map Prod.snd ∧ ∀ p ∈ numbers, p.2.1.number? = some p.1 := by
  induction items generalizing numbers with
  | nil =>
      cases h
      exact ⟨rfl, by simp⟩
  | cons item rest ih =>
      obtain ⟨k, x⟩ := item
      simp only [allNumbers] at h
      split at h
      · rename_i n hn
        obtain ⟨numbers', hrest, rfl⟩ := Option.map_eq_some_iff.mp h
        obtain ⟨hitems, hall⟩ := ih hrest
        exact ⟨by rw [hitems]; rfl, List.forall_mem_cons.mpr ⟨hn, hall⟩⟩
      · cases h

def isStr : Value → Bool
  | .str _ => true
  | _ => false

-- Sorting permutes the items of a dict whose keys are all strings, or all of them not.
theorem sortKeys_spec {items items' : List (Value × α)} (h : sortKeys items = some items') :
    items.Perm items' ∧ ∀ x ∈ items, ∀ y ∈ items, isStr x.1 = isStr y.1 := by
  simp only [sortKeys] at h
  split at h
  · rename_i strings hs
    obtain rfl := Option.some.inj h
    rw [allStrings_eq hs]
    refine ⟨((Python.sorted_perm Prod.fst strings).map _).symm, ?_⟩
    simp only [List.mem_map]
    rintro _ ⟨p, -, rfl⟩ _ ⟨q, -, rfl⟩
    rfl
  · rename_i numbers _ hn
    obtain rfl := Option.some.inj h
    obtain ⟨hitems, hall⟩ := allNumbers_eq hn
    rw [hitems]
    refine ⟨((List.perm_insertionSort _ numbers).map _).symm, ?_⟩
    have hstr : ∀ p ∈ numbers, isStr p.2.1 = false := by
      intro p hp
      have hk := hall p hp
      cases hkey : p.2.1 <;> rw [hkey] at hk <;> first | rfl | cases hk
    simp only [List.mem_map]
    rintro _ ⟨p, hp, rfl⟩ _ ⟨q, hq, rfl⟩
    rw [hstr p hp, hstr q hq]
  · obtain rfl := Option.some.inj h
    exact ⟨.rfl, by simp⟩
  · cases h

end Sorting

section Documents

variable {σ : Type} {units : Str → σ}

theorem toDocs_iff {items : List Value} {ds : List (Doc σ)} :
    toDocs units items = some ds ↔ items.map (toDoc units) = ds.map some := by
  induction items generalizing ds with
  | nil => cases ds <;> simp [toDocs]
  | cons x rest ih =>
      cases ds with
      | nil =>
          simp only [toDocs, List.map_cons, List.map_nil, reduceCtorEq, iff_false]
          split <;> simp
      | cons d ds =>
          rw [List.map_cons, List.map_cons, List.cons.injEq, ← ih, toDocs]
          cases toDoc units x <;> cases toDocs units rest <;> simp

theorem toMembers_iff {items : List (Value × Value)} {ms : List (Value × Doc σ)} :
    toMembers units items = some ms ↔
      items.map (Prod.map id (toDoc units)) = ms.map (Prod.map id some) := by
  induction items generalizing ms with
  | nil => cases ms <;> simp [toMembers]
  | cons item rest ih =>
      obtain ⟨k, v⟩ := item
      cases ms with
      | nil =>
          simp only [toMembers, List.map_cons, List.map_nil, reduceCtorEq, iff_false]
          split <;> simp
      | cons m ms =>
          obtain ⟨l, d⟩ := m
          rw [List.map_cons, List.map_cons, List.cons.injEq, ← ih, toMembers]
          cases hv : toDoc units v <;> cases toMembers units rest <;> simp [hv, and_assoc]

theorem writeKeys_iff {ms : List (Value × Doc σ)} {members : List (σ × Doc σ)} :
    writeKeys units ms = some members ↔
      ms.map (fun m => ((keyText m.1).map units, m.2)) = members.map (Prod.map some id) := by
  induction ms generalizing members with
  | nil => cases members <;> simp [writeKeys]
  | cons m rest ih =>
      obtain ⟨k, d⟩ := m
      cases members with
      | nil =>
          simp only [writeKeys, List.map_cons, List.map_nil, reduceCtorEq, iff_false]
          split <;> simp
      | cons member members =>
          obtain ⟨s, d'⟩ := member
          rw [List.map_cons, List.map_cons, List.cons.injEq, ← ih, writeKeys]
          cases keyText k <;> cases writeKeys units rest <;> simp [and_assoc]

theorem exists_map_eq {α β γ : Type} {f : α → γ} {g : β → γ} {xs : List α}
    (h : ∀ x ∈ xs, ∃ y, f x = g y) : ∃ ys : List β, xs.map f = ys.map g := by
  induction xs with
  | nil => exact ⟨[], rfl⟩
  | cons x rest ih =>
      obtain ⟨hx, hrest⟩ := List.forall_mem_cons.mp h
      obtain ⟨y, hy⟩ := hx
      obtain ⟨ys, hys⟩ := ih hrest
      exact ⟨y :: ys, by rw [List.map_cons, List.map_cons, hy, hys]⟩

-- Sorting before the values are written or after makes no difference.
theorem sortKeys_toMembers {items : List (Value × Value)} {ms : List (Value × Doc σ)}
    (h : toMembers units items = some ms) (members : List (σ × Doc σ)) :
    (sortKeys ms).bind (writeKeys units) = some members ↔ ∃ items', sortKeys items = some items' ∧
      items'.map (fun item => ((keyText item.1).map units, toDoc units item.2)) =
        members.map (Prod.map some some) := by
  have hsort := congrArg sortKeys (toMembers_iff.mp h)
  rw [sortKeys_map, sortKeys_map] at hsort
  cases hitems : sortKeys items with
  | none =>
      cases hms : sortKeys ms with
      | none => simp
      | some sorted => simp [hitems, hms] at hsort
  | some items' =>
      cases hms : sortKeys ms with
      | none => simp [hitems, hms] at hsort
      | some sorted =>
          have hsorted : items'.map (Prod.map id (toDoc units)) = sorted.map (Prod.map id some) := by
            simpa [hitems, hms] using hsort
          have hkeyed := congrArg (List.map fun m : Value × Option (Doc σ) =>
            ((keyText m.1).map units, m.2)) hsorted
          simp only [List.map_map, Function.comp_def, Prod.map_fst, Prod.map_snd, id] at hkeyed
          have hwrite : members.map (Prod.map some some) =
              (members.map (Prod.map some id)).map (Prod.map id some) := by
            simp [Function.comp_def, Prod.map]
          have hinj : Function.Injective (Prod.map id some : Option σ × Doc σ → _) :=
            Function.injective_id.prodMap (Option.some_injective _)
          simp only [Option.bind_some, writeKeys_iff, Option.some.injEq, exists_eq_left', hkeyed, hwrite]
          rw [← (List.map_injective_iff.mpr hinj).eq_iff]
          simp [Function.comp_def, Prod.map]

-- A dict's document lists its items in key order.
theorem toDoc_dict_iff {items : List (Value × Value)} {d : Doc σ} :
    toDoc units (.dict items) = some d ↔ ∃ items' members, sortKeys items = some items' ∧
      items'.map (fun item => ((keyText item.1).map units, toDoc units item.2)) =
        members.map (Prod.map some some) ∧ d = .object members := by
  constructor
  · intro h
    obtain ⟨members, hmembers, rfl⟩ := Option.map_eq_some_iff.mp h
    rw [Option.bind_assoc] at hmembers
    obtain ⟨ms, hms, hwrite⟩ := Option.bind_eq_some_iff.mp hmembers
    obtain ⟨items', hitems, hkeyed⟩ := (sortKeys_toMembers hms members).mp hwrite
    exact ⟨items', members, hitems, hkeyed, rfl⟩
  · rintro ⟨items', members, hitems, hkeyed, rfl⟩
    have hsome : ∀ item ∈ items, ∃ m : Value × Doc σ, Prod.map id (toDoc units) item = Prod.map id some m := by
      intro item hitem
      have hm := List.mem_map_of_mem (f := fun item : Value × Value =>
        ((keyText item.1).map units, toDoc units item.2)) ((sortKeys_spec hitems).1.mem_iff.mp hitem)
      rw [hkeyed] at hm
      obtain ⟨member, -, he⟩ := List.mem_map.mp hm
      exact ⟨(item.1, member.2), Prod.ext rfl (Prod.mk.inj he).2.symm⟩
    obtain ⟨ms, hms⟩ := exists_map_eq hsome
    rw [← toMembers_iff] at hms
    have hwrite := (sortKeys_toMembers hms members).mpr ⟨items', hitems, hkeyed⟩
    simp [toDoc, hms, hwrite]

theorem toDoc_eq_atom_iff {v : Value} {a : Atom} :
    toDoc units v = some (.atom a) ↔ ∃ t, scalarText v = some t ∧ a.text = toStr t := by
  have hscalar : (scalarAtom v).map Doc.atom = some (.atom a : Doc σ) ↔
      ∃ t, scalarText v = some t ∧ a.text = toStr t := by
    obtain ⟨text, hne, hplain⟩ := a
    unfold scalarAtom
    split
    · rename_i hnone
      simp [hnone]
    · rename_i t ht
      simp [ht, eq_comm]
  cases v with
  | none | bool | int | float => exact hscalar
  | dict items => simp [toDoc_dict_iff, scalarText]
  | _ => simp [toDoc, scalarText]

theorem toDoc_eq_string_iff {v : Value} {s : σ} :
    toDoc units v = some (.string s) ↔ ∃ t, v = .str t ∧ units t = s := by
  cases v with
  | dict items => simp [toDoc_dict_iff]
  | _ => simp [toDoc]

theorem toDoc_eq_array_iff {v : Value} {ds : List (Doc σ)} :
    toDoc units v = some (.array ds) ↔
      ∃ items, (v = .list items ∨ v = .tuple items) ∧ items.map (toDoc units) = ds.map some := by
  cases v with
  | dict items => simp [toDoc_dict_iff]
  | _ => simp [toDoc, ← toDocs_iff]

theorem toDoc_eq_object_iff {v : Value} {members : List (σ × Doc σ)} :
    toDoc units v = some (.object members) ↔ ∃ items items', v = .dict items ∧
      sortKeys items = some items' ∧ items'.map (fun item => ((keyText item.1).map units,
        toDoc units item.2)) = members.map (Prod.map some some) := by
  cases v with
  | dict items => simp [toDoc_dict_iff]
  | _ => simp [toDoc]

end Documents

theorem map_pair_eq_iff {α γ δ γ' δ' : Type} {f : α → γ} {g : α → δ} {p : γ' → γ} {q : δ' → δ}
    {xs : List α} {ys : List (γ' × δ')} :
    xs.map (fun x => (f x, g x)) = ys.map (Prod.map p q) ↔
      xs.map f = (ys.map Prod.fst).map p ∧ xs.map g = (ys.map Prod.snd).map q := by
  induction xs generalizing ys with
  | nil => cases ys <;> simp
  | cons x rest ih =>
      cases ys with
      | nil => simp
      | cons y ys =>
          simp only [List.map_cons, List.cons.injEq, ih, Prod.map_apply', Prod.mk.injEq]
          tauto

-- `w` has the document of `v` exactly when the two blur.
def Recognized (v : Value) : Prop :=
  ∀ w d, toDoc utf16 v = some d → (toDoc utf16 w = some d ↔ Blurs v w)

theorem recognized_list {a b : List Value} {ds : List (Doc (List Unit16))}
    (h : ∀ x ∈ a, Recognized x) (ha : a.map (toDoc utf16) = ds.map some) :
    b.map (toDoc utf16) = ds.map some ↔ List.Forall₂ Blurs a b := by
  induction a generalizing b ds with
  | nil =>
      obtain rfl : ds = [] := by simpa using ha.symm
      simp
  | cons x rest ih =>
      obtain ⟨hx, hrest⟩ := List.forall_mem_cons.mp h
      cases ds with
      | nil => cases ha
      | cons d ds =>
          obtain ⟨hd, hds⟩ := List.cons.inj ha
          cases b with
          | nil => simp
          | cons y b =>
              rw [List.map_cons, List.map_cons, List.cons.injEq, ih hrest hds, hx y d hd,
                List.forall₂_cons]

theorem blurs_scalar_iff {v w : Value} {t : List Char} (hv : scalarText v = some t) :
    Blurs v w ↔ scalarText w = some t := by
  constructor
  · intro h
    cases h with
    | scalar => exact hv
    | str | dict => cases hv
    | sequence hseq => rcases hseq with rfl | rfl <;> cases hv
  · intro hw
    obtain rfl := scalarText_injective hv hw
    exact .scalar (by simp [Scalar, hv])

theorem recognized_scalar {v : Value} {t : List Char} (hv : scalarText v = some t) : Recognized v := by
  intro w d hd
  rw [blurs_scalar_iff hv]
  cases d with
  | atom a =>
      obtain ⟨t', ht', ha⟩ := toDoc_eq_atom_iff.mp hd
      obtain rfl := Option.some.inj (hv.symm.trans ht')
      rw [toDoc_eq_atom_iff, ha]
      constructor
      · rintro ⟨s, hs, he⟩
        rw [hs, toStr_injective he]
      · exact fun hw => ⟨t, hw, rfl⟩
  | string s =>
      obtain ⟨_, rfl, -⟩ := toDoc_eq_string_iff.mp hd
      cases hv
  | array ds =>
      obtain ⟨items, rfl | rfl, -⟩ := toDoc_eq_array_iff.mp hd <;> cases hv
  | object members =>
      obtain ⟨items, items', rfl, -⟩ := toDoc_eq_object_iff.mp hd
      cases hv

theorem blurs_str_iff {s : Str} {w : Value} :
    Blurs (.str s) w ↔ ∃ t, w = .str t ∧ utf16 t = utf16 s := by
  constructor
  · intro h
    cases h with
    | scalar hv => cases hv
    | str h => exact ⟨_, rfl, h.symm⟩
    | sequence hseq => rcases hseq with h | h <;> cases h
  · rintro ⟨t, rfl, h⟩
    exact .str h.symm

theorem blurs_sequence_iff {v w : Value} {a : List Value} (hv : v = .list a ∨ v = .tuple a) :
    Blurs v w ↔ ∃ b, (w = .list b ∨ w = .tuple b) ∧ List.Forall₂ Blurs a b := by
  constructor
  · intro h
    cases h with
    | scalar hs => rcases hv with rfl | rfl <;> cases hs
    | str | dict => rcases hv with h | h <;> cases h
    | @sequence _ _ a' b hseq hw h =>
        obtain rfl : a = a' := by
          rcases hv with rfl | rfl <;> rcases hseq with h | h <;> cases h <;> rfl
        exact ⟨b, hw, h⟩
  · rintro ⟨b, hw, h⟩
    exact .sequence hv hw h

theorem recognized_sequence {v : Value} {items : List Value} (hv : v = .list items ∨ v = .tuple items)
    (h : ∀ x ∈ items, Recognized x) : Recognized v := by
  intro w d hd
  obtain ⟨ds, hds, rfl⟩ : ∃ ds, toDocs utf16 items = some ds ∧ .array ds = d := by
    rcases hv with rfl | rfl <;> exact Option.map_eq_some_iff.mp hd
  rw [toDoc_eq_array_iff, blurs_sequence_iff hv]
  exact exists_congr fun b => and_congr_right fun _ => recognized_list h (toDocs_iff.mp hds)

theorem blurs_dict_iff {a a' : List (Value × Value)} {w : Value} (ha : sortKeys a = some a') :
    Blurs (.dict a) w ↔ ∃ b b', w = .dict b ∧ sortKeys b = some b' ∧
      (∃ texts : List (List Unit16), keyUnits a' = texts.map some ∧ keyUnits b' = texts.map some) ∧
      List.Forall₂ Blurs (a'.map Prod.snd) (b'.map Prod.snd) := by
  constructor
  · intro h
    cases h with
    | scalar hs => cases hs
    | sequence hseq => rcases hseq with h | h <;> cases h
    | dict ha' hb hkeys hkeys' hvalues =>
        obtain rfl := Option.some.inj (ha.symm.trans ha')
        exact ⟨_, _, rfl, hb, ⟨_, hkeys, hkeys'⟩, hvalues⟩
  · rintro ⟨b, b', rfl, hb, ⟨texts, hkeys, hkeys'⟩, hvalues⟩
    exact .dict ha hb hkeys hkeys' hvalues

theorem recognized_dict {items : List (Value × Value)} (h : ∀ item ∈ items, Recognized item.2) :
    Recognized (.dict items) := by
  intro w d hd
  obtain ⟨items', members, hitems, hmembers, rfl⟩ := toDoc_dict_iff.mp hd
  obtain ⟨hkeys, hvalues⟩ := map_pair_eq_iff.mp hmembers
  have hinside : ∀ x ∈ items'.map Prod.snd, Recognized x := by
    intro x hx
    obtain ⟨item, hitem, rfl⟩ := List.mem_map.mp hx
    exact h item ((sortKeys_spec hitems).1.mem_iff.mpr hitem)
  have hdocs : (items'.map Prod.snd).map (toDoc utf16) = (members.map Prod.snd).map some := by
    rw [List.map_map]
    exact hvalues
  rw [toDoc_eq_object_iff, blurs_dict_iff hitems]
  refine exists_congr fun b => exists_congr fun b' => and_congr_right fun _ => and_congr_right fun _ => ?_
  have hsnd : (b'.map Prod.snd).map (toDoc utf16) = b'.map fun item => toDoc utf16 item.2 := List.map_map
  rw [map_pair_eq_iff, ← recognized_list hinside hdocs, hsnd]
  refine and_congr_left fun _ => ⟨fun hkeys' => ⟨members.map Prod.fst, hkeys, hkeys'⟩, ?_⟩
  rintro ⟨texts, htexts, htexts'⟩
  exact htexts'.trans (htexts.symm.trans hkeys)

theorem recognized (v : Value) : Recognized v := by
  induction v using Value.inside with
  | none => exact recognized_scalar rfl
  | bool b => cases b <;> exact recognized_scalar rfl
  | int i => exact recognized_scalar rfl
  | float x =>
      cases x with
      | finite x => exact recognized_scalar rfl
      | infinite | nan => exact fun w d hd => nomatch hd
  | str s =>
      intro w d hd
      cases hd
      rw [toDoc_eq_string_iff, blurs_str_iff]
  | list items ih => exact recognized_sequence (.inl rfl) ih
  | tuple items ih => exact recognized_sequence (.inr rfl) ih
  | dict items ih => exact recognized_dict ih
  | object type identity copies => exact fun w d hd => nomatch hd

theorem allStrings_of_keys {α : Type} (strings : List (Str × α)) :
    allStrings (strings.map fun p => (Value.str p.1, p.2)) = some strings := by
  induction strings with
  | nil => rfl
  | cons p rest ih => simp [allStrings, ih]

-- Dicts with the same string keys list them in the same order.
theorem sortKeys_perm {xs ys : List (Value × Unit)} {strings : List (Str × Unit)} (h : xs.Perm ys)
    (hs : allStrings xs = some strings) : sortKeys xs = sortKeys ys := by
  have hg : Function.Injective fun p : Str × Unit => (Value.str p.1, p.2) := by
    rintro ⟨s, ⟨⟩⟩ ⟨t, ⟨⟩⟩ he
    exact Prod.ext (Value.str.inj (Prod.mk.inj he).1) rfl
  obtain ⟨strings', hys⟩ : ∃ strings' : List (Str × Unit), ys.map id = strings'.map fun p => (.str p.1, p.2) := by
    refine exists_map_eq fun y hy => ?_
    have hy' := h.mem_iff.mpr hy
    rw [allStrings_eq hs] at hy'
    obtain ⟨p, -, rfl⟩ := List.mem_map.mp hy'
    exact ⟨p, rfl⟩
  rw [List.map_id] at hys
  subst hys
  rw [allStrings_eq hs] at h ⊢
  have hperm := (List.map_perm_map_iff hg).mp h
  have hkey : Function.Injective (Prod.fst : Str × Unit → Str) := fun p q he => Prod.ext he rfl
  simp only [sortKeys, allStrings_of_keys, Python.sorted_eq_of_perm hkey hperm]

theorem scalarKey_eq {k l : Value} {text : List Unit16} (hk : isStr k = false) (hl : isStr l = false)
    (h : (keyText k).map utf16 = some text) (h' : (keyText l).map utf16 = some text) : k = l := by
  have hscalar : ∀ v, isStr v = false → keyText v = (scalarText v).map toStr := fun v hv => by
    cases v <;> first | rfl | cases hv
  rw [hscalar k hk] at h
  rw [hscalar l hl] at h'
  simp only [Option.map_eq_some_iff] at h h'
  obtain ⟨_, ⟨t, ht, rfl⟩, hunits⟩ := h
  obtain ⟨_, ⟨u, hu, rfl⟩, hunits'⟩ := h'
  have htext := congrArg (List.map Unit16.toCodePoint) (hunits.trans hunits'.symm)
  rw [utf16_of_lt (scalarText_lt ht), utf16_of_lt (scalarText_lt hu)] at htext
  exact scalarText_injective ht (toStr_injective htext ▸ hu)

theorem scalarKeys_eq {a b : List (Value × Value)} {texts : List (List Unit16)}
    (ha : ∀ k ∈ a.map Prod.fst, isStr k = false) (hb : ∀ k ∈ b.map Prod.fst, isStr k = false)
    (hkeys : keyUnits a = texts.map some) (hkeys' : keyUnits b = texts.map some) :
    a.map Prod.fst = b.map Prod.fst := by
  induction texts generalizing a b with
  | nil => simp_all [keyUnits]
  | cons text texts ih =>
      obtain ⟨item, rest, rfl, hitem, hrest⟩ := List.map_eq_cons_iff.mp hkeys
      obtain ⟨item', rest', rfl, hitem', hrest'⟩ := List.map_eq_cons_iff.mp hkeys'
      simp only [List.map_cons, List.forall_mem_cons] at ha hb ⊢
      rw [scalarKey_eq ha.1 hb.1 hitem hitem', ih ha.2 hb.2 hrest hrest']

-- Keys of one text in dicts with the same keys are the same.
theorem keys_eq {a b a' b' : List (Value × Value)} (ha : sortKeys a = some a') (hb : sortKeys b = some b')
    (hperm : (a.map Prod.fst).Perm (b.map Prod.fst))
    {texts : List (List Unit16)} (hkeys : keyUnits a' = texts.map some)
    (hkeys' : keyUnits b' = texts.map some) : a'.map Prod.fst = b'.map Prod.fst := by
  by_cases hstr : ∀ item ∈ a, isStr item.1 = true
  · -- String keys: both lists are the sorted list of the same keys.
    obtain ⟨strings, hstrings⟩ : ∃ strings : List (Str × Unit),
        a.map (Prod.map id fun _ => ()) = strings.map fun p => (.str p.1, p.2) := by
      refine exists_map_eq fun item hitem => ?_
      obtain ⟨k, x⟩ := item
      have hk := hstr _ hitem
      cases k with
      | str s => exact ⟨(s, ()), rfl⟩
      | _ => cases hk
    have hunits : (a.map (Prod.map id fun _ => ())).Perm (b.map (Prod.map id fun _ => ())) := by
      have hmap := hperm.map fun k => (k, ())
      rwa [List.map_map, List.map_map] at hmap
    have hall := allStrings_of_keys strings
    rw [← hstrings] at hall
    have hsorted := sortKeys_perm hunits hall
    rw [sortKeys_map, sortKeys_map, ha, hb] at hsorted
    have hpairs := congrArg (List.map Prod.fst) (Option.some.inj hsorted)
    simpa [Function.comp_def, Prod.map] using hpairs
  · -- No key is a string: a scalar is known by its text.
    have hnone : ∀ k ∈ a.map Prod.fst, isStr k = false := by
      obtain ⟨item, hitem, hfalse⟩ := not_forall₂.mp hstr
      intro k hk
      obtain ⟨item', hitem', rfl⟩ := List.mem_map.mp hk
      rw [(sortKeys_spec ha).2 item' hitem' item hitem]
      simpa using hfalse
    have hnone' : ∀ k ∈ b.map Prod.fst, isStr k = false := fun k hk => hnone k (hperm.mem_iff.mpr hk)
    have hka := (sortKeys_spec ha).1.map Prod.fst
    have hkb := (sortKeys_spec hb).1.map Prod.fst
    exact scalarKeys_eq (fun k hk => hnone k (hka.mem_iff.mpr hk))
      (fun k hk => hnone' k (hkb.mem_iff.mpr hk)) hkeys hkeys'

theorem forall₂_snd_iff {R : Value → Value → Prop} {a b : List (Value × Value)} :
    List.Forall₂ R (a.map Prod.snd) (b.map Prod.snd) ↔
      a.length = b.length ∧ ∀ item item', (item, item') ∈ a.zip b → R item.2 item'.2 := by
  rw [List.forall₂_map_left_iff, List.forall₂_map_right_iff, List.forall₂_iff_zip]

theorem map_fst_eq_iff {a b : List (Value × Value)} : a.map Prod.fst = b.map Prod.fst ↔
    a.length = b.length ∧ ∀ item item', (item, item') ∈ a.zip b → item.1 = item'.1 := by
  rw [← List.forall₂_eq_eq_eq, List.forall₂_map_left_iff, List.forall₂_map_right_iff,
    List.forall₂_iff_zip]

-- Among values that blur, those without a difference are the same.
theorem same_of_not_differs (v : Value) : ∀ w, Blurs v w → ¬Differs v w → Same v w := by
  have hscalar : ∀ v t, scalarText v = some t → ∀ w, Blurs v w → Same v w := by
    intro v t ht w hb
    obtain rfl := scalarText_injective ht ((blurs_scalar_iff ht).mp hb)
    exact .scalar (by simp [Scalar, ht])
  induction v using Value.inside with
  | none => exact fun w hb _ => hscalar _ _ rfl w hb
  | bool b => cases b <;> exact fun w hb _ => hscalar _ _ rfl w hb
  | int i => exact fun w hb _ => hscalar _ _ rfl w hb
  | float x =>
      cases x with
      | finite x => exact fun w hb _ => hscalar _ _ rfl w hb
      | infinite | nan =>
          intro w hb
          cases hb with
          | scalar hv => cases hv
          | sequence hv => rcases hv with h | h <;> cases h
  | str s =>
      intro w hb hd
      obtain ⟨t, rfl, -⟩ := blurs_str_iff.mp hb
      obtain rfl : s = t := by
        by_contra hne
        exact hd (.str hne)
      exact .str
  | list items ih =>
      intro w hb hd
      obtain ⟨b, rfl | rfl, h⟩ := (blurs_sequence_iff (.inl rfl)).mp hb
      · obtain ⟨hlength, hzip⟩ := List.forall₂_iff_zip.mp h
        refine .list (List.forall₂_iff_zip.mpr ⟨hlength, fun {x y} hxy => ?_⟩)
        exact ih x (List.of_mem_zip hxy).1 y (hzip hxy) fun hdiff => hd (.list hxy hdiff)
      · exact absurd .listTuple hd
  | tuple items ih =>
      intro w hb hd
      obtain ⟨b, rfl | rfl, h⟩ := (blurs_sequence_iff (.inr rfl)).mp hb
      · exact absurd .tupleList hd
      · obtain ⟨hlength, hzip⟩ := List.forall₂_iff_zip.mp h
        refine .tuple (List.forall₂_iff_zip.mpr ⟨hlength, fun {x y} hxy => ?_⟩)
        exact ih x (List.of_mem_zip hxy).1 y (hzip hxy) fun hdiff => hd (.tuple hxy hdiff)
  | dict items ih =>
      intro w hb hd
      cases hb with
      | scalar hv => cases hv
      | sequence hv => rcases hv with h | h <;> cases h
      | @dict _ b a' b' texts ha hb hkeys hkeys' hvalues =>
          obtain ⟨hlength, hzip⟩ := forall₂_snd_iff.mp hvalues
          have hspec := sortKeys_spec ha
          refine .dict hspec.1 (sortKeys_spec hb).1
            (map_fst_eq_iff.mpr ⟨hlength, fun item item' hitem => ?_⟩) ?_
          · by_contra hne
            exact hd (.key ha hb hitem hne)
          · refine forall₂_snd_iff.mpr ⟨hlength, fun item item' hitem => ?_⟩
            have hmem := hspec.1.mem_iff.mpr (List.of_mem_zip hitem).1
            exact ih item hmem item'.2 (hzip item item' hitem) fun hdiff => hd (.value ha hb hitem hdiff)
  | object type identity copies =>
      intro w hb
      cases hb with
      | scalar hv => cases hv
      | sequence hv => rcases hv with h | h <;> cases h

theorem same_dict_keys {a b : List (Value × Value)} (h : Same (.dict a) (.dict b)) :
    (a.map Prod.fst).Perm (b.map Prod.fst) := by
  cases h with
  | scalar hv => cases hv
  | dict ha hb hkeys _ => exact (ha.map Prod.fst).trans (hkeys ▸ (hb.map Prod.fst).symm)

-- The values two equal dicts have under one key.
theorem same_dict_values {a b : List (Value × Value)} {k x y : Value} (h : Same (.dict a) (.dict b))
    (hnodup : (b.map Prod.fst).Nodup) (hx : (k, x) ∈ a) (hy : (k, y) ∈ b) : Same x y := by
  cases h with
  | scalar hv => cases hv
  | @dict _ _ a' b' ha hb hkeys hvalues =>
      obtain ⟨hlength, hkeys⟩ := map_fst_eq_iff.mp hkeys
      obtain ⟨i, hi, hget⟩ := List.mem_iff_getElem.mp (ha.mem_iff.mp hx)
      have hi' : i < b'.length := hlength ▸ hi
      have hzip : (a'[i], b'[i]) ∈ a'.zip b' :=
        List.mem_iff_getElem.mpr ⟨i, by simp [hi, hi'], by simp⟩
      have hkey : b'[i].1 = k := by rw [← hkeys _ _ hzip, hget]
      have hmem : b'[i] ∈ b := hb.mem_iff.mpr (List.getElem_mem hi')
      have hsame := (forall₂_snd_iff.mp hvalues).2 _ _ hzip
      rw [List.inj_on_of_nodup_map hnodup hmem hy hkey, hget] at hsame
      exact hsame

theorem not_same_of_differs {v w : Value} (hd : Differs v w) (hb : Blurs v w)
    (hw : w.wellFormed = true) : ¬Same v w := by
  induction hd with
  | listTuple | tupleList => exact nofun
  | str h =>
      intro hs
      cases hs <;> exact h rfl
  | list hitem _ ih =>
      intro hs
      cases hs with
      | scalar hv => cases hv
      | list hsame =>
          obtain ⟨_, hlist | hlist, hblurs⟩ := (blurs_sequence_iff (.inl rfl)).mp hb <;> cases hlist
          have hinside := Value.wellFormedList_iff.mp hw _ (List.of_mem_zip hitem).2
          exact ih ((List.forall₂_iff_zip.mp hblurs).2 hitem) hinside
            ((List.forall₂_iff_zip.mp hsame).2 hitem)
  | tuple hitem _ ih =>
      intro hs
      cases hs with
      | scalar hv => cases hv
      | tuple hsame =>
          obtain ⟨_, htuple | htuple, hblurs⟩ := (blurs_sequence_iff (.inr rfl)).mp hb <;> cases htuple
          have hinside := Value.wellFormedList_iff.mp hw _ (List.of_mem_zip hitem).2
          exact ih ((List.forall₂_iff_zip.mp hblurs).2 hitem) hinside
            ((List.forall₂_iff_zip.mp hsame).2 hitem)
  | key ha hb' hitem h =>
      intro hs
      cases hb with
      | scalar hv => cases hv
      | sequence hv => rcases hv with he | he <;> cases he
      | dict ha₁ hb₁ hkeys hkeys' =>
          cases ha.symm.trans ha₁
          cases hb'.symm.trans hb₁
          have heq := keys_eq ha hb' (same_dict_keys hs) hkeys hkeys'
          exact h ((map_fst_eq_iff.mp heq).2 _ _ hitem)
  | value ha hb' hitem _ ih =>
      intro hs
      cases hb with
      | scalar hv => cases hv
      | sequence hv => rcases hv with he | he <;> cases he
      | dict ha₁ hb₁ hkeys hkeys' hvalues =>
          cases ha.symm.trans ha₁
          cases hb'.symm.trans hb₁
          have heq := keys_eq ha hb' (same_dict_keys hs) hkeys hkeys'
          have hkl := (map_fst_eq_iff.mp heq).2 _ _ hitem
          obtain ⟨hnodup, hinside⟩ := Bool.and_eq_true_iff.mp hw
          have hx := (sortKeys_spec ha).1.mem_iff.mpr (List.of_mem_zip hitem).1
          have hy := (sortKeys_spec hb').1.mem_iff.mpr (List.of_mem_zip hitem).2
          dsimp only at hkl
          subst hkl
          exact ih ((forall₂_snd_iff.mp hvalues).2 _ _ hitem)
            (Value.wellFormedItems_iff.mp hinside _ hy)
            (same_dict_values hs (of_decide_eq_true hnodup) hx hy)

-- One text exactly for values that JSON does not tell apart.
theorem dumpsAscii_eq_iff_blurs {v w : Value} {text : Str} (h : dumpsAscii v = some text) :
    dumpsAscii w = some text ↔ Blurs v w := by
  obtain ⟨d, hd, rfl⟩ := Option.map_eq_some_iff.mp h
  rw [← recognized v w d hd, ← h, dumpsAscii_eq_iff, hd]

end Json
