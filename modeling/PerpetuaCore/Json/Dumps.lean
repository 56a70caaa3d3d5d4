import PerpetuaCore.Json.Escape
import PerpetuaCore.Python.Sorted

namespace Json

open Python (CodePoint Str Value Number FloatText)

def digits (n : Nat) : List Char := Nat.toDigits 10 n

-- `int.__repr__`.
def intText (i : Int) : List Char :=
  if i < 0 then '-' :: digits i.natAbs else digits i.natAbs

-- The text of a value without parts: what `json.dumps` writes for it outside
-- strings, and between quotes where it is a key.
def scalarText : Value → Option (List Char)
  | .none => some "null".toList
  | .bool true => some "true".toList
  | .bool false => some "false".toList
  | .int i => some (intText i)
  | .float (.finite x) => some x.text
  | _ => none

def toStr (t : List Char) : Str := t.map CodePoint.ofChar

theorem ofChar_injective : Function.Injective CodePoint.ofChar := by
  intro a b h
  have hval : a.val.toNat = b.val.toNat := Fin.mk.inj h
  exact Char.ext (UInt32.toNat_inj.mp hval)

theorem toStr_injective : Function.Injective toStr :=
  List.map_injective_iff.mpr ofChar_injective

def plainChar (c : Char) : Bool := !structural (.ofChar c)

theorem plainChar_of_isDigit {c : Char} (h : c.isDigit) : plainChar c = true := by
  simp only [Char.isDigit, Bool.and_eq_true, decide_eq_true_eq, UInt32.le_iff_toNat_le] at h
  obtain ⟨hlo, hhi⟩ := h
  have hval : (CodePoint.ofChar c).val = c.val.toNat := rfl
  have hall : [quote, comma, colon, openBracket, closeBracket, openBrace, closeBrace].all
      (fun s => s.val < 48 || 57 < s.val) = true := by decide
  simp only [plainChar, structural, Bool.not_eq_true', decide_eq_false_iff_not]
  intro hm
  have hs := List.all_eq_true.mp hall _ hm
  simp only [Bool.or_eq_true, decide_eq_true_eq] at hs
  have h0 : '0'.val.toNat = 48 := by decide
  have h9 : '9'.val.toNat = 57 := by decide
  rw [hval] at hs
  omega

theorem plain_digits {n : Nat} : ∀ c ∈ digits n, plainChar c = true :=
  fun _ hc => plainChar_of_isDigit (Nat.isDigit_of_mem_toDigits (by decide) (by decide) hc)

theorem scalarText_plain {v : Value} {t : List Char} (h : scalarText v = some t) :
    t ≠ [] ∧ ∀ c ∈ t, plainChar c = true := by
  match v with
  | .none | .bool true | .bool false =>
      cases h
      exact ⟨by decide, List.forall_iff_forall_mem.mp (by decide)⟩
  | .int i =>
      cases h
      unfold intText
      split_ifs
      · refine ⟨by simp, fun c hc => ?_⟩
        rcases List.mem_cons.mp hc with rfl | hc
        · decide
        · exact plain_digits c hc
      · exact ⟨Nat.toDigits_ne_nil, plain_digits⟩
  | .float (.finite x) =>
      cases h
      refine ⟨?_, fun c hc => ?_⟩
      · rcases x.pointed with hp | hp <;> exact List.ne_nil_of_mem hp
      · rcases x.chars c hc with hd | hm
        · exact plainChar_of_isDigit hd
        · have hall : ∀ c ∈ ['-', '+', '.', 'e'], plainChar c = true :=
            List.forall_iff_forall_mem.mp (by decide)
          exact hall c hm

def scalarAtom (v : Value) : Option Atom :=
  match h : scalarText v with
  | none => none
  | some t => some
      { text := toStr t
        nonempty := by simpa [toStr] using (scalarText_plain h).1
        plain := by
          intro c hc
          obtain ⟨d, hd, rfl⟩ := List.mem_map.mp hc
          simpa [plainChar] using (scalarText_plain h).2 d hd }

-- A key as the encoder writes it: a string as it is, any other scalar as its text.
def keyText : Value → Option Str
  | .str s => some s
  | v => (scalarText v).map toStr

def allStrings {α : Type} : List (Value × α) → Option (List (Str × α))
  | [] => some []
  | (.str s, x) :: rest => (allStrings rest).map ((s, x) :: ·)
  | _ => none

def allNumbers {α : Type} : List (Value × α) → Option (List (Number × Value × α))
  | [] => some []
  | (k, x) :: rest =>
      match k.number? with
      | some n => (allNumbers rest).map ((n, k, x) :: ·)
      | none => none

-- `sort_keys=True`. Strings sort by code point and numbers by value; `sorted` raises
-- TypeError as soon as two keys of different kinds meet.
def sortKeys {α : Type} (items : List (Value × α)) : Option (List (Value × α)) :=
  match allStrings items, allNumbers items, items with
  | some strings, _, _ => some ((Python.sorted Prod.fst strings).map fun p => (.str p.1, p.2))
  | none, some numbers, _ => some ((numbers.insertionSort fun a b => a.1.le b.1).map Prod.snd)
  | none, none, [item] => some [item]
  | none, none, _ => none

variable {σ : Type}

def writeKeys (units : Str → σ) : List (Value × Doc σ) → Option (List (σ × Doc σ))
  | [] => some []
  | (k, d) :: rest =>
      match keyText k, writeKeys units rest with
      | some text, some members => some ((units text, d) :: members)
      | _, _ => none

mutual

-- The document `json.dumps(value, sort_keys=True, allow_nan=False)` writes; `none`
-- where it raises.
def toDoc (units : Str → σ) : Value → Option (Doc σ)
  | .str s => some (.string (units s))
  | .list items | .tuple items => (toDocs units items).map .array
  | .dict items =>
      ((toMembers units items).bind sortKeys).bind (writeKeys units) |>.map .object
  | .object .. => none
  | v => (scalarAtom v).map .atom

def toDocs (units : Str → σ) : List Value → Option (List (Doc σ))
  | [] => some []
  | x :: rest =>
      match toDoc units x, toDocs units rest with
      | some d, some ds => some (d :: ds)
      | _, _ => none

def toMembers (units : Str → σ) : List (Value × Value) → Option (List (Value × Doc σ))
  | [] => some []
  | (k, v) :: rest =>
      match toDoc units v, toMembers units rest with
      | some d, some ds => some ((k, d) :: ds)
      | _, _ => none

end

theorem keyText_copies {k : Value} {text : Str} (h : keyText k = some text) : k.copies = true := by
  cases k <;> first | rfl | simp [keyText, scalarText] at h

theorem allStrings_copies {α : Type} {items : List (Value × α)} {strings : List (Str × α)}
    (h : allStrings items = some strings) : ∀ item ∈ items, item.1.copies = true := by
  induction items generalizing strings with
  | nil => simp
  | cons item rest ih =>
      obtain ⟨k, x⟩ := item
      cases k with
      | str s =>
          obtain ⟨strings', hrest, -⟩ := Option.map_eq_some_iff.mp h
          simpa [Value.copies] using fun a b hab => ih hrest (a, b) hab
      | _ => cases h

theorem allNumbers_copies {α : Type} {items : List (Value × α)}
    {numbers : List (Number × Value × α)} (h : allNumbers items = some numbers) :
    ∀ item ∈ items, item.1.copies = true := by
  induction items generalizing numbers with
  | nil => simp
  | cons item rest ih =>
      obtain ⟨k, x⟩ := item
      simp only [allNumbers] at h
      split at h
      · rename_i n hn
        obtain ⟨numbers', hrest, -⟩ := Option.map_eq_some_iff.mp h
        rintro item (_ | ⟨_, hm⟩)
        · cases k <;> first | rfl | cases hn
        · exact ih hrest item hm
      · cases h

-- Keys that can be written can be copied.
theorem keys_copy {items sorted : List (Value × Doc σ)} {units : Str → σ}
    {members : List (σ × Doc σ)} (hsort : sortKeys items = some sorted)
    (hwrite : writeKeys units sorted = some members) : ∀ item ∈ items, item.1.copies = true := by
  simp only [sortKeys] at hsort
  split at hsort
  · rename_i hs
    exact allStrings_copies hs
  · rename_i hn
    exact allNumbers_copies hn
  · rename_i item
    obtain rfl := Option.some.inj hsort
    simp only [writeKeys] at hwrite
    split at hwrite
    · rename_i text _ htext _
      simpa using keyText_copies htext
    · cases hwrite
  · cases hsort

mutual

-- What `json.dumps` accepts `copy.deepcopy` accepts.
theorem copies_of_toDoc {units : Str → σ} {v : Value} {d : Doc σ} (h : toDoc units v = some d) :
    v.copies = true := by
  match v with
  | .none | .bool _ | .int _ | .float _ | .str _ => rfl
  | .list items | .tuple items =>
      obtain ⟨ds, hds, -⟩ := Option.map_eq_some_iff.mp h
      exact copiesList_of_toDocs hds
  | .dict items =>
      obtain ⟨members, hmembers, -⟩ := Option.map_eq_some_iff.mp h
      obtain ⟨sorted, hsorted, hwrite⟩ := Option.bind_eq_some_iff.mp hmembers
      obtain ⟨docs, hdocs, hsort⟩ := Option.bind_eq_some_iff.mp hsorted
      exact copiesItems_of_toMembers hdocs (keys_copy hsort hwrite)

theorem copiesList_of_toDocs {units : Str → σ} {items : List Value} {ds : List (Doc σ)}
    (h : toDocs units items = some ds) : Value.copiesList items = true := by
  match items with
  | [] => rfl
  | x :: rest =>
      simp only [toDocs] at h
      split at h
      · rename_i hx hrest
        simp [Value.copiesList, copies_of_toDoc hx, copiesList_of_toDocs hrest]
      · cases h

theorem copiesItems_of_toMembers {units : Str → σ} {items : List (Value × Value)}
    {ds : List (Value × Doc σ)} (h : toMembers units items = some ds)
    (hkeys : ∀ item ∈ ds, item.1.copies = true) : Value.copiesItems items = true := by
  match items with
  | [] => rfl
  | (k, v) :: rest =>
      simp only [toMembers] at h
      split at h
      · rename_i hv hrest
        obtain rfl := Option.some.inj h
        have hk : k.copies = true := hkeys _ List.mem_cons_self
        simp [Value.copiesItems, hk, copies_of_toDoc hv,
          copiesItems_of_toMembers hrest fun item hm => hkeys item (List.mem_cons_of_mem _ hm)]
      · cases h

end

-- `json.dumps(value, sort_keys=True, separators=(",", ":"), allow_nan=False)`.
def dumpsAscii (v : Value) : Option Str :=
  (toDoc utf16 v).map (render escapeAscii)

-- The same with `ensure_ascii=False`.
def dumpsUnicode (v : Value) : Option Str :=
  (toDoc id v).map (render escapeUnicode)

-- Two values have one text exactly when they have one document.
theorem dumpsAscii_eq_iff {v w : Value} : dumpsAscii v = dumpsAscii w ↔ toDoc utf16 v = toDoc utf16 w :=
  (Option.map_injective (render_injective escapeAscii_delimited)).eq_iff

theorem dumpsUnicode_eq_iff {v w : Value} : dumpsUnicode v = dumpsUnicode w ↔ toDoc id v = toDoc id w :=
  (Option.map_injective (render_injective escapeUnicode_delimited)).eq_iff

end Json
