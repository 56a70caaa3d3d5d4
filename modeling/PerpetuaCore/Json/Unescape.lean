import PerpetuaCore.Json.Grammar

namespace Json

open Python (CodePoint Str)

variable {plain : CodePoint → Bool} {c : CodePoint} {r s : Str}

theorem hexValue_hexDigit {n : Nat} (h : n < 16) : hexValue (hexDigit n) = some n := by
  have hall : ∀ a : Fin 16, hexValue (hexDigit a.val) = some a.val := by decide
  exact hall ⟨n, h⟩

theorem basic_lt (c : CodePoint) : c.val % 0x10000 < 0x10000 := Nat.mod_lt c.val (by decide)

def Unit16.ofCodePoint (c : CodePoint) : Unit16 := ⟨c.val % 0x10000, basic_lt c⟩

theorem toCodePoint_ofCodePoint (h : c.val < 0x10000) : (Unit16.ofCodePoint c).toCodePoint = c :=
  Fin.ext (Nat.mod_eq_of_lt h)

theorem readHex4_hex4 (hc : c.val < 0x10000) : readHex4 (hexDigit (c.val / 4096 % 16))
    (hexDigit (c.val / 256 % 16)) (hexDigit (c.val / 16 % 16)) (hexDigit (c.val % 16)) =
      some (Unit16.ofCodePoint c) := by
  have hdigit : ∀ n, hexValue (hexDigit (n % 16)) = some (n % 16) :=
    fun n => hexValue_hexDigit (Nat.mod_lt n (by decide))
  simp only [readHex4, hdigit, Option.some.injEq]
  refine Fin.ext ?_
  simp only [Unit16.ofCodePoint]
  omega

-- What an escaped character is read as.
def unescaped (plain : CodePoint → Bool) (c : CodePoint) : Unescaped :=
  if (shortEscapes.lookup c).isSome || plain c then .inl c else .inr (.ofCodePoint c)

theorem letters_lookup {letter : CodePoint} (h : shortEscapes.lookup c = some letter) :
    letters.lookup letter = some c := by
  have hall : ∀ p ∈ shortEscapes, letters.lookup p.2 = some p.1 :=
    List.forall_iff_forall_mem.mp (by decide)
  exact hall _ (mem_of_lookup h)

theorem scanUnescaped_quote : scanUnescaped (quote :: r) = some ([], r) := by
  rw [scanUnescaped.eq_def]
  exact if_pos rfl

theorem scanUnescaped_letter {letter : CodePoint} (h : shortEscapes.lookup c = some letter) :
    scanUnescaped (backslash :: letter :: r) = (scanUnescaped r).map fun p => (.inl c :: p.1, p.2) := by
  have hslash : backslash ≠ quote := by decide
  have hunit : letter ≠ .ofChar 'u' := fun he => lookup_ne_u (he ▸ h)
  rw [scanUnescaped.eq_def]
  simp only [if_neg hslash, if_neg hunit, if_true, letters_lookup h]
  cases scanUnescaped r <;> rfl

theorem scanUnescaped_unit (h : c.val < 0x10000) :
    scanUnescaped (backslash :: .ofChar 'u' :: (hex4 c.val ++ r)) =
      (scanUnescaped r).map fun p => (.inr (.ofCodePoint c) :: p.1, p.2) := by
  have hslash : backslash ≠ quote := by decide
  rw [scanUnescaped.eq_def]
  simp only [if_neg hslash, if_true, hex4, List.cons_append, List.nil_append, readHex4_hex4 h]
  cases scanUnescaped r <;> rfl

theorem scanUnescaped_plain (hquote : c ≠ quote) (hslash : c ≠ backslash) (hc : 0x20 ≤ c.val) :
    scanUnescaped (c :: r) = (scanUnescaped r).map fun p => (.inl c :: p.1, p.2) := by
  rw [scanUnescaped.eq_def]
  simp only [if_neg hquote, if_neg hslash, if_neg (Nat.not_lt.mpr hc)]

theorem scanUnescaped_escapeChar (hc : Readable plain c) (hplain : plain c = true → 0x20 ≤ c.val) :
    scanUnescaped (escapeChar plain c ++ r) =
      (scanUnescaped r).map fun p => (unescaped plain c :: p.1, p.2) := by
  unfold escapeChar unescaped
  cases hl : shortEscapes.lookup c with
  | some letter => exact scanUnescaped_letter hl
  | none =>
      by_cases hp : plain c = true
      · obtain ⟨hquote, hslash⟩ := ne_of_lookup_none hl
        simp only [hp, if_true, Bool.or_true]
        exact scanUnescaped_plain hquote hslash (hplain hp)
      · simp only [hp, Option.isSome_none, Bool.or_self]
        exact scanUnescaped_unit (hc.resolve_left hp)

theorem scanUnescaped_escape {α : Type} {f : α → CodePoint} {items : List α}
    (hread : ∀ a ∈ items, Readable plain (f a)) (hplain : ∀ c, plain c = true → 0x20 ≤ c.val) :
    scanUnescaped ((items.flatMap fun a => escapeChar plain (f a)) ++ quote :: r) =
      some (items.map fun a => unescaped plain (f a), r) := by
  induction items with
  | nil => exact scanUnescaped_quote
  | cons a items ih =>
      obtain ⟨ha, hitems⟩ := List.forall_mem_cons.mp hread
      rw [List.flatMap_cons, List.append_assoc, scanUnescaped_escapeChar ha (hplain _), ih hitems]
      rfl

theorem joinUnits_cons {u : Unit16} {rest : List Unescaped} (h : u.isHigh = false) :
    joinUnits (.inr u :: rest) = u.toCodePoint :: joinUnits rest := by
  rcases rest with _ | ⟨c | low, rest⟩
  · rfl
  · rfl
  · rw [joinUnits, h]
    rfl

-- A character is read as itself, but for a high surrogate written by its unit.
theorem joinUnits_unescaped {rest : List Unescaped}
    (h : plain c = true ∨ c.val < 0x10000 ∧ ¬(0xd800 ≤ c.val ∧ c.val ≤ 0xdbff)) :
    joinUnits (unescaped plain c :: rest) = c :: joinUnits rest := by
  unfold unescaped
  split_ifs with hinl
  · rfl
  · have hplain : plain c ≠ true := fun hp => hinl (by simp [hp])
    obtain ⟨hc, hhigh⟩ := h.resolve_left hplain
    have hval : (Unit16.ofCodePoint c).val = c.val := Nat.mod_eq_of_lt hc
    rw [joinUnits_cons, toCodePoint_ofCodePoint hc]
    rw [Unit16.isHigh, hval]
    exact decide_eq_false hhigh

-- With `ensure_ascii=False` only control characters are written by their units.
theorem spells_escapeUnicode (s : Str) : SpellsString (escapeUnicode s) s := by
  intro r
  have hplain : ∀ c : CodePoint, unicodePlain c = true ↔ 0x20 ≤ c.val := fun c => decide_eq_true_iff
  have hread : ∀ c ∈ s, Readable unicodePlain c := by
    intro c _
    rw [Readable, hplain]
    omega
  have hscan := scanUnescaped_escape (r := r) (f := fun c => c) hread fun c => (hplain c).mp
  have hjoin : joinUnits (s.map (unescaped unicodePlain)) = s := by
    clear hscan
    induction s with
    | nil => rfl
    | cons c s ih =>
        have hc : unicodePlain c = true ∨ c.val < 0x10000 ∧ ¬(0xd800 ≤ c.val ∧ c.val ≤ 0xdbff) := by
          rw [hplain]
          omega
        rw [List.map_cons, joinUnits_unescaped hc, ih fun c hm => hread c (List.mem_cons_of_mem _ hm)]
  rw [scanString, escapeUnicode, hscan, Option.map_some, hjoin]

-- No half of a surrogate pair stands alone.
def Wellformed (s : Str) : Prop := ∀ c ∈ s, c.val < 0xd800 ∨ 0xdfff < c.val

theorem unescaped_unit {u : Unit16} (h : 0x7f ≤ u.val) :
    unescaped asciiPlain u.toCodePoint = .inr u := by
  have hshort : ∀ p ∈ shortEscapes, p.1.val < 0x7f := List.forall_iff_forall_mem.mp (by decide)
  have hlookup : shortEscapes.lookup u.toCodePoint = none := by
    cases hl : shortEscapes.lookup u.toCodePoint with
    | none => rfl
    | some letter => exact absurd (hshort _ (mem_of_lookup hl)) (Nat.not_lt.mpr h)
  have hplain : asciiPlain u.toCodePoint = false :=
    decide_eq_false fun hc => absurd (Fin.le_def.mp hc.2) (Nat.not_le.mpr h)
  have hself : Unit16.ofCodePoint u.toCodePoint = u := Fin.ext (Nat.mod_eq_of_lt u.isLt)
  rw [unescaped, hlookup, hplain, hself]
  rfl

theorem utf16_basic (h : c.val < 0x10000) : utf16 (c :: s) = .ofCodePoint c :: utf16 s := by
  simp [utf16, h, Unit16.ofCodePoint]

theorem utf16_astral (h : 0x10000 ≤ c.val) : ∃ high low : Unit16,
    utf16 (c :: s) = high :: low :: utf16 s ∧
      high.val = 0xd800 + (c.val - 0x10000) / 0x400 ∧ low.val = 0xdc00 + (c.val - 0x10000) % 0x400 := by
  have hlt := c.isLt
  refine ⟨⟨0xd800 + (c.val - 0x10000) / 0x400, by omega⟩,
    ⟨0xdc00 + (c.val - 0x10000) % 0x400, by omega⟩, ?_, rfl, rfl⟩
  simp [utf16, Nat.not_lt.mpr h]

theorem joinUnits_astral (h : 0x10000 ≤ c.val) :
    joinUnits ((utf16 (c :: s)).map fun u => unescaped asciiPlain u.toCodePoint) =
      c :: joinUnits ((utf16 s).map fun u => unescaped asciiPlain u.toCodePoint) := by
  obtain ⟨high, low, hunits, hhigh, hlow⟩ := utf16_astral (s := s) h
  have hlt := c.isLt
  have hpair : (high.isHigh && low.isLow) = true := by
    simp only [Unit16.isHigh, Unit16.isLow, Bool.and_eq_true, decide_eq_true_eq, hhigh, hlow]
    omega
  have hc : combine high low = c := by
    refine Fin.ext ?_
    simp only [combine, hhigh, hlow]
    omega
  rw [hunits, List.map_cons, List.map_cons, unescaped_unit (by omega), unescaped_unit (by omega),
    joinUnits, if_pos hpair, hc]

-- With `ensure_ascii=True` a character beyond the basic plane is written by its two units.
theorem spells_escapeAscii {s : Str} (h : Wellformed s) : SpellsString (escapeAscii (utf16 s)) s := by
  intro r
  have hplain : ∀ c : CodePoint, asciiPlain c = true → 0x20 ≤ c.val := fun c hc => (of_decide_eq_true hc).1
  have hread : ∀ u ∈ utf16 s, Readable asciiPlain u.toCodePoint := fun u _ => .inr u.isLt
  have hscan := scanUnescaped_escape (r := r) (f := Unit16.toCodePoint) hread hplain
  have hjoin : joinUnits ((utf16 s).map fun u => unescaped asciiPlain u.toCodePoint) = s := by
    clear hscan hread
    induction s with
    | nil => rfl
    | cons c s ih =>
        obtain ⟨hc, hs⟩ := List.forall_mem_cons.mp h
        by_cases hastral : 0x10000 ≤ c.val
        · rw [joinUnits_astral hastral, ih hs]
        · have hbasic := Nat.not_le.mp hastral
          rw [utf16_basic hbasic, List.map_cons, toCodePoint_ofCodePoint hbasic,
            joinUnits_unescaped (.inr ⟨hbasic, by omega⟩), ih hs]
  rw [scanString, escapeAscii, hscan, Option.map_some, hjoin]

end Json
