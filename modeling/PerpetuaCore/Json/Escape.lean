import PerpetuaCore.Json.Text

namespace Json

open Python (CodePoint Str)

def backslash : CodePoint := .ofChar '\\'

-- The characters with an escape of their own, and the letter each is written with.
def shortEscapes : List (CodePoint × CodePoint) :=
  [(quote, quote), (backslash, backslash), (.ofChar '\n', .ofChar 'n'), (.ofChar '\r', .ofChar 'r'),
    (.ofChar '\t', .ofChar 't'), (8, .ofChar 'b'), (12, .ofChar 'f')]

def hexDigit (n : Nat) : CodePoint :=
  .ofChar (Nat.digitChar n)

def hex4 (n : Nat) : Str :=
  [hexDigit (n / 4096 % 16), hexDigit (n / 256 % 16), hexDigit (n / 16 % 16), hexDigit (n % 16)]

-- One character of a string: `plain` says which are written as they are.
def escapeChar (plain : CodePoint → Bool) (c : CodePoint) : Str :=
  match shortEscapes.lookup c with
  | some letter => [backslash, letter]
  | none => if plain c then [c] else backslash :: .ofChar 'u' :: hex4 c.val

-- `ensure_ascii=True` writes space to tilde as they are; a string is its UTF-16 units.
def asciiPlain (c : CodePoint) : Bool := 0x20 ≤ c ∧ c ≤ 0x7e

-- `ensure_ascii=False` writes all but the control characters as they are.
def unicodePlain (c : CodePoint) : Bool := 0x20 ≤ c

abbrev Unit16 := Fin 0x10000

def Unit16.toCodePoint (u : Unit16) : CodePoint := u.castLE (by decide)

def utf16 (s : Str) : List Unit16 :=
  s.flatMap fun c =>
    if c.val < 0x10000 then [⟨c.val % 0x10000, by omega⟩]
    else [⟨0xd800 + (c.val - 0x10000) / 0x400, by omega⟩, ⟨0xdc00 + (c.val - 0x10000) % 0x400, by omega⟩]

def escapeAscii (units : List Unit16) : Str :=
  units.flatMap fun u => escapeChar asciiPlain u.toCodePoint

def escapeUnicode (s : Str) : Str :=
  s.flatMap (escapeChar unicodePlain)

theorem hexDigit_injective {m n : Nat} (hm : m < 16) (hn : n < 16)
    (h : hexDigit m = hexDigit n) : m = n := by
  have hall : ∀ a b : Fin 16, hexDigit a.val = hexDigit b.val → a = b := by decide
  exact congrArg Fin.val (hall ⟨m, hm⟩ ⟨n, hn⟩ h)

theorem hex4_injective {m n : Nat} (hm : m < 0x10000) (hn : n < 0x10000)
    (h : hex4 m = hex4 n) : m = n := by
  simp only [hex4, List.cons.injEq, and_true] at h
  obtain ⟨h3, h2, h1, h0⟩ := h
  have e3 := hexDigit_injective (Nat.mod_lt _ (by decide)) (Nat.mod_lt _ (by decide)) h3
  have e2 := hexDigit_injective (Nat.mod_lt _ (by decide)) (Nat.mod_lt _ (by decide)) h2
  have e1 := hexDigit_injective (Nat.mod_lt _ (by decide)) (Nat.mod_lt _ (by decide)) h1
  have e0 := hexDigit_injective (Nat.mod_lt _ (by decide)) (Nat.mod_lt _ (by decide)) h0
  omega

theorem mem_of_lookup {c letter : CodePoint} (h : shortEscapes.lookup c = some letter) :
    (c, letter) ∈ shortEscapes := by
  obtain ⟨s, t, he, -⟩ := List.lookup_eq_some_iff.mp h
  rw [he]
  simp

theorem lookup_injective {c c' letter : CodePoint} (h : shortEscapes.lookup c = some letter)
    (h' : shortEscapes.lookup c' = some letter) : c = c' := by
  have hall : ∀ p ∈ shortEscapes, ∀ q ∈ shortEscapes, p.2 = q.2 → p.1 = q.1 := by
    simp only [← List.forall_iff_forall_mem]
    decide
  exact hall _ (mem_of_lookup h) _ (mem_of_lookup h') rfl

theorem lookup_ne_u {c : CodePoint} : shortEscapes.lookup c ≠ some (.ofChar 'u') := by
  intro h
  have hall : ∀ p ∈ shortEscapes, p.2 ≠ .ofChar 'u' := List.forall_iff_forall_mem.mp (by decide)
  exact hall _ (mem_of_lookup h) rfl

theorem ne_of_lookup_none {c : CodePoint} (h : shortEscapes.lookup c = none) :
    c ≠ quote ∧ c ≠ backslash := by
  constructor <;> rintro rfl <;> revert h <;> decide

-- The characters `escapeChar plain` can be read back from.
def Readable (plain : CodePoint → Bool) (c : CodePoint) : Prop :=
  plain c = true ∨ c.val < 0x10000

-- No escape is a proper beginning of another.
theorem escapeChar_unique {plain : CodePoint → Bool} {c c' : CodePoint} {r r' : Str}
    (hc : Readable plain c) (hc' : Readable plain c')
    (h : escapeChar plain c ++ r = escapeChar plain c' ++ r') : c = c' ∧ r = r' := by
  unfold escapeChar at h
  cases hl : shortEscapes.lookup c with
  | some x =>
      cases hl' : shortEscapes.lookup c' with
      | some x' =>
          simp only [hl, hl', List.cons_append, List.nil_append, List.cons.injEq, true_and] at h
          exact ⟨lookup_injective hl (h.1 ▸ hl'), h.2⟩
      | none =>
          simp only [hl, hl'] at h
          split_ifs at h with hp
          · simp only [List.cons_append, List.cons.injEq] at h
            exact absurd h.1.symm (ne_of_lookup_none hl').2
          · simp only [List.cons_append, List.cons.injEq, true_and] at h
            exact absurd (h.1 ▸ hl) lookup_ne_u
  | none =>
      cases hl' : shortEscapes.lookup c' with
      | some x' =>
          simp only [hl, hl'] at h
          split_ifs at h with hp
          · simp only [List.cons_append, List.cons.injEq] at h
            exact absurd h.1 (ne_of_lookup_none hl).2
          · simp only [List.cons_append, List.cons.injEq, true_and] at h
            exact absurd (h.1.symm ▸ hl') lookup_ne_u
      | none =>
          simp only [hl, hl'] at h
          split_ifs at h with hp hp'
          · simpa using h
          · simp only [List.cons_append, List.cons.injEq] at h
            exact absurd h.1 (ne_of_lookup_none hl).2
          · simp only [List.cons_append, List.cons.injEq] at h
            exact absurd h.1.symm (ne_of_lookup_none hl').2
          · simp only [List.cons_append, List.cons.injEq, true_and] at h
            obtain ⟨hx, hr⟩ := List.append_inj h (by simp [hex4])
            exact ⟨Fin.ext (hex4_injective (hc.resolve_left hp) (hc'.resolve_left ‹_›) hx), hr⟩

theorem escapeChar_ne_quote {plain : CodePoint → Bool} (c : CodePoint) (r r' : Str) :
    escapeChar plain c ++ r ≠ quote :: r' := by
  unfold escapeChar
  intro h
  cases hl : shortEscapes.lookup c with
  | some x =>
      simp only [hl, List.cons_append, List.cons.injEq] at h
      exact absurd h.1 (by decide)
  | none =>
      simp only [hl] at h
      split_ifs at h with hp
      · simp only [List.cons_append, List.cons.injEq] at h
        exact (ne_of_lookup_none hl).1 h.1
      · simp only [List.cons_append, List.cons.injEq] at h
        exact absurd h.1 (by decide)

-- A string of readable characters ends at its first unescaped quote.
theorem escape_delimited {α : Type} {plain : CodePoint → Bool} {code : α → CodePoint}
    (hcode : Function.Injective code) (hread : ∀ a, Readable plain (code a)) :
    Delimited fun s : List α => s.flatMap fun a => escapeChar plain (code a) := by
  intro s
  induction s with
  | nil =>
      intro s' r r' h
      cases s' with
      | nil => exact ⟨rfl, by simpa using h⟩
      | cons a s' =>
          simp only [List.flatMap_cons, List.append_assoc] at h
          exact absurd h.symm (escapeChar_ne_quote _ _ _)
  | cons a s ih =>
      intro s' r r' h
      cases s' with
      | nil =>
          simp only [List.flatMap_cons, List.append_assoc] at h
          exact absurd h (escapeChar_ne_quote _ _ _)
      | cons a' s' =>
          simp only [List.flatMap_cons, List.append_assoc] at h
          obtain ⟨ha, hs⟩ := escapeChar_unique (hread a) (hread a') h
          obtain ⟨rfl, rfl⟩ := ih s' r r' hs
          exact ⟨by rw [hcode ha], rfl⟩

theorem escapeAscii_delimited : Delimited escapeAscii :=
  escape_delimited (fun _ _ h => Fin.castLE_injective (by decide) h) fun u => .inr u.isLt

theorem escapeUnicode_delimited : Delimited escapeUnicode := by
  refine @escape_delimited CodePoint unicodePlain id Function.injective_id fun c => ?_
  by_cases hc : unicodePlain c = true
  · exact .inl hc
  · right
    simp only [unicodePlain, decide_eq_true_eq, not_le] at hc
    exact Nat.lt_trans hc (by decide)

end Json
