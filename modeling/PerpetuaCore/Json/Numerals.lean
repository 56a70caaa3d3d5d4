import PerpetuaCore.Json.Grammar
import PerpetuaCore.Json.Reading

namespace Json

open Python (CodePoint Str Value Number FloatText Float64)

variable {r s : Str} {c : CodePoint} {token : Token} {readFloat : Str → Float64}

section Lexer

theorem takeWhile_append (hr : Bounded r) : (s ++ r).takeWhile isDigit = s.takeWhile isDigit ∧
    (s ++ r).dropWhile isDigit = s.dropWhile isDigit ++ r := by
  induction s with
  | nil =>
      cases r with
      | nil => exact ⟨rfl, rfl⟩
      | cons c r => simp [(hr c rfl).1]
  | cons c s ih =>
      rw [List.cons_append]
      cases hc : isDigit c with
      | true => simp [hc, ih]
      | false => simp [hc]

theorem lexSign_append {signs : Str} (hsigns : ∀ c ∈ signs, c ∈ ("+-.eE" : Str)) (hr : Bounded r) :
    lexSign signs (s ++ r) = ((lexSign signs s).1, (lexSign signs s).2 ++ r) := by
  cases s with
  | nil =>
      cases r with
      | nil => rfl
      | cons c r =>
          have hc : ¬signs.contains c = true := by
            rw [List.contains_iff_mem]
            exact fun hm => (hr c rfl).2 (hsigns c hm)
          change lexSign signs (c :: r) = ([], c :: r)
          rw [lexSign, if_neg hc]
  | cons c s =>
      rw [List.cons_append, lexSign, lexSign]
      split_ifs <;> rfl

theorem lexWhole_append {whole : Str × Str} (h : lexWhole s = some whole) (hr : Bounded r) :
    lexWhole (s ++ r) = some (whole.1, whole.2 ++ r) := by
  cases s with
  | nil => cases h
  | cons c s =>
      rw [lexWhole] at h
      rw [List.cons_append, lexWhole, (takeWhile_append hr).1, (takeWhile_append hr).2]
      split_ifs at h ⊢ <;> obtain rfl := Option.some.inj h <;> rfl

theorem lexFraction_append (hr : Bounded r) :
    lexFraction (s ++ r) = ((lexFraction s).1, (lexFraction s).2 ++ r) := by
  cases s with
  | nil =>
      cases r with
      | nil => rfl
      | cons c r =>
          have hc : c ≠ .ofChar '.' := fun he => (hr c rfl).2 (he ▸ by decide)
          change lexFraction (c :: r) = ([], c :: r)
          rw [lexFraction, if_neg fun h => hc h.1]
  | cons c s =>
      rw [List.cons_append, lexFraction, lexFraction, (takeWhile_append hr).1, (takeWhile_append hr).2]
      split_ifs <;> rfl

theorem lexExponent_append (hr : Bounded r) :
    lexExponent (s ++ r) = ((lexExponent s).1, (lexExponent s).2 ++ r) := by
  have hsigns : ∀ c ∈ ([.ofChar '-', .ofChar '+'] : Str), c ∈ ("+-.eE" : Str) :=
    List.forall_iff_forall_mem.mp (by decide)
  cases s with
  | nil =>
      cases r with
      | nil => rfl
      | cons c r =>
          have hc : ¬(c = .ofChar 'e' ∨ c = .ofChar 'E') := by
            rintro (rfl | rfl) <;> exact (hr _ rfl).2 (by decide)
          simp [lexExponent, hc]
  | cons c s =>
      simp only [List.cons_append, lexExponent, lexSign_append hsigns hr, (takeWhile_append hr).1,
        (takeWhile_append hr).2]
      split_ifs <;> rfl

-- A number ends where it ended before, whatever stands after it.
theorem lexNumber_append (h : lexNumber s = some token) (hr : Bounded r) :
    lexNumber (s ++ r) = some { token with rest := token.rest ++ r } := by
  have hsigns : ∀ c ∈ ([.ofChar '-'] : Str), c ∈ ("+-.eE" : Str) :=
    List.forall_iff_forall_mem.mp (by decide)
  unfold lexNumber at h ⊢
  obtain ⟨whole, hwhole, rfl⟩ := Option.map_eq_some_iff.mp h
  simp only [lexSign_append hsigns hr, lexWhole_append hwhole hr, Option.map_some,
    lexFraction_append hr, lexExponent_append hr]

end Lexer

-- A number begins with a digit, after a minus sign or not.
def numberStart (s : Str) : Bool := ((lexSign [.ofChar '-'] s).2.head?).any isDigit

theorem numberStart_of_lexNumber (h : lexNumber s = some token) : numberStart s = true := by
  unfold lexNumber at h
  obtain ⟨whole, hwhole, -⟩ := Option.map_eq_some_iff.mp h
  rw [numberStart]
  cases hrest : (lexSign [.ofChar '-'] s).2 with
  | nil =>
      rw [hrest] at hwhole
      cases hwhole
  | cons c rest =>
      rw [hrest, lexWhole] at hwhole
      split_ifs at hwhole with hzero hdigit
      · have hdigit : isDigit (.ofChar '0') = true := by decide
        exact hzero ▸ hdigit
      · exact hdigit

theorem head_of_numberStart (h : numberStart s = true) :
    ∃ c rest, s = c :: rest ∧ (isDigit c = true ∨ c = .ofChar '-') := by
  cases s with
  | nil => cases h
  | cons c rest =>
      refine ⟨c, rest, rfl, ?_⟩
      rw [numberStart, lexSign] at h
      split_ifs at h with hsign
      · exact .inr (by simpa using hsign)
      · exact .inl h

theorem numberStart_take : numberStart (s.take 2) = numberStart s := by
  rcases s with _ | ⟨c, _ | ⟨d, rest⟩⟩
  · rfl
  · rfl
  · simp only [numberStart, List.take_succ_cons, List.take_zero, lexSign]
    split_ifs <;> rfl

-- No word begins as a number does.
theorem scanScalar_number (h : lexNumber s = some token) : scanScalar readFloat s =
    some (if token.isFloat then .float (readFloat token.text) else .int (readInt token.text),
      token.rest) := by
  have hwords : ∀ literal ∈ literals, 2 ≤ literal.1.length ∧ numberStart literal.1 = false :=
    List.forall_iff_forall_mem.mp (by decide)
  have hnone : literals.find? (fun literal => literal.1.isPrefixOf s) = none := by
    refine List.find?_eq_none.mpr fun literal hm hprefix => ?_
    obtain ⟨hlength, hstart⟩ := hwords literal hm
    obtain ⟨rest, rfl⟩ := List.isPrefixOf_iff_prefix.mp hprefix
    have htake := numberStart_of_lexNumber h
    rw [← numberStart_take, List.take_append_of_le_length hlength, numberStart_take, hstart] at htake
    cases htake
  rw [scanScalar, hnone, h]
  rfl

theorem toChars_toStr (t : List Char) : toChars (toStr t) = t := by
  have hself : (fun c => Char.ofNat c.val) ∘ CodePoint.ofChar = (id : Char → Char) :=
    funext fun c => Char.ofNat_toNat c
  rw [toChars, toStr, List.map_map, hself, List.map_id]

theorem isDigit_ofChar {c : Char} (h : c.isDigit = true) : isDigit (.ofChar c) = true := by
  simp only [Char.isDigit, Bool.and_eq_true, decide_eq_true_eq, UInt32.le_iff_toNat_le] at h
  exact decide_eq_true h

-- Only zero is written with a leading zero.
theorem digits_head {n : Nat} (h : 0 < n) : (digits n).head? ≠ some '0' := by
  have hsmall : ∀ m : Fin 10, 0 < m.val → m.val.digitChar ≠ '0' := by decide
  induction n using Nat.strong_induction_on with
  | _ n ih =>
      by_cases hn : n < 10
      · rw [digits, Nat.toDigits_of_lt_base hn]
        exact fun he => hsmall ⟨n, hn⟩ h (Option.some.inj he)
      · have hle := Nat.not_lt.mp hn
        have hne : digits (n / 10) ≠ [] := Nat.toDigits_ne_nil
        rw [digits, Nat.toDigits_of_base_le (by decide) hle, ← digits, List.head?_append_of_ne_nil _ hne]
        exact ih (n / 10) (by omega) (by omega)

theorem lexWhole_digits (n : Nat) : lexWhole (toStr (digits n)) = some (toStr (digits n), []) := by
  rcases Nat.eq_zero_or_pos n with rfl | hn
  · rfl
  · cases hd : digits n with
    | nil => exact absurd hd Nat.toDigits_ne_nil
    | cons c rest =>
        have hall : ∀ d ∈ toStr rest, isDigit d = true := by
          intro d hm
          obtain ⟨e, he, rfl⟩ := List.mem_map.mp hm
          exact isDigit_ofChar (isDigit_of_mem_digits (hd ▸ List.mem_cons_of_mem c he))
        have hzero : CodePoint.ofChar c ≠ .ofChar '0' :=
          fun he => digits_head hn (by rw [hd, ofChar_injective he]; rfl)
        have hc : isDigit (.ofChar c) = true :=
          isDigit_ofChar (isDigit_of_mem_digits (hd ▸ List.mem_cons_self))
        change lexWhole (.ofChar c :: toStr rest) = some (.ofChar c :: toStr rest, [])
        rw [lexWhole, if_neg hzero, if_pos hc, List.takeWhile_eq_self_iff.mpr hall,
          List.dropWhile_eq_nil_iff.mpr hall]

theorem lexSign_digits (n : Nat) :
    lexSign [.ofChar '-'] (toStr (digits n)) = ([], toStr (digits n)) := by
  cases hd : digits n with
  | nil => exact absurd hd Nat.toDigits_ne_nil
  | cons c rest =>
      have hc : CodePoint.ofChar c ≠ .ofChar '-' := by
        intro he
        have hdigit := isDigit_of_mem_digits (hd ▸ List.mem_cons_self : c ∈ digits n)
        rw [ofChar_injective he] at hdigit
        cases hdigit
      change lexSign [.ofChar '-'] (.ofChar c :: toStr rest) = _
      rw [lexSign, if_neg (by simpa using hc)]
      rfl

theorem lexNumber_intText (i : Int) :
    lexNumber (toStr (intText i)) = some ⟨toStr (intText i), false, []⟩ := by
  unfold intText
  split_ifs with hi
  · have hsign : lexSign [.ofChar '-'] (toStr ('-' :: digits i.natAbs)) =
        ([.ofChar '-'], toStr (digits i.natAbs)) := rfl
    simp only [lexNumber, hsign, lexWhole_digits, Option.map_some]
    simp [lexFraction, lexExponent, toStr]
  · simp only [lexNumber, lexSign_digits, lexWhole_digits, Option.map_some]
    simp [lexFraction, lexExponent]

theorem readInt_intText (i : Int) : readInt (toStr (intText i)) = i := by
  have hdigits : (Nat.ofDigitChars 10 (toChars (toStr (digits i.natAbs))) 0 : Int) = i.natAbs := by
    rw [toChars_toStr, digits, Nat.ofDigitChars_ten_toDigits]
  unfold intText
  split_ifs with hi
  · have hsign : lexSign [.ofChar '-'] (toStr ('-' :: digits i.natAbs)) =
        ([.ofChar '-'], toStr (digits i.natAbs)) := rfl
    simp only [readInt, hsign, hdigits]
    simp only [List.isEmpty_cons, Bool.false_eq_true, if_false]
    omega
  · simp only [readInt, lexSign_digits, hdigits, List.isEmpty_nil, if_true]
    omega

-- The text `repr` gives a float is a number of JSON, and `float` reads it back.
structure ReadsBack (readFloat : Str → Float64) (x : FloatText) : Prop where
  lexed : lexNumber (toStr x.text) = some ⟨toStr x.text, true, []⟩
  read : readFloat (toStr x.text) = .finite x

theorem spells_number {text : Str} {isFloat : Bool} {value : Value}
    (h : lexNumber text = some ⟨text, isFloat, []⟩)
    (hv : value = if isFloat then .float (readFloat text) else .int (readInt text)) :
    SpellsScalar readFloat text value := by
  constructor
  · obtain ⟨c, rest, rfl, hc⟩ := head_of_numberStart (numberStart_of_lexNumber h)
    refine ⟨c, rest, rfl, ?_⟩
    rcases hc with hdigit | rfl
    · have hspace : ∀ d ∈ ([.ofChar ' ', .ofChar '\t', .ofChar '\n', .ofChar '\r'] : Str),
          isDigit d = false := List.forall_iff_forall_mem.mp (by decide)
      have hend : ∀ d ∈ [quote, openBracket, openBrace, closeBracket, closeBrace],
          isDigit d = false := List.forall_iff_forall_mem.mp (by decide)
      constructor
      · refine Bool.eq_false_iff.mpr fun hs => ?_
        exact absurd hdigit (by simp [hspace c (List.contains_iff_mem.mp hs)])
      · exact fun hm => absurd hdigit (by simp [hend c hm])
    · decide
  · intro r hr
    rw [scanScalar_number (lexNumber_append h hr), hv]
    rfl

end Json
