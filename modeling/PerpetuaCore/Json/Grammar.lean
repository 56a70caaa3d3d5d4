import Mathlib.Data.List.TakeWhile
import PerpetuaCore.Json.Scan

namespace Json

open Python (CodePoint Str Value Float64 Dict)

def Blank (gap : Str) : Prop := ∀ c ∈ gap, isSpace c = true

-- Nothing that would go on with a number.
def Bounded (r : Str) : Prop := ∀ c ∈ r.head?, isDigit c = false ∧ c ∉ ("+-.eE" : Str)

variable (readFloat : Str → Float64)

-- The text of a value without parts, and not a string.
structure SpellsScalar (text : Str) (value : Value) : Prop where
  head : ∃ c rest, text = c :: rest ∧ isSpace c = false ∧
    c ∉ [quote, openBracket, openBrace, closeBracket, closeBrace]
  scanned : ∀ r, Bounded r → scanScalar readFloat (text ++ r) = some (value, r)

-- What stands between the quotes of a string.
def SpellsString (body s : Str) : Prop := ∀ r, scanString (body ++ quote :: r) = some (s, r)

def memberText (before body between lead text : Str) : Str :=
  before ++ quote :: (body ++ quote :: (between ++ colon :: (lead ++ text)))

mutual

-- A text of a value, with any whitespace between its tokens.
inductive Spells : Str → Value → Prop
  | scalar {text : Str} {value : Value} (h : SpellsScalar readFloat text value) : Spells text value
  | string {body s : Str} (h : SpellsString body s) : Spells (quote :: (body ++ [quote])) (.str s)
  | emptyList {gap : Str} (hgap : Blank gap) : Spells (openBracket :: (gap ++ [closeBracket])) (.list [])
  | list {text : Str} {items : List Value} (h : SpellsItems text items) :
      Spells (openBracket :: text) (.list items)
  | emptyDict {gap : Str} (hgap : Blank gap) : Spells (openBrace :: (gap ++ [closeBrace])) (.dict [])
  | dict {text : Str} {pairs : List (Str × Value)} (h : SpellsMembers text pairs) :
      Spells (openBrace :: text) (dictOf pairs)

inductive SpellsItems : Str → List Value → Prop
  | last {before text after : Str} {x : Value} (hbefore : Blank before) (hx : Spells text x)
      (hafter : Blank after) : SpellsItems (before ++ (text ++ (after ++ [closeBracket]))) [x]
  | cons {before text after rest : Str} {x : Value} {items : List Value} (hbefore : Blank before)
      (hx : Spells text x) (hafter : Blank after) (hrest : SpellsItems rest items) :
      SpellsItems (before ++ (text ++ (after ++ comma :: rest))) (x :: items)

inductive SpellsMembers : Str → List (Str × Value) → Prop
  | last {before body key between lead text after : Str} {x : Value} (hbefore : Blank before)
      (hkey : SpellsString body key) (hbetween : Blank between) (hlead : Blank lead)
      (hx : Spells text x) (hafter : Blank after) :
      SpellsMembers (memberText before body between lead (text ++ (after ++ [closeBrace]))) [(key, x)]
  | cons {before body key between lead text after rest : Str} {x : Value}
      {pairs : List (Str × Value)} (hbefore : Blank before) (hkey : SpellsString body key)
      (hbetween : Blank between) (hlead : Blank lead) (hx : Spells text x) (hafter : Blank after)
      (hrest : SpellsMembers rest pairs) :
      SpellsMembers (memberText before body between lead (text ++ (after ++ comma :: rest)))
        ((key, x) :: pairs)

end

variable {readFloat} {gap text r : Str} {c delimiter : CodePoint} {value : Value}

theorem skipSpace_blank (hgap : Blank gap) (hc : isSpace c = false) :
    skipSpace (gap ++ c :: r) = c :: r := by
  rw [skipSpace, List.dropWhile_append_of_pos hgap, List.dropWhile_cons_of_neg (by simp [hc])]

theorem expect_blank (hgap : Blank gap) (hc : isSpace c = false) :
    expect delimiter (gap ++ c :: r) = if c = delimiter then some r else none := by
  rw [expect, skipSpace_blank hgap hc]

theorem bounded_cons (hc : c ∈ [comma, closeBracket, closeBrace]) : Bounded (c :: r) := by
  have hall : ∀ d ∈ [comma, closeBracket, closeBrace], isDigit d = false ∧ d ∉ ("+-.eE" : Str) :=
    List.forall_iff_forall_mem.mp (by decide)
  intro d hd
  exact Option.some.inj hd ▸ hall c hc

theorem bounded_blank (hgap : Blank gap) (hr : Bounded r) : Bounded (gap ++ r) := by
  have hall : ∀ d ∈ ([.ofChar ' ', .ofChar '\t', .ofChar '\n', .ofChar '\r'] : Str),
      isDigit d = false ∧ d ∉ ("+-.eE" : Str) := List.forall_iff_forall_mem.mp (by decide)
  cases gap with
  | nil => exact hr
  | cons s gap =>
      intro d hd
      exact Option.some.inj hd ▸ hall s (List.contains_iff_mem.mp (hgap s List.mem_cons_self))

-- No value begins with whitespace or with a closing delimiter.
theorem Spells.head (h : Spells readFloat text value) :
    ∃ c rest, text = c :: rest ∧ isSpace c = false ∧ c ≠ closeBracket := by
  cases h with
  | scalar h =>
      obtain ⟨c, rest, rfl, hs, hc⟩ := h.head
      exact ⟨c, rest, rfl, hs, fun he => hc (by simp [he])⟩
  | string | emptyList | list | emptyDict | dict => exact ⟨_, _, rfl, by decide, by decide⟩

theorem SpellsItems.head {items : List Value} (h : SpellsItems readFloat text items) :
    ∃ gap c rest, text = gap ++ c :: rest ∧ Blank gap ∧ isSpace c = false ∧ c ≠ closeBracket := by
  cases h with
  | last hbefore hx =>
      obtain ⟨c, rest, rfl, hs, hc⟩ := hx.head
      exact ⟨_, c, _, rfl, hbefore, hs, hc⟩
  | cons hbefore hx =>
      obtain ⟨c, rest, rfl, hs, hc⟩ := hx.head
      exact ⟨_, c, _, rfl, hbefore, hs, hc⟩

theorem SpellsMembers.head {pairs : List (Str × Value)} (h : SpellsMembers readFloat text pairs) :
    ∃ gap rest, text = gap ++ quote :: rest ∧ Blank gap := by
  cases h with
  | last hbefore | cons hbefore => exact ⟨_, _, rfl, hbefore⟩

-- The reader takes exactly the text of a value, whatever stands after it.
structure Scans (readFloat : Str → Float64) (fuel : Nat) : Prop where
  value : ∀ {text value r}, Spells readFloat text value → text.length ≤ fuel → Bounded r →
    scan readFloat fuel (text ++ r) = some (value, r)
  items : ∀ {text items r}, SpellsItems readFloat text items → text.length ≤ fuel →
    scanItems readFloat fuel (text ++ r) = some (items, r)
  members : ∀ {text pairs r}, SpellsMembers readFloat text pairs → text.length ≤ fuel →
    scanMembers readFloat fuel (text ++ r) = some (pairs, r)

variable {fuel : Nat}

theorem Scans.item (h : Scans readFloat fuel) (hgap : Blank gap) (hx : Spells readFloat text value)
    (hlength : text.length ≤ fuel) (hr : Bounded r) :
    scan readFloat fuel (skipSpace (gap ++ (text ++ r))) = some (value, r) := by
  obtain ⟨c, rest, rfl, hs, -⟩ := hx.head
  rw [List.cons_append, skipSpace_blank hgap hs]
  exact h.value hx hlength hr

theorem Scans.member (h : Scans readFloat fuel) {before body key between lead : Str}
    (hbefore : Blank before) (hkey : SpellsString body key) (hbetween : Blank between)
    (hlead : Blank lead) (hx : Spells readFloat text value) (hlength : text.length ≤ fuel)
    (hr : Bounded r) :
    scanMembers readFloat (fuel + 1) (memberText before body between lead (text ++ r)) =
      match expect comma r with
      | some rest => (scanMembers readFloat fuel rest).map fun p => ((key, value) :: p.1, p.2)
      | none => (expect closeBrace r).map fun rest => ([(key, value)], rest) := by
  have hopen : expect quote (memberText before body between lead (text ++ r)) =
      some (body ++ quote :: (between ++ colon :: (lead ++ (text ++ r)))) := by
    rw [memberText, expect_blank hbefore (by decide), if_pos rfl]
  have hcolon : expect colon (between ++ colon :: (lead ++ (text ++ r))) =
      some (lead ++ (text ++ r)) := by
    rw [expect_blank hbetween (by decide), if_pos rfl]
  rw [scanMembers, hopen, Option.bind_some, hkey, Option.bind_some]
  cases hcomma : expect comma r <;>
    simp only [hcolon, Option.bind_some, h.item hlead hx hlength hr, hcomma]

theorem scans (readFloat : Str → Float64) (fuel : Nat) : Scans readFloat fuel := by
  induction fuel with
  | zero =>
      constructor
      · intro text value r h hlength
        obtain ⟨c, rest, rfl, -⟩ := h.head
        cases hlength
      · intro text items r h hlength
        obtain ⟨gap, c, rest, rfl, -⟩ := h.head
        simp at hlength
      · intro text pairs r h hlength
        obtain ⟨gap, rest, rfl, -⟩ := h.head
        simp at hlength
  | succ fuel ih =>
      constructor
      · intro text value r h hlength hr
        cases h with
        | scalar h =>
            obtain ⟨c, rest, rfl, -, hc⟩ := h.head
            simp only [List.mem_cons, List.not_mem_nil, or_false, not_or] at hc
            rw [List.cons_append, scan, if_neg hc.1, if_neg hc.2.1, if_neg hc.2.2.1]
            exact h.scanned r hr
        | @string body s h =>
            rw [List.cons_append, List.append_assoc, scan, if_pos rfl, List.singleton_append, h r]
            rfl
        | @emptyList gap hgap =>
            rw [List.cons_append, List.append_assoc, scan, if_neg (by decide), if_pos rfl,
              List.singleton_append, expect_blank hgap (by decide)]
            rfl
        | @list text items h =>
            have hnone : expect closeBracket (text ++ r) = none := by
              obtain ⟨gap, c, rest, rfl, hgap, hs, hc⟩ := h.head
              rw [List.append_assoc, List.cons_append, expect_blank hgap hs, if_neg hc]
            rw [List.cons_append, scan, if_neg (by decide), if_pos rfl, hnone,
              ih.items h (Nat.le_of_succ_le_succ hlength)]
            rfl
        | @emptyDict gap hgap =>
            rw [List.cons_append, List.append_assoc, scan, if_neg (by decide), if_neg (by decide),
              if_pos rfl, List.singleton_append, expect_blank hgap (by decide)]
            rfl
        | @dict text pairs h =>
            have hnone : expect closeBrace (text ++ r) = none := by
              obtain ⟨gap, rest, rfl, hgap⟩ := h.head
              rw [List.append_assoc, List.cons_append, expect_blank hgap (by decide),
                if_neg (by decide)]
            rw [List.cons_append, scan, if_neg (by decide), if_neg (by decide), if_pos rfl, hnone,
              ih.members h (Nat.le_of_succ_le_succ hlength)]
            rfl
      · intro text items r h hlength
        cases h with
        | @last before text after x hbefore hx hafter =>
            have hr : Bounded (after ++ closeBracket :: r) := bounded_blank hafter (bounded_cons (by decide))
            simp only [List.length_append, List.length_cons] at hlength
            simp only [List.append_assoc, List.cons_append, List.nil_append]
            rw [scanItems, ih.item hbefore hx (by omega) hr, Option.bind_some]
            simp only [expect_blank hafter (show isSpace closeBracket = false by decide)]
            rfl
        | @cons before text after rest x items hbefore hx hafter hrest =>
            have hr : Bounded (after ++ comma :: (rest ++ r)) := bounded_blank hafter (bounded_cons (by decide))
            simp only [List.length_append, List.length_cons] at hlength
            simp only [List.append_assoc, List.cons_append]
            rw [scanItems, ih.item hbefore hx (by omega) hr, Option.bind_some]
            simp only [expect_blank hafter (show isSpace comma = false by decide), if_true]
            rw [ih.items hrest (by omega)]
            rfl
      · intro text pairs r h hlength
        cases h with
        | @last before body key between lead text after x hbefore hkey hbetween hlead hx hafter =>
            have hr : Bounded (after ++ closeBrace :: r) := bounded_blank hafter (bounded_cons (by decide))
            have htext : memberText before body between lead (text ++ (after ++ [closeBrace])) ++ r =
                memberText before body between lead (text ++ (after ++ closeBrace :: r)) := by
              simp [memberText]
            simp only [memberText, List.length_append, List.length_cons] at hlength
            rw [htext, ih.member hbefore hkey hbetween hlead hx (by omega) hr]
            simp only [expect_blank hafter (show isSpace closeBrace = false by decide)]
            rfl
        | @cons before body key between lead text after rest x pairs hbefore hkey hbetween hlead hx
            hafter hrest =>
            have hr : Bounded (after ++ comma :: (rest ++ r)) := bounded_blank hafter (bounded_cons (by decide))
            have htext : memberText before body between lead (text ++ (after ++ comma :: rest)) ++ r =
                memberText before body between lead (text ++ (after ++ comma :: (rest ++ r))) := by
              simp [memberText]
            simp only [memberText, List.length_append, List.length_cons] at hlength
            rw [htext, ih.member hbefore hkey hbetween hlead hx (by omega) hr]
            simp only [expect_blank hafter (show isSpace comma = false by decide), if_true]
            rw [ih.members hrest (by omega)]
            rfl

-- The reader reads every text of a value, whitespace around it included.
theorem loads_spells {before after : Str} (hbefore : Blank before) (h : Spells readFloat text value)
    (hafter : Blank after) : loads readFloat (before ++ (text ++ after)) = some value := by
  have hr : Bounded after := by simpa using bounded_blank hafter (r := []) nofun
  have hskip : skipSpace (before ++ (text ++ after)) = text ++ after := by
    obtain ⟨c, rest, rfl, hs, -⟩ := h.head
    exact skipSpace_blank hbefore hs
  have hrest : skipSpace after = [] := List.dropWhile_eq_nil_iff.mpr hafter
  have hscan := (scans readFloat (before ++ (text ++ after)).length).value h
    (by simp only [List.length_append]; omega) hr
  rw [loads, hskip, hscan]
  simp [hrest]

end Json
