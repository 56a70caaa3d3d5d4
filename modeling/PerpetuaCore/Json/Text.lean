import PerpetuaCore.Python.Value

namespace Json

open Python (CodePoint Str)

def quote : CodePoint := .ofChar '"'
def comma : CodePoint := .ofChar ','
def colon : CodePoint := .ofChar ':'
def openBracket : CodePoint := .ofChar '['
def closeBracket : CodePoint := .ofChar ']'
def openBrace : CodePoint := .ofChar '{'
def closeBrace : CodePoint := .ofChar '}'

def structural (c : CodePoint) : Bool :=
  c ∈ [quote, comma, colon, openBracket, closeBracket, openBrace, closeBrace]

-- A literal or a number: a nonempty token without structural characters.
structure Atom where
  text : Str
  nonempty : text ≠ []
  plain : ∀ c ∈ text, structural c = false

-- A JSON document over strings of type `σ`; members keep the order they are written in.
inductive Doc (σ : Type) where
  | atom (a : Atom)
  | string (s : σ)
  | array (items : List (Doc σ))
  | object (members : List (σ × Doc σ))

variable {σ : Type}

def quoted (esc : σ → Str) (s : σ) : Str :=
  quote :: (esc s ++ [quote])

mutual

-- The text with no whitespace, `separators=(",", ":")`.
def render (esc : σ → Str) : Doc σ → Str
  | .atom a => a.text
  | .string s => quoted esc s
  | .array [] => [openBracket, closeBracket]
  | .array (x :: rest) => openBracket :: (render esc x ++ (renderItems esc rest ++ [closeBracket]))
  | .object [] => [openBrace, closeBrace]
  | .object ((k, v) :: rest) =>
      openBrace :: (quoted esc k ++ colon :: (render esc v ++ (renderMembers esc rest ++ [closeBrace])))

def renderItems (esc : σ → Str) : List (Doc σ) → Str
  | [] => []
  | x :: rest => comma :: (render esc x ++ renderItems esc rest)

def renderMembers (esc : σ → Str) : List (σ × Doc σ) → Str
  | [] => []
  | (k, v) :: rest => comma :: (quoted esc k ++ colon :: (render esc v ++ renderMembers esc rest))

end

-- What may follow a document: nothing, or a structural character.
def Closed (r : Str) : Prop := ∀ c ∈ r.head?, structural c = true

theorem closed_cons {c : CodePoint} (h : structural c = true) (r : Str) : Closed (c :: r) := by
  simpa [Closed] using h

-- Escaped strings end where their closing quote stands.
def Delimited (esc : σ → Str) : Prop :=
  ∀ s s' r r', esc s ++ quote :: r = esc s' ++ quote :: r' → s = s' ∧ r = r'

theorem atom_unique {a a' : Atom} {r r' : Str} (hr : Closed r) (hr' : Closed r')
    (h : a.text ++ r = a'.text ++ r') : a = a' ∧ r = r' := by
  have htake (a : Atom) (r : Str) (hr : Closed r) :
      (a.text ++ r).takeWhile (fun c => !structural c) = a.text := by
    rw [List.takeWhile_append_of_pos (fun c hc => by simp [a.plain c hc])]
    cases r with
    | nil => simp
    | cons c r =>
        have hc : structural c = true := hr c (by simp)
        simp [hc]
  have htext : a.text = a'.text := by rw [← htake a r hr, h, htake a' r' hr']
  refine ⟨?_, List.append_cancel_left (htext ▸ h)⟩
  cases a; cases a'; simpa using htext

theorem atom_head (a : Atom) (r : Str) : ∃ c t, a.text ++ r = c :: t ∧ structural c = false := by
  obtain ⟨text, hne, hplain⟩ := a
  cases text with
  | nil => exact absurd rfl hne
  | cons c t => exact ⟨c, t ++ r, rfl, hplain c List.mem_cons_self⟩

-- No document starts with a character that closes or separates.
theorem render_head (esc : σ → Str) (d : Doc σ) (r : Str) :
    ∃ c t, render esc d ++ r = c :: t ∧
      (structural c = false ∨ c = quote ∨ c = openBracket ∨ c = openBrace) := by
  match d with
  | .atom a =>
      obtain ⟨c, t, hc, hs⟩ := atom_head a r
      exact ⟨c, t, by rw [render, hc], .inl hs⟩
  | .string s => exact ⟨quote, _, rfl, by simp⟩
  | .array [] => exact ⟨openBracket, _, rfl, by simp⟩
  | .array (x :: rest) => exact ⟨openBracket, _, by simp [render]; rfl, by simp⟩
  | .object [] => exact ⟨openBrace, _, rfl, by simp⟩
  | .object ((k, v) :: rest) => exact ⟨openBrace, _, by simp [render]; rfl, by simp⟩

theorem render_ne_closing (esc : σ → Str) (d : Doc σ) (r r' : Str) {c : CodePoint}
    (hc : c = closeBracket ∨ c = closeBrace) : render esc d ++ r ≠ c :: r' := by
  intro h
  obtain ⟨c', t, ht, hc'⟩ := render_head esc d r
  obtain ⟨rfl, -⟩ := List.cons.inj (ht.symm.trans h)
  rcases hc with rfl | rfl <;> revert hc' <;> decide

theorem quoted_unique {esc : σ → Str} (hesc : Delimited esc) {k k' : σ} {r r' : Str}
    (h : quoted esc k ++ r = quoted esc k' ++ r') : k = k' ∧ r = r' := by
  simp only [quoted, List.cons_append, List.append_assoc, List.nil_append, List.cons.injEq,
    true_and] at h
  exact hesc k k' r r' h

theorem closed_items (esc : σ → Str) (rest : List (Doc σ)) (r : Str) :
    Closed (renderItems esc rest ++ closeBracket :: r) := by
  cases rest with
  | nil => exact closed_cons (by decide) r
  | cons x rest => exact closed_cons (by decide) _

theorem closed_members (esc : σ → Str) (rest : List (σ × Doc σ)) (r : Str) :
    Closed (renderMembers esc rest ++ closeBrace :: r) := by
  cases rest with
  | nil => exact closed_cons (by decide) r
  | cons x rest => exact closed_cons (by decide) _

mutual

-- A text is the rendering of at most one document, and it says where that one ends.
theorem render_unique {esc : σ → Str} (hesc : Delimited esc) (d d' : Doc σ) {r r' : Str}
    (hr : Closed r) (hr' : Closed r') (h : render esc d ++ r = render esc d' ++ r') :
    d = d' ∧ r = r' := by
  match d, d' with
  | .atom a, .atom a' =>
      obtain ⟨rfl, rfl⟩ := atom_unique hr hr' h
      exact ⟨rfl, rfl⟩
  | .string s, .string s' =>
      obtain ⟨rfl, rfl⟩ := quoted_unique hesc h
      exact ⟨rfl, rfl⟩
  | .array [], .array [] => exact ⟨rfl, by simpa [render] using h⟩
  | .object [], .object [] => exact ⟨rfl, by simpa [render] using h⟩
  | .array (x :: rest), .array (x' :: rest') =>
      simp only [render, List.cons_append, List.append_assoc, List.cons.injEq, true_and,
        List.nil_append] at h
      obtain ⟨rfl, hrest⟩ := render_unique hesc x x' (closed_items esc rest r)
        (closed_items esc rest' r') h
      obtain ⟨rfl, rfl⟩ := renderItems_unique hesc rest rest' hrest
      exact ⟨rfl, rfl⟩
  | .object ((k, v) :: rest), .object ((k', v') :: rest') =>
      simp only [render, List.cons_append, List.append_assoc, List.cons.injEq, true_and,
        List.nil_append] at h
      obtain ⟨rfl, hv⟩ := quoted_unique hesc h
      obtain ⟨rfl, hrest⟩ := render_unique hesc v v' (closed_members esc rest r)
        (closed_members esc rest' r') (List.cons.inj hv).2
      obtain ⟨rfl, rfl⟩ := renderMembers_unique hesc rest rest' hrest
      exact ⟨rfl, rfl⟩
  | .array [], .array (x :: rest) =>
      simp only [render, List.cons_append, List.append_assoc, List.cons.injEq, true_and,
        List.nil_append] at h
      exact absurd h.symm (render_ne_closing esc x _ r (.inl rfl))
  | .array (x :: rest), .array [] =>
      simp only [render, List.cons_append, List.append_assoc, List.cons.injEq, true_and,
        List.nil_append] at h
      exact absurd h (render_ne_closing esc x _ r' (.inl rfl))
  | .object [], .object ((k, v) :: rest) =>
      simp only [render, quoted, List.cons_append, List.cons.injEq, true_and] at h
      exact absurd h.1 (by decide)
  | .object ((k, v) :: rest), .object [] =>
      simp only [render, quoted, List.cons_append, List.cons.injEq, true_and] at h
      exact absurd h.1 (by decide)
  | .atom a, .string s | .atom a, .array [] | .atom a, .array (_ :: _) | .atom a, .object []
  | .atom a, .object ((_, _) :: _) =>
      obtain ⟨c, t, hc, hs⟩ := atom_head a r
      rw [render, hc] at h
      simp only [render, quoted, List.cons_append, List.cons.injEq] at h
      rw [h.1] at hs
      exact absurd hs (by decide)
  | .string s, .atom a | .array [], .atom a | .array (_ :: _), .atom a | .object [], .atom a
  | .object ((_, _) :: _), .atom a =>
      obtain ⟨c, t, hc, hs⟩ := atom_head a r'
      simp only [render, quoted, List.cons_append, hc, List.cons.injEq] at h
      rw [← h.1] at hs
      exact absurd hs (by decide)
  | .string _, .array [] | .string _, .array (_ :: _) | .string _, .object []
  | .string _, .object ((_, _) :: _) | .array [], .string _ | .array (_ :: _), .string _
  | .object [], .string _ | .object ((_, _) :: _), .string _
  | .array [], .object [] | .array [], .object ((_, _) :: _) | .array (_ :: _), .object []
  | .array (_ :: _), .object ((_, _) :: _) | .object [], .array [] | .object [], .array (_ :: _)
  | .object ((_, _) :: _), .array [] | .object ((_, _) :: _), .array (_ :: _) =>
      simp only [render, quoted, List.cons_append, List.cons.injEq] at h
      exact absurd h.1 (by decide)

theorem renderItems_unique {esc : σ → Str} (hesc : Delimited esc) (xs xs' : List (Doc σ))
    {r r' : Str}
    (h : renderItems esc xs ++ closeBracket :: r = renderItems esc xs' ++ closeBracket :: r') :
    xs = xs' ∧ r = r' := by
  match xs, xs' with
  | [], [] => exact ⟨rfl, by simpa [renderItems] using h⟩
  | x :: xs, x' :: xs' =>
      simp only [renderItems, List.cons_append, List.append_assoc, List.cons.injEq, true_and] at h
      obtain ⟨rfl, hxs⟩ := render_unique hesc x x' (closed_items esc xs r)
        (closed_items esc xs' r') h
      obtain ⟨rfl, rfl⟩ := renderItems_unique hesc xs xs' hxs
      exact ⟨rfl, rfl⟩
  | [], _ :: _ | _ :: _, [] =>
      simp only [renderItems, List.cons_append, List.nil_append, List.cons.injEq] at h
      exact absurd h.1 (by decide)

theorem renderMembers_unique {esc : σ → Str} (hesc : Delimited esc) (xs xs' : List (σ × Doc σ))
    {r r' : Str}
    (h : renderMembers esc xs ++ closeBrace :: r = renderMembers esc xs' ++ closeBrace :: r') :
    xs = xs' ∧ r = r' := by
  match xs, xs' with
  | [], [] => exact ⟨rfl, by simpa [renderMembers] using h⟩
  | (k, v) :: xs, (k', v') :: xs' =>
      simp only [renderMembers, List.cons_append, List.append_assoc, List.cons.injEq,
        true_and] at h
      obtain ⟨rfl, hv⟩ := quoted_unique hesc h
      obtain ⟨rfl, hxs⟩ := render_unique hesc v v' (closed_members esc xs r)
        (closed_members esc xs' r') (List.cons.inj hv).2
      obtain ⟨rfl, rfl⟩ := renderMembers_unique hesc xs xs' hxs
      exact ⟨rfl, rfl⟩
  | [], _ :: _ | _ :: _, [] =>
      simp only [renderMembers, List.cons_append, List.nil_append, List.cons.injEq] at h
      exact absurd h.1 (by decide)

end

theorem render_injective {esc : σ → Str} (hesc : Delimited esc) :
    Function.Injective (render esc) := by
  intro d d' h
  have hnil : Closed [] := by simp [Closed]
  exact (render_unique hesc d d' hnil hnil (by rw [h])).1

end Json
