import PerpetuaCore.Json.Numerals
import PerpetuaCore.Json.Plain
import PerpetuaCore.Json.Unescape

namespace Json

open Python (CodePoint Str Value FloatText Float64 Dict)

variable {σ : Type} {readFloat : Str → Float64}

section Render

mutual

-- The text with this whitespace after every comma and colon.
def renderWith (gap : Str) (esc : σ → Str) : Doc σ → Str
  | .atom a => a.text
  | .string s => quoted esc s
  | .array [] => [openBracket, closeBracket]
  | .array (x :: rest) =>
      openBracket :: (renderWith gap esc x ++ (renderItemsWith gap esc rest ++ [closeBracket]))
  | .object [] => [openBrace, closeBrace]
  | .object ((k, v) :: rest) =>
      openBrace :: (quoted esc k ++ colon :: (gap ++
        (renderWith gap esc v ++ (renderMembersWith gap esc rest ++ [closeBrace]))))

def renderItemsWith (gap : Str) (esc : σ → Str) : List (Doc σ) → Str
  | [] => []
  | x :: rest => comma :: (gap ++ (renderWith gap esc x ++ renderItemsWith gap esc rest))

def renderMembersWith (gap : Str) (esc : σ → Str) : List (σ × Doc σ) → Str
  | [] => []
  | (k, v) :: rest =>
      comma :: (gap ++ (quoted esc k ++ colon :: (gap ++
        (renderWith gap esc v ++ renderMembersWith gap esc rest))))

end

variable {gap : Str} {esc : σ → Str}

mutual

theorem render_eq (d : Doc σ) : render esc d = renderWith [] esc d := by
  match d with
  | .atom _ | .string _ | .array [] | .object [] => rfl
  | .array (x :: rest) => rw [render, renderWith, render_eq x, renderItems_eq rest]
  | .object ((k, v) :: rest) =>
      rw [render, renderWith, render_eq v, renderMembers_eq rest]
      rfl

theorem renderItems_eq (ds : List (Doc σ)) : renderItems esc ds = renderItemsWith [] esc ds := by
  match ds with
  | [] => rfl
  | x :: rest =>
      rw [renderItems, renderItemsWith, render_eq x, renderItems_eq rest]
      rfl

theorem renderMembers_eq (members : List (σ × Doc σ)) :
    renderMembers esc members = renderMembersWith [] esc members := by
  match members with
  | [] => rfl
  | (k, v) :: rest =>
      rw [renderMembers, renderMembersWith, render_eq v, renderMembers_eq rest]
      rfl

end

theorem blank_nil : Blank [] := nofun

theorem spells_items {x : Doc σ} {ds : List (Doc σ)} {y : Value} {ws : List Value} {before : Str}
    (hgap : Blank gap) (hbefore : Blank before) (hx : Spells readFloat (renderWith gap esc x) y)
    (h : List.Forall₂ (fun d w => Spells readFloat (renderWith gap esc d) w) ds ws) :
    SpellsItems readFloat
      (before ++ (renderWith gap esc x ++ (renderItemsWith gap esc ds ++ [closeBracket]))) (y :: ws) := by
  induction h generalizing before x y with
  | nil => exact .last hbefore hx blank_nil
  | @cons d w ds ws hd _ ih =>
      rw [renderItemsWith, List.cons_append, List.append_assoc, List.append_assoc]
      exact .cons hbefore hx blank_nil (ih hgap hd)

theorem spells_array {ds : List (Doc σ)} {ws : List Value} (hgap : Blank gap)
    (h : List.Forall₂ (fun d w => Spells readFloat (renderWith gap esc d) w) ds ws) :
    Spells readFloat (renderWith gap esc (.array ds)) (.list ws) := by
  cases h with
  | nil => exact .emptyList blank_nil
  | cons hx h => exact .list (spells_items hgap blank_nil hx h)

-- A member with what it is read as.
def SpellsMember (readFloat : Str → Float64) (gap : Str) (esc : σ → Str) (member : σ × Doc σ)
    (pair : Str × Value) : Prop :=
  SpellsString (esc member.1) pair.1 ∧ Spells readFloat (renderWith gap esc member.2) pair.2

theorem spells_members {m : σ × Doc σ} {members : List (σ × Doc σ)} {p : Str × Value}
    {pairs : List (Str × Value)} {before : Str} (hgap : Blank gap) (hbefore : Blank before)
    (hm : SpellsMember readFloat gap esc m p)
    (h : List.Forall₂ (SpellsMember readFloat gap esc) members pairs) :
    SpellsMembers readFloat (before ++ (quoted esc m.1 ++ colon :: (gap ++
      (renderWith gap esc m.2 ++ (renderMembersWith gap esc members ++ [closeBrace]))))) (p :: pairs) := by
  have htext : ∀ (before body text : Str), before ++ (quote :: (body ++ [quote]) ++ colon :: (gap ++ text)) =
      memberText before body [] gap text := by simp [memberText]
  induction h generalizing before m p with
  | nil =>
      rw [quoted, htext]
      exact .last hbefore hm.1 blank_nil hgap hm.2 blank_nil
  | @cons m' p' members pairs hm' _ ih =>
      have hrest := ih hgap hm'
      rw [quoted, htext, renderMembersWith, List.cons_append]
      refine .cons hbefore hm.1 blank_nil hgap hm.2 blank_nil ?_
      simpa only [List.append_assoc, List.cons_append] using hrest

theorem spells_object {members : List (σ × Doc σ)} {pairs : List (Str × Value)} (hgap : Blank gap)
    (h : List.Forall₂ (SpellsMember readFloat gap esc) members pairs) :
    Spells readFloat (renderWith gap esc (.object members)) (dictOf pairs) := by
  cases h with
  | nil => exact .emptyDict blank_nil
  | cons hm h => exact .dict (spells_members hgap blank_nil hm h)

end Render

theorem spells_literal {text : Str} {value : Value} (h : (text, value) ∈ literals) :
    SpellsScalar readFloat text value := by
  simp only [literals, List.mem_cons, Prod.mk.injEq, List.not_mem_nil, or_false] at h
  rcases h with ⟨rfl, rfl⟩ | ⟨rfl, rfl⟩ | ⟨rfl, rfl⟩ | ⟨rfl, rfl⟩ | ⟨rfl, rfl⟩ | ⟨rfl, rfl⟩ <;>
    exact ⟨⟨_, _, rfl, by decide, by decide⟩, fun r _ => rfl⟩

-- Every float inside is read back, and every string is one of these.
inductive Legible (readFloat : Str → Float64) (P : Str → Prop) : Value → Prop
  | none : Legible readFloat P .none
  | bool (b : Bool) : Legible readFloat P (.bool b)
  | int (i : Int) : Legible readFloat P (.int i)
  | finite {x : FloatText} (h : ReadsBack readFloat x) : Legible readFloat P (.float (.finite x))
  | infinite (negative : Bool) : Legible readFloat P (.float (.infinite negative))
  | nan : Legible readFloat P (.float .nan)
  | str {s : Str} (h : P s) : Legible readFloat P (.str s)
  | list {items : List Value} (h : ∀ x ∈ items, Legible readFloat P x) : Legible readFloat P (.list items)
  | tuple {items : List Value} (h : ∀ x ∈ items, Legible readFloat P x) :
      Legible readFloat P (.tuple items)
  | dict {items : List (Value × Value)}
      (hkeys : ∀ item ∈ items, ∀ s, item.1 = .str s → P s)
      (hvalues : ∀ item ∈ items, Legible readFloat P item.2) : Legible readFloat P (.dict items)

variable {P : Str → Prop} {v : Value} {t : List Char}

-- The text of a scalar is read as that scalar.
theorem spells_scalarText (hl : Legible readFloat P v) (h : scalarText v = some t) :
    SpellsScalar readFloat (toStr t) v := by
  cases hl with
  | none => cases h; exact spells_literal (by decide)
  | bool b =>
      cases b <;> cases h
      · exact spells_literal (by decide)
      · exact spells_literal (by decide)
  | int i =>
      cases h
      exact spells_number (lexNumber_intText i) (by rw [readInt_intText]; rfl)
  | finite hx =>
      cases h
      exact spells_number hx.lexed (by rw [hx.read]; rfl)
  | infinite | nan | str | list | tuple | dict => cases h

-- Related lists, of which each pair has something between.
theorem exists_between {α β γ : Type} {R : α → β → Prop} {S : β → γ → Prop} {T : α → γ → Prop}
    {as : List α} {bs : List β} (h : List.Forall₂ R as bs)
    (hstep : ∀ a ∈ as, ∀ b, R a b → ∃ c, S b c ∧ T a c) :
    ∃ cs, List.Forall₂ S bs cs ∧ List.Forall₂ T as cs := by
  induction h with
  | nil => exact ⟨[], .nil, .nil⟩
  | @cons a b as bs hab _ ih =>
      obtain ⟨ha, has⟩ := List.forall_mem_cons.mp hstep
      obtain ⟨c, hb, hc⟩ := ha b hab
      obtain ⟨cs, hbs, hcs⟩ := ih has
      exact ⟨c :: cs, .cons hb hbs, .cons hc hcs⟩

theorem forall₂_of_map_eq {α β γ : Type} {f : α → γ} {g : β → γ} {as : List α} {bs : List β}
    (h : as.map f = bs.map g) : List.Forall₂ (fun a b => f a = g b) as bs := by
  rw [← List.forall₂_map_right_iff (R := fun a c => f a = c), ← List.forall₂_map_left_iff,
    List.forall₂_eq_eq_eq]
  exact h

theorem dictOf_named {pairs : List (Str × Value)} (h : (pairs.map Prod.fst).Nodup) :
    dictOf pairs = .dict (named pairs) := by
  rw [dictOf, Dict.items_ofList h]

theorem spells_scalarDoc {units : Str → σ} {gap : Str} {esc : σ → Str} {d : Doc σ}
    (hl : Legible readFloat P v) (hs : Scalar v) (h : toDoc units v = some d) :
    Spells readFloat (renderWith gap esc d) v := by
  have hatom : toDoc units v = (scalarAtom v).map .atom := by
    cases v with
    | none | bool | int | float => rfl
    | _ => cases hs
  rw [hatom] at h
  obtain ⟨a, ha, rfl⟩ := Option.map_eq_some_iff.mp h
  obtain ⟨t, ht, htext⟩ := toDoc_eq_atom_iff.mp (hatom.trans (congrArg _ ha))
  rw [renderWith, htext]
  exact .scalar (spells_scalarText hl ht)

-- A member of a dict and the member it is written as.
def WritesMember (readFloat : Str → Float64) (gap : Str) (string : Str × Value)
    (member : Str × Doc Str) : Prop :=
  string.1 = member.1 ∧
    ∃ w, Spells readFloat (renderWith gap escapeUnicode member.2) w ∧ Same string.2 w

-- A dict whose members are written in any order.
theorem spells_dict {gap : Str} {strings strings' : List (Str × Value)}
    {members : List (Str × Doc Str)} (hgap : Blank gap) (hn : (strings.map Prod.fst).Nodup)
    (hperm : strings'.Perm strings)
    (h : List.Forall₂ (WritesMember readFloat gap) strings' members) :
    ∃ w, Spells readFloat (renderWith gap escapeUnicode (.object members)) w ∧
      Same (.dict (named strings)) w := by
  obtain ⟨pairs, hspells, hsame⟩ := exists_between (S := SpellsMember readFloat gap escapeUnicode)
    (T := fun p q => p.1 = q.1 ∧ Same p.2 q.2) h fun p _ m ⟨hkey, w, hw, hs⟩ =>
      ⟨(p.1, w), ⟨hkey ▸ spells_escapeUnicode _, hw⟩, rfl, hs⟩
  have hkeys : strings'.map Prod.fst = pairs.map Prod.fst := by
    rw [← List.forall₂_eq_eq_eq, List.forall₂_map_left_iff, List.forall₂_map_right_iff]
    exact hsame.imp fun _ _ hp => hp.1
  have hdistinct : (pairs.map Prod.fst).Nodup := by
    rwa [← hkeys, (hperm.map Prod.fst).nodup_iff]
  refine ⟨dictOf pairs, spells_object hgap hspells, ?_⟩
  rw [dictOf_named hdistinct]
  refine .dict (hperm.symm.map _) .rfl ?_ ?_
  · simpa [named, Function.comp_def] using congrArg (List.map Value.str) hkeys
  · simp only [named, List.map_map, List.forall₂_map_left_iff, List.forall₂_map_right_iff]
    exact hsame.imp fun _ _ hp => hp.2

theorem nodup_strings {strings : List (Str × Value)} (hv : isJson (.dict (named strings)) = true) :
    (strings.map Prod.fst).Nodup := by
  have hnodup := of_decide_eq_true (Bool.and_eq_true_iff.mp hv).1
  rw [named, List.map_map] at hnodup
  exact List.Nodup.of_map Value.str (by rwa [List.map_map])

-- What `sort_keys=True` and `ensure_ascii=False` write of a JSON value is read as that value.
theorem spells_toDoc {gap : Str} {d : Doc Str} (hgap : Blank gap) (hv : isJson v = true)
    (hl : Legible readFloat P v) (h : toDoc id v = some d) :
    ∃ w, Spells readFloat (renderWith gap escapeUnicode d) w ∧ Same v w := by
  induction hl generalizing d with
  | none => exact ⟨_, spells_scalarDoc (P := P) .none rfl h, .scalar rfl⟩
  | bool b =>
      have hs : Scalar (.bool b) := by cases b <;> rfl
      exact ⟨_, spells_scalarDoc (P := P) (.bool b) hs h, .scalar hs⟩
  | int i => exact ⟨_, spells_scalarDoc (P := P) (.int i) rfl h, .scalar rfl⟩
  | finite hx => exact ⟨_, spells_scalarDoc (P := P) (.finite hx) rfl h, .scalar rfl⟩
  | infinite | nan | tuple => cases hv
  | str =>
      cases h
      exact ⟨_, .string (spells_escapeUnicode _), .str⟩
  | @list items _ ih =>
      obtain ⟨ds, hds, rfl⟩ := Option.map_eq_some_iff.mp h
      have hitems := isJsonList_iff.mp hv
      obtain ⟨ws, hspells, hsame⟩ := exists_between (forall₂_of_map_eq (toDocs_iff.mp hds))
        fun x hx d hd => ih x hx (hitems x hx) hd
      exact ⟨.list ws, spells_array hgap hspells, .list hsame⟩
  | @dict items _ _ ih =>
      have hinside := isJsonItems_iff.mp (Bool.and_eq_true_iff.mp hv).2
      obtain ⟨strings, rfl⟩ := exists_named fun item hm => (hinside item hm).1
      obtain ⟨items', members, hsorted, hmembers, rfl⟩ := toDoc_dict_iff.mp h
      obtain rfl := Option.some.inj ((sortKeys_named strings).symm.trans hsorted)
      have hperm : (Python.sorted Prod.fst strings).Perm strings :=
        Python.sorted_perm _ _
      have hpairs := forall₂_of_map_eq hmembers
      rw [named, List.forall₂_map_left_iff] at hpairs
      refine spells_dict hgap (nodup_strings hv) hperm ?_
      have hwritten := (List.forall₂_and_left _ _).mpr ⟨fun p hp => hp, hpairs⟩
      refine hwritten.imp fun p m ⟨hp, hm⟩ => ?_
      have hmem : (Value.str p.1, p.2) ∈ named strings :=
        List.mem_map.mpr ⟨p, hperm.mem_iff.mp hp, rfl⟩
      obtain ⟨hkey, hvalue⟩ := Prod.mk.inj hm
      exact ⟨Option.some.inj hkey, ih _ hmem (hinside _ hmem).2 hvalue⟩

mutual

def floatsIn : Value → List FloatText
  | .float (.finite x) => [x]
  | .list items | .tuple items => floatsInList items
  | .dict items => floatsInItems items
  | _ => []

def floatsInList : List Value → List FloatText
  | [] => []
  | x :: rest => floatsIn x ++ floatsInList rest

def floatsInItems : List (Value × Value) → List FloatText
  | [] => []
  | (_, v) :: rest => floatsIn v ++ floatsInItems rest

end

theorem floatsInList_subset {items : List Value} {x : Value} (h : x ∈ items) :
    floatsIn x ⊆ floatsInList items := by
  induction items with
  | nil => cases h
  | cons y rest ih =>
      rw [floatsInList]
      rcases List.mem_cons.mp h with rfl | h
      · exact List.subset_append_left _ _
      · exact List.subset_append_of_subset_right _ (ih h)

theorem floatsInItems_subset {items : List (Value × Value)} {item : Value × Value}
    (h : item ∈ items) : floatsIn item.2 ⊆ floatsInItems items := by
  induction items with
  | nil => cases h
  | cons other rest ih =>
      rw [floatsInItems]
      rcases List.mem_cons.mp h with rfl | h
      · exact List.subset_append_left _ _
      · exact List.subset_append_of_subset_right _ (ih h)

-- With any strings allowed, only the floats of a JSON value matter.
theorem legible_of_floats (hv : isJson v = true) (h : ∀ x ∈ floatsIn v, ReadsBack readFloat x) :
    Legible readFloat (fun _ => True) v := by
  induction v using Value.inside with
  | none => exact .none
  | bool b => exact .bool b
  | int i => exact .int i
  | float x =>
      cases x with
      | finite x => exact .finite (h x (List.mem_singleton_self x))
      | infinite | nan => cases hv
  | str s => exact .str trivial
  | list items ih =>
      have hitems := isJsonList_iff.mp hv
      exact .list fun x hx => ih x hx (hitems x hx) fun y hy => h y (floatsInList_subset hx hy)
  | dict items ih =>
      have hinside := isJsonItems_iff.mp (Bool.and_eq_true_iff.mp hv).2
      refine .dict (fun _ _ _ _ => trivial) fun item hm => ?_
      exact ih item hm (hinside item hm).2 fun y hy => h y (floatsInItems_subset hm hy)
  | tuple | object => cases hv

-- What `dumps` writes of a JSON value, with `sort_keys=True` and `ensure_ascii=False`.
theorem spells_dumpsUnicode {text : Str} (hv : isJson v = true)
    (h : ∀ x ∈ floatsIn v, ReadsBack readFloat x) (htext : dumpsUnicode v = some text) :
    ∃ w, Spells readFloat text w ∧ Same v w := by
  obtain ⟨d, hd, rfl⟩ := Option.map_eq_some_iff.mp htext
  rw [render_eq]
  exact spells_toDoc blank_nil hv (legible_of_floats hv h) hd

-- The members of a dict, written the other way round.
theorem spells_reversed {strings : List (Str × Value)} {gap : Str} (hgap : Blank gap)
    (hv : isJson (.dict (named strings)) = true)
    (h : ∀ x ∈ floatsIn (.dict (named strings)), ReadsBack readFloat x) :
    ∃ members w, members.map Prod.fst = (strings.map Prod.fst).reverse ∧
      Spells readFloat (renderWith gap escapeUnicode (.object members)) w ∧
      Same (.dict (named strings)) w := by
  have hinside := isJsonItems_iff.mp (Bool.and_eq_true_iff.mp hv).2
  obtain ⟨members, hwritten, hkeys⟩ := exists_between (S := WritesMember readFloat gap)
    (T := fun p m => p.1 = m.1) (List.forall₂_same.mpr fun p _ => Eq.refl p) fun p hp _ he => by
      subst he
      have hmem : (Value.str p.1, p.2) ∈ named strings :=
        List.mem_map.mpr ⟨p, List.mem_reverse.mp hp, rfl⟩
      have hvalue := (hinside _ hmem).2
      obtain ⟨d, hd⟩ : ∃ d, toDoc id p.2 = some d := toDoc_isSome hvalue
      have hlegible := legible_of_floats hvalue fun x hx => h x (floatsInItems_subset hmem hx)
      exact ⟨(p.1, d), ⟨rfl, spells_toDoc hgap hvalue hlegible hd⟩, rfl⟩
  obtain ⟨w, hspells, hsame⟩ :=
    spells_dict hgap (nodup_strings hv) (List.reverse_perm strings) hwritten
  refine ⟨members, w, Eq.symm ?_, hspells, hsame⟩
  rwa [← List.map_reverse, ← List.forall₂_eq_eq_eq, List.forall₂_map_left_iff,
    List.forall₂_map_right_iff]

end Json
