import PerpetuaCore.Json.Plain

namespace Json

open Python (CodePoint Str Value)

variable {σ : Type} {esc : σ → Str} {P : CodePoint → Prop}

-- The value has a text, made of such characters only.
def Writes (P : CodePoint → Prop) (v : Value) : Prop :=
  ∃ d, toDoc id v = some d ∧ ∀ c ∈ render escapeUnicode d, P c

theorem forall_renderItems (hP : ∀ c, structural c = true → P c) {ds : List (Doc σ)} :
    (∀ c ∈ renderItems esc ds, P c) ↔ ∀ d ∈ ds, ∀ c ∈ render esc d, P c := by
  induction ds with
  | nil => simp [renderItems]
  | cons d rest ih =>
      have hcomma : P comma := hP _ (by decide)
      simp only [renderItems, List.forall_mem_cons, List.forall_mem_append, ih, hcomma, true_and]

theorem forall_quoted (hP : ∀ c, structural c = true → P c) {s : σ} :
    (∀ c ∈ quoted esc s, P c) ↔ ∀ c ∈ esc s, P c := by
  have hquote : P quote := hP _ (by decide)
  simp [quoted, or_imp, forall_and, hquote]

theorem forall_renderMembers (hP : ∀ c, structural c = true → P c) {members : List (σ × Doc σ)} :
    (∀ c ∈ renderMembers esc members, P c) ↔
      ∀ m ∈ members, (∀ c ∈ esc m.1, P c) ∧ ∀ c ∈ render esc m.2, P c := by
  induction members with
  | nil => simp [renderMembers]
  | cons m rest ih =>
      have hcomma : P comma := hP _ (by decide)
      have hcolon : P colon := hP _ (by decide)
      simp only [renderMembers, List.forall_mem_cons, List.forall_mem_append, forall_quoted hP, ih,
        hcomma, hcolon, true_and, and_assoc]

theorem forall_array (hP : ∀ c, structural c = true → P c) {ds : List (Doc σ)} :
    (∀ c ∈ render esc (.array ds), P c) ↔ ∀ d ∈ ds, ∀ c ∈ render esc d, P c := by
  have hopen : P openBracket := hP _ (by decide)
  have hclose : P closeBracket := hP _ (by decide)
  cases ds with
  | nil => simp [render, hopen, hclose]
  | cons d rest =>
      simp only [render, List.forall_mem_cons, List.forall_mem_append, forall_renderItems hP, hopen,
        hclose, List.not_mem_nil, IsEmpty.forall_iff, implies_true, true_and, and_true]

theorem forall_object (hP : ∀ c, structural c = true → P c) {members : List (σ × Doc σ)} :
    (∀ c ∈ render esc (.object members), P c) ↔
      ∀ m ∈ members, (∀ c ∈ esc m.1, P c) ∧ ∀ c ∈ render esc m.2, P c := by
  have hopen : P openBrace := hP _ (by decide)
  have hclose : P closeBrace := hP _ (by decide)
  have hcolon : P colon := hP _ (by decide)
  cases members with
  | nil => simp [render, hopen, hclose]
  | cons m rest =>
      simp only [render, List.forall_mem_cons, List.forall_mem_append, forall_quoted hP,
        forall_renderMembers hP, hopen, hclose, hcolon, List.not_mem_nil, IsEmpty.forall_iff,
        implies_true, true_and, and_true, and_assoc]

theorem writes_str (hP : ∀ c, structural c = true → P c) {s : Str} :
    Writes P (.str s) ↔ ∀ c ∈ escapeUnicode s, P c := by
  simp [Writes, toDoc, render, forall_quoted hP]

-- A list is written as its items are.
theorem writes_list (hP : ∀ c, structural c = true → P c) {items : List Value} :
    Writes P (.list items) ↔ ∀ x ∈ items, Writes P x := by
  constructor
  · rintro ⟨d, hd, htext⟩ x hx
    obtain ⟨ds, hds, rfl⟩ := Option.map_eq_some_iff.mp hd
    have hmem : toDoc id x ∈ ds.map some := by
      rw [← toDocs_iff.mp hds]
      exact List.mem_map_of_mem hx
    obtain ⟨d, hd, hsome⟩ := List.mem_map.mp hmem
    exact ⟨d, hsome.symm, (forall_array hP).mp htext d hd⟩
  · intro h
    obtain ⟨ds, hds⟩ := exists_map_eq (f := toDoc id) (g := some)
      fun x hx => (h x hx).imp fun d hd => hd.1
    refine ⟨.array ds, by rw [toDoc, toDocs_iff.mpr hds, Option.map_some], ?_⟩
    refine (forall_array hP).mpr fun d hd => ?_
    have hmem : some d ∈ items.map (toDoc id) := hds ▸ List.mem_map_of_mem hd
    obtain ⟨x, hx, hdoc⟩ := List.mem_map.mp hmem
    obtain ⟨d', hd', htext⟩ := h x hx
    obtain rfl := Option.some.inj (hdoc.symm.trans hd')
    exact htext

-- A dict under string keys is written as its items are.
theorem writes_named (hP : ∀ c, structural c = true → P c) (strings : List (Str × Value)) :
    Writes P (.dict (named strings)) ↔
      ∀ p ∈ strings, (∀ c ∈ escapeUnicode p.1, P c) ∧ Writes P p.2 := by
  have hpair : ∀ p : Str × Value, ((keyText (.str p.1)).map id, toDoc id p.2) =
      Prod.map some id (p.1, toDoc id p.2) := fun p => rfl
  constructor
  · rintro ⟨d, hd, htext⟩ p hp
    obtain ⟨items, members, hitems, hmembers, rfl⟩ := toDoc_dict_iff.mp hd
    obtain rfl := Option.some.inj ((sortKeys_named strings).symm.trans hitems)
    have hmem : ((keyText (.str p.1)).map id, toDoc id p.2) ∈ members.map (Prod.map some some) := by
      rw [← hmembers]
      exact List.mem_map.mpr ⟨(.str p.1, p.2),
        List.mem_map_of_mem (Python.mem_sorted.mpr hp), rfl⟩
    obtain ⟨m, hm, hsome⟩ := List.mem_map.mp hmem
    obtain ⟨hkey, hvalue⟩ := Prod.mk.inj hsome
    have htext := (forall_object hP).mp htext m hm
    rw [← show m.1 = p.1 from Option.some.inj hkey]
    exact ⟨htext.1, m.2, hvalue.symm, htext.2⟩
  · intro h
    have hdump : ∀ item ∈ named (Python.sorted Prod.fst strings), ∃ m : Str × Doc Str,
        ((keyText item.1).map id, toDoc id item.2) = Prod.map some some m := fun item hitem => by
      obtain ⟨p, hp, rfl⟩ := List.mem_map.mp hitem
      obtain ⟨d, hd, -⟩ := (h p (Python.mem_sorted.mp hp)).2
      exact ⟨(p.1, d), Prod.ext rfl hd⟩
    obtain ⟨members, hmembers⟩ := exists_map_eq hdump
    refine ⟨.object members,
      toDoc_dict_iff.mpr ⟨_, members, sortKeys_named strings, hmembers, rfl⟩, ?_⟩
    refine (forall_object hP).mpr fun m hm => ?_
    have hmem := hmembers ▸ List.mem_map_of_mem (f := Prod.map some some) hm
    obtain ⟨item, hitem, hsome⟩ := List.mem_map.mp hmem
    obtain ⟨p, hp, rfl⟩ := List.mem_map.mp hitem
    obtain ⟨hkey, hvalue⟩ := Prod.mk.inj hsome
    obtain ⟨hchars, d, hd, htext⟩ := h p (Python.mem_sorted.mp hp)
    obtain rfl := Option.some.inj (hvalue.symm.trans hd)
    rw [← show p.1 = m.1 from Option.some.inj hkey]
    exact ⟨hchars, htext⟩

end Json
