import PerpetuaCore.Graph.Folding
import PerpetuaCore.Python.OrderedSet

namespace PerpetuaCore.Graph.FoldLaws

open Folding
open Interaction (Always always_append always_snoc always_nil)
open Python (Str Value Dict)

-- Among some values, equality is an equivalence.
structure LawfulEq (values : List Value) : Prop where
  refl : ∀ a ∈ values, a.eq a = true
  symm : ∀ a ∈ values, ∀ b ∈ values, a.eq b = true → b.eq a = true
  trans : ∀ a ∈ values, ∀ b ∈ values, ∀ c ∈ values, a.eq b = true → b.eq c = true → a.eq c = true

theorem LawfulEq.mono {values values' : List Value} (h : LawfulEq values) (hs : values' ⊆ values) :
    LawfulEq values' where
  refl a ha := h.refl a (hs ha)
  symm a ha b hb := h.symm a (hs ha) b (hs hb)
  trans a ha b hb c hc := h.trans a (hs ha) b (hs hb) c (hs hc)

theorem found_self (value : Value) : found value value = true := by
  simp [found]

-- Two folds of a field end alike: both in a conflict over it, or in values that are the same.
inductive EndsAlike (field : Str) (same : Value → Value → Prop) :
    Except Exn Value → Except Exn Value → Prop
  | conflict {branches branches' : List Str} {reason reason' : Message} :
      EndsAlike field same (.error (.reducerConflict field branches reason))
        (.error (.reducerConflict field branches' reason'))
  | value {v v' : Value} (h : same v v') : EndsAlike field same (.ok v) (.ok v')

-- A branch wrote `value` at `key` of the dict it contributed.
def Wrote (write : Str × Value) (key value : Value) : Prop :=
  ∃ items, write.2 = .dict items ∧ (key, value) ∈ items

def entries (contributions : Contributions) : List (Value × Value) :=
  contributions.flatMap fun write => (dictItems? write.2).getD []

-- No key was written with two different values.
def Consistent (contributions : Contributions) : Prop :=
  ∀ write ∈ contributions, ∀ write' ∈ contributions, ∀ key value value',
    Wrote write key value → Wrote write' key value' → value.eq value' = true

-- The entries of a dict base; an absent one has none.
def baseDict : Value → Dict Value Value
  | .dict items => Dict.ofList items
  | _ => .empty

-- `result` is the base overridden by what was contributed.
structure Overridden (base : Value) (contributions : Contributions) (result : Dict Value Value) :
    Prop where
  written : ∀ write ∈ contributions, ∀ key value, Wrote write key value →
    ∃ last, result.get? key = some last ∧ last.eq value = true
  kept : ∀ key, (∀ write ∈ contributions, ∀ value, ¬Wrote write key value) →
    result.get? key = (baseDict base).get? key

-- Dicts with the same keys, and at each the same object or equal ones.
def SameMap (v v' : Value) : Prop :=
  ∃ result result' : Dict Value Value, v = .dict result.items ∧ v' = .dict result'.items ∧
    ∀ key, Option.Rel (fun x y => found x y = true) (result.get? key) (result'.get? key)

section RejectConflict

variable {field : Str} {cs cs' : Contributions} {declared : Bool}

def Agreeing (cs : Contributions) : Prop := ∀ a ∈ cs, ∀ b ∈ cs, a.2.eq b.2 = true

theorem rejectConflict_cases (hne : cs ≠ []) :
    (∃ v, rejectConflict field cs declared = .ok v) ∨
      ∃ reason, rejectConflict field cs declared =
        .error (.reducerConflict field (cs.map Prod.fst) reason) := by
  cases cs with
  | nil => exact absurd rfl hne
  | cons write rest =>
      simp only [rejectConflict]
      split_ifs
      · exact .inr ⟨_, rfl⟩
      · exact .inr ⟨_, rfl⟩
      · exact .inl ⟨_, rfl⟩

-- Comparing with the first value is comparing all.
theorem rejectConflict_ok_iff (hne : cs ≠ []) (hlaw : LawfulEq (cs.map Prod.snd)) :
    (∃ v, rejectConflict field cs declared = .ok v) ↔ Agreeing cs := by
  constructor
  · rintro ⟨v, hv⟩
    obtain ⟨name, rest, rfl, hfirst⟩ := rejectConflict_ok hv
    have hmem : ∀ a ∈ (name, v) :: rest, a.2 ∈ ((name, v) :: rest).map Prod.snd :=
      fun a ha => List.mem_map_of_mem ha
    have hhead : v ∈ ((name, v) :: rest).map Prod.snd := List.mem_cons_self
    have hall : ∀ a ∈ (name, v) :: rest, a.2.eq v = true := by
      intro a ha
      rcases List.mem_cons.mp ha with rfl | ha
      · exact hlaw.refl v hhead
      · exact hfirst a ha
    intro a ha b hb
    exact hlaw.trans _ (hmem a ha) v hhead _ (hmem b hb) (hall a ha)
      (hlaw.symm _ (hmem b hb) v hhead (hall b hb))
  · intro hagree
    rcases @rejectConflict_cases field cs declared hne with hok | ⟨reason, herror⟩
    · exact hok
    · cases cs with
      | nil => exact absurd rfl hne
      | cons write rest =>
          refine ⟨write.2, ?_⟩
          have hnone : ¬(rest.any fun item => !item.2.eq write.2) = true := by
            simp only [List.any_eq_true, Bool.not_eq_true', not_exists, not_and]
            intro item hm
            have heq := hagree item (List.mem_cons_of_mem _ hm) write List.mem_cons_self
            simp [heq]
          simp [rejectConflict, hnone]

theorem rejectConflict_alike (hne : cs ≠ []) (hlaw : LawfulEq (cs.map Prod.snd))
    (hp : cs'.Perm cs) : EndsAlike field (fun v v' => v.eq v' = true)
      (rejectConflict field cs declared) (rejectConflict field cs' declared) := by
  have hne' : cs' ≠ [] := fun hnil => hne (hnil ▸ hp).symm.eq_nil
  have hlaw' : LawfulEq (cs'.map Prod.snd) := hlaw.mono (hp.map _).subset
  have hagree : Agreeing cs' ↔ Agreeing cs := by simp only [Agreeing, hp.mem_iff]
  rcases @rejectConflict_cases field cs declared hne with ⟨v, hv⟩ | ⟨reason, herror⟩
  · have hall := (rejectConflict_ok_iff hne hlaw).mp ⟨v, hv⟩
    obtain ⟨v', hv'⟩ := (@rejectConflict_ok_iff field cs' declared hne' hlaw').mpr (hagree.mpr hall)
    obtain ⟨name, rest, rfl, -⟩ := rejectConflict_ok hv
    obtain ⟨name', rest', rfl, -⟩ := rejectConflict_ok hv'
    rw [hv, hv']
    exact .value (hall _ List.mem_cons_self _ (hp.mem_iff.mp List.mem_cons_self))
  · rcases @rejectConflict_cases field cs' declared hne' with hok | ⟨reason', herror'⟩
    · have hall := (rejectConflict_ok_iff hne' hlaw').mp hok
      obtain ⟨v, hv⟩ := (@rejectConflict_ok_iff field cs declared hne hlaw).mpr (hagree.mp hall)
      cases hv.symm.trans herror
    · rw [herror, herror']
      exact .conflict

end RejectConflict

section Entries

variable {field : Str} {cs cs' : Contributions}

theorem mem_entries {key value : Value} :
    (key, value) ∈ entries cs ↔ ∃ write ∈ cs, Wrote write key value := by
  simp only [entries, List.mem_flatMap]
  refine exists_congr fun write => and_congr_right fun _ => ?_
  unfold Wrote
  cases write.2 <;> simp [dictItems?]

theorem entries_eq {dicts : List (Str × List (Value × Value))}
    (h : cs.map Prod.snd = (dicts.map Prod.snd).map .dict) :
    entries cs = (dicts.map Prod.snd).flatten := by
  have hentries : entries cs = (cs.map Prod.snd).flatMap fun value => (dictItems? value).getD [] := by
    rw [entries, List.flatMap_map]
  rw [hentries, h, List.flatMap_map]
  exact List.flatMap_id'

theorem Consistent.iff_entries : Consistent cs ↔ ∀ key value value', (key, value) ∈ entries cs →
    (key, value') ∈ entries cs → value.eq value' = true := by
  simp only [mem_entries]
  constructor
  · rintro h key value value' ⟨write, hm, hw⟩ ⟨write', hm', hw'⟩
    exact h write hm write' hm' key value value' hw hw'
  · intro h write hm write' hm' key value value' hw hw'
    exact h key value value' ⟨write, hm, hw⟩ ⟨write', hm', hw'⟩

theorem lookup_isSome {items : List (Value × Value)} {key value : Value} (h : (key, value) ∈ items) :
    ∃ first, items.lookup key = some first := by
  cases hl : items.lookup key with
  | some first => exact ⟨first, rfl⟩
  | none =>
      have hne := List.lookup_eq_none_iff.mp hl _ h
      simp at hne

-- Comparing with the first writer of each key is comparing all writers.
theorem agreed_iff {items : List (Value × Value)} (hlaw : LawfulEq (items.map Prod.snd)) :
    Agreed items ↔ ∀ key value value', (key, value) ∈ items → (key, value') ∈ items →
      value.eq value' = true := by
  have hmem : ∀ {key value}, (key, value) ∈ items → value ∈ items.map Prod.snd :=
    fun hm => List.mem_map.mpr ⟨_, hm, rfl⟩
  constructor
  · intro h key value value' hv hv'
    obtain ⟨first, hfirst⟩ := lookup_isSome hv
    have hf := hmem (Dict.mem_of_lookup hfirst)
    have hall : ∀ other, (key, other) ∈ items → first.eq other = true := by
      intro other hother
      obtain ⟨before, after, hsplit⟩ := List.append_of_mem hother
      cases hl : before.lookup key with
      | some first' =>
          have hagree := h before (key, other) after hsplit first' hl
          have hsame : items.lookup key = some first' := by
            rw [hsplit, List.lookup_append, hl, Option.some_or]
          obtain rfl := Option.some.inj (hfirst.symm.trans hsame)
          exact hagree
      | none =>
          have hsame : items.lookup key = some other := by
            rw [hsplit, List.lookup_append, hl, Option.none_or, Dict.lookup_cons_ite, if_pos rfl]
          obtain rfl := Option.some.inj (hfirst.symm.trans hsame)
          exact hlaw.refl _ hf
    exact hlaw.trans _ (hmem hv) first hf _ (hmem hv')
      (hlaw.symm _ hf _ (hmem hv) (hall value hv)) (hall value' hv')
  · rintro h before ⟨key, value⟩ after rfl first hfirst
    exact h key first value (List.mem_append_left _ (Dict.mem_of_lookup hfirst))
      (List.mem_append_right _ List.mem_cons_self)

theorem unionDictItems_error {name : Str} {items done : List (Value × Value)} {written : Written}
    {result : Dict Value Value} {error : Exn}
    (h : unionDictItems field name items written result = .error error) (hdone : Agreed done)
    (hw : Records written done) :
    (∃ branches reason, error = .reducerConflict field branches reason) ∧ ¬Agreed (done ++ items) := by
  induction items generalizing done written result with
  | nil => cases h
  | cons item rest ih =>
      obtain ⟨key, value⟩ := item
      have hkey := hw key
      rw [List.append_cons]
      unfold unionDictItems at h
      split at h
      · rename_i writer first hlookup
        rw [hlookup] at hkey
        split_ifs at h with heq
        · have hagreed : Agreed (done ++ [(key, value)]) := by
            refine always_snoc.mpr ⟨hdone, fun first' hfirst => ?_⟩
            obtain rfl := Option.some.inj (hkey.trans hfirst)
            exact heq
          refine ih h hagreed fun k => ?_
          rw [lookup_snoc, hw k]
          split_ifs with hk
          · rw [hk, ← hkey]
            rfl
          · rw [Option.or_none]
        · cases h
          refine ⟨⟨_, _, rfl⟩, fun hagreed => heq ?_⟩
          exact (always_snoc.mp (always_append.mp hagreed).1).2 first hkey.symm
      · rename_i hlookup
        rw [hlookup] at hkey
        have hagreed : Agreed (done ++ [(key, value)]) := by
          refine always_snoc.mpr ⟨hdone, fun first hfirst => ?_⟩
          cases hkey.trans hfirst
        refine ih h hagreed fun k => ?_
        rw [lookup_snoc, lookup_snoc, ← hw k]
        cases written.lookup k <;> split_ifs <;> rfl

theorem unionDictFrom_error {dicts : List (Str × List (Value × Value))}
    {done : List (Value × Value)} {written : Written} {result : Dict Value Value} {error : Exn}
    (h : unionDictFrom field dicts written result = .error error) (hdone : Agreed done)
    (hw : Records written done) : (∃ branches reason, error = .reducerConflict field branches reason) ∧
      ¬Agreed (done ++ (dicts.map Prod.snd).flatten) := by
  induction dicts generalizing done written result with
  | nil => cases h
  | cons dict rest ih =>
      rw [List.map_cons, List.flatten_cons, ← List.append_assoc]
      cases hitems : unionDictItems field dict.1 dict.2 written result with
      | error error' =>
          simp only [unionDictFrom, hitems] at h
          obtain rfl := Except.error.inj h
          obtain ⟨hconflict, hagreed⟩ := unionDictItems_error hitems hdone hw
          exact ⟨hconflict, fun hall => hagreed (always_append.mp hall).1⟩
      | ok next =>
          simp only [unionDictFrom, hitems] at h
          obtain ⟨-, hagreed, hrecords⟩ := unionDictItems_ok hitems hdone hw
          exact ih h hagreed hrecords

theorem get?_setAll {base : Dict Value Value} {items : List (Value × Value)} {key : Value} :
    (setAll base items).get? key = (items.reverse.lookup key).or (base.get? key) := by
  induction items using List.reverseRecOn with
  | nil => rfl
  | append_singleton items item ih =>
      obtain ⟨k, value⟩ := item
      rw [setAll, List.foldl_append, List.reverse_concat, Dict.lookup_cons_ite]
      have hset : ((setAll base items).set k value).get? key =
          if key = k then some value else (setAll base items).get? key := Dict.get?_set ..
      refine hset.trans ?_
      rw [ih]
      split_ifs <;> rfl

-- The last writer of a key, if any.
theorem lookup_reverse_cases (items : List (Value × Value)) (key : Value) :
    (∃ last, items.reverse.lookup key = some last ∧ (key, last) ∈ items) ∨
      items.reverse.lookup key = none ∧ ∀ value, (key, value) ∉ items := by
  cases hl : items.reverse.lookup key with
  | some last => exact .inl ⟨last, rfl, List.mem_reverse.mp (Dict.mem_of_lookup hl)⟩
  | none =>
      refine .inr ⟨rfl, fun value hm => ?_⟩
      obtain ⟨first, hfirst⟩ := lookup_isSome (List.mem_reverse.mpr hm)
      cases hl.symm.trans hfirst

theorem setAll_overridden {base : Value} (hc : Consistent cs) :
    Overridden base cs (setAll (baseDict base) (entries cs)) := by
  constructor
  · intro write hm key value hw
    have hmem : (key, value) ∈ entries cs := mem_entries.mpr ⟨write, hm, hw⟩
    rcases lookup_reverse_cases (entries cs) key with ⟨last, hlast, hm'⟩ | ⟨-, hnone⟩
    · refine ⟨last, ?_, Consistent.iff_entries.mp hc key last value hm' hmem⟩
      rw [get?_setAll, hlast, Option.some_or]
    · exact absurd hmem (hnone value)
  · intro key hnone
    rcases lookup_reverse_cases (entries cs) key with ⟨last, -, hm⟩ | ⟨hlast, -⟩
    · obtain ⟨write, hwrite, hw⟩ := mem_entries.mp hm
      exact absurd hw (hnone write hwrite last)
    · rw [get?_setAll, hlast, Option.none_or]

-- Where keys agree, the order of the writers does not show in the map.
theorem setAll_sameMap {base : Value} (hc : Consistent cs) (hp : cs'.Perm cs) :
    SameMap (.dict (setAll (baseDict base) (entries cs)).items)
      (.dict (setAll (baseDict base) (entries cs')).items) := by
  refine ⟨_, _, rfl, rfl, fun key => ?_⟩
  have hmem : ∀ value, (key, value) ∈ entries cs' ↔ (key, value) ∈ entries cs := by
    intro value
    simp only [mem_entries, hp.mem_iff]
  rw [get?_setAll, get?_setAll]
  rcases lookup_reverse_cases (entries cs) key with ⟨last, hlast, hm⟩ | ⟨hlast, hnone⟩
  · rcases lookup_reverse_cases (entries cs') key with ⟨last', hlast', hm'⟩ | ⟨-, hnone'⟩
    · rw [hlast, hlast', Option.some_or, Option.some_or]
      refine .some (Bool.or_eq_true_iff.mpr (.inr ?_))
      exact Consistent.iff_entries.mp hc key last last' hm ((hmem last').mp hm')
    · exact absurd ((hmem last).mpr hm) (hnone' last)
  · rcases lookup_reverse_cases (entries cs') key with ⟨last', -, hm'⟩ | ⟨hlast', -⟩
    · exact absurd ((hmem last').mp hm') (hnone last')
    · rw [hlast, hlast', Option.none_or]
      cases (baseDict base).get? key with
      | none => exact .none
      | some value => exact .some (found_self value)

end Entries

section Union

variable {source field : Str} {base : Value} {cs cs' : Contributions}

def IsDictBase (base : Value) : Prop := base = .none ∨ ∃ items, base = .dict items

def AllDicts (cs : Contributions) : Prop := ∀ write ∈ cs, ∃ items, write.2 = .dict items

def dictsOf (cs : Contributions) : List (Str × List (Value × Value)) :=
  cs.filterMap fun write => (dictItems? write.2).map (write.1, ·)

theorem length_dictsOf (h : AllDicts cs) : (dictsOf cs).length = cs.length := by
  refine List.filterMap_length_eq_length.mpr fun write hm => ?_
  obtain ⟨items, hitems⟩ := h write hm
  simp [hitems, dictItems?]

theorem union_dicts (hne : cs ≠ []) (h : AllDicts cs) :
    union field base cs = unionDict field base (dictsOf cs) :=
  if_pos ⟨length_dictsOf h, hne⟩

-- A union of dicts ends in the base with all entries set, or in a conflict over a key.
theorem unionDict_cases (hbase : IsDictBase base) (h : AllDicts cs) :
    (unionDict field base (dictsOf cs) = .ok (.dict (setAll (baseDict base) (entries cs)).items) ∧
      Agreed (entries cs)) ∨
    (∃ branches reason, unionDict field base (dictsOf cs) =
      .error (.reducerConflict field branches reason)) ∧ ¬Agreed (entries cs) := by
  have hwrites : cs.map Prod.snd = ((dictsOf cs).map Prod.snd).map .dict :=
    dictWrites rfl (length_dictsOf h)
  have hentries := entries_eq hwrites
  have hfold : unionDict field base (dictsOf cs) =
      (unionDictFrom field (dictsOf cs) [] (baseDict base)).map fun result => .dict result.items := by
    obtain rfl | ⟨items, rfl⟩ := hbase <;> rfl
  have hnone : Agreed ([] : List (Value × Value)) := always_nil
  have hstart : Records [] [] := fun _ => rfl
  rw [hfold, hentries]
  cases hresult : unionDictFrom field (dictsOf cs) [] (baseDict base) with
  | error error =>
      obtain ⟨⟨branches, reason, rfl⟩, hagreed⟩ := unionDictFrom_error hresult hnone hstart
      exact .inr ⟨⟨branches, reason, rfl⟩, by simpa using hagreed⟩
  | ok result =>
      obtain ⟨rfl, hagreed⟩ := unionDictFrom_ok hresult hnone hstart
      exact .inl ⟨rfl, by simpa using hagreed⟩

theorem agreed_entries_iff (hlaw : LawfulEq ((entries cs).map Prod.snd)) :
    Agreed (entries cs) ↔ Consistent cs :=
  (agreed_iff hlaw).trans Consistent.iff_entries.symm

theorem Consistent.perm (hp : cs'.Perm cs) : Consistent cs' ↔ Consistent cs := by
  simp only [Consistent, hp.mem_iff]

theorem unionDict_alike (hbase : IsDictBase base) (h : AllDicts cs)
    (hlaw : LawfulEq ((entries cs).map Prod.snd)) (hp : cs'.Perm cs) :
    EndsAlike field SameMap (unionDict field base (dictsOf cs)) (unionDict field base (dictsOf cs')) ∧
      ((∃ v, unionDict field base (dictsOf cs) = .ok v) ↔ Consistent cs) ∧
      ∀ v, unionDict field base (dictsOf cs) = .ok v →
        ∃ result : Dict Value Value, v = .dict result.items ∧ Overridden base cs result := by
  have h' : AllDicts cs' := fun write hm => h write (hp.mem_iff.mp hm)
  have hlaw' : LawfulEq ((entries cs').map Prod.snd) := by
    refine hlaw.mono fun value hm => ?_
    obtain ⟨⟨key, value⟩, hentry, rfl⟩ := List.mem_map.mp hm
    obtain ⟨write, hwrite, hw⟩ := mem_entries.mp hentry
    exact List.mem_map.mpr ⟨_, mem_entries.mpr ⟨write, hp.mem_iff.mp hwrite, hw⟩, rfl⟩
  rcases @unionDict_cases field base cs hbase h with ⟨hok, hagreed⟩ | ⟨⟨_, _, herror⟩, hagreed⟩
  · have hc : Consistent cs := (agreed_entries_iff hlaw).mp hagreed
    have hagreed' : Agreed (entries cs') :=
      (agreed_entries_iff hlaw').mpr ((Consistent.perm hp).mpr hc)
    rcases @unionDict_cases field base cs' hbase h' with ⟨hok', -⟩ | ⟨-, hnot⟩
    · rw [hok, hok']
      refine ⟨.value (setAll_sameMap hc hp), iff_of_true ⟨_, rfl⟩ hc, ?_⟩
      rintro _ ⟨⟩
      exact ⟨_, rfl, setAll_overridden hc⟩
    · exact absurd hagreed' hnot
  · have hc : ¬Consistent cs := mt (agreed_entries_iff hlaw).mpr hagreed
    rcases @unionDict_cases field base cs' hbase h' with ⟨-, hagreed'⟩ | ⟨⟨_, _, herror'⟩, -⟩
    · exact absurd ((Consistent.perm hp).mp ((agreed_entries_iff hlaw').mp hagreed')) hc
    · rw [herror, herror']
      exact ⟨.conflict, iff_of_false nofun hc, nofun⟩

-- The order of the branches does not show in what `reject_conflict` and a union of dicts do.
theorem reduceField_perm (source field : Str) (base : Value) (declared : Bool)
    (prepared : Option (Value × List Value)) {cs cs' : Contributions} (hne : cs ≠ [])
    (hp : cs'.Perm cs) :
    (LawfulEq (cs.map Prod.snd) → ∃ r r',
      reduceField source field .rejectConflict base cs declared prepared = .ofExcept r ∧
      reduceField source field .rejectConflict base cs' declared prepared = .ofExcept r' ∧
      EndsAlike field (fun v v' => v.eq v' = true) r r' ∧ ((∃ v, r = .ok v) ↔ Agreeing cs)) ∧
    (AllDicts cs → IsDictBase base → LawfulEq ((entries cs).map Prod.snd) → ∃ r r',
      reduceField source field .union base cs declared prepared = .ofExcept r ∧
      reduceField source field .union base cs' declared prepared = .ofExcept r' ∧
      EndsAlike field SameMap r r' ∧ ((∃ v, r = .ok v) ↔ Consistent cs) ∧
      ∀ v, r = .ok v →
        ∃ result : Dict Value Value, v = .dict result.items ∧ Overridden base cs result) ∧
    (AllDicts cs → ¬IsDictBase base → ∃ message,
      reduceField source field .union base cs declared prepared = .raise (.typeError message) ∧
      reduceField source field .union base cs' declared prepared = .raise (.typeError message)) := by
  have hne' : cs' ≠ [] := fun hnil => hne (hnil ▸ hp).symm.eq_nil
  refine ⟨fun hlaw => ?_, fun h hbase hlaw => ?_, fun h hbase => ?_⟩
  · exact ⟨_, _, rfl, rfl, rejectConflict_alike hne hlaw hp, rejectConflict_ok_iff hne hlaw⟩
  · have h' : AllDicts cs' := fun write hm => h write (hp.mem_iff.mp hm)
    refine ⟨_, _, congrArg Interaction.Prog.ofExcept (union_dicts hne h),
      congrArg Interaction.Prog.ofExcept (union_dicts hne' h'), ?_⟩
    exact unionDict_alike hbase h hlaw hp
  · have h' : AllDicts cs' := fun write hm => h write (hp.mem_iff.mp hm)
    have hrefused : ∀ dicts, unionDict field base dicts = .error (.typeError
        ["union reducer for field ", .repr field, " requires a dict base; got ",
          .insert base.typeName]) := by
      intro dicts
      unfold unionDict
      split
      · exact absurd (.inl rfl) hbase
      · exact absurd (.inr ⟨_, rfl⟩) hbase
      · rfl
    refine ⟨_, congrArg Interaction.Prog.ofExcept ((union_dicts hne h).trans (hrefused _)),
      congrArg Interaction.Prog.ofExcept ((union_dicts hne' h').trans (hrefused _))⟩

-- Two branches that overlap in a key and agree on it.
def overlapping : Contributions :=
  [("a", .dict [("x", .int 1)]), ("b", .dict [("y", .int 2), ("x", .bool true)])]

theorem reduceField_perm_overlapping : ∃ r r',
    reduceField "source" "scratchpad" .union (.dict [("y", .int 0)]) overlapping true none =
      .ofExcept r ∧
    reduceField "source" "scratchpad" .union (.dict [("y", .int 0)]) overlapping.reverse true none =
      .ofExcept r' ∧
    EndsAlike "scratchpad" SameMap r r' ∧ ((∃ v, r = .ok v) ↔ Consistent overlapping) ∧
    ∀ v, r = .ok v → ∃ result : Dict Value Value, v = .dict result.items ∧
      Overridden (.dict [("y", .int 0)]) overlapping result := by
  have hdicts : AllDicts overlapping := by simp [AllDicts, overlapping]
  have hp : overlapping.reverse.Perm overlapping := List.reverse_perm _
  exact (reduceField_perm "source" "scratchpad" _ true none (by decide) hp).2.1 hdicts
    (.inr ⟨_, rfl⟩) ⟨by decide, by decide, by decide⟩

-- Neither a conflict nor a value comes of dicts over a base that is no dict.
theorem reduceField_perm_number : ¬∀ source field base declared prepared cs cs',
    cs ≠ [] → cs'.Perm cs → AllDicts cs → LawfulEq ((entries cs).map Prod.snd) → ∃ r r',
      reduceField source field .union base cs declared prepared = .ofExcept r ∧
      reduceField source field .union base cs' declared prepared = .ofExcept r' ∧
      EndsAlike field SameMap r r' := by
  intro h
  have hdicts : AllDicts [(("a" : Str), Value.dict [])] := by simp [AllDicts]
  obtain ⟨r, r', hr, -, hends⟩ := h "source" "scratchpad" (.int 3) true none _ _
    (List.cons_ne_nil _ _) (.refl _) hdicts ⟨nofun, nofun, nofun⟩
  cases hends with
  | conflict => cases hr
  | value => cases hr

end Union

section Lists

variable {source field : Str} {base : Value} {cs : Contributions}

def itemsOf : Value → List Value
  | .list items | .tuple items => items
  | _ => []

def contributed (cs : Contributions) : List Value := cs.flatMap fun write => itemsOf write.2

def IsList (value : Value) : Prop := ∃ items, value = .list items ∨ value = .tuple items

theorem requireList_isList {who : Message} {kind : Str} {value : Value} (h : IsList value) :
    requireList field who value kind = .ok (itemsOf value) := by
  obtain ⟨items, rfl | rfl⟩ := h <;> rfl

theorem requireList_base {who : Message} {kind : Str} (h : base = .none ∨ IsList base) :
    requireList field who (orEmptyList base) kind = .ok (itemsOf base) := by
  obtain rfl | h := h
  · rfl
  · have hbase : orEmptyList base = base := if_neg (by rintro rfl; obtain ⟨_, h | h⟩ := h <;> cases h)
    rw [hbase]
    exact requireList_isList h

theorem unionFrom_lists {result : List Value} (h : ∀ write ∈ cs, IsList write.2) :
    unionFrom field result cs = .ok (appendNew result (contributed cs)) := by
  induction cs generalizing result with
  | nil => rfl
  | cons write rest ih =>
      obtain ⟨hwrite, hrest⟩ := List.forall_mem_cons.mp h
      rw [contributed, List.flatMap_cons, appendNew_append]
      unfold unionFrom
      rw [requireList_isList hwrite]
      exact ih hrest

theorem union_lists (hne : cs ≠ []) (h : ∀ write ∈ cs, IsList write.2)
    (hbase : base = .none ∨ IsList base) :
    union field base cs = .ok (.list (appendNew (itemsOf base) (contributed cs))) := by
  have hdicts : dictsOf cs = [] := by
    refine List.filterMap_eq_nil_iff.mpr fun write hm => ?_
    obtain ⟨items, hitems | hitems⟩ := h write hm <;> simp [hitems, dictItems?]
  have hlength : ¬((dictsOf cs).length = cs.length ∧ cs ≠ []) := by
    rintro ⟨hlength, -⟩
    rw [hdicts] at hlength
    exact hne (List.length_eq_zero_iff.mp hlength.symm)
  refine (if_neg hlength).trans ((if_pos ⟨hdicts, hne⟩).trans ?_)
  rw [requireList_base hbase]
  simp only [bind, Except.bind, unionFrom_lists h]
  rfl

theorem appendNew_eq (result items : List Value) :
    appendNew result items = Python.OrderedSet.addAll found result items := rfl

theorem setAll_setAll (base : Dict Value Value) (items : List (Value × Value)) :
    setAll (setAll base items) items = setAll base items := by
  have hknown : ∀ (items : List (Value × Value)) (d : Dict Value Value),
      (∀ item ∈ items, item.1 ∈ d.keys) → (setAll d items).keys = d.keys := by
    intro items
    induction items with
    | nil => exact fun _ _ => rfl
    | cons item rest ih =>
        intro d h
        obtain ⟨hitem, hrest⟩ := List.forall_mem_cons.mp h
        have hset : (d.set item.1 item.2).keys = d.keys := Dict.keys_set_known hitem
        rw [setAll, List.foldl_cons]
        exact (ih (d.set item.1 item.2) (by rwa [hset])).trans hset
  refine Dict.ext_get? (hknown items _ fun item hm => ?_) fun key => ?_
  · rw [Dict.mem_keys_iff, get?_setAll]
    rcases lookup_reverse_cases items item.1 with ⟨last, hlast, -⟩ | ⟨-, hnone⟩
    · exact ⟨last, by rw [hlast, Option.some_or]⟩
    · exact absurd hm (hnone item.2)
  · rw [get?_setAll, get?_setAll, ← Option.or_assoc, Option.or_self]

-- A union appends what is new, once each and in order; repeated over its own result it
-- changes nothing, whether of lists or of dicts.
theorem reduceField_union (source field : Str) (base : Value) (declared : Bool)
    (prepared : Option (Value × List Value)) {cs : Contributions} (hne : cs ≠ []) :
    ((∀ write ∈ cs, IsList write.2) → base = .none ∨ IsList base → ∃ fresh,
      reduceField source field .union base cs declared prepared =
        .ret (.list (itemsOf base ++ fresh)) ∧
      Python.OrderedSet.Added found (itemsOf base) (contributed cs) fresh ∧
      reduceField source field .union (.list (itemsOf base ++ fresh)) cs declared prepared =
        .ret (.list (itemsOf base ++ fresh))) ∧
    (AllDicts cs → IsDictBase base → ∀ v,
      reduceField source field .union base cs declared prepared = .ret v →
      reduceField source field .union v cs declared prepared = .ret v) := by
  constructor
  · intro h hbase
    obtain ⟨fresh, hfresh, hadded⟩ :=
      Python.OrderedSet.addAll_added found_self (itemsOf base) (contributed cs)
    rw [← appendNew_eq] at hfresh
    have hagain : appendNew (itemsOf base ++ fresh) (contributed cs) = itemsOf base ++ fresh := by
      rw [← hfresh]
      exact Python.OrderedSet.addAll_addAll found_self _ _
    refine ⟨fresh, ?_, hadded, ?_⟩
    · have hunion : union field base cs = .ok (.list (itemsOf base ++ fresh)) := by
        rw [union_lists hne h hbase, hfresh]
      exact congrArg Interaction.Prog.ofExcept hunion
    · have hunion : union field (.list (itemsOf base ++ fresh)) cs =
          .ok (.list (itemsOf base ++ fresh)) := by
        rw [union_lists hne h (.inr ⟨_, .inl rfl⟩), itemsOf, hagain]
      exact congrArg Interaction.Prog.ofExcept hunion
  · intro h hbase v hv
    have hunion : union field base cs = .ok v := by
      cases hu : union field base cs with
      | ok v' =>
          have hret : Interaction.Prog.ofExcept (union field base cs) = .ret v := hv
          rw [hu] at hret
          cases hret
          rfl
      | error error =>
          have hret : Interaction.Prog.ofExcept (union field base cs) = .ret v := hv
          rw [hu] at hret
          cases hret
    rw [union_dicts hne h] at hunion
    rcases @unionDict_cases field base cs hbase h with ⟨hok, hagreed⟩ | ⟨⟨_, _, herror⟩, -⟩
    · obtain rfl := Except.ok.inj (hok.symm.trans hunion)
      have hresult : IsDictBase (.dict (setAll (baseDict base) (entries cs)).items) := .inr ⟨_, rfl⟩
      have hself : baseDict (.dict (setAll (baseDict base) (entries cs)).items) =
          setAll (baseDict base) (entries cs) := Dict.ofList_self _
      have hagain := @unionDict_cases field _ cs hresult h
      rw [hself, setAll_setAll] at hagain
      rcases hagain with ⟨hok', -⟩ | ⟨-, hnot⟩
      · exact congrArg Interaction.Prog.ofExcept ((union_dicts hne h).trans hok')
      · exact absurd hagreed hnot
    · cases herror.symm.trans hunion

-- Lists that repeat items within, between and after the base.
def repeating : Contributions :=
  [("a", .list [.int 1, .int 1, .int 2]), ("b", .tuple [.int 2, .int 3, .int 0])]

theorem reduceField_union_repeating : ∃ fresh,
    reduceField "source" "messages" .union (.list [.int 0, .int 0]) repeating true none =
      .ret (.list ([.int 0, .int 0] ++ fresh)) ∧
    Python.OrderedSet.Added found [.int 0, .int 0] (contributed repeating) fresh ∧
    reduceField "source" "messages" .union (.list ([.int 0, .int 0] ++ fresh)) repeating true none =
      .ret (.list ([.int 0, .int 0] ++ fresh)) := by
  have hlists : ∀ write ∈ repeating, IsList write.2 := by simp [repeating, IsList]
  exact (reduceField_union "source" "messages" (.list [.int 0, .int 0]) true none
    (by decide)).1 hlists (.inr ⟨_, .inl rfl⟩)

-- No contribution at all is neither of lists nor of dicts.
theorem reduceField_union_none : ¬∀ source field base declared prepared cs,
    (∀ write ∈ cs, IsList write.2) → base = .none ∨ IsList base → ∃ fresh,
      reduceField source field .union base cs declared prepared =
        .ret (.list (itemsOf base ++ fresh)) := by
  intro h
  obtain ⟨fresh, hfresh⟩ := h "source" "messages" .none true none [] nofun (.inl rfl)
  cases hfresh

end Lists

end PerpetuaCore.Graph.FoldLaws
