import PerpetuaCore.Graph.Admission
import PerpetuaCore.Interaction.History

namespace PerpetuaCore.Graph.Folding

open Interaction
open Python (Str Value Dict)

-- The admitted branches that wrote `key`, with what they wrote, in branch order.
def writers (admitted : List (Str × Delta)) (key : Value) : Contributions :=
  admitted.filterMap fun branch => (branch.2.get? key).map (branch.1, ·)

section Contributions

variable {admitted : List (Str × Delta)} {contributed : Contributed} {name : Str} {key : Value}

theorem contribute_items {items : List (Value × Value)} (hn : (items.map Prod.fst).Nodup) :
    ((items.foldl (contribute name) contributed).get? key).getD [] =
      (contributed.get? key).getD [] ++ ((items.lookup key).map (name, ·)).toList := by
  induction items generalizing contributed with
  | nil => simp
  | cons item rest ih =>
      obtain ⟨hfresh, hrest⟩ := List.nodup_cons.mp hn
      rw [List.foldl_cons, ih hrest, contribute, Dict.get?_set, Dict.lookup_cons_ite]
      split_ifs with he
      · subst he
        have hnone : rest.lookup item.1 = none := by
          rw [List.lookup_eq_none_iff]
          intro other hm
          have hne : item.1 ≠ other.1 := fun he => hfresh (he ▸ List.mem_map_of_mem hm)
          simpa using hne
        simp [hnone]
      · rfl

theorem mem_keys_contribute {items : List (Value × Value)} :
    key ∈ (items.foldl (contribute name) contributed).keys ↔
      key ∈ contributed.keys ∨ key ∈ items.map Prod.fst := by
  induction items generalizing contributed with
  | nil => simp
  | cons item rest ih =>
      have hset : key ∈ (contribute name contributed item).keys ↔
          key = item.1 ∨ key ∈ contributed.keys := Dict.mem_keys_setItem
      rw [List.foldl_cons, ih, hset, List.map_cons, List.mem_cons]
      tauto

-- What the fold reads as the contributions to a field are the values of its writers.
theorem contributions_eq_writers :
    ((contributions admitted).get? key).getD [] = writers admitted key := by
  suffices h : ∀ contributed : Contributed, ((admitted.foldl (fun contributed branch =>
      branch.2.items.foldl (contribute branch.1) contributed) contributed).get? key).getD [] =
      (contributed.get? key).getD [] ++ writers admitted key by
    simpa [contributions] using h .empty
  intro contributed
  induction admitted generalizing contributed with
  | nil => simp [writers]
  | cons branch rest ih =>
      rw [List.foldl_cons, ih, contribute_items branch.2.nodup, List.append_assoc]
      congr 1
      unfold writers
      rw [List.filterMap_cons]
      change (Option.map _ (branch.2.get? key)).toList ++ _ = _
      cases branch.2.get? key <;> rfl

theorem mem_contributions :
    key ∈ (contributions admitted).keys ↔ ∃ branch ∈ admitted, key ∈ branch.2.keys := by
  suffices h : ∀ contributed : Contributed, key ∈ (admitted.foldl (fun contributed branch =>
      branch.2.items.foldl (contribute branch.1) contributed) contributed).keys ↔
      key ∈ contributed.keys ∨ ∃ branch ∈ admitted, key ∈ branch.2.keys by
    simpa [contributions, Dict.empty, Dict.keys] using h .empty
  intro contributed
  induction admitted generalizing contributed with
  | nil => simp
  | cons branch rest ih =>
      rw [List.foldl_cons, ih, mem_keys_contribute, List.exists_mem_cons_iff, or_assoc]
      rfl

theorem writers_ascending (h : (admitted.map Prod.fst).Pairwise (· < ·)) :
    ((writers admitted key).map Prod.fst).Pairwise (· < ·) := by
  refine h.sublist ?_
  clear h
  induction admitted with
  | nil => exact .slnil
  | cons branch rest ih =>
      unfold writers
      rw [List.filterMap_cons]
      cases branch.2.get? key with
      | none => exact ih.cons _
      | some value => exact ih.cons_cons _

end Contributions

-- The values of a list or tuple.
def sequence? : Value → Option (List Value)
  | .list items | .tuple items => some items
  | _ => none

-- Where several branches write one key of a dict, what comes later equals what came first.
def Agreed (items : List (Value × Value)) : Prop :=
  Always (fun earlier item =>
    ∀ first, earlier.lookup item.1 = some first → first.eq item.2 = true) items

def setAll (base : Dict Value Value) (items : List (Value × Value)) : Dict Value Value :=
  items.foldl (fun result item => result.set item.1 item.2) base

-- What a reducer makes of a field's value in the snapshot and the values branches wrote, in
-- branch order. `agreed`, `first` and `last` replace that value, the others extend it, and a
-- custom function was called with both in the run `t`.
inductive Reduces (t : Run) (source field : Str) (base : Value) (writes : Contributions) :
    Reducer → Value → Prop
  | agreed {name : Str} {value : Value} {rest : Contributions} (hw : writes = (name, value) :: rest)
      (heq : ∀ other ∈ rest, other.2.eq value = true) :
      Reduces t source field base writes .rejectConflict value
  | first {name : Str} {value : Value} {rest : Contributions}
      (hw : writes = (name, value) :: rest) : Reduces t source field base writes .first value
  | last {name : Str} {value : Value} {init : Contributions}
      (hw : writes = init ++ [(name, value)]) : Reduces t source field base writes .last value
  | concat {items : List Value} {lists : List (List Value)}
      (hbase : sequence? (orEmptyList base) = some items)
      (hw : writes.map (fun write => sequence? write.2) = lists.map some) :
      Reduces t source field base writes .concat (.list (items ++ lists.flatten))
  | unionLists {items : List Value} {lists : List (List Value)}
      (hbase : sequence? (orEmptyList base) = some items)
      (hw : writes.map (fun write => sequence? write.2) = lists.map some) :
      Reduces t source field base writes .union (.list (appendNew items lists.flatten))
  | unionDicts {items : List (Value × Value)} {dicts : List (List (Value × Value))}
      (hbase : base = .none ∧ items = [] ∨ base = .dict items)
      (hw : writes.map Prod.snd = dicts.map .dict) (hagreed : Agreed dicts.flatten) :
      Reduces t source field base writes .union
        (.dict (setAll (Dict.ofList items) dicts.flatten).items)
  | custom {fn : Fn} {value : Value}
      (hcall : Event.leave (.reducer source field fn base (writes.map Prod.snd)) (.ok value) ∈ t) :
      Reduces t source field base writes (.custom fn) value

theorem Reduces.mono {t t' : Run} {source field : Str} {base value : Value} {writes : Contributions}
    {reducer : Reducer} (h : Reduces t source field base writes reducer value) (ht : t ⊆ t') :
    Reduces t' source field base writes reducer value := by
  cases h with
  | agreed hw heq => exact .agreed hw heq
  | first hw => exact .first hw
  | last hw => exact .last hw
  | concat hbase hw => exact .concat hbase hw
  | unionLists hbase hw => exact .unionLists hbase hw
  | unionDicts hbase hw hagreed => exact .unionDicts hbase hw hagreed
  | custom hcall => exact .custom (ht hcall)

section Reducers

variable {field : Str} {writes : Contributions}

theorem requireList_eq_ok {who : Message} {value : Value} {kind : Str} {items : List Value} :
    requireList field who value kind = .ok items ↔ sequence? value = some items := by
  cases value <;> simp [requireList, sequence?]

theorem rejectConflict_ok {declared : Bool} {value : Value}
    (h : rejectConflict field writes declared = .ok value) :
    ∃ name rest, writes = (name, value) :: rest ∧ ∀ other ∈ rest, other.2.eq value = true := by
  cases writes with
  | nil => cases h
  | cons write rest =>
      simp only [rejectConflict] at h
      split_ifs at h with hany
      obtain rfl := Except.ok.inj h
      refine ⟨write.1, rest, rfl, fun other hm => ?_⟩
      by_contra hne
      exact hany (List.any_eq_true.mpr ⟨other, hm, by simpa using hne⟩)

theorem concatFrom_ok {result items : List Value} (h : concatFrom field result writes = .ok items) :
    ∃ lists : List (List Value), writes.map (fun write => sequence? write.2) = lists.map some ∧
      items = result ++ lists.flatten := by
  induction writes generalizing result with
  | nil =>
      cases h
      exact ⟨[], rfl, by simp⟩
  | cons write rest ih =>
      obtain ⟨list, hlist, hrest⟩ := Python.bind_eq_ok.mp h
      obtain ⟨lists, hlists, rfl⟩ := ih hrest
      refine ⟨list :: lists, ?_, by simp⟩
      rw [List.map_cons, List.map_cons, requireList_eq_ok.mp hlist, hlists]

theorem appendNew_append (result xs ys : List Value) :
    appendNew result (xs ++ ys) = appendNew (appendNew result xs) ys :=
  List.foldl_append

theorem unionFrom_ok {result items : List Value} (h : unionFrom field result writes = .ok items) :
    ∃ lists : List (List Value), writes.map (fun write => sequence? write.2) = lists.map some ∧
      items = appendNew result lists.flatten := by
  induction writes generalizing result with
  | nil =>
      cases h
      exact ⟨[], rfl, rfl⟩
  | cons write rest ih =>
      obtain ⟨list, hlist, hrest⟩ := Python.bind_eq_ok.mp h
      obtain ⟨lists, hlists, rfl⟩ := ih hrest
      refine ⟨list :: lists, ?_, by rw [List.flatten_cons, appendNew_append]⟩
      rw [List.map_cons, List.map_cons, requireList_eq_ok.mp hlist, hlists]

-- `written` holds what was first written at each key so far.
def Records (written : Written) (done : List (Value × Value)) : Prop :=
  ∀ key, (written.lookup key).map Prod.snd = done.lookup key

theorem lookup_snoc {V : Type} (items : List (Value × V)) (key k : Value) (value : V) :
    (items ++ [(key, value)]).lookup k =
      (items.lookup k).or (if k = key then some value else none) := by
  induction items with
  | nil => simp [Dict.lookup_cons_ite]
  | cons item rest ih =>
      obtain ⟨key', value'⟩ := item
      rw [List.cons_append, Dict.lookup_cons_ite, Dict.lookup_cons_ite, ih]
      split_ifs <;> rfl

theorem unionDictItems_ok {name : Str} {items done : List (Value × Value)}
    {written written' : Written} {result result' : Dict Value Value}
    (h : unionDictItems field name items written result = .ok (written', result'))
    (hdone : Agreed done) (hw : Records written done) :
    result' = setAll result items ∧ Agreed (done ++ items) ∧ Records written' (done ++ items) := by
  induction items generalizing done written result with
  | nil =>
      cases h
      rw [List.append_nil]
      exact ⟨rfl, hdone, hw⟩
  | cons item rest ih =>
      obtain ⟨key, value⟩ := item
      unfold unionDictItems at h
      have hkey := hw key
      split at h
      · rename_i writer first hlookup
        rw [hlookup] at hkey
        split_ifs at h with heq
        have hagreed : Agreed (done ++ [(key, value)]) := by
          refine always_snoc.mpr ⟨hdone, fun first' hfirst => ?_⟩
          obtain rfl := Option.some.inj (hkey.trans hfirst)
          exact heq
        have hrecords : Records written (done ++ [(key, value)]) := by
          intro k
          rw [lookup_snoc, hw k]
          split_ifs with hk
          · rw [hk, ← hkey]
            rfl
          · rw [Option.or_none]
        rw [List.append_cons]
        exact ih h hagreed hrecords
      · rename_i hlookup
        rw [hlookup] at hkey
        have hagreed : Agreed (done ++ [(key, value)]) := by
          refine always_snoc.mpr ⟨hdone, fun first hfirst => ?_⟩
          cases hkey.trans hfirst
        have hrecords : Records (written ++ [(key, name, value)]) (done ++ [(key, value)]) := by
          intro k
          rw [lookup_snoc, lookup_snoc, ← hw k]
          cases written.lookup k <;> split_ifs <;> rfl
        rw [List.append_cons]
        exact ih h hagreed hrecords

theorem unionDictFrom_ok {dicts : List (Str × List (Value × Value))} {done : List (Value × Value)}
    {written : Written} {result result' : Dict Value Value}
    (h : unionDictFrom field dicts written result = .ok result')
    (hdone : Agreed done) (hw : Records written done) :
    result' = setAll result (dicts.map Prod.snd).flatten ∧
      Agreed (done ++ (dicts.map Prod.snd).flatten) := by
  induction dicts generalizing done written result with
  | nil =>
      cases h
      simpa using ⟨rfl, hdone⟩
  | cons dict rest ih =>
      obtain ⟨⟨written', next⟩, hitems, hrest⟩ := Python.bind_eq_ok.mp h
      obtain ⟨rfl, hagreed, hrecords⟩ := unionDictItems_ok hitems hdone hw
      obtain ⟨rfl, hall⟩ := ih hrest hagreed hrecords
      rw [List.map_cons, List.flatten_cons, ← List.append_assoc]
      exact ⟨(List.foldl_append ..).symm, hall⟩

theorem dictWrites {dicts : List (Str × List (Value × Value))}
    (hdicts : dicts = writes.filterMap fun write => (dictItems? write.2).map (write.1, ·))
    (hlength : dicts.length = writes.length) :
    writes.map Prod.snd = (dicts.map Prod.snd).map .dict := by
  rw [hdicts, List.filterMap_length_eq_length] at hlength
  subst hdicts
  induction writes with
  | nil => rfl
  | cons write rest ih =>
      obtain ⟨hwrite, hrest⟩ := List.forall_mem_cons.mp hlength
      obtain ⟨name, value⟩ := write
      cases value with
      | dict items => exact congrArg (List.cons (Value.dict items)) (ih hrest)
      | _ => cases hwrite

variable {source : Str} {base value : Value} {h : Run}

theorem unionDict_reduces {dicts : List (Str × List (Value × Value))}
    (hw : writes.map Prod.snd = (dicts.map Prod.snd).map .dict)
    (hu : unionDict field base dicts = .ok value) :
    Reduces h source field base writes .union value := by
  have hfold : ∀ items, (base = .none ∧ items = [] ∨ base = .dict items) →
      (do return Value.dict (← unionDictFrom field dicts [] (Dict.ofList items)).items) =
        (.ok value : Except Exn Value) → Reduces h source field base writes .union value := by
    intro items hbase hfold
    obtain ⟨result, hresult, hvalue⟩ := Python.bind_eq_ok.mp hfold
    have hnone : Agreed ([] : List (Value × Value)) := always_nil
    obtain ⟨rfl, hagreed⟩ := unionDictFrom_ok hresult hnone fun key => rfl
    exact Except.ok.inj hvalue ▸ .unionDicts hbase hw hagreed
  unfold unionDict at hu
  dsimp only at hu
  split at hu
  · exact hfold [] (.inl ⟨rfl, rfl⟩) hu
  · exact hfold _ (.inr rfl) hu
  · cases hu

theorem union_reduces (hu : union field base writes = .ok value) :
    Reduces h source field base writes .union value := by
  unfold union at hu
  dsimp only at hu
  split_ifs at hu with hdicts
  · exact unionDict_reduces (dictWrites rfl hdicts.1) hu
  · obtain ⟨items, hitems, hrest⟩ := Python.bind_eq_ok.mp hu
    obtain ⟨result, hresult, hvalue⟩ := Python.bind_eq_ok.mp hrest
    obtain ⟨lists, hlists, rfl⟩ := unionFrom_ok hresult
    exact Except.ok.inj hvalue ▸ .unionLists (requireList_eq_ok.mp hitems) hlists

theorem concat_reduces (hc : concat field base writes = .ok value) :
    Reduces h source field base writes .concat value := by
  obtain ⟨items, hitems, hrest⟩ := Python.bind_eq_ok.mp hc
  obtain ⟨result, hresult, hvalue⟩ := Python.bind_eq_ok.mp hrest
  obtain ⟨lists, hlists, rfl⟩ := concatFrom_ok hresult
  exact Except.ok.inj hvalue ▸ .concat (requireList_eq_ok.mp hitems) hlists

theorem prepare_eq {inputs : Value × List Value}
    (hp : prepareCustomInputs base writes = .ok inputs) :
    inputs = (base, writes.map Prod.snd) := by
  unfold prepareCustomInputs at hp
  dsimp only at hp
  split_ifs at hp
  exact (Except.ok.inj hp).symm

-- A reducer returns what its reference says.
theorem reduceField_reduces {reducer : Reducer} {declared : Bool}
    {inputs : Option (Value × List Value)}
    (hinputs : ∀ pair, inputs = some pair → pair = (base, writes.map Prod.snd)) :
    Ensures acting (fun _ _ => True) (reduceField source field reducer base writes declared inputs)
      (fun value t => Reduces t source field base writes reducer value) h := by
  cases reducer with
  | rejectConflict =>
      refine .ofExcept (fun value hv => ?_) fun _ _ => trivial
      obtain ⟨name, rest, hw, heq⟩ := rejectConflict_ok hv
      exact .agreed hw heq
  | first =>
      refine .ofExcept (fun value hv => ?_) fun _ _ => trivial
      cases writes with
      | nil => cases hv
      | cons write rest => exact Except.ok.inj hv ▸ .first rfl
  | last =>
      refine .ofExcept (fun value hv => ?_) fun _ _ => trivial
      rcases List.eq_nil_or_concat writes with rfl | ⟨init, write, rfl⟩
      · cases hv
      · rw [List.concat_eq_append, List.getLast?_concat] at hv
        exact Except.ok.inj hv ▸ .last (List.concat_eq_append ..)
  | concat => exact .ofExcept (fun value hv => concat_reduces hv) fun _ _ => trivial
  | union => exact .ofExcept (fun value hv => union_reduces hv) fun _ _ => trivial
  | custom fn =>
      refine .bind (.ofExcept (fun pair hpair => ?_) fun _ _ => trivial)
      have hcopies : pair = (base, writes.map Prod.snd) := by
        cases inputs with
        | none => exact prepare_eq hpair
        | some inputs => exact Except.ok.inj hpair ▸ hinputs inputs rfl
      subst hcopies
      refine .bind (Rule.invoke fun answer => .ofExcept (fun value hv => ?_) fun _ _ => trivial)
      subst hv
      exact .custom (List.mem_append_right _ (List.mem_cons_of_mem _ List.mem_cons_self))

end Reducers

section Fold

variable {g : CompiledGraph} {gate : Option Gate} {source : Str} {snapshot : State}
  {request : Option DispatchRequest} {h : Run}

theorem admitReducer_inputs {field : Str} {reducer : Option Reducer} {writes : Contributions} :
    (admitReducer gate snapshot field reducer writes request).Returns fun inputs =>
      ∀ pair, inputs = some pair → pair = (snapshot.get field, writes.map Prod.snd) := by
  unfold admitReducer
  split
  · split_ifs
    · refine .bind (.ofExcept fun _ hinputs => prepare_eq hinputs) fun inputs hinputs =>
        .bind (.all _) ?_
      rintro ⟨_ | decision, asked⟩ -
      · refine .bind (.all _) fun _ _ => ?_
        rintro pair ⟨⟩
        exact hinputs
      · trivial
    · exact nofun
  · exact nofun

-- The fields folded so far, each with its reference value and the names of its writers.
structure Folded (g : CompiledGraph) (source : Str) (snapshot : State)
    (admitted : List (Str × Delta)) (fields : List Str) (merged : Delta) (provenance : Provenance)
    (t : Run) : Prop where
  keys : ∀ key, key ∈ merged.keys ↔ ∃ field ∈ fields, key = .str field
  values : ∀ field value, merged.get? (.str field) = some value →
    Reduces t source field (snapshot.get field) (writers admitted field)
      ((g.reducers.get? field).getD defaultReducer) value
  provenance : ∀ field, provenance.get? field =
    if field ∈ fields then some ((writers admitted field).map Prod.fst) else none

theorem Folded.set {admitted : List (Str × Delta)} {fields : List Str} {merged : Delta}
    {provenance : Provenance} {t : Run} {field : Str} {value : Value}
    (hf : Folded g source snapshot admitted fields merged provenance h) (ht : h ⊆ t)
    (hr : Reduces t source field (snapshot.get field) (writers admitted field)
      ((g.reducers.get? field).getD defaultReducer) value) :
    Folded g source snapshot admitted (fields ++ [field]) (merged.set field value)
      (provenance.set field ((writers admitted field).map Prod.fst)) t where
  keys := by
    intro key
    have hset : key ∈ (merged.set field value).keys ↔ key = .str field ∨ key ∈ merged.keys :=
      Dict.mem_keys_setItem
    rw [hset, hf.keys]
    constructor
    · rintro (rfl | ⟨other, hm, rfl⟩)
      · exact ⟨field, by simp, rfl⟩
      · exact ⟨other, List.mem_append_left _ hm, rfl⟩
    · rintro ⟨other, hm, rfl⟩
      rcases List.mem_append.mp hm with hm | hm
      · exact .inr ⟨other, hm, rfl⟩
      · exact .inl (congrArg _ (List.mem_singleton.mp hm))
  values := by
    intro other value' hv
    rw [Dict.get?_set] at hv
    split_ifs at hv with he
    · obtain rfl := Value.str.inj he
      exact Option.some.inj hv ▸ hr
    · exact (hf.values other value' hv).mono ht
  provenance := by
    intro other
    rw [Dict.get?_set, hf.provenance]
    by_cases he : other = field
    · simp [he]
    · simp [he]

theorem foldFields_folded {admitted : List (Str × Delta)} {done fields : List Str} {merged : Delta}
    {provenance : Provenance} (hf : Folded g source snapshot admitted done merged provenance h) :
    Ensures acting (fun _ _ => True)
      (foldFields g gate source snapshot request (contributions admitted) fields
        (merged, provenance))
      (fun result t =>
        Folded g source snapshot admitted (done ++ fields) result.1 result.2 t) h := by
  induction fields generalizing done merged provenance h with
  | nil =>
      rw [List.append_nil]
      exact .ret hf
  | cons field rest ih =>
      refine .bind (.bind ?_)
      refine .mono (Ensures.grows (.returns admitReducer_inputs)) ?_ fun _ _ _ => trivial
      rintro inputs t ⟨ht, hinputs⟩
      rw [contributions_eq_writers] at hinputs ⊢
      refine .mono (Ensures.grows (reduceField_reduces hinputs)) ?_ fun _ _ _ => trivial
      rintro value t' ⟨ht', hr⟩
      rw [List.append_cons]
      exact ih (hf.set (List.Subset.trans ht ht') hr)

theorem fieldNames_eq_ok {keys : List Value} {fields : List Str} :
    fieldNames keys = .ok fields ↔ keys = fields.map .str := by
  induction keys generalizing fields with
  | nil => cases fields <;> simp [fieldNames]
  | cons key rest ih =>
      cases key with
      | str name =>
          unfold fieldNames
          rw [Python.bind_eq_ok]
          constructor
          · rintro ⟨fields', hrest, ⟨⟩⟩
            rw [ih.mp hrest, List.map_cons]
          · intro hkeys
            cases fields with
            | nil => cases hkeys
            | cons field fields =>
                obtain ⟨hname, hrest⟩ := List.cons.inj hkeys
                obtain rfl := Value.str.inj hname
                exact ⟨fields, ih.mpr hrest, rfl⟩
      | _ =>
          refine iff_of_false nofun fun hkeys => ?_
          cases fields <;> cases hkeys

-- A fold that succeeds folds exactly the fields that were written.
theorem fold_folded {admitted : List (Str × Delta)} :
    Ensures acting (fun _ _ => True) (fold g gate source snapshot admitted request)
      (fun result t => ∃ fields, (∀ key, (∃ field ∈ fields, key = .str field) ↔
          ∃ branch ∈ admitted, key ∈ branch.2.keys) ∧
        Folded g source snapshot admitted fields result.1 result.2 t) h := by
  refine .bind (.ofExcept (fun fields hfields => ?_) fun _ _ => trivial)
  have hkeys := fieldNames_eq_ok.mp hfields
  have hwritten : ∀ key, (∃ field ∈ Python.sorted id fields, key = Value.str field) ↔
      ∃ branch ∈ admitted, key ∈ branch.2.keys := by
    intro key
    rw [← mem_contributions, hkeys, List.mem_map]
    simp only [Python.mem_sorted, eq_comm]
  have hnone : Folded g source snapshot admitted [] .empty .empty h := by
    refine ⟨fun key => by simp [Dict.empty, Dict.keys], fun field value hvalue => ?_, fun field => rfl⟩
    cases hvalue
  exact (foldFields_folded hnone).mono (fun result t hf => ⟨_, hwritten, hf⟩) fun _ _ hx => hx

end Fold

-- Two settlements that differ only in what branches outside `names` succeeded with.
def Excluding (names : List Str) (settled settled' : List Settled) : Prop :=
  List.Forall₂ (fun item item' => item.name = item'.name ∧ item.error? = item'.error? ∧
    (item.name ∈ names → item = item')) settled settled'

namespace Excluding

variable {names : List Str} {settled settled' : List Settled}

theorem errors_eq (h : Excluding names settled settled') : errors settled = errors settled' := by
  induction h with
  | nil => rfl
  | cons hitem _ ih =>
      unfold errors at ih ⊢
      rw [List.filterMap_cons, List.filterMap_cons, hitem.2.1, ih]

theorem firstInterrupt_eq (h : Excluding names settled settled') :
    firstInterrupt settled = firstInterrupt settled' := by
  unfold firstInterrupt
  congr 1
  induction h with
  | nil => rfl
  | cons hitem _ ih => rw [List.filterMap_cons, List.filterMap_cons, hitem.1, hitem.2.1, ih]

theorem countP_eq (h : Excluding names settled settled') :
    settled.countP Settled.ok = settled'.countP Settled.ok := by
  induction h with
  | nil => rfl
  | cons hitem _ ih =>
      rw [List.countP_cons, List.countP_cons, ih, Settled.ok, Settled.ok, hitem.2.1]

theorem view_eq (h : Excluding names settled settled') :
    settled.map Settled.view = settled'.map Settled.view := by
  induction h with
  | nil => rfl
  | cons hitem _ ih =>
      rw [List.map_cons, List.map_cons, ih, Settled.view, Settled.view, Settled.ok, Settled.ok,
        hitem.1, hitem.2.1]

theorem succeeded (h : Excluding names settled settled') :
    List.Forall₂ (fun branch branch' =>
      branch.1 = branch'.1 ∧ (branch.1 ∈ names → branch = branch'))
      (Graph.succeeded settled) (Graph.succeeded settled') := by
  induction h with
  | nil => exact .nil
  | @cons item item' rest rest' hitem _ ih =>
      obtain ⟨name, outcome⟩ := item
      obtain ⟨name', outcome'⟩ := item'
      obtain ⟨rfl, herror, hsame⟩ := hitem
      cases outcome with
      | error error =>
          cases outcome' with
          | error error' => exact ih
          | ok delta' => cases herror
      | ok delta =>
          cases outcome' with
          | error error' => cases herror
          | ok delta' =>
              refine .cons ⟨rfl, fun hm => ?_⟩ ih
              cases hsame hm
              rfl

end Excluding

section Independence

variable {names : List Str} {settled settled' : List Settled} {source : Str}

theorem filter_excluding {ok ok' : List (Str × Delta)} {chosen : Str → Bool}
    (h : List.Forall₂ (fun branch branch' => branch.1 = branch'.1 ∧
      (branch.1 ∈ (ok.filter fun item => chosen item.1).map Prod.fst → branch = branch')) ok ok') :
    (ok'.filter fun item => chosen item.1) = ok.filter fun item => chosen item.1 := by
  suffices hsub : ∀ {xs ys : List (Str × Delta)}, List.Forall₂ (fun branch branch' =>
      branch.1 = branch'.1 ∧ (branch.1 ∈ (ok.filter fun item => chosen item.1).map Prod.fst →
        branch = branch')) xs ys → xs ⊆ ok →
      (ys.filter fun item => chosen item.1) = xs.filter fun item => chosen item.1 from
    hsub h fun _ => id
  intro xs ys hxy hsub
  induction hxy with
  | nil => rfl
  | @cons branch branch' xs ys hbranch _ ih =>
      obtain ⟨hhead, hrest⟩ := List.forall_mem_cons.mp hsub
      rw [List.filter_cons, List.filter_cons, ih hrest, ← hbranch.1]
      split_ifs with hchosen
      · rw [hbranch.2 (List.mem_map_of_mem (List.mem_filter.mpr ⟨hhead, hchosen⟩))]
      · rfl

theorem eq_of_excluding {ok ok' : List (Str × Delta)}
    (h : List.Forall₂ (fun branch branch' => branch.1 = branch'.1 ∧
      (branch.1 ∈ ok.map Prod.fst → branch = branch')) ok ok') : ok' = ok := by
  have hfilter := @filter_excluding ok ok' (fun _ => true) (by simpa using h)
  simpa using hfilter

theorem checkAdmitted_congr {ok ok' : List (Str × Delta)} {names : List Value}
    (h : ok.map Prod.fst = ok'.map Prod.fst) :
    checkAdmitted source ok names = checkAdmitted source ok' names := by
  induction names with
  | nil => rfl
  | cons value rest ih =>
      cases value with
      | str name => simp only [checkAdmitted, h, ih]
      | _ => rfl

-- What a join admits does not depend on what the branches it leaves out supplied.
theorem admit_excluding {join : Join} {t : Run} {admitted : List (Str × Delta)}
    (hx : Excluding (admitted.map Prod.fst) settled settled')
    (he : Exec acting (admitBranches source join settled) t (.ok admitted)) :
    Exec acting (admitBranches source join settled') t (.ok admitted) := by
  have hsucceeded := hx.succeeded
  have hnames : (succeeded settled).map Prod.fst = (succeeded settled').map Prod.fst := by
    rw [← List.forall₂_eq_eq_eq, List.forall₂_map_left_iff, List.forall₂_map_right_iff]
    exact hsucceeded.imp fun _ _ hbranch => hbranch.1
  have hsame : admitted = succeeded settled → succeeded settled' = succeeded settled := by
    rintro rfl
    exact eq_of_excluding hsucceeded
  unfold admitBranches at he ⊢
  dsimp only at he ⊢
  rw [← hx.errors_eq]
  split at he
  · split_ifs at he ⊢
    · obtain ⟨rfl, hadmitted⟩ := exec_ret he
      obtain rfl := Except.ok.inj hadmitted
      rw [hsame rfl]
      exact .ret _
    · cases (exec_raise he).2
  · split_ifs at he with hempty
    · cases (exec_raise he).2
    · obtain ⟨rfl, hadmitted⟩ := exec_ret he
      obtain rfl := Except.ok.inj hadmitted
      rw [hsame rfl, if_neg hempty]
      exact .ret _
  · split_ifs at he with hempty
    · cases (exec_raise he).2
    · obtain ⟨rfl, hadmitted⟩ := exec_ret he
      obtain rfl := Except.ok.inj hadmitted
      generalize succeeded settled = ok at *
      generalize succeeded settled' = ok' at *
      cases hsucceeded with
      | nil => exact absurd rfl hempty
      | cons hfirst _ =>
          obtain rfl := hfirst.2 List.mem_cons_self
          exact .ret _
  · split_ifs at he with hreached
    · obtain ⟨rfl, hadmitted⟩ := exec_ret he
      obtain rfl := Except.ok.inj hadmitted
      rw [hsame rfl, if_pos hreached]
      exact .ret _
    · cases (exec_raise he).2
  · rw [← hx.view_eq]
    refine exec_bind_congr he fun s u answer _ _ he => exec_bind_congr he fun s u names _ _ he => ?_
    rw [← checkAdmitted_congr hnames]
    refine exec_bind_congr he fun s u chosen _ _ he => ?_
    split_ifs at he with hempty
    · cases (exec_raise he).2
    · obtain ⟨rfl, hadmitted⟩ := exec_ret he
      obtain rfl := Except.ok.inj hadmitted
      rw [@filter_excluding _ _ (fun name => chosen.contains name) hsucceeded, if_neg hempty]
      exact .ret _

section Region

variable [Sha256] {g : CompiledGraph} {gate : Option Gate} {edge : FanOut} {state snapshot : State}
  {steps completed : Nat} {batchId : Str}

-- The region was committed with the deltas of the branches `names`.
def Commits (names : List Str) (t : Run) : Prop :=
  ∃ observation ∈ observations t, observation.event.kind = .superstepCommit ∧
    observation.event.branches = names

abbrev CommitsOnly (names : List Str) (observation : GraphObservation) : Prop :=
  observation.event.kind = .superstepCommit → observation.event.branches = names

omit [Sha256] in
theorem orStop_commitsOnly {α : Type} {node : Str} {decision : Option GateDecision}
    {next : Scheduler (Option α)} (hnext : next.Asks (Does (fun _ => True) (CommitsOnly names))) :
    (orStop state node steps decision next).Asks (Does (fun _ => True) (CommitsOnly names)) := by
  cases decision with
  | none => exact hnext
  | some decision =>
      refine .andThen (.ofExcept _) (.ofExcept fun _ h => h) fun observation ho => ?_
      obtain ⟨closed, -, rfl⟩ := stopped_eq ho
      exact .bind (Does.emit nofun) fun _ => trivial

theorem foldRegion_commitsOnly {progress : steps ≤ completed} {admitted : List (Str × Delta)} :
    (foldRegion g gate source edge state snapshot steps completed progress batchId admitted).Asks
      (Does (fun _ => True) (CommitsOnly (admitted.map Prod.fst))) := by
  have hasks : ∀ {α : Type} (p : Step α), p.Asks fun _ => True := by
    intro α p
    induction p with
    | ret => trivial
    | raise => trivial
    | ask op next ih => exact ⟨trivial, ih⟩
  refine .bind (Does.lift (hasks _)) fun _ => orStop_commitsOnly ?_
  refine .bind (Does.lift (hasks _)) fun folded => ?_
  rcases folded with decision | ⟨merged, provenance⟩
  · exact orStop_commitsOnly trivial
  · refine .bind (.ofExcept _) fun _ => .bind (Does.lift (hasks _)) fun _ => orStop_commitsOnly ?_
    refine .bind (.ofExcept _) fun _ => .bind (Does.lift (hasks _)) fun _ => ?_
    refine .bind (.forM fun item _ => Does.emit nofun) fun _ => ?_
    exact .bind (Does.emit fun _ => rfl) fun _ => .bind (.ofExcept _) fun _ => trivial

omit [Sha256] in
theorem Commits.after {s u : Run} (hc : Commits names (s ++ u)) (hs : observations s = []) :
    Commits names u := by
  obtain ⟨observation, hm, hcommit⟩ := hc
  rw [observations_append, hs] at hm
  exact ⟨observation, hm, hcommit⟩

omit [Sha256] in
theorem observations_lift {α : Type} {p : Step α} {t : Run} {o : Except Exn α}
    (he : Exec generating (p.lift : Scheduler α) t o) : observations t = [] :=
  exec_acting_observations (exec_lift he)

omit [Sha256] in
theorem exec_ofExcept {α : Type} {x o : Except Exn α} {t : Run}
    (he : Exec generating (.ofExcept x : Scheduler α) t o) : t = [] ∧ o = x := by
  cases x with
  | ok value => exact exec_ret he
  | error error => exact exec_raise he

-- Nothing of a region that commits depends on what the branches it leaves out supplied.
theorem joinRegion_excluding {t : Run} {o : Except Exn (Option (RegionResult steps))}
    (hx : Excluding names settled settled')
    (he : Exec generating (joinRegion g gate source edge state snapshot steps batchId settled) t o)
    (hc : Commits names t) :
    Exec generating (joinRegion g gate source edge state snapshot steps batchId settled') t o := by
  unfold joinRegion at he ⊢
  simp only [← hx.errors_eq, ← hx.firstInterrupt_eq, ← hx.countP_eq]
  refine exec_bind_congr he fun s u verdict ht hs hverdict => ?_
  obtain rfl := (exec_ofExcept hs).1
  obtain rfl : t = u := ht
  cases verdict with
  | some decision => exact hverdict
  | none =>
      dsimp only [orStop] at hverdict ⊢
      split at hverdict
      · exact hverdict
      · refine exec_bind_congr hverdict fun s u asked ht hs hasked => ?_
        replace hc := (ht ▸ hc).after (observations_lift hs)
        obtain ⟨_ | decision, request⟩ := asked
        · refine exec_bind_congr hasked fun s u _ ht hs hstarted => ?_
          replace hc := (ht ▸ hc).after (observations_lift hs)
          -- up to here the two regions run the same; now what the join admits names who commits
          rcases exec_bind hstarted with ⟨s, u, admitted, rfl, hadmit, hrest⟩ | ⟨error, hadmit, rfl⟩
          · obtain ⟨observation, hm, hkind, hnames⟩ := hc.after (observations_lift hadmit)
            have hcommits := (Does.events hrest foldRegion_commitsOnly).2 observation hm hkind
            rw [← hnames, hcommits] at hx
            exact exec_bind_ok (lift_exec (admit_excluding hx (exec_lift hadmit))) hrest
          · obtain ⟨observation, hm, -⟩ := hc
            rw [observations_lift hadmit] at hm
            cases hm
        · exact hasked

-- What the fold of a region publishes, by reference.
structure Reference (g : CompiledGraph) (source : Str) (snapshot : State)
    (admitted : List (Str × Delta)) (merged : Delta) (provenance : Provenance) (t : Run) :
    Prop where
  keys : ∀ key, key ∈ merged.keys ↔ ∃ branch ∈ admitted, key ∈ branch.2.keys
  values : ∀ key value, merged.get? key = some value → ∃ field, key = .str field ∧
    Reduces t source field (snapshot.get field) (writers admitted key)
      ((g.reducers.get? field).getD defaultReducer) value
  provenance : ∀ field, provenance.get? field =
    if .str field ∈ merged.keys then some ((writers admitted field).map Prod.fst) else none
  ordered : ∀ key, ((writers admitted key).map Prod.fst).Pairwise (· < ·)
  committed : ∀ committed, snapshot.merge merged = .ok committed →
    ∀ key, committed.attrs.get? key = (merged.get? key).or (snapshot.attrs.get? key)

omit [Sha256] in
theorem Folded.reference {admitted : List (Str × Delta)} {fields : List Str} {merged : Delta}
    {provenance : Provenance} {t : Run}
    (hf : Folded g source snapshot admitted fields merged provenance t)
    (hfields : ∀ key, (∃ field ∈ fields, key = Value.str field) ↔
      ∃ branch ∈ admitted, key ∈ branch.2.keys)
    (hascending : (admitted.map Prod.fst).Pairwise (· < ·)) :
    Reference g source snapshot admitted merged provenance t where
  keys := fun key => (hf.keys key).trans (hfields key)
  values := by
    intro key value hv
    obtain ⟨field, -, rfl⟩ := (hf.keys key).mp (Dict.get?_isSome_iff.mp (hv ▸ rfl))
    exact ⟨field, rfl, hf.values field value hv⟩
  provenance := by
    intro field
    rw [hf.provenance]
    refine if_congr ((hf.keys _).trans ⟨?_, fun hm => ⟨field, hm, rfl⟩⟩).symm rfl rfl
    rintro ⟨_, hm, he⟩
    exact Value.str.inj he ▸ hm
  ordered := fun _ => writers_ascending hascending
  committed := by
    intro committed hmerge key
    rw [State.merge_eq_update hmerge, State.update, Dict.get?_update]

-- A region that commits the branches `names` does the same whatever the others supplied.
def Independent (g : CompiledGraph) (gate : Option Gate) (source : Str) (snapshot : State)
    (names : List Str) : Prop :=
  ∀ (edge : FanOut) (state : State) (steps : Nat) (batchId : Str) (settled settled' : List Settled)
    (t : Run) o, Excluding names settled settled' → Commits names t →
      Exec generating (joinRegion g gate source edge state snapshot steps batchId settled) t o →
      Exec generating (joinRegion g gate source edge state snapshot steps batchId settled') t o

theorem region_folds {request : Option DispatchRequest} {admitted : List (Str × Delta)}
    {merged : Delta} {provenance : Provenance} {t : Run} (hascending : (admitted.map Prod.fst).Pairwise (· < ·))
    (he : Exec acting (fold g gate source snapshot admitted request) t (.ok (merged, provenance))) :
    Reference g source snapshot admitted merged provenance t ∧
      Independent g gate source snapshot (admitted.map Prod.fst) := by
  obtain ⟨fields, hfields, hf⟩ := fold_folded (h := []) t _ he
  refine ⟨hf.reference hfields hascending, fun _ _ _ _ _ _ _ _ hx hc he => ?_⟩
  exact joinRegion_excluding hx he hc

-- Both branches wrote the status, and one of them the error.
def agreeing : List (Str × Delta) :=
  [("b", Dict.ofList [("status", "ok")]), ("c", Dict.ofList [("status", "ok"), ("error", "none")])]

def agreed : Delta := Dict.ofList [("error", "none"), ("status", "ok")]

def agreedBy : Provenance := Dict.ofList [("error", ["c"]), ("status", ["b", "c"])]

omit [Sha256] in
theorem region_folds_agreeing :
    letI := Sha256.verbatim
    Reference .diamond "a" (State.new "s") agreeing agreed agreedBy [] ∧
      Independent .diamond none "a" (State.new "s") ["b", "c"] :=
  letI := Sha256.verbatim
  have he : Exec acting (fold .diamond none "a" (State.new "s") agreeing none) ([] : Run)
      (.ok (agreed, agreedBy)) := .ret _
  region_folds (by decide) he

end Region

end Independence

end PerpetuaCore.Graph.Folding
