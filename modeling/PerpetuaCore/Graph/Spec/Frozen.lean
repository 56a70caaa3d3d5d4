import PerpetuaCore.Graph.Gate
import PerpetuaCore.Json.Plain
import PerpetuaCore.Python.Raising

namespace PerpetuaCore.Graph

open Python (Str Value Dict FloatText)
open Json (Same isJson isStr named)

-- `FrozenJSON`: scalars, tuples and read-only mappings.
inductive FrozenJson where
  | none
  | bool (b : Bool)
  | int (i : Int)
  | float (x : FloatText)
  | str (s : Str)
  | tuple (items : List FrozenJson)
  | mapping (members : List (Str × FrozenJson))

namespace FrozenJson

mutual

-- Every mapping lists its keys in ascending order, as freezing leaves it.
def ordered : FrozenJson → Bool
  | .tuple items => orderedItems items
  | .mapping members =>
      decide ((members.map Prod.fst).Pairwise (· < ·)) && orderedMembers members
  | _ => true

def orderedItems : List FrozenJson → Bool
  | [] => true
  | x :: rest => x.ordered && orderedItems rest

def orderedMembers : List (Str × FrozenJson) → Bool
  | [] => true
  | (_, x) :: rest => x.ordered && orderedMembers rest

end

theorem orderedItems_iff {items : List FrozenJson} :
    orderedItems items = true ↔ ∀ x ∈ items, x.ordered = true := by
  induction items with
  | nil => simp [orderedItems]
  | cons x rest ih => simp [orderedItems, ih]

theorem orderedMembers_iff {members : List (Str × FrozenJson)} :
    orderedMembers members = true ↔ ∀ member ∈ members, member.2.ordered = true := by
  induction members with
  | nil => simp [orderedMembers]
  | cons member rest ih => simp [orderedMembers, ih]

theorem ordered_mapping_iff {members : List (Str × FrozenJson)} :
    (mapping members).ordered = true ↔ members.Pairwise (fun a b => a.1 < b.1) ∧
      ∀ member ∈ members, member.2.ordered = true := by
  rw [ordered, Bool.and_eq_true, decide_eq_true_eq, List.pairwise_map, orderedMembers_iff]

-- What holds of a frozen value when it holds of everything inside it.
theorem inside {motive : FrozenJson → Prop} (none : motive .none) (bool : ∀ b, motive (.bool b))
    (int : ∀ i, motive (.int i)) (float : ∀ x, motive (.float x)) (str : ∀ s, motive (.str s))
    (tuple : ∀ items, (∀ x ∈ items, motive x) → motive (.tuple items))
    (mapping : ∀ members, (∀ member ∈ members, motive member.2) → motive (.mapping members)) :
    ∀ j, motive j := by
  refine @FrozenJson.rec motive (fun items => ∀ x ∈ items, motive x)
    (fun members => ∀ member ∈ members, motive member.2) (fun member => motive member.2)
    none bool int float str tuple mapping (by simp) ?_ (by simp) ?_ fun _ _ hx => hx
  · exact fun x rest hx hrest => List.forall_mem_cons.mpr ⟨hx, hrest⟩
  · exact fun member rest hmember hrest => List.forall_mem_cons.mpr ⟨hmember, hrest⟩

end FrozenJson

-- `sorted(value)` of a dict's keys.
def sortedKeys {α : Type} (items : List (Value × α)) : Except Exn (List (Value × α)) :=
  match Json.sortKeys items with
  | some items => .ok items
  | none => .error (.typeError ["'<' not supported between keys"])

def frozenMembers : List (Value × Except Exn FrozenJson) → Except Exn (List (Str × FrozenJson))
  | [] => .ok []
  | (.str key, value) :: rest => do return (key, ← value) :: (← frozenMembers rest)
  | _ :: _ => .error (.typeError ["GraphSpec metadata keys must be strings"])

mutual

-- `_freeze_json`.
def freezeJson : Value → Except Exn FrozenJson
  | .none => .ok .none
  | .bool b => .ok (.bool b)
  | .int i => .ok (.int i)
  | .float (.finite x) => .ok (.float x)
  | .float _ => .error (.typeError ["GraphSpec metadata floats must be finite"])
  | .str s => .ok (.str s)
  | .list items | .tuple items => (freezeItems items).map .tuple
  | .dict items => do
      let members ← sortedKeys (Dict.ofList (freezeMembers items)).items
      return .mapping (← frozenMembers members)
  | .object type .. => .error (.typeError ["GraphSpec metadata must be JSON-compatible; got ",
      .insert type])

def freezeItems : List Value → Except Exn (List FrozenJson)
  | [] => .ok []
  | x :: rest => do return (← freezeJson x) :: (← freezeItems rest)

-- Each value's freezing waits until its key has been checked.
def freezeMembers : List (Value × Value) → List (Value × Except Exn FrozenJson)
  | [] => []
  | (key, x) :: rest => (key, freezeJson x) :: freezeMembers rest

end

mutual

-- `_thaw_json`.
def thawJson : FrozenJson → Value
  | .none => .none
  | .bool b => .bool b
  | .int i => .int i
  | .float x => .float (.finite x)
  | .str s => .str s
  | .tuple items => .list (thawItems items)
  | .mapping members => .dict (named (Python.sorted Prod.fst (thawMembers members)))

def thawItems : List FrozenJson → List Value
  | [] => []
  | x :: rest => thawJson x :: thawItems rest

def thawMembers : List (Str × FrozenJson) → List (Str × Value)
  | [] => []
  | (key, x) :: rest => (key, thawJson x) :: thawMembers rest

end

theorem thawItems_eq (items : List FrozenJson) : thawItems items = items.map thawJson := by
  induction items with
  | nil => rfl
  | cons x rest ih => rw [thawItems, ih, List.map_cons]

theorem thawMembers_eq (members : List (Str × FrozenJson)) :
    thawMembers members = members.map (Prod.map id thawJson) := by
  induction members with
  | nil => rfl
  | cons member rest ih => rw [thawMembers, ih, List.map_cons, Prod.map, id]

theorem freezeMembers_eq (items : List (Value × Value)) :
    freezeMembers items = items.map (Prod.map id freezeJson) := by
  induction items with
  | nil => rfl
  | cons item rest ih => rw [freezeMembers, ih, List.map_cons, Prod.map, id]

theorem freezeItems_eq (items : List Value) : freezeItems items = items.mapM freezeJson := by
  induction items with
  | nil => rfl
  | cons x rest ih => rw [freezeItems, ih, List.mapM_cons]

theorem frozenMembers_ok_iff {items : List (Value × Except Exn FrozenJson)}
    {members : List (Str × FrozenJson)} :
    frozenMembers items = .ok members ↔ items = named (members.map (Prod.map id .ok)) := by
  induction items generalizing members with
  | nil => cases members <;> simp [frozenMembers]
  | cons item rest ih =>
      obtain ⟨key, value⟩ := item
      cases key with
      | str key =>
          simp only [frozenMembers, Python.bind_eq_ok, ih]
          cases members with
          | nil => simp [pure, Except.pure, named]
          | cons member members =>
              constructor
              · rintro ⟨j, rfl, js, rfl, ⟨⟩⟩
                rfl
              · intro h
                obtain ⟨hhead, rfl⟩ := List.cons.inj h
                cases hhead
                exact ⟨member.2, rfl, members, rfl, rfl⟩
      | _ =>
          refine iff_of_false nofun fun h => ?_
          cases members <;> cases h

theorem freeze_dict_ok_iff {items : List (Value × Value)} {j : FrozenJson} :
    freezeJson (.dict items) = .ok j ↔ ∃ members,
      Json.sortKeys (Dict.ofList (freezeMembers items)).items =
        some (named (members.map (Prod.map id .ok))) ∧ j = .mapping members := by
  rw [freezeJson]
  simp only [Python.bind_eq_ok, frozenMembers_ok_iff, sortedKeys]
  constructor
  · rintro ⟨sorted, hsorted, members, rfl, ⟨⟩⟩
    split at hsorted
    · rename_i hkeys
      obtain rfl := Except.ok.inj hsorted
      exact ⟨members, hkeys, rfl⟩
    · cases hsorted
  · rintro ⟨members, hkeys, rfl⟩
    exact ⟨_, by rw [hkeys], members, rfl, rfl⟩

-- Freezing sorts every mapping.
theorem freeze_ordered {v : Value} {j : FrozenJson} (h : freezeJson v = .ok j) :
    j.ordered = true := by
  have hsequence : ∀ (items : List Value) (j : FrozenJson),
      (∀ x ∈ items, ∀ j, freezeJson x = .ok j → j.ordered = true) →
      (freezeItems items).map .tuple = .ok j → j.ordered = true := by
    intro items j ih hj
    obtain ⟨frozen, hfrozen, rfl⟩ := Python.map_eq_ok.mp hj
    rw [freezeItems_eq, Python.mapM_eq_ok] at hfrozen
    refine FrozenJson.orderedItems_iff.mpr fun j hmem => ?_
    have hm : .ok j ∈ items.map freezeJson := hfrozen ▸ List.mem_map_of_mem hmem
    obtain ⟨x, hx, hxj⟩ := List.mem_map.mp hm
    exact ih x hx j hxj
  induction v using Value.inside generalizing j with
  | none | bool b | int i | str s =>
      cases h
      rfl
  | float x =>
      cases x with
      | finite x =>
          cases h
          rfl
      | infinite | nan => cases h
  | list items ih | tuple items ih => exact hsequence items j (fun x hx j hj => ih x hx hj) h
  | dict items ih =>
      obtain ⟨members, hsorted, rfl⟩ := freeze_dict_ok_iff.mp h
      obtain ⟨hp, hascending⟩ := Json.ascending_of_sortKeys (Dict.nodup _) hsorted
      have hkeys := List.pairwise_map.mp hascending
      refine FrozenJson.ordered_mapping_iff.mpr ⟨hkeys, fun member hm => ?_⟩
      have hmem : (Value.str member.1, Except.ok member.2) ∈ freezeMembers items :=
        Dict.mem_ofList (hp.mem_iff.mpr (List.mem_map.mpr ⟨_, List.mem_map_of_mem hm, rfl⟩))
      rw [freezeMembers_eq] at hmem
      obtain ⟨item, hitem, he⟩ := List.mem_map.mp hmem
      exact ih item hitem (Prod.mk.inj he).2
  | object => cases h

theorem thaw_mapping {members : List (Str × FrozenJson)}
    (h : members.Pairwise fun a b => a.1 < b.1) :
    thawJson (.mapping members) = .dict (named (members.map (Prod.map id thawJson))) := by
  have hsorted : (members.map (Prod.map id thawJson)).Pairwise fun a b => a.1 < b.1 :=
    List.pairwise_map.mpr h
  rw [thawJson, thawMembers_eq, Python.sorted_eq_self (hsorted.imp le_of_lt)]

-- Freezing does not look at the order of a dict's items.
theorem freeze_dict_of_perm {items : List (Value × Value)} {members : List (Str × FrozenJson)}
    (hp : (freezeMembers items).Perm (named (members.map (Prod.map id .ok))))
    (hm : members.Pairwise fun a b => a.1 < b.1) :
    freezeJson (.dict items) = .ok (.mapping members) := by
  have hsorted : (members.map (Prod.map id Except.ok : _ → Str × Except Exn FrozenJson)).Pairwise
      fun a b => a.1 < b.1 := List.pairwise_map.mpr hm
  have hn : ((freezeMembers items).map Prod.fst).Nodup := by
    rw [(hp.map Prod.fst).nodup_iff]
    exact Json.nodup_named hsorted
  refine freeze_dict_ok_iff.mpr ⟨members, ?_, rfl⟩
  rw [Dict.items_ofList hn]
  exact Json.sortKeys_of_perm hp hsorted

-- Whatever reads as the thawed value freezes to the value again.
theorem freeze_of_same {j : FrozenJson} (hj : j.ordered = true) {v : Value}
    (h : Same (thawJson j) v) : freezeJson v = .ok j := by
  induction j using FrozenJson.inside generalizing v with
  | none | int i | float x =>
      obtain rfl := (Json.same_scalar_iff (by exact rfl)).mp h
      rfl
  | bool b =>
      obtain rfl := (Json.same_scalar_iff (by cases b <;> rfl)).mp h
      rfl
  | str s =>
      obtain rfl := Json.same_str_iff.mp h
      rfl
  | tuple items ih =>
      rw [thawJson, thawItems_eq] at h
      obtain ⟨values, rfl, hsame⟩ := Json.same_list_iff.mp h
      have hinside := FrozenJson.orderedItems_iff.mp hj
      obtain ⟨hlength, hzip⟩ := List.forall₂_iff_zip.mp (List.forall₂_map_left_iff.mp hsame)
      have hvalues : freezeItems values = .ok items := by
        rw [freezeItems_eq]
        refine Python.mapM_of_forall₂ (List.forall₂_iff_zip.mpr ⟨hlength, fun {j v} hjv => ?_⟩)
        have hj := (List.of_mem_zip hjv).1
        exact ih j hj (hinside j hj) (hzip hjv)
      rw [freezeJson, hvalues, Except.map]
  | mapping members ih =>
      obtain ⟨hkeys, hinside⟩ := FrozenJson.ordered_mapping_iff.mp hj
      rw [thaw_mapping hkeys] at h
      obtain ⟨items, rfl, hperm⟩ := Json.same_dict h
      have hascending : (members.map (Prod.map id thawJson)).Pairwise fun a b => a.1 < b.1 :=
        List.pairwise_map.mpr hkeys
      have hn := hperm.nodup_iff.mp (Json.nodup_named hascending)
      have hfreezes : ∀ item ∈ items, ∀ member ∈ members, item.1 = .str member.1 →
          freezeJson item.2 = .ok member.2 := by
        intro item hitem member hmember hkey
        have hthawed : (Value.str member.1, thawJson member.2) ∈
            named (members.map (Prod.map id thawJson)) :=
          List.mem_map.mpr ⟨_, List.mem_map_of_mem hmember, rfl⟩
        have hitem' : (Value.str member.1, item.2) ∈ items := hkey ▸ hitem
        exact ih member hmember (hinside member hmember) (Json.same_dict_values h hn hthawed hitem')
      have hn' : ((named (members.map (Prod.map id Except.ok : _ → Str × Except Exn FrozenJson))).map
          Prod.fst).Nodup := Json.nodup_named (List.pairwise_map.mpr hkeys)
      refine freeze_dict_of_perm ?_ hkeys
      rw [Json.named_map, List.map_map] at hperm
      rw [Json.named_map] at hn' ⊢
      rw [freezeMembers_eq]
      refine (List.perm_ext_iff_of_nodup ?_ (.of_map _ hn')).mpr fun p => ?_
      · refine .of_map Prod.fst ?_
        rwa [List.map_map]
      constructor
      · intro hp
        obtain ⟨item, hitem, rfl⟩ := List.mem_map.mp hp
        have hkey := hperm.mem_iff.mpr (List.mem_map_of_mem hitem)
        obtain ⟨member, hmember, hkey⟩ := List.mem_map.mp hkey
        refine List.mem_map.mpr ⟨member, hmember, ?_⟩
        rw [Prod.map, hfreezes item hitem member hmember hkey.symm, id, ← hkey]
        rfl
      · intro hp
        obtain ⟨member, hmember, rfl⟩ := List.mem_map.mp hp
        have hkey := hperm.mem_iff.mp (List.mem_map_of_mem hmember)
        obtain ⟨item, hitem, hkey⟩ := List.mem_map.mp hkey
        refine List.mem_map.mpr ⟨item, hitem, ?_⟩
        rw [Prod.map, hfreezes item hitem member hmember hkey, id, hkey]
        rfl

-- A JSON value is what it freezes to.
theorem same_thaw {v : Value} {j : FrozenJson} (hv : isJson v = true) (h : freezeJson v = .ok j) :
    Same (thawJson j) v := by
  induction v using Value.inside generalizing j with
  | none | int i =>
      obtain rfl := Except.ok.inj h
      exact .scalar (by exact rfl)
  | bool b =>
      obtain rfl := Except.ok.inj h
      cases b <;> exact .scalar (by exact rfl)
  | float x =>
      cases x with
      | finite x =>
          obtain rfl := Except.ok.inj h
          exact .scalar (by exact rfl)
      | infinite | nan => cases hv
  | str s =>
      obtain rfl := Except.ok.inj h
      exact .str
  | list items ih =>
      obtain ⟨frozen, hfrozen, rfl⟩ := Python.map_eq_ok.mp h
      rw [freezeItems_eq, Python.mapM_eq_ok] at hfrozen
      rw [thawJson, thawItems_eq]
      obtain ⟨hlength, hzip⟩ := Json.map_eq_zip hfrozen
      refine .list (List.forall₂_map_left_iff.mpr
        (List.Forall₂.flip (List.forall₂_iff_zip.mpr ⟨hlength, fun {x j} hxj => ?_⟩)))
      have hx := (List.of_mem_zip hxj).1
      exact ih x hx (Json.isJsonList_iff.mp hv x hx) (hzip x j hxj)
  | dict items ih =>
      obtain ⟨members, hsorted, rfl⟩ := freeze_dict_ok_iff.mp h
      obtain ⟨hn, hinside⟩ := Bool.and_eq_true_iff.mp hv
      have hinside := Json.isJsonItems_iff.mp hinside
      have hkeys : ((freezeMembers items).map Prod.fst).Nodup := by
        rw [freezeMembers_eq, List.map_map]
        exact of_decide_eq_true hn
      rw [Dict.items_ofList hkeys] at hsorted
      obtain ⟨hperm, hascending⟩ := Json.ascending_of_sortKeys hkeys hsorted
      have hmembers := List.pairwise_map.mp hascending
      rw [thaw_mapping hmembers, Json.named_map]
      rw [freezeMembers_eq, Json.named_map] at hperm
      obtain ⟨items', hmap, hperm'⟩ :=
        (congrFun₂ (List.eq_map_comp_perm (Prod.map id freezeJson)) _ _).mpr hperm.symm
      obtain ⟨hlength, hzip⟩ := Json.map_eq_zip hmap
      refine .dict .rfl hperm'.symm ?_ ?_
      · have hfst := congrArg (List.map Prod.fst) hmap
        simpa [Function.comp_def] using hfst
      · rw [List.map_map, List.forall₂_map_left_iff, List.forall₂_map_right_iff, List.forall₂_iff_zip]
        refine ⟨hlength, fun {member item} hm => ?_⟩
        have hitem := hperm'.mem_iff.mp (List.of_mem_zip hm).2
        exact ih item hitem (hinside item hitem).2 (Prod.mk.inj (hzip member item hm)).2.symm
  | tuple | object => cases hv

theorem isJson_thaw {j : FrozenJson} (hj : j.ordered = true) : isJson (thawJson j) = true := by
  induction j using FrozenJson.inside with
  | none | bool b | int i | float x | str s => rfl
  | tuple items ih =>
      rw [thawJson, thawItems_eq, isJson, Json.isJsonList_iff]
      simp only [List.mem_map]
      rintro _ ⟨x, hx, rfl⟩
      exact ih x hx (FrozenJson.orderedItems_iff.mp hj x hx)
  | mapping members ih =>
      obtain ⟨hkeys, hinside⟩ := FrozenJson.ordered_mapping_iff.mp hj
      have hascending : (members.map (Prod.map id thawJson)).Pairwise fun a b => a.1 < b.1 :=
        List.pairwise_map.mpr hkeys
      rw [thaw_mapping hkeys, isJson, Bool.and_eq_true, decide_eq_true_eq, Json.isJsonItems_iff]
      refine ⟨Json.nodup_named hascending, fun item hitem => ?_⟩
      obtain ⟨p, hp, rfl⟩ := List.mem_map.mp hitem
      obtain ⟨member, hmember, rfl⟩ := List.mem_map.mp hp
      exact ⟨rfl, ih member hmember (hinside member hmember)⟩

end PerpetuaCore.Graph
