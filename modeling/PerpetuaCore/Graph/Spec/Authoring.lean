import PerpetuaCore.Graph.Spec.RoundTrip

namespace PerpetuaCore.Graph

open Python (Str Value Dict)
open Json (Same isStr named)

-- Metadata is known by its text.
theorem Metadata.text_injective : Function.Injective Metadata.text := by
  intro m m' h
  have hj : Json.isJson m.thaw = true := isJson_thaw m.ordered
  have hj' : Json.isJson m'.thaw = true := isJson_thaw m'.ordered
  have hdumps : Json.dumpsUnicode m.thaw = Json.dumpsUnicode m'.thaw := by
    rw [Option.eq_some_of_isSome (Json.dumpsUnicode_isSome hj),
      Option.eq_some_of_isSome (Json.dumpsUnicode_isSome hj')]
    exact congrArg some h
  obtain ⟨d, hd⟩ : ∃ d, Json.toDoc id m.thaw = some d := Json.toDoc_isSome hj
  have hd' : Json.toDoc id m'.thaw = some d := Json.dumpsUnicode_eq_iff.mp hdumps ▸ hd
  have hsame := freezeMetadata_of_same (Json.same_of_toDoc hj hj' hd hd')
  exact Except.ok.inj (hsame.symm.trans (freezeMetadata_of_same (Json.same_refl hj')))

theorem freezeItems_of_same {items items' : List Value} {frozen : List FrozenJson}
    (hsame : List.Forall₂ Same items items')
    (ih : ∀ x ∈ items, ∀ y j, Same x y → freezeJson x = .ok j → freezeJson y = .ok j)
    (h : freezeItems items = .ok frozen) : freezeItems items' = .ok frozen := by
  induction hsame generalizing frozen with
  | nil => exact h
  | @cons x y _ _ hxy _ ihs =>
      obtain ⟨j, hj, h⟩ := Python.bind_eq_ok.mp h
      obtain ⟨js, hjs, h⟩ := Python.bind_eq_ok.mp h
      rw [freezeItems, ih x List.mem_cons_self y j hxy hj,
        ihs (fun x hx => ih x (List.mem_cons_of_mem _ hx)) hjs]
      exact h

theorem members_of_related {K V W : Type} {R : V → V → Prop} {f : V → W} {a b : List (K × V)}
    (hkeys : a.map Prod.fst = b.map Prod.fst)
    (hvalues : List.Forall₂ R (a.map Prod.snd) (b.map Prod.snd))
    (hf : ∀ x ∈ a, ∀ v, R x.2 v → f v = f x.2) : a.map (Prod.map id f) = b.map (Prod.map id f) := by
  induction a generalizing b with
  | nil =>
      obtain rfl := List.map_eq_nil_iff.mp hkeys.symm
      rfl
  | cons x rest ih =>
      cases b with
      | nil => cases hkeys
      | cons y rest' =>
          obtain ⟨hkey, hkeys⟩ := List.cons.inj hkeys
          obtain ⟨hvalue, hvalues⟩ := List.forall₂_cons.mp hvalues
          rw [List.map_cons, List.map_cons, ih hkeys hvalues fun x hx => hf x (List.mem_cons_of_mem _ hx)]
          rw [Prod.map, Prod.map, id, id, hkey, hf x List.mem_cons_self y.2 hvalue]

theorem freezes_item {items : List Value} {frozen : List FrozenJson}
    (h : freezeItems items = .ok frozen) : ∀ x ∈ items, ∃ j, freezeJson x = .ok j := by
  intro x hx
  rw [freezeItems_eq, Python.mapM_eq_ok] at h
  have hm : freezeJson x ∈ frozen.map .ok := h ▸ List.mem_map_of_mem hx
  obtain ⟨j, -, hj⟩ := List.mem_map.mp hm
  exact ⟨j, hj.symm⟩

theorem freezes_member {items : List (Value × Value)} {j : FrozenJson}
    (hn : (items.map Prod.fst).Nodup) (h : freezeJson (.dict items) = .ok j) :
    ∀ x ∈ items, ∃ j, freezeJson x.2 = .ok j := by
  intro x hx
  obtain ⟨members, hsorted, rfl⟩ := freeze_dict_ok_iff.mp h
  have hkeys : ((freezeMembers items).map Prod.fst).Nodup := by
    rw [freezeMembers_eq, List.map_map]
    exact hn
  rw [Dict.items_ofList hkeys] at hsorted
  have hperm := (Json.ascending_of_sortKeys hkeys hsorted).1
  rw [freezeMembers_eq] at hperm
  obtain ⟨_, hmember, he⟩ := List.mem_map.mp (hperm.mem_iff.mp (List.mem_map_of_mem hx))
  obtain ⟨member, -, rfl⟩ := List.mem_map.mp hmember
  exact ⟨member.2, (Prod.mk.inj he).2.symm⟩

-- What can be frozen reads as itself.
theorem same_of_freezes {v : Value} {j : FrozenJson} (hv : v.wellFormed = true)
    (h : freezeJson v = .ok j) : Same v v := by
  induction v using Value.inside generalizing j with
  | none | int i => exact .scalar rfl
  | bool b => cases b <;> exact .scalar rfl
  | float x =>
      cases x with
      | finite x => exact .scalar rfl
      | infinite | nan => cases h
  | str s => exact .str
  | list items ih =>
      obtain ⟨frozen, hfrozen, -⟩ := Python.map_eq_ok.mp h
      refine .list (List.forall₂_same.mpr fun x hx => ?_)
      obtain ⟨j, hj⟩ := freezes_item hfrozen x hx
      exact ih x hx (Value.wellFormedList_iff.mp hv x hx) hj
  | tuple items ih =>
      obtain ⟨frozen, hfrozen, -⟩ := Python.map_eq_ok.mp h
      refine .tuple (List.forall₂_same.mpr fun x hx => ?_)
      obtain ⟨j, hj⟩ := freezes_item hfrozen x hx
      exact ih x hx (Value.wellFormedList_iff.mp hv x hx) hj
  | dict items ih =>
      obtain ⟨hn, hinside⟩ := Bool.and_eq_true_iff.mp hv
      refine .dict .rfl .rfl rfl (List.forall₂_same.mpr fun x hx => ?_)
      obtain ⟨item, hm, rfl⟩ := List.mem_map.mp hx
      obtain ⟨j, hj⟩ := freezes_member (of_decide_eq_true hn) h item hm
      exact ih item hm (Value.wellFormedItems_iff.mp hinside item hm) hj
  | object => cases h

-- The order in which dicts were filled, at any depth, does not reach the frozen value.
theorem freeze_same {v w : Value} {j : FrozenJson} (hv : v.wellFormed = true) (h : Same v w)
    (hj : freezeJson v = .ok j) : freezeJson w = .ok j := by
  induction v using Value.inside generalizing w j with
  | none | bool b | int i | float x | object =>
      cases h
      exact hj
  | str s =>
      obtain rfl := Json.same_str_iff.mp h
      exact hj
  | list items ih =>
      cases h with
      | scalar hv => cases hv
      | list hitems =>
          obtain ⟨frozen, hfrozen, rfl⟩ := Python.map_eq_ok.mp hj
          have hinside := Value.wellFormedList_iff.mp hv
          rw [freezeJson, freezeItems_of_same hitems (fun x hx y j => ih x hx (hinside x hx)) hfrozen]
          rfl
  | tuple items ih =>
      cases h with
      | scalar hv => cases hv
      | tuple hitems =>
          obtain ⟨frozen, hfrozen, rfl⟩ := Python.map_eq_ok.mp hj
          have hinside := Value.wellFormedList_iff.mp hv
          rw [freezeJson, freezeItems_of_same hitems (fun x hx y j => ih x hx (hinside x hx)) hfrozen]
          rfl
  | dict items ih =>
      cases h with
      | scalar hv => cases hv
      | @dict _ b a' b' ha hb hkeys hvalues =>
          obtain ⟨hn, hinside⟩ := Bool.and_eq_true_iff.mp hv
          have hinside := Value.wellFormedItems_iff.mp hinside
          have hfreezes := freezes_member (of_decide_eq_true hn) hj
          obtain ⟨members, hsorted, rfl⟩ := freeze_dict_ok_iff.mp hj
          have hnodup : ((freezeMembers items).map Prod.fst).Nodup := by
            rw [freezeMembers_eq, List.map_map]
            exact of_decide_eq_true hn
          rw [Dict.items_ofList hnodup] at hsorted
          obtain ⟨hperm, hascending⟩ := Json.ascending_of_sortKeys hnodup hsorted
          rw [freezeMembers_eq] at hperm
          have hread : a'.map (Prod.map id freezeJson) = b'.map (Prod.map id freezeJson) := by
            refine members_of_related hkeys hvalues fun x hx w hsame => ?_
            have hx := ha.mem_iff.mpr hx
            obtain ⟨j, hj⟩ := hfreezes x hx
            rw [hj, ih x hx (hinside x hx) hsame hj]
          refine freeze_dict_of_perm ?_ (List.pairwise_map.mp hascending :)
          rw [freezeMembers_eq]
          have hitems := ha.map (Prod.map id freezeJson)
          rw [hread] at hitems
          exact (hb.map _).trans (hitems.symm.trans hperm)

-- Metadata as annotated: a mapping.
def isMapping : Value → Bool
  | .dict _ => true
  | _ => false

theorem freezeMetadata_same {v w : Value} {m : Metadata} (hv : v.wellFormed = true)
    (hd : isMapping v = true) (h : Same v w) (hm : freezeMetadata v = .ok m) :
    freezeMetadata w = .ok m := by
  cases v with
  | dict items =>
      obtain ⟨items', rfl, hkeys⟩ := Json.same_dict h
      have hn := of_decide_eq_true (Bool.and_eq_true_iff.mp hv).1
      rw [freezeMetadata_dict_iff hn] at hm
      exact (freezeMetadata_dict_iff (hkeys.nodup_iff.mp hn)).mpr (freeze_same hv h hm)
  | _ => cases hd

-- Records that differ only where their sort keys do not look.
structure Distinguished (nodes : List NodeSpec) (edges : List EdgeSpec)
    (reducers : List ReducerSpec) (joins : List JoinSpec) : Prop where
  nodes : ∀ a ∈ nodes, ∀ b ∈ nodes, a.name = b.name →
    orEmpty a.implementationRef = orEmpty b.implementationRef → a.metadata = b.metadata → a = b
  edges : ∀ a ∈ edges, ∀ b ∈ edges, a.source = b.source → a.kind = b.kind → a.target = b.target →
    orEmpty a.routerRef = orEmpty b.routerRef → a.declaredTargets = b.declaredTargets →
    a.metadata = b.metadata → a = b
  reducers : ∀ a ∈ reducers, ∀ b ∈ reducers, a.field = b.field → a = b
  joins : ∀ a ∈ joins, ∀ b ∈ joins, a.source = b.source → a.kind = b.kind → a = b

theorem orEmpty_eq_iff {a b : Value} (ha : isRef a = true) (hb : isRef b = true) :
    orEmpty a = orEmpty b ↔ refText a = refText b := by
  rw [orEmpty_ref ha, orEmpty_ref hb, Value.str.injEq]

theorem nodeKey_eq_iff {a b : NodeSpec} (ha : a.typed = true) (hb : b.typed = true) :
    nodeKey a = nodeKey b ↔ a.name = b.name ∧
      orEmpty a.implementationRef = orEmpty b.implementationRef ∧ a.metadata = b.metadata := by
  rw [orEmpty_eq_iff ha hb, ← Metadata.text_injective.eq_iff]
  simp [nodeKey]

theorem EdgeKind.text_injective : Function.Injective EdgeKind.text := by
  intro a b h
  cases a <;> cases b <;> first | rfl | exact absurd h (by decide)

theorem ReducerKind.text_injective : Function.Injective ReducerKind.text := by
  intro a b h
  cases a <;> cases b <;> first | rfl | exact absurd h (by decide)

theorem JoinKind.text_injective : Function.Injective JoinKind.text := by
  intro a b h
  cases a <;> cases b <;> first | rfl | exact absurd h (by decide)

theorem map_refText_eq_iff {a b : List Value} (ha : a.all isStr = true) (hb : b.all isStr = true) :
    a.map refText = b.map refText ↔ a = b := by
  refine ⟨fun h => ?_, fun h => h ▸ rfl⟩
  rw [strings_of_typed ha, strings_of_typed hb, h]

-- The kind of an edge settles whether it has a target.
theorem edgeKey_eq_iff {a b : EdgeSpec} (ha : a.typed = true) (hb : b.typed = true) :
    edgeKey a = edgeKey b ↔ a.source = b.source ∧ a.kind = b.kind ∧ a.target = b.target ∧
      orEmpty a.routerRef = orEmpty b.routerRef ∧ a.declaredTargets = b.declaredTargets ∧
      a.metadata = b.metadata := by
  simp only [EdgeSpec.typed, Bool.and_eq_true] at ha hb
  have htarget : a.kind = b.kind → (refText a.target = refText b.target ↔ a.target = b.target) := by
    intro hkind
    refine ⟨fun h => ?_, fun h => h ▸ rfl⟩
    obtain ⟨_, hchecked, -⟩ := a.declared
    obtain ⟨_, hchecked', -⟩ := b.declared
    obtain ⟨hnone, hsome, -⟩ := checkEdge_eq_ok.mp hchecked
    obtain ⟨hnone', hsome', -⟩ := checkEdge_eq_ok.mp hchecked'
    by_cases hk : a.kind = .conditional
    · rw [hnone hk, hnone' (hkind ▸ hk)]
    · have hne := (hsome hk).1
      have hne' := (hsome' (hkind ▸ hk)).1
      have href := ha.1.1
      have href' := hb.1.1
      generalize a.target = t at *
      generalize b.target = t' at *
      cases t with
      | none => cases hne rfl
      | str s =>
          cases t' with
          | none => cases hne' rfl
          | str s' => exact congrArg Value.str h
          | _ => cases href'
      | _ => cases href
  rw [orEmpty_eq_iff ha.1.2 hb.1.2, ← map_refText_eq_iff ha.2 hb.2, ← Metadata.text_injective.eq_iff]
  simp only [edgeKey, List.cons.injEq, and_true, EdgeKind.text_injective.eq_iff]
  constructor
  · rintro ⟨hs, hk, ht, h⟩
    exact ⟨hs, hk, (htarget hk).mp ht, h⟩
  · rintro ⟨hs, hk, ht, h⟩
    exact ⟨hs, hk, (htarget hk).mpr ht, h⟩

namespace GraphSpec

theorem keptJoins_of_perm {edges : List EdgeSpec} {joins joins' : List JoinSpec}
    (h : joins'.Perm joins) : (keptJoins edges joins').Perm (keptJoins edges joins) := by
  have himplied : implied edges joins' = implied edges joins := by
    funext join
    rw [implied, implied, h.countP_eq]
  rw [keptJoins, keptJoins, himplied]
  exact h.filter _

-- Joins of one source are no default that is left out.
theorem kept_of_tie {edges : List EdgeSpec} {joins : List JoinSpec} {a b : JoinSpec}
    (ha : a ∈ joins) (hb : b ∈ joins) (hne : a ≠ b) (hsource : a.source = b.source) :
    a ∈ keptJoins edges joins := by
  have hcount : 2 ≤ joins.countP (·.source = a.source) := by
    classical
    have hpair : [a, b].Subperm joins := by
      refine List.subperm_of_subset ?_ ?_
      · simpa using hne
      · simp [ha, hb]
    simpa [hsource] using hpair.countP_le (fun j : JoinSpec => decide (j.source = a.source))
  refine List.mem_filter.mpr ⟨ha, ?_⟩
  have hmany : joins.countP (·.source = a.source) ≠ 1 := by omega
  simp [implied, hmany]

theorem joinKey_eq_iff {a b : JoinSpec} : joinKey a = joinKey b ↔ a.source = b.source ∧ a.kind = b.kind := by
  simp [joinKey, JoinKind.text_injective.eq_iff]

-- The order in which joins are declared is forgotten exactly when none tie.
theorem sorted_keptJoins_iff {edges : List EdgeSpec} {joins : List JoinSpec} :
    (∀ joins' : List JoinSpec, joins'.Perm joins →
        Python.sorted joinKey (keptJoins edges joins') = Python.sorted joinKey (keptJoins edges joins)) ↔
      ∀ a ∈ joins, ∀ b ∈ joins, a.source = b.source → a.kind = b.kind → a = b := by
  constructor
  · intro h
    have hkept : ∀ a ∈ keptJoins edges joins, ∀ b ∈ keptJoins edges joins,
        joinKey a = joinKey b → a = b := by
      refine Python.sorted_perm_iff.mp fun ys hys => ?_
      have hperm : (ys ++ joins.filter (implied edges joins)).Perm joins := by
        refine (List.perm_append_comm.trans ?_)
        exact (hys.append_left _).trans (List.filter_append_perm _ joins)
      have himplied : implied edges (ys ++ joins.filter (implied edges joins)) = implied edges joins := by
        funext join
        rw [implied, implied, hperm.countP_eq]
      have hself : keptJoins edges (ys ++ joins.filter (implied edges joins)) = ys := by
        rw [keptJoins, himplied, List.filter_append, List.filter_eq_self.mpr, List.filter_eq_nil_iff.mpr,
          List.append_nil]
        · intro join hm
          simpa using (List.mem_filter.mp hm).2
        · intro join hm
          exact (List.mem_filter.mp (hys.mem_iff.mp hm)).2
      have hsorted := h _ hperm
      rwa [hself] at hsorted
    intro a ha b hb hsource hkind
    by_contra hne
    exact hne (hkept a (kept_of_tie ha hb hne hsource) b
      (kept_of_tie hb ha (Ne.symm hne) hsource.symm) (joinKey_eq_iff.mpr ⟨hsource, hkind⟩))
  · intro h joins' hp
    refine (Python.sorted_perm_iff.mpr fun a ha b hb hkey => ?_) _ (keptJoins_of_perm hp)
    obtain ⟨hsource, hkind⟩ := joinKey_eq_iff.mp hkey
    exact h a (List.mem_of_mem_filter ha) b (List.mem_of_mem_filter hb) hsource hkind

theorem mapping_or_empty {metadata : Value} (h : isMapping metadata = true) :
    (if truthy metadata then metadata else .dict []) = metadata := by
  cases metadata with
  | dict items => cases items <;> rfl
  | _ => cases h

theorem same_of_metadata {metadata : Value} {m : Metadata}
    (hm : metadata = .none ∨ isMapping metadata = true) (hw : metadata.wellFormed = true)
    (h : freezeMetadata (if truthy metadata then metadata else .dict []) = .ok m) :
    Same metadata metadata := by
  rcases hm with rfl | hm
  · exact .scalar rfl
  · rw [mapping_or_empty hm] at h
    cases metadata with
    | dict items =>
        have hn := of_decide_eq_true (Bool.and_eq_true_iff.mp hw).1
        exact same_of_freezes hw ((freezeMetadata_dict_iff hn).mp h)
    | _ => cases hm

variable [Sha256] {s : GraphSpec}

-- The order in which a graph is authored leaves its spec alone exactly when the sort keys tell
-- its records apart. Within a record the order of metadata never matters.
theorem order_free_iff {maxSteps : Int} {nodes : List NodeSpec} {edges : List EdgeSpec}
    {metadata : Value} {schemaVersion : Option Str} {reducers : List ReducerSpec}
    {joins : List JoinSpec} (hn : ∀ n ∈ nodes, n.typed = true) (he : ∀ e ∈ edges, e.typed = true)
    (hm : metadata = .none ∨ isMapping metadata = true) (hw : metadata.wellFormed = true)
    (h : create maxSteps nodes edges metadata schemaVersion reducers joins = .ok s) :
    ((∀ nodes' edges' metadata' reducers' joins', nodes'.Perm nodes → edges'.Perm edges →
        Same metadata metadata' → reducers'.Perm reducers → joins'.Perm joins →
        create maxSteps nodes' edges' metadata' schemaVersion reducers' joins' = .ok s) ↔
      Distinguished nodes edges reducers joins) ∧
    (∀ name ref v w node, v.wellFormed = true → isMapping v = true → Same v w →
      NodeSpec.new name ref v = .ok node → NodeSpec.new name ref w = .ok node) ∧
    ∀ source kind target ref targets v w edge, v.wellFormed = true → isMapping v = true → Same v w →
      EdgeSpec.new source kind target ref targets v = .ok edge →
        EdgeSpec.new source kind target ref targets w = .ok edge := by
  obtain ⟨hfrozen, hsteps, hnodes, hedges, hreducers, hjoins, hversion, hid⟩ := (create_typed hn he).mp h
  have hsame : Same metadata metadata := same_of_metadata hm hw hfrozen
  refine ⟨⟨fun hfree => ?_, fun hd => ?_⟩, ?_, ?_⟩
  · constructor
    · intro a ha b hb hname href hmetadata
      refine Python.sorted_perm_iff.mp (fun ys hys => ?_) a ha b hb
        ((nodeKey_eq_iff (hn a ha) (hn b hb)).mpr ⟨hname, href, hmetadata⟩)
      have hys' := (create_typed (fun n hm => hn n (hys.mem_iff.mp hm)) he).mp
        (hfree ys edges metadata reducers joins hys .rfl hsame .rfl .rfl)
      exact hys'.2.2.1.symm.trans hnodes
    · intro a ha b hb hsource hkind htarget href htargets hmetadata
      refine Python.sorted_perm_iff.mp (fun ys hys => ?_) a ha b hb
        ((edgeKey_eq_iff (he a ha) (he b hb)).mpr ⟨hsource, hkind, htarget, href, htargets, hmetadata⟩)
      have hys' := (create_typed hn (fun e hm => he e (hys.mem_iff.mp hm))).mp
        (hfree nodes ys metadata reducers joins .rfl hys hsame .rfl .rfl)
      exact hys'.2.2.2.1.symm.trans hedges
    · refine fun a ha b hb hfield => Python.sorted_perm_iff.mp (fun ys hys => ?_) a ha b hb hfield
      have hys' := (create_typed hn he).mp (hfree nodes edges metadata ys joins .rfl .rfl hsame hys .rfl)
      exact hys'.2.2.2.2.1.symm.trans hreducers
    · refine (@sorted_keptJoins_iff s.edges joins).mp fun ys hys => ?_
      have hys' := (create_typed hn he).mp (hfree nodes edges metadata reducers ys .rfl .rfl hsame .rfl hys)
      exact hys'.2.2.2.2.2.1.symm.trans hjoins
  · intro nodes' edges' metadata' reducers' joins' hpn hpe hmeta hpr hpj
    have hn' : ∀ n ∈ nodes', n.typed = true := fun n hm => hn n (hpn.mem_iff.mp hm)
    have he' : ∀ e ∈ edges', e.typed = true := fun e hm => he e (hpe.mem_iff.mp hm)
    refine (create_typed hn' he').mpr ⟨?_, hsteps, ?_, ?_, ?_, ?_, hversion, hid⟩
    · rcases hm with rfl | hm
      · cases hmeta
        exact hfrozen
      · rw [mapping_or_empty hm] at hfrozen
        have hm' : isMapping metadata' = true := by
          cases metadata with
          | dict items =>
              obtain ⟨items', rfl, -⟩ := Json.same_dict hmeta
              rfl
          | _ => cases hm
        rw [mapping_or_empty hm']
        exact freezeMetadata_same hw hm hmeta hfrozen
    · rw [hnodes]
      refine (Python.sorted_perm_iff.mpr fun a ha b hb hkey => ?_) nodes' hpn |>.symm
      obtain ⟨hname, href, hmetadata⟩ := (nodeKey_eq_iff (hn a ha) (hn b hb)).mp hkey
      exact hd.nodes a ha b hb hname href hmetadata
    · rw [hedges]
      refine (Python.sorted_perm_iff.mpr fun a ha b hb hkey => ?_) edges' hpe |>.symm
      obtain ⟨hsource, hkind, htarget, href, htargets, hmetadata⟩ :=
        (edgeKey_eq_iff (he a ha) (he b hb)).mp hkey
      exact hd.edges a ha b hb hsource hkind htarget href htargets hmetadata
    · rw [hreducers]
      exact (Python.sorted_perm_iff.mpr hd.reducers reducers' hpr).symm
    · rw [hjoins]
      exact (sorted_keptJoins_iff.mpr hd.joins joins' hpj).symm
  · intro name ref v w node hv hmapping hvw hnew
    obtain ⟨hname, href, hfrozen⟩ := NodeSpec.new_eq_ok.mp hnew
    exact NodeSpec.new_eq_ok.mpr ⟨hname, href, freezeMetadata_same hv hmapping hvw hfrozen⟩
  · intro source kind target ref targets v w edge hv hmapping hvw hnew
    obtain ⟨hsource, hkind, htarget, href, hchecked, hcanonical, hfrozen⟩ := EdgeSpec.new_eq_ok.mp hnew
    exact EdgeSpec.new_eq_ok.mpr ⟨hsource, hkind, htarget, href, hchecked, hcanonical,
      freezeMetadata_same hv hmapping hvw hfrozen⟩

omit [Sha256] in
theorem order_free_iff_sample :
    letI := Sha256.verbatim
    ∃ s, sample = .ok s ∧ create 5 sampleNodes.reverse sampleEdges
      (.dict [("tags", .list [.int 1])]) none sampleReducers sampleJoins = .ok s := by
  let := Sha256.verbatim
  obtain ⟨s, hs⟩ : ∃ s, sample = .ok s := Python.exists_ok (by decide +kernel)
  have hdistinguished : Distinguished sampleNodes sampleEdges sampleReducers sampleJoins := by
    have hne : Str.ofString "b" ≠ Str.ofString "a" := by decide
    constructor
    · simp [sampleNodes, hne, hne.symm]
    · simp [sampleEdges]
    · simp [sampleReducers]
    · simp [sampleJoins]
  refine ⟨s, hs, ?_⟩
  have hfree := (order_free_iff (by decide) (by decide) (.inr rfl) (by decide) hs).1.mpr hdistinguished
  exact hfree _ _ _ _ _ (List.reverse_perm _) .rfl (Json.same_refl (by decide)) .rfl .rfl

def firstThenLast : List ReducerSpec :=
  [⟨"scratchpad", .first, .none, List.cons_ne_nil _ _, rfl⟩,
    ⟨"scratchpad", .last, .none, List.cons_ne_nil _ _, rfl⟩]

omit [Sha256] in
-- Two reducers of one field give another spec in the other order.
theorem reducers_swapped :
    ¬∀ [Sha256] (maxSteps nodes edges metadata schemaVersion reducers joins s),
      create maxSteps nodes edges metadata schemaVersion reducers joins = .ok s →
      ∀ nodes' edges' reducers' joins', nodes'.Perm nodes → edges'.Perm edges →
        reducers'.Perm reducers → joins'.Perm joins →
        ∃ s', create maxSteps nodes' edges' metadata schemaVersion reducers' joins' = .ok s' ∧
          s'.graphId = s.graphId := by
  intro h
  let := Sha256.verbatim
  obtain ⟨s, hs⟩ : ∃ s, create 1 [] [] .none none firstThenLast [] = .ok s :=
    Python.exists_ok (by decide +kernel)
  obtain ⟨s', hs', hid⟩ := h _ _ _ _ _ _ _ _ hs [] [] firstThenLast.reverse [] .rfl .rfl
    (List.reverse_perm _) .rfl
  have hids : (create 1 [] [] .none none firstThenLast.reverse []).map graphId =
      (create 1 [] [] .none none firstThenLast []).map graphId := by
    rw [hs, hs', Except.map, Except.map, hid]
  have hne : ((create 1 [] [] .none none firstThenLast.reverse []).map graphId).toOption ≠
      ((create 1 [] [] .none none firstThenLast []).map graphId).toOption := by decide +kernel
  exact hne (congrArg Except.toOption hids)

end GraphSpec

end PerpetuaCore.Graph
