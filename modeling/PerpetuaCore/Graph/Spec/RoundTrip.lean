import PerpetuaCore.Graph.Spec.Decode
import PerpetuaCore.Graph.Spec.Typed

namespace PerpetuaCore.Graph

open Python (Str Value Dict)
open Json (Same isStr isJson)

section Fields

variable {fields : List (Value × Value)} {w x : Value}

theorem same_field? (h : Same (.dict fields) w) (hn : decide (fields.map Prod.fst).Nodup = true)
    (key : String) : Option.Rel Same (field? (.dict fields) key) (field? w key) := by
  obtain ⟨items, rfl, -⟩ := Json.same_dict h
  exact Json.same_get? h (of_decide_eq_true hn) key

theorem required_of_same (h : Same (.dict fields) w)
    (hn : decide (fields.map Prod.fst).Nodup = true) (key : String)
    (hx : field? (.dict fields) key = some x) : ∃ y, required w key = .ok y ∧ Same x y := by
  have hrel := same_field? h hn key
  rw [hx] at hrel
  rw [required]
  generalize field? w key = read at hrel
  cases hrel with
  | some hxy => exact ⟨_, rfl, hxy⟩

theorem getOr_of_same (h : Same (.dict fields) w) (hn : decide (fields.map Prod.fst).Nodup = true)
    (key : String) (d : Value) (hx : field? (.dict fields) key = some x) :
    Same x (getOr w key d) := by
  have hrel := same_field? h hn key
  rw [hx] at hrel
  rw [getOr]
  generalize field? w key = read at hrel
  cases hrel with
  | some hxy => exact hxy

theorem getOr_of_missing (h : Same (.dict fields) w)
    (hn : decide (fields.map Prod.fst).Nodup = true) (key : String) (d : Value)
    (hx : field? (.dict fields) key = none) : getOr w key d = d := by
  have hrel := same_field? h hn key
  rw [hx] at hrel
  rw [getOr]
  generalize field? w key = read at hrel
  cases hrel with
  | none => rfl

theorem checkRecordFields_of_same [Builtins] {allowed : List String} {record : String}
    (h : Same (.dict fields) w)
    (hfields : ((fields.map Prod.fst).all fun key => allowed.any fun name => key = (name : Value)) =
      true) :
    checkRecordFields w allowed record = .ok () := by
  obtain ⟨items, rfl, hkeys⟩ := Json.same_dict h
  refine if_pos (List.filter_eq_nil_iff.mpr fun key hkey => ?_)
  have hallowed := List.all_eq_true.mp hfields key (hkeys.mem_iff.mpr hkey)
  simp [hallowed]

end Fields

theorem same_ref {ref w : Value} (hr : isRef ref = true) (h : Same ref w) : w = ref := by
  cases ref with
  | none => exact (Json.same_scalar_iff (by exact rfl)).mp h
  | str s => exact Json.same_str_iff.mp h
  | _ => cases hr

theorem same_strings {items items' : List Value} (hs : items.all isStr = true)
    (h : List.Forall₂ Same items items') : items' = items := by
  induction h with
  | nil => rfl
  | cons hxy _ ih =>
      rename_i x y _ _ _
      simp only [List.all_cons, Bool.and_eq_true] at hs
      rw [ih hs.2]
      cases x with
      | str s => rw [Json.same_str_iff.mp hxy]
      | _ => cases hs.1

-- Metadata that reads like the thawed metadata freezes to it.
theorem freezeMetadata_of_same {metadata : Metadata} {w : Value} (h : Same metadata.thaw w) :
    freezeMetadata w = .ok metadata := by
  obtain ⟨hkeys, -⟩ := FrozenJson.ordered_mapping_iff.mp metadata.ordered
  have hthaw := thaw_mapping hkeys
  rw [Metadata.thaw, hthaw] at h
  obtain ⟨items, rfl, hperm⟩ := Json.same_dict h
  have hascending : (metadata.members.map (Prod.map id thawJson)).Pairwise fun a b => a.1 < b.1 :=
    List.pairwise_map.mpr hkeys
  have hn := hperm.nodup_iff.mp (Json.nodup_named hascending)
  exact (freezeMetadata_dict_iff hn).mpr (freeze_of_same metadata.ordered (hthaw ▸ h))

variable {w : Value}

theorem same_quorum (join : JoinSpec) (h : Same join.quorum w) : w = join.quorum := by
  rcases join.quorum_cases with ⟨q, hq⟩ | hq
  all_goals
    rw [hq] at h ⊢
    exact (Json.same_scalar_iff (by exact rfl)).mp h

variable [Builtins]

-- A record is read again from whatever reads like what it is written as.
theorem nodeOf_of_same {node : NodeSpec} (ht : node.typed = true) (h : Same node.toDict w) :
    nodeOf w = .ok node := by
  obtain ⟨name, hname, hsame⟩ := required_of_same h rfl "name" rfl
  obtain rfl := Json.same_str_iff.mp hsame
  have href := same_ref ht (getOr_of_same h rfl "implementation_ref" .none rfl)
  have hmetadata := freezeMetadata_of_same (getOr_of_same h rfl "metadata" (.dict []) rfl)
  rw [nodeOf, hname, href]
  exact NodeSpec.new_eq_ok.mpr ⟨rfl, rfl, hmetadata⟩

theorem edgeOf_of_same {edge : EdgeSpec} (ht : edge.typed = true) (h : Same edge.toDict w) :
    edgeOf w = .ok edge := by
  simp only [EdgeSpec.typed, Bool.and_eq_true] at ht
  obtain ⟨source, hsource, hsame⟩ := required_of_same h rfl "source" rfl
  obtain rfl := Json.same_str_iff.mp hsame
  obtain ⟨kind, hkind, hsame⟩ := required_of_same h rfl "kind" rfl
  obtain rfl := Json.same_str_iff.mp hsame
  have htarget := same_ref ht.1.1 (getOr_of_same h rfl "target" .none rfl)
  have hrouter := same_ref ht.1.2 (getOr_of_same h rfl "router_ref" .none rfl)
  have hmetadata := freezeMetadata_of_same (getOr_of_same h rfl "metadata" (.dict []) rfl)
  obtain ⟨targets, htargets, hsame⟩ :=
    Json.same_list_iff.mp (getOr_of_same h rfl "declared_targets" (.tuple []) rfl)
  obtain rfl := same_strings ht.2 hsame
  obtain ⟨hchecked, hcanonical⟩ := EdgeSpec.canonical ht.2
  rw [edgeOf, hsource, hkind, htargets, htarget, hrouter]
  exact EdgeSpec.new_eq_ok.mpr ⟨rfl, rfl, rfl, rfl, hchecked, hcanonical, hmetadata⟩

theorem reducerOf_of_same {reducer : ReducerSpec} (ht : reducer.typed = true)
    (h : Same reducer.toDict w) : reducerOf w = .ok reducer := by
  obtain ⟨field, hfield, hsame⟩ := required_of_same h rfl "field" rfl
  obtain rfl := Json.same_str_iff.mp hsame
  obtain ⟨kind, hkind, hsame⟩ := required_of_same h rfl "kind" rfl
  obtain rfl := Json.same_str_iff.mp hsame
  have href := same_ref ht (getOr_of_same h rfl "ref" .none rfl)
  rw [reducerOf, hfield, hkind, href]
  exact ReducerSpec.new_eq_ok.mpr ⟨rfl, rfl, rfl⟩

theorem joinOf_of_same {join : JoinSpec} (ht : join.typed = true) (h : Same join.toDict w) :
    joinOf w = .ok join := by
  obtain ⟨source, hsource, hsame⟩ := required_of_same h rfl "source" rfl
  obtain rfl := Json.same_str_iff.mp hsame
  obtain ⟨kind, hkind, hsame⟩ := required_of_same h rfl "kind" rfl
  obtain rfl := Json.same_str_iff.mp hsame
  have href := same_ref ht (getOr_of_same h rfl "ref" .none rfl)
  have hquorum := same_quorum join (getOr_of_same h rfl "quorum" .none rfl)
  rw [joinOf, hsource, hkind, hquorum, href]
  exact JoinSpec.new_eq_ok.mpr ⟨rfl, rfl, rfl, rfl⟩

section IsJson

omit [Builtins]

theorem isJson_ref {ref : Value} (h : isRef ref = true) : isJson ref = true := by
  cases ref <;> first | rfl | cases h

theorem isJson_dict {fields : List (Value × Value)}
    (hn : decide (fields.map Prod.fst).Nodup = true)
    (h : ∀ field ∈ fields, isStr field.1 = true ∧ isJson field.2 = true) :
    isJson (.dict fields) = true := by
  rw [isJson, hn, Bool.true_and, Json.isJsonItems_iff]
  exact h

theorem isJson_node {node : NodeSpec} (href : isJson node.implementationRef = true) :
    isJson node.toDict = true := by
  have hmetadata : isJson node.metadata.thaw = true := isJson_thaw node.metadata.ordered
  exact isJson_dict rfl (by simp [isStr, isJson, href, hmetadata])

theorem isJson_edge {edge : EdgeSpec} (htarget : isJson edge.target = true)
    (hrouter : isJson edge.routerRef = true) (htargets : isJson (.list edge.declaredTargets) = true) :
    isJson edge.toDict = true := by
  have hmetadata : isJson edge.metadata.thaw = true := isJson_thaw edge.metadata.ordered
  refine isJson_dict rfl ?_
  simp [isStr, isJson, htarget, hrouter, hmetadata] at htargets ⊢
  exact htargets

theorem isJson_reducer {reducer : ReducerSpec} (href : isJson reducer.ref = true) :
    isJson reducer.toDict = true := by
  exact isJson_dict rfl (by simp [isStr, isJson, href])

theorem isJson_join {join : JoinSpec} (href : isJson join.ref = true) :
    isJson join.toDict = true := by
  have hquorum : isJson join.quorum = true := by
    rcases join.quorum_cases with ⟨q, hq⟩ | hq <;> rw [hq] <;> rfl
  exact isJson_dict rfl (by simp [isStr, isJson, href, hquorum])

theorem isJson_records {α : Type} {toDict : α → Value} {records : List α}
    (h : ∀ r ∈ records, isJson (toDict r) = true) : isJson (.list (records.map toDict)) = true := by
  rw [isJson, Json.isJsonList_iff]
  exact fun x hx => (List.mem_map.mp hx).elim fun r hr => hr.2 ▸ h r hr.1

theorem isJson_strings {items : List Value} (h : items.all isStr = true) : isJson (.list items) = true := by
  rw [isJson, Json.isJsonList_iff]
  intro x hx
  obtain ⟨s, rfl⟩ := Json.exists_str (List.all_eq_true.mp h x hx)
  rfl

end IsJson

namespace GraphSpec

variable [Sha256] {s : GraphSpec}

-- What `create` makes of records as annotated.
structure Made (s : GraphSpec) : Prop where
  nodesTyped : ∀ n ∈ s.nodes, n.typed = true
  edgesTyped : ∀ e ∈ s.edges, e.typed = true
  reducersTyped : ∀ r ∈ s.reducers, r.typed = true
  joinsTyped : ∀ j ∈ s.joins, j.typed = true
  nodesSorted : Python.sorted nodeKey s.nodes = s.nodes
  edgesSorted : Python.sorted edgeKey s.edges = s.edges
  reducersSorted : Python.sorted ReducerSpec.field s.reducers = s.reducers
  joinsSorted : Python.sorted joinKey s.joins = s.joins
  joinsKept : keptJoins s.edges s.joins = s.joins
  supported : s.schemaVersion = SCHEMA_VERSION ∨ s.schemaVersion = SCHEMA_VERSION_R3
  versioned : versionFor (some s.schemaVersion) (usesR3 s.edges s.reducers s.joins) =
    .ok s.schemaVersion
  identified : computeGraphId (.dict s.payload) = .ok s.graphId

omit [Builtins] [Sha256] in
-- All the joins of a kept join's source are kept.
theorem keptJoins_idem (edges : List EdgeSpec) (joins : List JoinSpec) :
    keptJoins edges (Python.sorted joinKey (keptJoins edges joins)) =
      Python.sorted joinKey (keptJoins edges joins) := by
  refine List.filter_eq_self.mpr fun join hm => ?_
  have hkept := (List.mem_filter.mp (Python.mem_sorted.mp hm)).2
  have hcount : joins.countP (·.source = join.source) ≠ 1 →
      (Python.sorted joinKey (keptJoins edges joins)).countP (·.source = join.source) =
        joins.countP (·.source = join.source) := by
    intro hmany
    rw [(Python.sorted_perm joinKey _).countP_eq, keptJoins, List.countP_filter]
    refine List.countP_congr fun other _ => ?_
    have hother : other.source = join.source → implied edges joins other = false := by
      intro hsource
      simp [implied, hsource, hmany]
    by_cases hsource : other.source = join.source <;> simp [hsource, hother]
  cases hregion : join.isDefault &&
      edges.any (fun edge => isFanout edge && edge.source = join.source) with
  | false => simp [implied, hregion]
  | true =>
      have hmany : joins.countP (·.source = join.source) ≠ 1 := by simpa [implied, hregion] using hkept
      simp [implied, hregion, hcount hmany, hmany]

omit [Builtins] [Sha256] in
theorem versionFor_idem {requested : Option Str} {r3 : Bool} {version : Str}
    (h : versionFor requested r3 = .ok version) : versionFor (some version) r3 = .ok version := by
  unfold versionFor at h ⊢
  cases requested with
  | none =>
      obtain rfl := Except.ok.inj h
      cases r3 <;> rfl
  | some requested =>
      dsimp only at h ⊢
      split_ifs at h with hone htwo
      obtain rfl := Except.ok.inj h
      rw [if_neg hone, if_neg htwo]

omit [Builtins] in
theorem create_made {maxSteps : Int} {nodes : List NodeSpec} {edges : List EdgeSpec}
    {metadata : Value} {schemaVersion : Option Str} {reducers : List ReducerSpec}
    {joins : List JoinSpec} (hn : ∀ n ∈ nodes, n.typed = true) (he : ∀ e ∈ edges, e.typed = true)
    (hr : ∀ r ∈ reducers, r.typed = true) (hj : ∀ j ∈ joins, j.typed = true)
    (hv : ∀ version ∈ schemaVersion, version = SCHEMA_VERSION ∨ version = SCHEMA_VERSION_R3)
    (h : create maxSteps nodes edges metadata schemaVersion reducers joins = .ok s) : Made s := by
  obtain ⟨-, -, hnodes, hedges, hreducers, hjoins, hversion, hid⟩ := (create_typed hn he).mp h
  refine {
    nodesTyped := fun n hm => hn n (by simpa [hnodes] using hm)
    edgesTyped := fun e hm => he e (by simpa [hedges] using hm)
    reducersTyped := fun r hm => hr r (by simpa [hreducers] using hm)
    joinsTyped := fun j hm => hj j ?_
    nodesSorted := by rw [hnodes, Python.sorted_sorted]
    edgesSorted := by rw [hedges, Python.sorted_sorted]
    reducersSorted := by rw [hreducers, Python.sorted_sorted]
    joinsSorted := by rw [hjoins, Python.sorted_sorted]
    joinsKept := by rw [hjoins, keptJoins_idem]
    supported := ?_
    versioned := versionFor_idem hversion
    identified := hid }
  · rw [hjoins, Python.mem_sorted] at hm
    exact List.mem_of_mem_filter hm
  · unfold versionFor at hversion
    cases schemaVersion with
    | none =>
        obtain hversion := Except.ok.inj hversion
        split_ifs at hversion
        · exact .inr hversion.symm
        · exact .inl hversion.symm
    | some version =>
        dsimp only at hversion
        split_ifs at hversion
        obtain rfl := Except.ok.inj hversion
        exact hv _ rfl

omit [Builtins] in
-- A created spec is what `create` makes of its own parts.
theorem Made.create_self (hs : Made s) {metadata : Value} (hm : Same s.metadata.thaw metadata) :
    create s.maxSteps s.nodes s.edges metadata (some s.schemaVersion) s.reducers s.joins = .ok s := by
  refine (create_typed hs.nodesTyped hs.edgesTyped).mpr ⟨?_, rfl, hs.nodesSorted.symm,
    hs.edgesSorted.symm, hs.reducersSorted.symm, ?_, hs.versioned, hs.identified⟩
  · have hfrozen := freezeMetadata_of_same hm
    have hthaw : s.metadata.thaw = _ :=
      thaw_mapping (FrozenJson.ordered_mapping_iff.mp s.metadata.ordered).1
    rw [hthaw] at hm
    obtain ⟨items, rfl, -⟩ := Json.same_dict hm
    cases items with
    | nil => exact hfrozen
    | cons item rest => exact hfrozen
  · rw [hs.joinsKept, hs.joinsSorted]

-- The member of `w` under this key lists what reads as these documents.
def Lists (w : Value) (key : String) (documents : List Value) : Prop :=
  ∃ items, getOr w key (.list []) = .list items ∧ List.Forall₂ Same documents items

-- What a document says that reads as the spec.
structure Reads (s : GraphSpec) (w : Value) : Prop where
  fields : checkRecordFields w graphFields "graph" = .ok ()
  version : getOr w "schema_version" "" = .str s.schemaVersion
  identity : field? w "graph_id" = some (.str s.graphId)
  steps : required w "max_steps" = .ok (.int s.maxSteps)
  metadata : Same s.metadata.thaw (getOr w "metadata" (.dict []))
  nodes : Lists w "nodes" (s.nodes.map NodeSpec.toDict)
  edges : Lists w "edges" (s.edges.map EdgeSpec.toDict)
  reducers : Lists w "reducers" (s.reducers.map ReducerSpec.toDict)
  joins : Lists w "joins" (s.joins.map JoinSpec.toDict)

omit [Sha256] in
theorem records_of_same {α : Type} {decode : Value → Except Exn α} {toDict : α → Value}
    {typed : α → Bool} {records : List α} {items : List Value} (allowed : List String)
    (record : String) (ht : ∀ r ∈ records, typed r = true)
    (hcheck : ∀ r w, Same (toDict r) w → checkRecordFields w allowed record = .ok ())
    (hdecode : ∀ r w, typed r = true → Same (toDict r) w → decode w = .ok r)
    (h : List.Forall₂ Same (records.map toDict) items) :
    (∀ item ∈ items, checkRecordFields item allowed record = .ok ()) ∧
      items.mapM decode = .ok records := by
  rw [List.forall₂_map_left_iff] at h
  constructor
  · intro item hm
    induction h with
    | nil => cases hm
    | cons hsame _ ih =>
        rcases List.mem_cons.mp hm with rfl | hm
        · exact hcheck _ _ hsame
        · exact ih (fun r hr => ht r (List.mem_cons_of_mem _ hr)) hm
  · refine Python.mapM_of_forall₂ ?_
    induction h with
    | nil => exact .nil
    | cons hsame _ ih =>
        exact .cons (hdecode _ _ (ht _ List.mem_cons_self) hsame)
          (ih fun r hr => ht r (List.mem_cons_of_mem _ hr))

theorem Made.fromDict_of_reads (hs : Made s) (h : Reads s w) : fromDict w = .ok s := by
  obtain ⟨rawNodes, hrawNodes, hsame⟩ := h.nodes
  obtain ⟨hn, hnodes⟩ := records_of_same nodeFields "node" hs.nodesTyped
    (fun _ _ h => checkRecordFields_of_same h rfl) (fun _ _ => nodeOf_of_same) hsame
  obtain ⟨rawEdges, hrawEdges, hsame⟩ := h.edges
  obtain ⟨he, hedges⟩ := records_of_same edgeFields "edge" hs.edgesTyped
    (fun _ _ h => checkRecordFields_of_same h rfl) (fun _ _ => edgeOf_of_same) hsame
  obtain ⟨rawReducers, hrawReducers, hsame⟩ := h.reducers
  obtain ⟨hr, hreducers⟩ := records_of_same reducerFields "reducer" hs.reducersTyped
    (fun _ _ h => checkRecordFields_of_same h rfl) (fun _ _ => reducerOf_of_same) hsame
  obtain ⟨rawJoins, hrawJoins, hsame⟩ := h.joins
  obtain ⟨hj, hjoins⟩ := records_of_same joinFields "join" hs.joinsTyped
    (fun _ _ h => checkRecordFields_of_same h rfl) (fun _ _ => joinOf_of_same) hsame
  have hversion : strOf (getOr w "schema_version" "") = s.schemaVersion := by rw [h.version]; rfl
  refine fromDict_eq_ok.mpr ⟨rawNodes, rawEdges, rawReducers, rawJoins, s.nodes, s.edges, s.reducers,
    s.joins, .int s.maxSteps, s.maxSteps, h.fields, ?_, ⟨hrawNodes, hrawEdges⟩, hn, he, hnodes, hedges,
    ⟨hrawReducers, hrawJoins⟩, hr, hj, hreducers, hjoins, h.steps, rfl, ?_, h.identity⟩
  · rw [hversion]
    exact checkVersion_eq_ok.mpr hs.supported
  · rw [hversion]
    exact hs.create_self h.metadata

-- The members of `s.toDict()`.
def document (s : GraphSpec) : List (Value × Value) := ("graph_id", .str s.graphId) :: s.payload

omit [Builtins] in
theorem Made.toDict_eq (hs : Made s) : s.toDict = .ok (.dict s.document) := by
  have hpayload : s.canonicalPayload = .ok s.payload := by
    rw [canonicalPayload, payloadOf_sorted hs.nodesTyped hs.edgesTyped, hs.nodesSorted,
      hs.edgesSorted]
    rfl
  rw [toDict, hpayload]
  rfl

omit [Builtins] [Sha256] in
theorem lists_of_same {fields : List (Value × Value)} {documents : List Value} {key : String}
    (h : Same (.dict fields) w) (hn : decide (fields.map Prod.fst).Nodup = true)
    (hx : field? (.dict fields) key = some (.list documents)) : Lists w key documents :=
  Json.same_list_iff.mp (getOr_of_same h hn key (.list []) hx)

omit [Sha256] in
theorem reads_of_fields {fields : List (Value × Value)} (h : Same (.dict fields) w)
    (hn : decide (fields.map Prod.fst).Nodup = true)
    (hfields : ((fields.map Prod.fst).all fun key => graphFields.any fun name => key = (name : Value)) =
      true)
    (hversion : field? (.dict fields) "schema_version" = some (.str s.schemaVersion))
    (hid : field? (.dict fields) "graph_id" = some (.str s.graphId))
    (hsteps : field? (.dict fields) "max_steps" = some (.int s.maxSteps))
    (hmetadata : field? (.dict fields) "metadata" = some s.metadata.thaw)
    (hnodes : field? (.dict fields) "nodes" = some (.list (s.nodes.map NodeSpec.toDict)))
    (hedges : field? (.dict fields) "edges" = some (.list (s.edges.map EdgeSpec.toDict)))
    (hreducers : Lists w "reducers" (s.reducers.map ReducerSpec.toDict))
    (hjoins : Lists w "joins" (s.joins.map JoinSpec.toDict)) : Reads s w := by
  obtain ⟨id, hid, hsame⟩ := required_of_same h hn "graph_id" hid
  obtain rfl := Json.same_str_iff.mp hsame
  obtain ⟨steps, hsteps, hsame⟩ := required_of_same h hn "max_steps" hsteps
  obtain rfl := (Json.same_scalar_iff (by exact rfl)).mp hsame
  exact {
    fields := checkRecordFields_of_same h hfields
    version := Json.same_str_iff.mp (getOr_of_same h hn "schema_version" "" hversion)
    identity := required_eq_ok.mp hid
    steps := hsteps
    metadata := getOr_of_same h hn "metadata" (.dict []) hmetadata
    nodes := lists_of_same h hn hnodes
    edges := lists_of_same h hn hedges
    reducers := hreducers
    joins := hjoins }

omit [Builtins] in
theorem Made.plain (hs : Made s) (hv : s.schemaVersion = SCHEMA_VERSION) :
    s.reducers = [] ∧ s.joins = [] := by
  have hversioned := hs.versioned
  unfold versionFor at hversioned
  dsimp only at hversioned
  split_ifs at hversioned with hone
  have hr3 : usesR3 s.edges s.reducers s.joins = false := by simpa [hv] using hone
  simp only [usesR3, Bool.or_eq_false_iff, Bool.not_eq_false', List.isEmpty_iff] at hr3
  exact hr3.1

theorem Made.reads_of_same (hs : Made s) (h : Same (.dict s.document) w) : Reads s w := by
  rw [document, payload, payloadOf] at h
  rcases hs.supported with hv | hv
  · obtain ⟨hreducers, hjoins⟩ := hs.plain hv
    rw [if_pos hv] at h
    exact reads_of_fields h rfl rfl rfl rfl rfl rfl rfl rfl
      ⟨[], getOr_of_missing h rfl "reducers" _ rfl, by simp [hreducers]⟩
      ⟨[], getOr_of_missing h rfl "joins" _ rfl, by simp [hjoins]⟩
  · have hjoins : Python.sorted JoinSpec.source s.joins = s.joins := by
      rw [← hs.joinsSorted, sorted_source_joinKey]
    rw [if_neg (by rw [hv]; decide), regionPayload, hs.reducersSorted, hjoins] at h
    exact reads_of_fields h rfl rfl rfl rfl rfl rfl rfl rfl (lists_of_same h rfl rfl)
      (lists_of_same h rfl rfl)

omit [Builtins] [Sha256] in
theorem isJson_payload (id : Str) (hnodes : ∀ n ∈ s.nodes, isJson n.toDict = true)
    (hedges : ∀ e ∈ s.edges, isJson e.toDict = true)
    (hreducers : ∀ r ∈ s.reducers, isJson r.toDict = true)
    (hjoins : ∀ j ∈ s.joins, isJson j.toDict = true) :
    isJson (.dict s.payload) = true ∧ isJson (.dict (("graph_id", .str id) :: s.payload)) = true := by
  have hmetadata : isJson s.metadata.thaw = true := isJson_thaw s.metadata.ordered
  have hns := isJson_records hnodes
  have hes := isJson_records hedges
  have hrs : isJson (.list ((Python.sorted ReducerSpec.field s.reducers).map
      ReducerSpec.toDict)) = true :=
    isJson_records fun r hr => hreducers r (Python.mem_sorted.mp hr)
  have hjs : isJson (.list ((Python.sorted JoinSpec.source s.joins).map JoinSpec.toDict)) = true :=
    isJson_records fun j hj => hjoins j (Python.mem_sorted.mp hj)
  have hbase : ∀ member ∈ basePayload s.schemaVersion s.maxSteps s.nodes s.edges s.metadata,
      isStr member.1 = true ∧ isJson member.2 = true := by
    simp only [basePayload, List.forall_mem_cons]
    exact ⟨⟨rfl, rfl⟩, ⟨rfl, rfl⟩, ⟨rfl, hns⟩, ⟨rfl, hes⟩, ⟨rfl, hmetadata⟩, nofun⟩
  have hregion : ∀ member ∈ regionPayload s.reducers s.joins,
      isStr member.1 = true ∧ isJson member.2 = true := by
    simp only [regionPayload, List.forall_mem_cons]
    exact ⟨⟨rfl, hrs⟩, ⟨rfl, hjs⟩, nofun⟩
  have hid : isStr ("graph_id" : Value) = true ∧ isJson (.str id) = true := ⟨rfl, rfl⟩
  rw [payload, payloadOf]
  split_ifs
  · exact ⟨isJson_dict rfl hbase, isJson_dict rfl (List.forall_mem_cons.mpr ⟨hid, hbase⟩)⟩
  · have hall := List.forall_mem_append.mpr ⟨hbase, hregion⟩
    exact ⟨isJson_dict rfl hall, isJson_dict rfl (List.forall_mem_cons.mpr ⟨hid, hall⟩)⟩

omit [Builtins] in
theorem Made.isJson (hs : Made s) : isJson (.dict s.payload) = true ∧ isJson (.dict s.document) = true := by
  refine isJson_payload _ (fun n hn => isJson_node (isJson_ref (hs.nodesTyped n hn))) (fun e he => ?_)
    (fun r hr => isJson_reducer (isJson_ref (hs.reducersTyped r hr)))
    fun j hj => isJson_join (isJson_ref (hs.joinsTyped j hj))
  have ht := hs.edgesTyped e he
  simp only [EdgeSpec.typed, Bool.and_eq_true] at ht
  exact isJson_edge (isJson_ref ht.1.1) (isJson_ref ht.1.2) (isJson_strings ht.2)

-- A created spec is read again from its own dict, and from its own text where `loads`
-- reads that text as a value equal to the one it was written from.
theorem round_trip {maxSteps : Int} {nodes : List NodeSpec} {edges : List EdgeSpec}
    {metadata : Value} {schemaVersion : Option Str} {reducers : List ReducerSpec}
    {joins : List JoinSpec} (hn : ∀ n ∈ nodes, n.typed = true) (he : ∀ e ∈ edges, e.typed = true)
    (hr : ∀ r ∈ reducers, r.typed = true) (hj : ∀ j ∈ joins, j.typed = true)
    (hv : ∀ version ∈ schemaVersion, version = SCHEMA_VERSION ∨ version = SCHEMA_VERSION_R3)
    (h : create maxSteps nodes edges metadata schemaVersion reducers joins = .ok s) :
    (∃ document, s.toDict = .ok document ∧ fromDict document = .ok s) ∧
    ∃ text, s.toJson = .ok text ∧ ∀ loads : Str → Except Exn Value,
      (∀ document, s.toDict = .ok document → ∃ w, loads text = .ok w ∧ Same document w) →
      fromJson loads text = .ok s := by
  have hs := create_made hn he hr hj hv h
  have hread : ∀ w, Same (.dict s.document) w → fromDict w = .ok s :=
    fun w hw => hs.fromDict_of_reads (hs.reads_of_same hw)
  have hjson := hs.isJson.2
  obtain ⟨text, htext⟩ := Option.isSome_iff_exists.mp (Json.dumpsUnicode_isSome hjson)
  refine ⟨⟨_, hs.toDict_eq, hread _ (Json.same_refl hjson)⟩, text, ?_, fun loads hloads => ?_⟩
  · have hcanonical : Graph.canonicalJson (.dict s.document) = .ok text := by
      rw [Graph.canonicalJson, htext]
    rw [toJson, hs.toDict_eq]
    exact hcanonical
  · obtain ⟨w, hw, hsame⟩ := hloads _ hs.toDict_eq
    obtain ⟨items, rfl, -⟩ := Json.same_dict hsame
    rw [fromJson, hw]
    exact hread _ hsame

def ownedBy (owner : String) : Metadata := ⟨[("owner", .str owner)], rfl⟩

def sampleNodes : List NodeSpec :=
  [⟨"b", .str "m:b", ownedBy "ops"⟩, ⟨"a", .none, ownedBy "ops"⟩]

def sampleEdges : List EdgeSpec :=
  [⟨"__start__", .fanout, .str "__end__", .none, [.str "a", .str "b"], ownedBy "ops",
    [.str "b", .str "a"], rfl, rfl⟩]

def sampleReducers : List ReducerSpec := [⟨"scratchpad", .union, .none, by decide, rfl⟩]

def sampleJoins : List JoinSpec := [⟨"__start__", .quorum, .int 1, .none, rfl, rfl⟩]

omit [Builtins] in
def sample : Except Exn GraphSpec :=
  create 5 sampleNodes sampleEdges (.dict [("tags", .list [.int 1])]) none sampleReducers sampleJoins

-- Where no container is turned to text and no text to an integer.
@[reducible] def plainBuiltins : Builtins := ⟨fun _ => [], fun _ => none⟩

omit [Builtins] [Sha256] in
theorem round_trip_sample :
    letI := Sha256.verbatim
    letI := plainBuiltins
    ∃ s, sample = .ok s ∧ (∃ document, s.toDict = .ok document ∧ fromDict document = .ok s) ∧
      ∃ text, s.toJson = .ok text ∧ fromJson (fun _ => s.toDict) text = .ok s := by
  let := Sha256.verbatim
  let := plainBuiltins
  obtain ⟨s, hs⟩ : ∃ s, sample = .ok s := Python.exists_ok (by decide +kernel)
  obtain ⟨hdict, text, htext, hloads⟩ :=
    round_trip (by decide) (by decide) (by decide) (by decide) (by simp) hs
  refine ⟨s, hs, hdict, text, htext, hloads _ fun document hdocument => ⟨document, hdocument, ?_⟩⟩
  have hmade := create_made (by decide) (by decide) (by decide) (by decide) (by simp) hs
  obtain rfl := Except.ok.inj (hmade.toDict_eq.symm.trans hdocument)
  exact Json.same_refl hmade.isJson.2

end GraphSpec

end PerpetuaCore.Graph
