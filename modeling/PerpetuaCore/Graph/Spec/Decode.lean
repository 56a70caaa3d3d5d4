import PerpetuaCore.Graph.Spec.GraphSpec

namespace PerpetuaCore.Graph

open Python (Str Value Dict)

-- `_check_record_fields`.
def checkRecordFields [Builtins] (payload : Value) (allowed : List String) (record : String) :
    Except Exn Unit :=
  match payload with
  | .dict items =>
      let unknown := (items.map Prod.fst).filter fun key =>
        !allowed.any fun name => key = (name : Value)
      if unknown = [] then .ok ()
      else .error (.valueError ["GraphSpec ", record, " has unknown fields: ",
        .repr (.list (Python.sorted strOf unknown))])
  | _ => .error (.typeError ["GraphSpec ", record, " must be an object"])

def field? (payload : Value) (key : String) : Option Value :=
  match payload with
  | .dict items => (Dict.ofList items).get? key
  | _ => none

-- `payload[key]`.
def required (payload : Value) (key : String) : Except Exn Value :=
  match field? payload key with
  | some value => .ok value
  | none => .error (.keyError [.repr key])

theorem required_eq_ok {payload value : Value} {key : String} :
    required payload key = .ok value ↔ field? payload key = some value := by
  unfold required
  cases field? payload key with
  | none => exact ⟨nofun, nofun⟩
  | some found => simp

-- `payload.get(key, default)`.
def getOr (payload : Value) (key : String) (default : Value) : Value :=
  (field? payload key).getD default

-- Two members that must be lists.
def twoLists (payload : Value) (first second : String) :
    Except Exn (List Value × List Value) :=
  match getOr payload first (.list []), getOr payload second (.list []) with
  | .list xs, .list ys => .ok (xs, ys)
  | _, _ => .error (.typeError ["GraphSpec ", first, " and ", second, " must be lists"])

theorem twoLists_eq_ok {payload : Value} {first second : String} {xs ys : List Value} :
    twoLists payload first second = .ok (xs, ys) ↔
      getOr payload first (.list []) = .list xs ∧ getOr payload second (.list []) = .list ys := by
  unfold twoLists
  constructor
  · intro h
    split at h
    · cases h
      exact ⟨‹_›, ‹_›⟩
    · cases h
  · rintro ⟨hx, hy⟩
    rw [hx, hy]

def graphFields : List String :=
  ["schema_version", "graph_id", "max_steps", "nodes", "edges", "metadata", "reducers", "joins"]

def nodeFields : List String := ["name", "implementation_ref", "metadata"]

def edgeFields : List String :=
  ["source", "kind", "target", "router_ref", "declared_targets", "metadata"]

def reducerFields : List String := ["field", "kind", "ref"]

def joinFields : List String := ["source", "kind", "quorum", "ref"]

variable [Builtins]

def nodeOf (item : Value) : Except Exn NodeSpec := do
  let name ← required item "name"
  NodeSpec.new (strOf name) (getOr item "implementation_ref" .none)
    (getOr item "metadata" (.dict []))

def edgeOf (item : Value) : Except Exn EdgeSpec := do
  let source ← required item "source"
  let kind ← required item "kind"
  let declaredTargets ← tupleOf (getOr item "declared_targets" (.tuple []))
  EdgeSpec.new (strOf source) kind (getOr item "target" .none) (getOr item "router_ref" .none)
    declaredTargets (getOr item "metadata" (.dict []))

def reducerOf (item : Value) : Except Exn ReducerSpec := do
  let field ← required item "field"
  let kind ← required item "kind"
  ReducerSpec.new (strOf field) kind (getOr item "ref" .none)

def joinOf (item : Value) : Except Exn JoinSpec := do
  let source ← required item "source"
  let kind ← required item "kind"
  JoinSpec.new (strOf source) kind (getOr item "quorum" .none) (getOr item "ref" .none)

def checkVersion (version : Str) : Except Exn Unit :=
  if version ∈ [SCHEMA_VERSION, SCHEMA_VERSION_R3] then .ok ()
  else .error (.valueError ["unsupported GraphSpec schema version: ", .repr version])

def checkIdentity (supplied : Option Value) (graphId : Str) : Except Exn Unit :=
  match supplied with
  | some (.str supplied) =>
      if supplied = graphId then .ok ()
      else .error (.valueError
        ["GraphSpec graph_id mismatch: payload content does not match identity"])
  | _ => .error (.valueError ["GraphSpec graph_id is required"])

omit [Builtins] in
theorem checkVersion_eq_ok {version : Str} :
    checkVersion version = .ok () ↔ version = SCHEMA_VERSION ∨ version = SCHEMA_VERSION_R3 := by
  unfold checkVersion
  split_ifs with h
  · simpa using h
  · exact iff_of_false nofun (by simpa using h)

omit [Builtins] in
theorem checkIdentity_eq_ok {supplied : Option Value} {graphId : Str} :
    checkIdentity supplied graphId = .ok () ↔ supplied = some (.str graphId) := by
  unfold checkIdentity
  constructor
  · intro h
    split at h
    · split_ifs at h with hid
      rw [hid]
    · cases h
  · rintro rfl
    exact if_pos rfl

namespace GraphSpec

def fromDict [Sha256] (payload : Value) : Except Exn GraphSpec := do
  checkRecordFields payload graphFields "graph"
  let schemaVersion := strOf (getOr payload "schema_version" "")
  checkVersion schemaVersion
  let raw ← twoLists payload "nodes" "edges"
  raw.1.forM fun item => checkRecordFields item nodeFields "node"
  raw.2.forM fun item => checkRecordFields item edgeFields "edge"
  let nodes ← raw.1.mapM nodeOf
  let edges ← raw.2.mapM edgeOf
  let rules ← twoLists payload "reducers" "joins"
  rules.1.forM fun item => checkRecordFields item reducerFields "reducer"
  rules.2.forM fun item => checkRecordFields item joinFields "join"
  let reducers ← rules.1.mapM reducerOf
  let joins ← rules.2.mapM joinOf
  let maxSteps ← required payload "max_steps"
  let spec ← create (← intOf maxSteps) nodes edges (getOr payload "metadata" (.dict []))
    (some schemaVersion) reducers joins
  checkIdentity (field? payload "graph_id") spec.graphId
  return spec

-- What a payload that loads is made of.
theorem fromDict_eq_ok [Sha256] {p : Value} {s : GraphSpec} :
    fromDict p = .ok s ↔ ∃ rawNodes rawEdges rawReducers rawJoins nodes edges reducers joins steps
        maxSteps,
      checkRecordFields p graphFields "graph" = .ok () ∧
      checkVersion (strOf (getOr p "schema_version" "")) = .ok () ∧
      (getOr p "nodes" (.list []) = .list rawNodes ∧ getOr p "edges" (.list []) = .list rawEdges) ∧
      (∀ item ∈ rawNodes, checkRecordFields item nodeFields "node" = .ok ()) ∧
      (∀ item ∈ rawEdges, checkRecordFields item edgeFields "edge" = .ok ()) ∧
      rawNodes.mapM nodeOf = .ok nodes ∧ rawEdges.mapM edgeOf = .ok edges ∧
      (getOr p "reducers" (.list []) = .list rawReducers ∧
        getOr p "joins" (.list []) = .list rawJoins) ∧
      (∀ item ∈ rawReducers, checkRecordFields item reducerFields "reducer" = .ok ()) ∧
      (∀ item ∈ rawJoins, checkRecordFields item joinFields "join" = .ok ()) ∧
      rawReducers.mapM reducerOf = .ok reducers ∧ rawJoins.mapM joinOf = .ok joins ∧
      required p "max_steps" = .ok steps ∧ intOf steps = .ok maxSteps ∧
      create maxSteps nodes edges (getOr p "metadata" (.dict []))
        (some (strOf (getOr p "schema_version" ""))) reducers joins = .ok s ∧
      field? p "graph_id" = some (.str s.graphId) := by
  simp only [fromDict, Python.bind_eq_ok, Prod.exists, twoLists_eq_ok, ← Python.forM_eq_ok]
  constructor
  · rintro ⟨⟨⟩, hfields, ⟨⟩, hversion, rawNodes, rawEdges, hraw, ⟨⟩, hn, ⟨⟩, he, nodes, hnodes, edges,
      hedges, rawReducers, rawJoins, hrules, ⟨⟩, hr, ⟨⟩, hj, reducers, hreducers, joins, hjoins, steps,
      hsteps, maxSteps, hmax, spec, hspec, ⟨⟩, hid, ⟨⟩⟩
    exact ⟨rawNodes, rawEdges, rawReducers, rawJoins, nodes, edges, reducers, joins, steps, maxSteps,
      hfields, hversion, hraw, hn, he, hnodes, hedges, hrules, hr, hj, hreducers, hjoins, hsteps, hmax,
      hspec, checkIdentity_eq_ok.mp hid⟩
  · rintro ⟨rawNodes, rawEdges, rawReducers, rawJoins, nodes, edges, reducers, joins, steps, maxSteps,
      hfields, hversion, hraw, hn, he, hnodes, hedges, hrules, hr, hj, hreducers, hjoins, hsteps, hmax,
      hspec, hid⟩
    exact ⟨(), hfields, (), hversion, rawNodes, rawEdges, hraw, (), hn, (), he, nodes, hnodes, edges,
      hedges, rawReducers, rawJoins, hrules, (), hr, (), hj, reducers, hreducers, joins, hjoins, steps,
      hsteps, maxSteps, hmax, s, hspec, (), checkIdentity_eq_ok.mpr hid, rfl⟩

-- `loads` stands for `json.loads`.
def fromJson [Sha256] (loads : Str → Except Exn Value) (raw : Str) : Except Exn GraphSpec := do
  let payload ← loads raw
  match payload with
  | .dict _ => fromDict payload
  | _ => throw (.typeError ["GraphSpec JSON must contain an object"])

end GraphSpec

end PerpetuaCore.Graph
