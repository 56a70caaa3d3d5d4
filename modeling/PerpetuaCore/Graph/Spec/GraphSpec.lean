import PerpetuaCore.Graph.Digest
import PerpetuaCore.Graph.Spec.Records

namespace PerpetuaCore.Graph

open Python (Str Value Dict)

-- `GRAPH_SPEC_SCHEMA_VERSION` and `GRAPH_SPEC_SCHEMA_VERSION_R3`.
def SCHEMA_VERSION : Str := "1"
def SCHEMA_VERSION_R3 : Str := "2"

-- `_canonical_json`.
def canonicalJson (payload : Value) : Except Exn Str :=
  match Json.dumpsUnicode payload with
  | some text => .ok text
  | none => .error (.typeError ["Object is not JSON serializable"])

-- `text.encode("utf-8")` returns.
def encodable (text : Str) : Bool := text.all fun c => c.val < 0xD800 || 0xDFFF < c.val

def computeGraphId [Sha256] (payload : Value) : Except Exn Str := do
  let text ← canonicalJson payload
  if encodable text then .ok (Sha256.hexdigest text)
  else .error (.other "UnicodeEncodeError" none none 0)

-- The members of the payload that every schema has, of sorted records.
def basePayload (schemaVersion : Str) (maxSteps : Int) (nodes : List NodeSpec)
    (edges : List EdgeSpec) (metadata : Metadata) : List (Value × Value) :=
  [("schema_version", schemaVersion), ("max_steps", .int maxSteps),
    ("nodes", .list (nodes.map NodeSpec.toDict)), ("edges", .list (edges.map EdgeSpec.toDict)),
    ("metadata", metadata.thaw)]

-- The members only schema "2" has.
def regionPayload (reducers : List ReducerSpec) (joins : List JoinSpec) : List (Value × Value) :=
  [("reducers", .list ((Python.sorted ReducerSpec.field reducers).map ReducerSpec.toDict)),
    ("joins", .list ((Python.sorted JoinSpec.source joins).map JoinSpec.toDict))]

def payloadOf (schemaVersion : Str) (maxSteps : Int) (nodes : List NodeSpec)
    (edges : List EdgeSpec) (metadata : Metadata) (reducers : List ReducerSpec)
    (joins : List JoinSpec) : List (Value × Value) :=
  let payload := basePayload schemaVersion maxSteps nodes edges metadata
  if schemaVersion = SCHEMA_VERSION then payload else payload ++ regionPayload reducers joins

def canonicalGraphPayload (schemaVersion : Str) (maxSteps : Int) (nodes : List NodeSpec)
    (edges : List EdgeSpec) (metadata : Metadata) (reducers : List ReducerSpec)
    (joins : List JoinSpec) : Except Exn (List (Value × Value)) := do
  let nodes ← sortedByKey NodeSpec.sortKey nodes
  let edges ← sortedByKey EdgeSpec.sortKey edges
  return payloadOf schemaVersion maxSteps nodes edges metadata reducers joins

structure GraphSpec where
  schemaVersion : Str
  graphId : Str
  maxSteps : Int
  nodes : List NodeSpec
  edges : List EdgeSpec
  metadata : Metadata
  reducers : List ReducerSpec
  joins : List JoinSpec

namespace GraphSpec

-- `GraphSpec.__post_init__`; freezing metadata that is frozen changes nothing.
def new (schemaVersion graphId : Str) (maxSteps : Int) (nodes : List NodeSpec)
    (edges : List EdgeSpec) (metadata : Metadata) (reducers : List ReducerSpec)
    (joins : List JoinSpec) : Except Exn GraphSpec := do
  let nodes ← sortedByKey NodeSpec.sortKey nodes
  let edges ← sortedByKey EdgeSpec.sortKey edges
  let reducers := Python.sorted ReducerSpec.field reducers
  let joins := Python.sorted JoinSpec.source joins
  return { schemaVersion, graphId, maxSteps, nodes, edges, metadata, reducers, joins }

def isFanout (edge : EdgeSpec) : Bool := edge.kind = .fanout

-- A default join that is the only join of a fan-out source says nothing.
def implied (edges : List EdgeSpec) (joins : List JoinSpec) (join : JoinSpec) : Bool :=
  join.isDefault && edges.any (fun edge => isFanout edge && edge.source = join.source) &&
    joins.countP (·.source = join.source) = 1

def keptJoins (edges : List EdgeSpec) (joins : List JoinSpec) : List JoinSpec :=
  joins.filter fun join => !implied edges joins join

def joinKey (join : JoinSpec) : List Str := [join.source, join.kind.text]

def usesR3 (edges : List EdgeSpec) (reducers : List ReducerSpec) (joins : List JoinSpec) : Bool :=
  !reducers.isEmpty || !joins.isEmpty || edges.any isFanout

-- The schema version that follows from the features used.
def versionFor (requested : Option Str) (usesR3 : Bool) : Except Exn Str :=
  match requested with
  | none => .ok (if usesR3 then SCHEMA_VERSION_R3 else SCHEMA_VERSION)
  | some version =>
      if version = SCHEMA_VERSION ∧ usesR3 then
        .error (.valueError
          ["fan-out edges, reducers and joins require GraphSpec schema version '2'"])
      else if version = SCHEMA_VERSION_R3 ∧ ¬usesR3 then
        .error (.valueError
          ["GraphSpec schema version '2' requires a fan-out edge, reducer or join"])
      else .ok version

def create [Sha256] (maxSteps : Int) (nodes : List NodeSpec) (edges : List EdgeSpec)
    (metadata : Value) (schemaVersion : Option Str) (reducers : List ReducerSpec)
    (joins : List JoinSpec) : Except Exn GraphSpec := do
  let metadata ← freezeMetadata (if truthy metadata then metadata else .dict [])
  let nodes ← sortedByKey NodeSpec.sortKey nodes
  let edges ← sortedByKey EdgeSpec.sortKey edges
  let reducers := Python.sorted ReducerSpec.field reducers
  let joins := Python.sorted joinKey (keptJoins edges joins)
  let schemaVersion ← versionFor schemaVersion (usesR3 edges reducers joins)
  let payload ← canonicalGraphPayload schemaVersion maxSteps nodes edges metadata reducers joins
  let graphId ← computeGraphId (.dict payload)
  new schemaVersion graphId maxSteps nodes edges metadata reducers joins

-- What `create` returns: the records sorted twice, the joins that say something, and the
-- identity of their payload.
theorem create_eq_ok [Sha256] {maxSteps : Int} {nodes : List NodeSpec} {edges : List EdgeSpec}
    {metadata : Value} {schemaVersion : Option Str} {reducers : List ReducerSpec}
    {joins : List JoinSpec} {s : GraphSpec} :
    create maxSteps nodes edges metadata schemaVersion reducers joins = .ok s ↔
      ∃ nodes' edges' payload,
        freezeMetadata (if truthy metadata then metadata else .dict []) = .ok s.metadata ∧
        sortedByKey NodeSpec.sortKey nodes = .ok nodes' ∧
        sortedByKey EdgeSpec.sortKey edges = .ok edges' ∧
        versionFor schemaVersion (usesR3 edges' (Python.sorted ReducerSpec.field reducers)
          (Python.sorted joinKey (keptJoins edges' joins))) = .ok s.schemaVersion ∧
        canonicalGraphPayload s.schemaVersion maxSteps nodes' edges' s.metadata
          (Python.sorted ReducerSpec.field reducers)
          (Python.sorted joinKey (keptJoins edges' joins)) = .ok payload ∧
        computeGraphId (.dict payload) = .ok s.graphId ∧
        s.maxSteps = maxSteps ∧
        sortedByKey NodeSpec.sortKey nodes' = .ok s.nodes ∧
        sortedByKey EdgeSpec.sortKey edges' = .ok s.edges ∧
        s.reducers = Python.sorted ReducerSpec.field reducers ∧
        s.joins = Python.sorted JoinSpec.source (Python.sorted joinKey (keptJoins edges' joins)) := by
  simp only [create, new, Python.bind_eq_ok]
  constructor
  · rintro ⟨frozen, hfrozen, nodes', hnodes, edges', hedges, version, hversion, payload, hpayload,
      id, hid, nodes'', hnodes', edges'', hedges', ⟨⟩⟩
    exact ⟨nodes', edges', payload, hfrozen, hnodes, hedges, hversion, hpayload, hid, rfl, hnodes',
      hedges', by simp, rfl⟩
  · rintro ⟨nodes', edges', payload, hfrozen, hnodes, hedges, hversion, hpayload, hid, rfl, hnodes',
      hedges', hreducers, hjoins⟩
    refine ⟨_, hfrozen, _, hnodes, _, hedges, _, hversion, _, hpayload, _, hid, _, hnodes', _,
      hedges', ?_⟩
    rw [Python.sorted_sorted, ← hreducers, ← hjoins]
    rfl

-- The payload of sorted records.
def payload (spec : GraphSpec) : List (Value × Value) :=
  payloadOf spec.schemaVersion spec.maxSteps spec.nodes spec.edges spec.metadata spec.reducers
    spec.joins

-- A created spec is identified by its own payload.
theorem create_identified [Sha256] {maxSteps : Int} {nodes : List NodeSpec} {edges : List EdgeSpec}
    {metadata : Value} {schemaVersion : Option Str} {reducers : List ReducerSpec}
    {joins : List JoinSpec} {s : GraphSpec}
    (h : create maxSteps nodes edges metadata schemaVersion reducers joins = .ok s) :
    computeGraphId (.dict s.payload) = .ok s.graphId := by
  obtain ⟨nodes', edges', payload, -, -, -, -, hpayload, hid, hsteps, hnodes, hedges, hreducers,
    hjoins⟩ := create_eq_ok.mp h
  have hsame : payload = s.payload := by
    simp only [canonicalGraphPayload, hnodes, hedges] at hpayload
    obtain rfl := Except.ok.inj hpayload
    rw [GraphSpec.payload, payloadOf, payloadOf, regionPayload, regionPayload, hsteps, hreducers,
      hjoins, Python.sorted_sorted, Python.sorted_sorted]
  exact hsame ▸ hid

def canonicalPayload (spec : GraphSpec) : Except Exn (List (Value × Value)) :=
  canonicalGraphPayload spec.schemaVersion spec.maxSteps spec.nodes spec.edges spec.metadata
    spec.reducers spec.joins

def canonicalJson (spec : GraphSpec) : Except Exn Str := do
  Graph.canonicalJson (.dict (← spec.canonicalPayload))

def toDict (spec : GraphSpec) : Except Exn Value := do
  return .dict (("graph_id", .str spec.graphId) :: (← spec.canonicalPayload))

def toJson (spec : GraphSpec) : Except Exn Str := do
  Graph.canonicalJson (← spec.toDict)

end GraphSpec

end PerpetuaCore.Graph
