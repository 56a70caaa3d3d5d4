import PerpetuaCore.Graph.Spec.GraphSpec
import PerpetuaCore.Graph.Topology
import PerpetuaCore.Python.Worklist

namespace PerpetuaCore.Graph

open Python (CodePoint Str Value Dict Worklist)

inductive LintSeverity where
  | error
  | warning
  | info
  deriving DecidableEq

-- `_SEVERITY_RANK`.
def LintSeverity.rank : LintSeverity → Int
  | .error => 0
  | .warning => 1
  | .info => 2

inductive LintCode where
  | GS001 | GS002 | GS003 | GS004 | GS005 | GS006 | GS007
  | GS008 | GS009 | GS010 | GS011 | GS012 | GS013 | GS014
  | GS101 | GS102 | GS103 | GS104 | GS105
  | GS201 | GS202 | GS203 | GS204 | GS205 | GS206 | GS207
  | GS208 | GS209 | GS210 | GS211 | GS212 | GS213 | GS214
  deriving DecidableEq

def LintCode.text : LintCode → Str
  | .GS001 => "GS001" | .GS002 => "GS002" | .GS003 => "GS003" | .GS004 => "GS004"
  | .GS005 => "GS005" | .GS006 => "GS006" | .GS007 => "GS007" | .GS008 => "GS008"
  | .GS009 => "GS009" | .GS010 => "GS010" | .GS011 => "GS011" | .GS012 => "GS012"
  | .GS013 => "GS013" | .GS014 => "GS014" | .GS101 => "GS101" | .GS102 => "GS102"
  | .GS103 => "GS103" | .GS104 => "GS104" | .GS105 => "GS105" | .GS201 => "GS201"
  | .GS202 => "GS202" | .GS203 => "GS203" | .GS204 => "GS204" | .GS205 => "GS205"
  | .GS206 => "GS206" | .GS207 => "GS207" | .GS208 => "GS208" | .GS209 => "GS209"
  | .GS210 => "GS210" | .GS211 => "GS211" | .GS212 => "GS212" | .GS213 => "GS213"
  | .GS214 => "GS214"

structure GraphLintIssue where
  code : LintCode
  severity : LintSeverity
  message : Message
  node : Value := .none
  source : Value := .none
  target : Value := .none
  deriving DecidableEq

structure GraphValidationReport where
  graphId : Str
  issues : List GraphLintIssue
  deriving DecidableEq

def GraphValidationReport.valid (report : GraphValidationReport) : Bool :=
  !report.issues.any (·.severity = .error)

def MessagePart.render [Builtins] : MessagePart → Str
  | .text s | .insert s => s
  | .repr value => Builtins.repr value

-- `repr` of a text without a quote or an escape in it.
@[reducible] def quotingBuiltins : Builtins where
  repr
    | .str s => ("'" : Str) ++ s ++ ("'" : Str)
    | _ => []
  parseInt _ := none

-- `_sort_key`.
def GraphLintIssue.sortKey [Builtins] (issue : GraphLintIssue) : List Value :=
  [.int issue.severity.rank, .str issue.code.text, orEmpty issue.source, orEmpty issue.node,
    orEmpty issue.target, .str (issue.message.flatMap MessagePart.render)]

def flag (found : Prop) [Decidable found] (issue : GraphLintIssue) : List GraphLintIssue :=
  if found then [issue] else []

theorem mem_flag {found : Prop} [Decidable found] {issue x : GraphLintIssue} :
    x ∈ flag found issue ↔ found ∧ x = issue := by
  unfold flag
  split_ifs with h <;> simp [h]

theorem forall_mem_flag {found : Prop} [Decidable found] {issue : GraphLintIssue}
    {P : GraphLintIssue → Prop} : (∀ x ∈ flag found issue, P x) ↔ (found → P issue) := by
  simp only [mem_flag, and_imp, forall_comm (α := GraphLintIssue), forall_eq]

-- A loop over records that keeps a note of those before.
def lintEach {σ α : Type} (check : σ → α → List GraphLintIssue) (next : σ → α → σ) :
    σ → List α → List GraphLintIssue
  | _, [] => []
  | state, item :: rest => check state item ++ lintEach check next (next state item) rest

section Each

variable {σ α : Type} {check : σ → α → List GraphLintIssue} {next : σ → α → σ} {state : σ}
  {items : List α}

theorem lintEach_forall {P : GraphLintIssue → Prop}
    (h : ∀ state, ∀ item ∈ items, ∀ issue ∈ check state item, P issue) :
    ∀ issue ∈ lintEach check next state items, P issue := by
  induction items generalizing state with
  | nil => exact nofun
  | cons item rest ih =>
      intro issue hissue
      rcases List.mem_append.mp hissue with hissue | hissue
      · exact h state item List.mem_cons_self issue hissue
      · exact ih (fun state x hx => h state x (List.mem_cons_of_mem _ hx)) issue hissue

-- Each record was checked against some note of those before it.
theorem lintEach_checks {P : GraphLintIssue → Prop}
    (h : ∀ issue ∈ lintEach check next state items, P issue) :
    ∀ item ∈ items, ∃ state, ∀ issue ∈ check state item, P issue := by
  induction items generalizing state with
  | nil => exact nofun
  | cons item rest ih =>
      obtain ⟨hitem, hrest⟩ := List.forall_mem_append.mp h
      intro x hx
      rcases List.mem_cons.mp hx with rfl | hx
      · exact ⟨state, hitem⟩
      · exact ih hrest x hx

end Each

-- `str.isspace` of one character.
def isSpace (c : CodePoint) : Bool :=
  (0x9 ≤ c.val && c.val ≤ 0xD) || (0x1C ≤ c.val && c.val ≤ 0x20) || (0x2000 ≤ c.val && c.val ≤ 0x200A) ||
    [0x85, 0xA0, 0x1680, 0x2028, 0x2029, 0x202F, 0x205F, 0x3000].contains c.val

def lintNode (seen : List Str) (node : NodeSpec) : List GraphLintIssue :=
  flag (seen.contains node.name)
      { code := .GS001, severity := .error, message := ["duplicate node name ", .repr node.name],
        node := node.name } ++
    flag (node.name.all isSpace)
      { code := .GS002, severity := .error, message := ["node name must be a non-empty string"],
        node := node.name } ++
    flag (node.name = START ∨ node.name = END)
      { code := .GS011, severity := .error,
        message := ["node name ", .repr node.name, " is reserved"], node := node.name } ++
    flag (node.implementationRef = .none)
      { code := .GS104, severity := .warning,
        message := ["node ", .repr node.name, " has no stable implementation reference"],
        node := node.name }

-- Whether a value is one of the names.
abbrev Names (names : List Str) (value : Value) : Prop := value ∈ names.map .str

def lintStatic (names : List Str) (edge : EdgeSpec) : List GraphLintIssue :=
  flag (edge.target = .none ∨ edge.routerRef ≠ .none ∨ edge.declaredTargets ≠ [])
      { code := .GS008, severity := .error, message := ["invalid static edge shape"],
        source := edge.source, target := edge.target } ++
    flag (edge.source ≠ START ∧ ¬names.contains edge.source)
      { code := .GS004, severity := .error,
        message := ["static edge source ", .repr edge.source, " is not a node"],
        source := edge.source, target := edge.target } ++
    flag (edge.target ≠ .none ∧ edge.target ≠ .str END ∧ ¬Names names edge.target)
      { code := .GS005, severity := .error,
        message := ["static edge target ", .repr edge.target, " is not a node"],
        source := edge.source, target := edge.target }

def lintConditional (names : List Str) (edge : EdgeSpec) : List GraphLintIssue :=
  flag (edge.target ≠ .none)
      { code := .GS009, severity := .error, message := ["invalid conditional edge shape"],
        source := edge.source, target := edge.target } ++
    flag (edge.source ≠ START ∧ ¬names.contains edge.source)
      { code := .GS006, severity := .error,
        message := ["conditional edge source ", .repr edge.source, " is not a node"],
        source := edge.source } ++
    (edge.declaredTargets.flatMap fun target =>
      flag (target ≠ .str END ∧ ¬Names names target)
        { code := .GS007, severity := .error,
          message := ["declared conditional target ", .repr target, " is not a node"],
          source := edge.source, target }) ++
    flag (edge.declaredTargets = [])
      { code := .GS103, severity := .warning,
        message := ["conditional edge from ", .repr edge.source, " has no declared targets"],
        source := edge.source } ++
    flag (edge.routerRef = .none)
      { code := .GS105, severity := .warning,
        message := ["conditional edge from ", .repr edge.source, " has no stable router reference"],
        source := edge.source }

def lintEdge (names seen : List Str) (edge : EdgeSpec) : List GraphLintIssue :=
  flag (seen.contains edge.source)
      { code := .GS012, severity := .error,
        message := ["multiple edges are declared for source ", .repr edge.source],
        source := edge.source } ++
    match edge.kind with
    | .static => lintStatic names edge
    | .conditional => lintConditional names edge
    | .fanout => []

-- `claimed`: the first region each branch belongs to.
abbrev Claimed := Dict Value Str

def claim (names : List Str) (source : Str) (claimed : Claimed) (branch : Value) : Claimed :=
  if Names names branch ∧ ¬claimed.contains branch then claimed.set branch source else claimed

def lintBranch (names sources : List Str) (edge : EdgeSpec) (claimed : Claimed) (branch : Value) :
    List GraphLintIssue :=
  if ¬Names names branch then
    [{ code := .GS202, severity := .error,
       message := ["fan-out branch ", .repr branch, " is not a node"],
       source := edge.source, target := branch }]
  else
    flag (branch ∈ [.str edge.source, edge.target, .str START, .str END])
      { code := .GS203, severity := .error,
        message := ["fan-out branch ", .repr branch, " cannot be the source, target or a sentinel"],
        source := edge.source, target := branch } ++
    flag (Names sources branch)
      { code := .GS204, severity := .error,
        message := ["fan-out branch ", .repr branch, " declares its own edge, which a region ignores"],
        source := edge.source, target := branch } ++
    flag (∃ source ∈ claimed.get? branch, source ≠ edge.source)
      { code := .GS206, severity := .error,
        message := ["node ", .repr branch, " is a branch of more than one region"],
        source := edge.source, target := branch }

def lintFanout (names sources : List Str) (claimed : Claimed) (edge : EdgeSpec) :
    List GraphLintIssue :=
  flag (¬names.contains edge.source)
      { code := .GS201, severity := .error,
        message := ["fan-out source ", .repr edge.source, " is not a node"], source := edge.source } ++
    flag (edge.target ≠ .none ∧ edge.target ≠ .str END ∧ ¬Names names edge.target)
      { code := .GS205, severity := .error,
        message := ["fan-out target ", .repr edge.target, " is not a node"],
        source := edge.source, target := edge.target } ++
    lintEach (lintBranch names sources edge) (claim names edge.source) claimed edge.declaredTargets

def claimAll (names : List Str) (claimed : Claimed) (edge : EdgeSpec) : Claimed :=
  edge.declaredTargets.foldl (claim names edge.source) claimed

-- A quorum of more branches than its region has, and how many these are.
def excessiveQuorum (counts : Dict Str Nat) (join : JoinSpec) : Option (Int × Nat) :=
  match join.quorum, counts.get? join.source with
  | .int quorum, some count => if join.kind = .quorum ∧ count < quorum then some (quorum, count) else none
  | _, _ => none

def lintJoin (counts : Dict Str Nat) (seen : List Str) (join : JoinSpec) : List GraphLintIssue :=
  flag (¬counts.contains join.source)
      { code := .GS207, severity := .error,
        message := ["join source ", .repr join.source, " is not a fan-out source"],
        source := join.source } ++
    flag (seen.contains join.source)
      { code := .GS208, severity := .error,
        message := ["multiple joins are declared for source ", .repr join.source],
        source := join.source } ++
    (match excessiveQuorum counts join with
      | some (quorum, count) =>
          [{ code := .GS209, severity := .error,
             message := ["quorum ", .insert (Json.toStr (Json.intText quorum)), " exceeds the ",
               .insert (Json.toStr (Json.intText count)), " branches of ", .repr join.source],
             source := join.source }]
      | none => []) ++
    flag (join.kind = .custom ∧ join.ref = .none)
      { code := .GS213, severity := .warning,
        message := ["custom join for ", .repr join.source, " has no stable function reference"],
        source := join.source }

def lintReducer (seen : List Str) (reducer : ReducerSpec) : List GraphLintIssue :=
  flag (seen.contains reducer.field)
      { code := .GS210, severity := .error,
        message := ["multiple reducers are declared for field ", .repr reducer.field],
        node := reducer.field } ++
    flag (reducer.kind = .custom ∧ reducer.ref = .none)
      { code := .GS213, severity := .warning,
        message := ["custom reducer for ", .repr reducer.field, " has no stable function reference"],
        node := reducer.field }

namespace GraphSpec

def nodeNames (spec : GraphSpec) : List Str := spec.nodes.map NodeSpec.name

def fanouts (spec : GraphSpec) : List EdgeSpec := spec.edges.filter isFanout

def SUPPORTED_GRAPH_SPEC_SCHEMA_VERSIONS : List Str := [SCHEMA_VERSION, SCHEMA_VERSION_R3]

-- `branch_counts`.
def branchCounts (spec : GraphSpec) : Dict Str Nat :=
  Dict.ofList (spec.fanouts.map fun edge => (edge.source, edge.declaredTargets.length))

-- `_lint_regions`.
def lintRegions (spec : GraphSpec) : List GraphLintIssue :=
  let usesR3 := usesR3 spec.edges spec.reducers spec.joins
  flag (usesR3 ∧ spec.schemaVersion = SCHEMA_VERSION)
      { code := .GS211, severity := .error,
        message := ["fan-out edges, reducers and joins require GraphSpec schema version '2'"] } ++
    flag (¬usesR3 ∧ SUPPORTED_GRAPH_SPEC_SCHEMA_VERSIONS.contains spec.schemaVersion ∧
        spec.schemaVersion ≠ SCHEMA_VERSION)
      { code := .GS212, severity := .error,
        message := ["GraphSpec schema version '2' requires a fan-out edge, reducer or join"] } ++
    lintEach (lintFanout spec.nodeNames (spec.edges.map EdgeSpec.source)) (claimAll spec.nodeNames)
      .empty spec.fanouts ++
    lintEach (lintJoin spec.branchCounts) (fun seen join => join.source :: seen) [] spec.joins ++
    lintEach lintReducer (fun seen reducer => reducer.field :: seen) [] spec.reducers ++
    flag (spec.reducers ≠ [] ∧ spec.fanouts = [])
      { code := .GS214, severity := .warning,
        message := ["reducers are declared but the graph has no fan-out region"] }

-- The pairs of names that `adjacency` relates for an edge.
def arcs (edge : EdgeSpec) : List (Value × Value) :=
  match edge.kind with
  | .static => if edge.target = .none then [] else [(.str edge.source, edge.target)]
  | .fanout =>
      if edge.target = .none then []
      else
        edge.declaredTargets.map (.str edge.source, ·) ++ (.str edge.source, edge.target) ::
          edge.declaredTargets.map (·, edge.target)
  | .conditional => edge.declaredTargets.map (.str edge.source, ·)

def adjacency (spec : GraphSpec) : List (Value × Value) := spec.edges.flatMap arcs

def successors (spec : GraphSpec) (current : Value) : List Value :=
  (spec.adjacency.filter (·.1 = current)).map Prod.snd

-- The names of `opaque_conditional_sources`.
def opaqueConditionalSources (spec : GraphSpec) : List Str :=
  (spec.edges.filter fun edge => edge.kind = .conditional && edge.declaredTargets = []).map
    EdgeSpec.source

def reachable (spec : GraphSpec) : List Value :=
  Worklist.search spec.successors (spec.adjacency.map Prod.snd) (.str START)

def reachableOpaque (spec : GraphSpec) : Bool :=
  spec.opaqueConditionalSources.any fun source => .str source ∈ spec.reachable

def lintReachability (spec : GraphSpec) : List GraphLintIssue :=
  if spec.reachableOpaque then []
  else
    (Python.sorted id (spec.nodeNames.dedup.filter fun name => .str name ∉ spec.reachable)).map
        (fun name =>
          { code := .GS101, severity := .warning,
            message := ["node ", .repr name, " is definitely unreachable from START"], node := name }) ++
      flag (.str END ∉ spec.reachable)
        { code := .GS102, severity := .warning,
          message := ["known graph structure has no definite path from START to END"] }

-- What is found in a spec whose content is identified by `expectedId`.
def issues (spec : GraphSpec) (expectedId : Str) : List GraphLintIssue :=
  flag (¬SUPPORTED_GRAPH_SPEC_SCHEMA_VERSIONS.contains spec.schemaVersion)
      { code := .GS013, severity := .error,
        message := ["unsupported GraphSpec schema version ", .repr spec.schemaVersion] } ++
    flag (spec.graphId ≠ expectedId)
      { code := .GS014, severity := .error,
        message := ["graph_id does not match canonical structural content"] } ++
    lintEach lintNode (fun seen node => node.name :: seen) [] spec.nodes ++
    flag (spec.maxSteps ≤ 0)
      { code := .GS010, severity := .error, message := ["max_steps must be positive"] } ++
    flag (∀ edge ∈ spec.edges, edge.source ≠ START)
      { code := .GS003, severity := .error, message := ["graph has no START entry edge"],
        source := START } ++
    lintEach (lintEdge spec.nodeNames) (fun seen edge => edge.source :: seen) [] spec.edges ++
    spec.lintRegions ++
    spec.lintReachability

-- A target is looked up among the names, which hashes it.
def hashTargets (spec : GraphSpec) : Except Exn Unit :=
  (spec.edges.filter (·.kind = .static) ++ spec.fanouts).forM fun edge =>
    if edge.target.hashable then .ok () else .error (unhashable edge.target)

end GraphSpec

-- `lint_graph_spec`.
def lintGraphSpec [Sha256] [Builtins] (spec : GraphSpec) : Except Exn GraphValidationReport := do
  let payload ← spec.canonicalPayload
  let expectedId ← computeGraphId (.dict payload)
  spec.hashTargets
  let issues ← sortedByKey GraphLintIssue.sortKey (spec.issues expectedId)
  return ⟨spec.graphId, issues⟩

namespace GraphSpec

variable {spec : GraphSpec}

theorem mem_successors {x y : Value} : y ∈ spec.successors x ↔ (x, y) ∈ spec.adjacency := by
  simp only [successors, List.mem_map, List.mem_filter, decide_eq_true_eq]
  constructor
  · rintro ⟨⟨x, y⟩, ⟨hm, rfl⟩, rfl⟩
    exact hm
  · exact fun hm => ⟨(x, y), ⟨hm, rfl⟩, rfl⟩

-- The frontier loop ends with the names that the pairs of the adjacency lead to.
theorem mem_reachable_iff {x : Value} :
    x ∈ spec.reachable ↔ Relation.ReflTransGen (fun x y => (x, y) ∈ spec.adjacency) (.str START) x := by
  simp only [← mem_successors]
  exact Worklist.mem_search_iff fun x y hy => List.mem_map_of_mem (mem_successors.mp hy)

theorem start_reachable : .str START ∈ spec.reachable :=
  mem_reachable_iff.mpr .refl

theorem reachable_arc {edge : EdgeSpec} {x y : Value} (hx : x ∈ spec.reachable)
    (hedge : edge ∈ spec.edges) (harc : (x, y) ∈ arcs edge) : y ∈ spec.reachable :=
  mem_reachable_iff.mpr ((mem_reachable_iff.mp hx).tail (List.mem_flatMap.mpr ⟨edge, hedge, harc⟩))

theorem declared_of_reachable {edge : EdgeSpec} (hknown : spec.reachableOpaque = false)
    (hedge : edge ∈ spec.edges) (hkind : edge.kind = .conditional)
    (hsource : .str edge.source ∈ spec.reachable) : edge.declaredTargets ≠ [] := by
  intro hnone
  simp only [reachableOpaque, List.any_eq_false, decide_eq_true_eq] at hknown
  refine hknown edge.source (List.mem_map_of_mem (List.mem_filter.mpr ⟨hedge, ?_⟩)) hsource
  simp [hkind, hnone]

end GraphSpec

-- The findings that are not about what can be reached.
def Structural (issue : GraphLintIssue) : Prop := issue.code ≠ .GS101 ∧ issue.code ≠ .GS102

theorem lintNode_structural {seen : List Str} {node : NodeSpec} :
    ∀ issue ∈ lintNode seen node, Structural issue := by
  simp only [lintNode, List.forall_mem_append, forall_mem_flag]
  simp [Structural]

theorem lintEdge_structural {names seen : List Str} {edge : EdgeSpec} :
    ∀ issue ∈ lintEdge names seen edge, Structural issue := by
  simp only [lintEdge, List.forall_mem_append, forall_mem_flag]
  refine ⟨fun _ => ⟨nofun, nofun⟩, ?_⟩
  cases edge.kind with
  | static =>
      simp only [lintStatic, List.forall_mem_append, forall_mem_flag]
      simp [Structural]
  | conditional =>
      simp only [lintConditional, List.forall_mem_append, List.forall_mem_flatMap, forall_mem_flag]
      simp [Structural]
  | fanout => exact nofun

theorem lintFanout_structural {names sources : List Str} {claimed : Claimed} {edge : EdgeSpec} :
    ∀ issue ∈ lintFanout names sources claimed edge, Structural issue := by
  simp only [lintFanout, List.forall_mem_append, forall_mem_flag]
  refine ⟨⟨fun _ => ⟨nofun, nofun⟩, fun _ => ⟨nofun, nofun⟩⟩, lintEach_forall fun claimed branch _ => ?_⟩
  unfold lintBranch
  split_ifs
  · simp only [List.forall_mem_append, forall_mem_flag]
    simp [Structural]
  · simp [Structural]

theorem lintJoin_structural {counts : Dict Str Nat} {seen : List Str} {join : JoinSpec} :
    ∀ issue ∈ lintJoin counts seen join, Structural issue := by
  simp only [lintJoin, List.forall_mem_append, forall_mem_flag]
  cases excessiveQuorum counts join <;> simp [Structural]

theorem lintReducer_structural {seen : List Str} {reducer : ReducerSpec} :
    ∀ issue ∈ lintReducer seen reducer, Structural issue := by
  simp only [lintReducer, List.forall_mem_append, forall_mem_flag]
  simp [Structural]

theorem lintRegions_structural {spec : GraphSpec} : ∀ issue ∈ spec.lintRegions, Structural issue := by
  simp only [GraphSpec.lintRegions, List.forall_mem_append, forall_mem_flag]
  refine ⟨⟨⟨⟨⟨fun _ => ⟨nofun, nofun⟩, fun _ => ⟨nofun, nofun⟩⟩, ?_⟩, ?_⟩, ?_⟩,
    fun _ => ⟨nofun, nofun⟩⟩
  · exact lintEach_forall fun _ _ _ => lintFanout_structural
  · exact lintEach_forall fun _ _ _ => lintJoin_structural
  · exact lintEach_forall fun _ _ _ => lintReducer_structural

theorem mem_lintReachability {spec : GraphSpec} {expectedId : Str} {issue : GraphLintIssue}
    (hissue : issue ∈ spec.issues expectedId) (hcode : issue.code = .GS101 ∨ issue.code = .GS102) :
    issue ∈ spec.lintReachability := by
  have hall : ∀ issue ∈ spec.issues expectedId, issue ∈ spec.lintReachability ∨ Structural issue := by
    simp only [GraphSpec.issues, List.forall_mem_append, forall_mem_flag]
    refine ⟨⟨⟨⟨⟨⟨⟨fun _ => .inr ⟨nofun, nofun⟩, fun _ => .inr ⟨nofun, nofun⟩⟩, ?_⟩,
      fun _ => .inr ⟨nofun, nofun⟩⟩, fun _ => .inr ⟨nofun, nofun⟩⟩, ?_⟩, ?_⟩, fun _ h => .inl h⟩
    · exact lintEach_forall fun _ _ _ issue h => .inr (lintNode_structural issue h)
    · exact lintEach_forall fun _ _ _ issue h => .inr (lintEdge_structural issue h)
    · exact fun issue h => .inr (lintRegions_structural issue h)
  refine (hall issue hissue).resolve_right fun hs => ?_
  exact hcode.elim hs.1 hs.2

-- What a spec without errors promises of the names in it.
structure Linted (spec : GraphSpec) : Prop where
  named : ∀ name ∈ spec.nodeNames, name ≠ [] ∧ name ≠ START ∧ name ≠ END
  entry : ∃ edge ∈ spec.edges, edge.source = START
  static : ∀ edge ∈ spec.edges, edge.kind = .static → edge.target ≠ .none →
    edge.target = .str END ∨ Names spec.nodeNames edge.target
  conditional : ∀ edge ∈ spec.edges, edge.kind = .conditional → ∀ target ∈ edge.declaredTargets,
    target = .str END ∨ Names spec.nodeNames target
  fanout : ∀ edge ∈ spec.edges, edge.kind = .fanout → edge.source ∈ spec.nodeNames ∧
    (edge.target ≠ .none → edge.target = .str END ∨ Names spec.nodeNames edge.target) ∧
    ∀ branch ∈ edge.declaredTargets, Names spec.nodeNames branch

-- An error that is not reported says that what it reports is not so.
theorem not_of_flag {found : Prop} [Decidable found] {issue : GraphLintIssue}
    (h : ∀ x ∈ flag found issue, x.severity ≠ .error) (hsev : issue.severity = .error) : ¬found :=
  fun hfound => forall_mem_flag.mp h hfound hsev

section Report

variable [Sha256] [Builtins] {spec : GraphSpec} {report : GraphValidationReport}

theorem lintGraphSpec_issues (h : lintGraphSpec spec = .ok report) :
    ∃ expectedId, ∀ issue, issue ∈ report.issues ↔ issue ∈ spec.issues expectedId := by
  obtain ⟨payload, -, h⟩ := Python.bind_eq_ok.mp h
  obtain ⟨expectedId, -, h⟩ := Python.bind_eq_ok.mp h
  obtain ⟨-, -, h⟩ := Python.bind_eq_ok.mp h
  obtain ⟨issues, hsorted, h⟩ := Python.bind_eq_ok.mp h
  obtain rfl := Except.ok.inj h
  exact ⟨expectedId, fun issue => (sortedByKey_perm hsorted).mem_iff⟩

-- A node reported unreachable was not reached, nor was any router of unknown targets.
theorem unreached_of_report {name : Str} {issue : GraphLintIssue} (h : lintGraphSpec spec = .ok report)
    (hissue : issue ∈ report.issues) (hcode : issue.code = .GS101) (hnode : issue.node = .str name) :
    spec.reachableOpaque = false ∧ .str name ∉ spec.reachable := by
  obtain ⟨expectedId, hissues⟩ := lintGraphSpec_issues h
  have hm := mem_lintReachability ((hissues issue).mp hissue) (.inl hcode)
  unfold GraphSpec.lintReachability at hm
  split_ifs at hm with hknown
  · cases hm
  refine ⟨Bool.eq_false_iff.mpr hknown, ?_⟩
  rcases List.mem_append.mp hm with hm | hm
  · obtain ⟨unreached, hunreached, rfl⟩ := List.mem_map.mp hm
    obtain rfl := Value.str.inj hnode
    simpa using (List.mem_filter.mp (Python.mem_sorted.mp hunreached)).2
  · obtain ⟨-, rfl⟩ := mem_flag.mp hm
    cases hcode

theorem no_path_of_report {issue : GraphLintIssue} (h : lintGraphSpec spec = .ok report)
    (hissue : issue ∈ report.issues) (hcode : issue.code = .GS102) :
    spec.reachableOpaque = false ∧ .str END ∉ spec.reachable := by
  obtain ⟨expectedId, hissues⟩ := lintGraphSpec_issues h
  have hm := mem_lintReachability ((hissues issue).mp hissue) (.inr hcode)
  unfold GraphSpec.lintReachability at hm
  split_ifs at hm with hknown
  · cases hm
  refine ⟨Bool.eq_false_iff.mpr hknown, ?_⟩
  rcases List.mem_append.mp hm with hm | hm
  · obtain ⟨unreached, -, rfl⟩ := List.mem_map.mp hm
    cases hcode
  · exact (mem_flag.mp hm).1

theorem linted_of_valid (h : lintGraphSpec spec = .ok report) (hv : report.valid = true) :
    Linted spec := by
  obtain ⟨expectedId, hissues⟩ := lintGraphSpec_issues h
  have hnone : ∀ issue ∈ spec.issues expectedId, issue.severity ≠ .error := by
    intro issue hissue hsev
    simp only [GraphValidationReport.valid, Bool.not_eq_true', List.any_eq_false, decide_eq_true_eq] at hv
    exact hv issue ((hissues issue).mpr hissue) hsev
  simp only [GraphSpec.issues, GraphSpec.lintRegions, List.forall_mem_append] at hnone
  obtain ⟨⟨⟨⟨⟨⟨-, hnodes⟩, -⟩, hentry⟩, hedges⟩, ⟨⟨⟨-, hfanouts⟩, -⟩, -⟩, -⟩, -⟩ := hnone
  have hedge : ∀ edge ∈ spec.edges, ∃ seen, ∀ issue ∈ lintEdge spec.nodeNames seen edge,
      issue.severity ≠ .error := lintEach_checks hedges
  constructor
  · intro name hname
    obtain ⟨node, hnode, rfl⟩ := List.mem_map.mp hname
    obtain ⟨seen, hchecked⟩ := lintEach_checks hnodes node hnode
    simp only [lintNode, List.forall_mem_append] at hchecked
    obtain ⟨⟨⟨-, hblank⟩, hreserved⟩, -⟩ := hchecked
    have hreserved := not_or.mp (not_of_flag hreserved rfl)
    refine ⟨fun hnil => not_of_flag hblank rfl ?_, hreserved⟩
    rw [hnil, List.all_nil]
  · simpa using not_of_flag hentry rfl
  · intro edge hmem hkind htarget
    obtain ⟨seen, hchecked⟩ := hedge edge hmem
    simp only [lintEdge, hkind, lintStatic, List.forall_mem_append] at hchecked
    have hunknown := not_of_flag hchecked.2.2 rfl
    tauto
  · intro edge hmem hkind target htarget
    obtain ⟨seen, hchecked⟩ := hedge edge hmem
    simp only [lintEdge, hkind, lintConditional, List.forall_mem_append, List.forall_mem_flatMap] at hchecked
    have hunknown := not_of_flag (hchecked.2.1.1.2 target htarget) rfl
    tauto
  · intro edge hmem hkind
    have hfan : edge ∈ spec.fanouts := List.mem_filter.mpr ⟨hmem, decide_eq_true hkind⟩
    obtain ⟨claimed, hchecked⟩ := lintEach_checks hfanouts edge hfan
    simp only [lintFanout, List.forall_mem_append] at hchecked
    obtain ⟨⟨hsource, htarget⟩, hbranches⟩ := hchecked
    have htarget := not_of_flag htarget rfl
    have hregistered := List.contains_iff_mem.mp (not_not.mp (not_of_flag hsource rfl))
    refine ⟨hregistered, fun hsome => by tauto, fun branch hbranch => ?_⟩
    obtain ⟨claimed, hbranch⟩ := lintEach_checks hbranches branch hbranch
    by_contra hunknown
    rw [lintBranch, if_pos hunknown] at hbranch
    exact hbranch _ List.mem_cons_self rfl

end Report

end PerpetuaCore.Graph
