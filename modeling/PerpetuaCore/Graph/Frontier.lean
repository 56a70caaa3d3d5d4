import PerpetuaCore.Graph.Describe
import PerpetuaCore.Graph.Lint

namespace PerpetuaCore.Graph.Frontier

open Python (Str Value Dict Worklist)

-- The names an edge of the spec relates.
inductive Leads (spec : GraphSpec) : Value → Value → Prop
  | static {edge : EdgeSpec} (hedge : edge ∈ spec.edges) (hkind : edge.kind = .static) :
      Leads spec (.str edge.source) edge.target
  | conditional {edge : EdgeSpec} {target : Value} (hedge : edge ∈ spec.edges)
      (hkind : edge.kind = .conditional) (htarget : target ∈ edge.declaredTargets) :
      Leads spec (.str edge.source) target
  | branch {edge : EdgeSpec} {branch : Value} (hedge : edge ∈ spec.edges) (hkind : edge.kind = .fanout)
      (hbranch : branch ∈ edge.declaredTargets) : Leads spec (.str edge.source) branch
  | past {edge : EdgeSpec} (hedge : edge ∈ spec.edges) (hkind : edge.kind = .fanout) :
      Leads spec (.str edge.source) edge.target
  | onward {edge : EdgeSpec} {branch : Value} (hedge : edge ∈ spec.edges) (hkind : edge.kind = .fanout)
      (hbranch : branch ∈ edge.declaredTargets) : Leads spec branch edge.target

-- There is a path from START.
def Path (spec : GraphSpec) (x : Value) : Prop := Relation.ReflTransGen (Leads spec) (.str START) x

-- The frontier loop after so many rounds, each of which goes through the names that `listed`
-- has for the current one.
def frontierLoop (listed : Value → List Value) (rounds : Nat) : Worklist Value :=
  (Worklist.advance listed)^[rounds] ⟨[.str START], [.str START]⟩

variable {spec : GraphSpec}

theorem target_ne_none {edge : EdgeSpec} (h : edge.kind ≠ .conditional) : edge.target ≠ .none := by
  obtain ⟨targets, hchecked, -⟩ := edge.declared
  exact ((checkEdge_eq_ok.mp hchecked).2.1 h).1

theorem mem_adjacency_iff {x y : Value} : (x, y) ∈ spec.adjacency ↔ Leads spec x y := by
  unfold GraphSpec.adjacency
  rw [List.mem_flatMap]
  constructor
  · rintro ⟨edge, hedge, harc⟩
    unfold GraphSpec.arcs at harc
    cases hkind : edge.kind with
    | static =>
        have htarget : edge.target ≠ .none := target_ne_none (by simp [hkind])
        obtain ⟨rfl, rfl⟩ : x = .str edge.source ∧ y = edge.target := by
          simpa [hkind, htarget] using harc
        exact .static hedge hkind
    | conditional =>
        obtain ⟨hy, rfl⟩ : y ∈ edge.declaredTargets ∧ .str edge.source = x := by
          simpa [hkind] using harc
        exact .conditional hedge hkind hy
    | fanout =>
        have htarget : edge.target ≠ .none := target_ne_none (by simp [hkind])
        simp only [hkind, if_neg htarget, List.mem_append, List.mem_cons, List.mem_map] at harc
        rcases harc with ⟨branch, hbranch, hb⟩ | hpast | ⟨branch, hbranch, hb⟩
        · cases hb
          exact .branch hedge hkind hbranch
        · cases hpast
          exact .past hedge hkind
        · cases hb
          exact .onward hedge hkind hbranch
  · intro hleads
    cases hleads with
    | @static edge hedge hkind =>
        have htarget : edge.target ≠ .none := target_ne_none (by simp [hkind])
        exact ⟨edge, hedge, by simp [GraphSpec.arcs, hkind, htarget]⟩
    | @conditional edge target hedge hkind hy =>
        exact ⟨edge, hedge, by simpa [GraphSpec.arcs, hkind] using hy⟩
    | @branch edge branch hedge hkind hbranch =>
        have htarget : edge.target ≠ .none := target_ne_none (by simp [hkind])
        exact ⟨edge, hedge, by simp [GraphSpec.arcs, hkind, htarget, hbranch]⟩
    | @past edge hedge hkind =>
        have htarget : edge.target ≠ .none := target_ne_none (by simp [hkind])
        exact ⟨edge, hedge, by simp [GraphSpec.arcs, hkind, htarget]⟩
    | @onward edge branch hedge hkind hbranch =>
        have htarget : edge.target ≠ .none := target_ne_none (by simp [hkind])
        exact ⟨edge, hedge, by simp [GraphSpec.arcs, hkind, htarget, hbranch]⟩

theorem mem_reachable_path {x : Value} : x ∈ spec.reachable ↔ Path spec x := by
  rw [GraphSpec.mem_reachable_iff]
  simp only [mem_adjacency_iff]
  exact Iff.rfl

-- In whatever order the names are gone through, the loop ends, and has then marked those that
-- a path leads to.
theorem frontierLoop_ends {listed : Value → List Value}
    (hlisted : ∀ x y, y ∈ listed x ↔ (x, y) ∈ spec.adjacency) :
    ∃ rounds, (frontierLoop listed rounds).frontier = [] ∧
      ∀ x, x ∈ (frontierLoop listed rounds).seen ↔ Path spec x := by
  have hvertices : ∀ x, ∀ y ∈ listed x, y ∈ spec.adjacency.map Prod.snd :=
    fun x y hy => List.mem_map_of_mem ((hlisted x y).mp hy)
  have hends := Worklist.advance_ends hvertices (Worklist.todo_start (.str START))
  refine ⟨_, hends, fun x => (Worklist.expanding_start.iterate.mem_seen_iff hends).trans ?_⟩
  simp only [Worklist.Reaches, hlisted, mem_adjacency_iff]
  exact Iff.rfl

theorem reachableOpaque_eq_false (h : ∀ edge ∈ spec.edges, edge.kind = .conditional →
    edge.declaredTargets = [] → ¬Path spec (.str edge.source)) : spec.reachableOpaque = false := by
  simp only [GraphSpec.reachableOpaque, List.any_eq_false, decide_eq_true_eq]
  intro source hsource hreached
  obtain ⟨edge, hedge, rfl⟩ := List.mem_map.mp hsource
  obtain ⟨hmem, hopaque⟩ := List.mem_filter.mp hedge
  obtain ⟨hkind, hnone⟩ : edge.kind = .conditional ∧ edge.declaredTargets = [] := by
    simpa using hopaque
  exact h edge hmem hkind hnone (mem_reachable_path.mp hreached)

section Report

variable [Sha256] [Builtins] {report : GraphValidationReport}

-- The findings about what can be reached are those of `lintReachability`.
theorem reported_iff (h : lintGraphSpec spec = .ok report) {issue : GraphLintIssue}
    (hcode : issue.code = .GS101 ∨ issue.code = .GS102) :
    issue ∈ report.issues ↔ issue ∈ spec.lintReachability := by
  obtain ⟨expectedId, hissues⟩ := lintGraphSpec_issues h
  rw [hissues]
  refine ⟨fun hm => mem_lintReachability hm hcode, fun hm => ?_⟩
  exact List.mem_append_right _ hm

theorem unreached_reported_iff (h : lintGraphSpec spec = .ok report)
    (hknown : spec.reachableOpaque = false) {node : Value} :
    (∃ issue ∈ report.issues, issue.code = .GS101 ∧ issue.node = node) ↔
      ∃ name ∈ spec.nodeNames, node = .str name ∧ ¬Path spec (.str name) := by
  constructor
  · rintro ⟨issue, hissue, hcode, rfl⟩
    have hm := (reported_iff h (.inl hcode)).mp hissue
    simp only [GraphSpec.lintReachability, hknown, Bool.false_eq_true, if_false] at hm
    rcases List.mem_append.mp hm with hm | hm
    · obtain ⟨name, hname, rfl⟩ := List.mem_map.mp hm
      obtain ⟨hdeclared, hunreached⟩ := List.mem_filter.mp (Python.mem_sorted.mp hname)
      refine ⟨name, List.mem_dedup.mp hdeclared, rfl, fun hpath => ?_⟩
      exact of_decide_eq_true hunreached (mem_reachable_path.mpr hpath)
    · obtain ⟨-, rfl⟩ := mem_flag.mp hm
      cases hcode
  · rintro ⟨name, hname, rfl, hunreached⟩
    have hlisted : name ∈ Python.sorted id
        (spec.nodeNames.dedup.filter fun name => .str name ∉ spec.reachable) := by
      refine Python.mem_sorted.mpr (List.mem_filter.mpr ⟨List.mem_dedup.mpr hname, ?_⟩)
      exact decide_eq_true fun hm => hunreached (mem_reachable_path.mp hm)
    have hfound : (⟨.GS101, .warning, ["node ", .repr name, " is definitely unreachable from START"],
        .str name, .none, .none⟩ : GraphLintIssue) ∈ spec.lintReachability := by
      simp only [GraphSpec.lintReachability, hknown, Bool.false_eq_true, if_false]
      exact List.mem_append_left _ (List.mem_map.mpr ⟨name, hlisted, rfl⟩)
    exact ⟨_, (reported_iff h (.inl rfl)).mpr hfound, rfl, rfl⟩

theorem no_path_reported_iff (h : lintGraphSpec spec = .ok report)
    (hknown : spec.reachableOpaque = false) :
    (∃ issue ∈ report.issues, issue.code = .GS102) ↔ ¬Path spec (.str END) := by
  rw [← mem_reachable_path]
  constructor
  · rintro ⟨issue, hissue, hcode⟩
    exact (no_path_of_report h hissue hcode).2
  · intro hunreached
    have hfound : (⟨.GS102, .warning, ["known graph structure has no definite path from START to END"],
        .none, .none, .none⟩ : GraphLintIssue) ∈ spec.lintReachability := by
      simp only [GraphSpec.lintReachability, hknown, Bool.false_eq_true, if_false]
      exact List.mem_append_right _ (mem_flag.mpr ⟨hunreached, rfl⟩)
    exact ⟨_, (reported_iff h (.inr rfl)).mpr hfound, rfl⟩

-- What the linter knows of the paths from START, where every router on them names its targets.
theorem reachability_exact {listed : Value → List Value}
    (hlisted : ∀ x y, y ∈ listed x ↔ (x, y) ∈ spec.adjacency) :
    (∃ rounds, (frontierLoop listed rounds).frontier = [] ∧
      ∀ x, x ∈ (frontierLoop listed rounds).seen ↔ Path spec x) ∧
    ∀ report, lintGraphSpec spec = .ok report →
      (∀ edge ∈ spec.edges, edge.kind = .conditional → edge.declaredTargets = [] →
        ¬Path spec (.str edge.source)) →
      (∀ node, (∃ issue ∈ report.issues, issue.code = .GS101 ∧ issue.node = node) ↔
        ∃ name ∈ spec.nodeNames, node = .str name ∧ ¬Path spec (.str name)) ∧
      ((∃ issue ∈ report.issues, issue.code = .GS102) ↔ ¬Path spec (.str END)) := by
  refine ⟨frontierLoop_ends hlisted, fun report h hopaque => ?_⟩
  have hknown := reachableOpaque_eq_false hopaque
  exact ⟨fun node => unreached_reported_iff h hknown, no_path_reported_iff h hknown⟩

end Report

-- `ping` and `pong` lead to each other, and `aside` is behind no edge.
def circling : CompiledGraph where
  nodes := ⟨[("ping", ⟨0, none, none⟩), ("pong", ⟨1, none, none⟩), ("aside", ⟨2, none, none⟩)],
    by decide⟩
  edges := ⟨[(START, .static "ping"), ("ping", .static "pong"), ("pong", .static "ping")], by decide⟩
  maxSteps := 5

theorem reachability_exact_circling :
    letI := Sha256.verbatim
    letI := quotingBuiltins
    ∃ spec report, circling.describe = .ok spec ∧ lintGraphSpec spec = .ok report ∧
      (∃ rounds, (frontierLoop spec.successors rounds).frontier = [] ∧
        ∀ x, x ∈ (frontierLoop spec.successors rounds).seen ↔ Path spec x) ∧
      (∀ node, (∃ issue ∈ report.issues, issue.code = .GS101 ∧ issue.node = node) ↔
        ∃ name ∈ spec.nodeNames, node = .str name ∧ ¬Path spec (.str name)) ∧
      ((∃ issue ∈ report.issues, issue.code = .GS102) ↔ ¬Path spec (.str END)) := by
  let := Sha256.verbatim
  let := quotingBuiltins
  obtain ⟨report, hr⟩ : ∃ report, circling.describe >>= lintGraphSpec = .ok report :=
    Python.exists_ok (by decide +kernel)
  obtain ⟨spec, hs, hr⟩ := Python.bind_eq_ok.mp hr
  have hstatic : circling.describe.toOption.all
      (fun spec => spec.edges.all fun edge => edge.kind = .static) = true := by decide +kernel
  rw [hs] at hstatic
  obtain ⟨hloop, hreport⟩ := reachability_exact fun x y => spec.mem_successors
  refine ⟨spec, report, hs, hr, hloop, hreport report hr fun edge hedge hkind => ?_⟩
  have hkind' : edge.kind = .static := of_decide_eq_true (List.all_eq_true.mp hstatic edge hedge)
  cases hkind'.symm.trans hkind

end PerpetuaCore.Graph.Frontier
