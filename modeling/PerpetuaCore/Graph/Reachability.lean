import PerpetuaCore.Graph.Course

namespace PerpetuaCore.Graph.Reachability

open Interaction Course
open Python (Str Value Dict)

variable [Sha256] {g : CompiledGraph} {spec : GraphSpec}

-- What the linter reaches is closed under the edges the scheduler takes.
theorem enclosed_of_described (hd : Described g spec) (hknown : spec.reachableOpaque = false) :
    Enclosed g fun name => .str name ∈ spec.reachable := by
  have hpicture : ∀ source edge, g.edges.get? source = some edge →
      ∃ record ∈ spec.edges, Pictures source edge record := fun source edge hget =>
    hd.edges.complete source edge hget
  have hdeclared : ∀ source edge, .str source ∈ spec.reachable → g.edges.get? source = some edge →
      edge.kind = .conditional → edge.declaredTargets ≠ [] ∧
        ∀ target ∈ edge.declaredTargets, .str target ∈ spec.reachable := by
    intro source edge hr hget hkind
    obtain ⟨record, hm, hp⟩ := hpicture source edge hget
    have hrecord : record.kind = .conditional := hp.kind.trans hkind
    have htargets : ∀ target, target ∈ record.declaredTargets → target ∈ spec.reachable := by
      intro target ht
      refine GraphSpec.reachable_arc hr hm ?_
      simpa [GraphSpec.arcs, hrecord, hp.source] using ht
    constructor
    · intro hnone
      refine GraphSpec.declared_of_reachable hknown hm hrecord (hp.source ▸ hr) ?_
      refine List.eq_nil_iff_forall_not_mem.mpr fun target ht => ?_
      simpa [hnone] using (hp.declaredTargets target).mp ht
    · exact fun target ht => htargets _ ((hp.declaredTargets _).mpr (List.mem_map_of_mem ht))
  constructor
  · exact GraphSpec.start_reachable
  · intro source target hr hget
    obtain ⟨record, hm, hp⟩ := hpicture source _ hget
    refine GraphSpec.reachable_arc hr hm ?_
    simp [GraphSpec.arcs, hp.kind, Edge.kind, hp.source, hp.target, Edge.target]
  · intro source router hr hget
    exact (hdeclared source _ hr hget rfl).1 rfl
  · exact fun source edge hr hget => hdeclared source _ hr hget rfl
  · intro source region hr hget
    obtain ⟨record, hm, hp⟩ := hpicture source _ hget
    have harcs : GraphSpec.arcs record = region.branches.map (fun branch => (.str source, .str branch)) ++
        (.str source, .str region.thenNode) ::
          region.branches.map fun branch => (.str branch, .str region.thenNode) := by
      simp [GraphSpec.arcs, hp.kind, Edge.kind, hp.source, hp.target, Edge.target, hp.branches rfl,
        Edge.declaredTargets, Function.comp_def]
    constructor
    · exact GraphSpec.reachable_arc hr hm (by simp [harcs])
    · exact fun branch hb => GraphSpec.reachable_arc hr hm (by simp [harcs, hb])

section Reports

variable [Builtins] {gate : Option Gate} {state : State} {report : GraphValidationReport}
  {issue : GraphLintIssue} {t : Run} {o : Except Exn Unit}

-- A node reported unreachable is never started.
theorem unreachable_never_starts {name : Str} (hr : g.describe >>= lintGraphSpec = .ok report)
    (hissue : issue ∈ report.issues) (hcode : issue.code = .GS101) (hnode : issue.node = .str name)
    (ht : Exec generating (run g gate state) t o) (hd : Declared g t) :
    ∀ observation ∈ observations t, observation.event.kind = .nodeStart →
      observation.event.node ≠ some name := by
  intro observation hm hkind hname
  obtain ⟨spec, hs, hr⟩ := Python.bind_eq_ok.mp hr
  obtain ⟨hknown, hunreached⟩ := unreached_of_report hr hissue hcode hnode
  have hrun := run_ended (enclosed_of_described (describe_described hs) hknown) t o ht
  have hinside : Inside g (fun name => .str name ∈ spec.reachable) observation := by
    cases o with
    | ok => exact Ended.starts_inside hrun hd hm hkind
    | error error => exact Broken.starts_inside hrun hd hm hkind
  exact hunreached (hinside.started hkind name hname)

end Reports

omit [Sha256] in
theorem declared_of_static {t : Run} (hstatic : ∀ item ∈ g.edges.items, ∃ target, item.2 = .static target) :
    Declared g t := by
  intro source fn state reply _ edge hget
  obtain ⟨target, ht⟩ := hstatic _ (Dict.mem_items_of_get? hget)
  cases ht

theorem exists_reported [Builtins] {report : GraphValidationReport} {P : GraphLintIssue → Bool}
    (hr : g.describe >>= lintGraphSpec = .ok report)
    (h : (g.describe >>= lintGraphSpec).toOption.any (fun report => report.issues.any P) = true) :
    ∃ issue ∈ report.issues, P issue = true := by
  rw [hr] at h
  exact List.any_eq_true.mp h

-- The node `b` is behind no edge.
def stranded : CompiledGraph where
  nodes := ⟨[("a", ⟨0, none, none⟩), ("b", ⟨1, none, none⟩)], by decide⟩
  edges := ⟨[(START, .static "a"), ("a", .static END)], by decide⟩
  maxSteps := 5

omit [Sha256] in
theorem unreachable_never_starts_stranded :
    letI := Sha256.verbatim
    letI := quotingBuiltins
    let t := ((run stranded none (State.new "s")).simulate (obliging fun _ => .dict [])).1
    ∃ report, stranded.describe >>= lintGraphSpec = .ok report ∧
      (∃ issue ∈ report.issues, issue.code = .GS101 ∧ issue.node = .str "b") ∧
      ∀ observation ∈ observations t, observation.event.kind = .nodeStart →
        observation.event.node ≠ some "b" := by
  let := Sha256.verbatim
  let := quotingBuiltins
  intro t
  obtain ⟨report, hr⟩ : ∃ report, stranded.describe >>= lintGraphSpec = .ok report :=
    Python.exists_ok (by decide +kernel)
  obtain ⟨issue, hissue, hreported⟩ := exists_reported
    (P := fun issue => issue.code = .GS101 && issue.node = .str "b") hr (by decide +kernel)
  obtain ⟨hcode, hnode⟩ := Bool.and_eq_true_iff.mp hreported
  have ht := exec_simulate (obliging fun _ => .dict []) (run stranded none (State.new "s"))
  refine ⟨report, hr, ⟨issue, hissue, of_decide_eq_true hcode, of_decide_eq_true hnode⟩, ?_⟩
  exact unreachable_never_starts hr hissue (of_decide_eq_true hcode) (of_decide_eq_true hnode) ht
    (declared_of_static (by simp [stranded]))

section Paths

variable [Builtins] {gate : Option Gate} {state : State} {report : GraphValidationReport}
  {issue : GraphLintIssue} {t : Run} {o : Except Exn Unit}

-- A graph reported without a path to END is done in a run that returns exactly if that run left
-- a name that has no edge.
theorem finished_iff_defaulted (hr : g.describe >>= lintGraphSpec = .ok report)
    (hissue : issue ∈ report.issues) (hcode : issue.code = .GS102)
    (ht : Exec generating (run g gate state) t o) (hd : Declared g t) :
    ¬Finished t ↔ (o = .ok () → ¬Defaulted g t) := by
  obtain ⟨spec, hs, hr⟩ := Python.bind_eq_ok.mp hr
  obtain ⟨hknown, hunreached⟩ := no_path_of_report hr hissue hcode
  have hrun := run_ended (enclosed_of_described (describe_described hs) hknown) t o ht
  cases o with
  | ok =>
      have hiff := Ended.finished_iff hrun hd hunreached
      exact ⟨fun hf _ => (not_congr hiff).mp hf, fun hf => (not_congr hiff).mpr (hf rfl)⟩
  | error error => exact iff_of_true (Broken.unfinished hrun hd) nofun

end Paths

-- The node `a` is left by no edge.
def openEnded : CompiledGraph where
  nodes := ⟨[("a", ⟨0, none, none⟩)], by decide⟩
  edges := ⟨[(START, .static "a")], by decide⟩
  maxSteps := 5

omit [Sha256] in
theorem finished_iff_defaulted_open_ended :
    letI := Sha256.verbatim
    letI := quotingBuiltins
    let t := ((run openEnded none (State.new "s")).simulate (obliging fun _ => .dict [])).1
    ∃ report, openEnded.describe >>= lintGraphSpec = .ok report ∧
      (∃ issue ∈ report.issues, issue.code = .GS102) ∧ (¬Finished t ↔ ¬Defaulted openEnded t) := by
  let := Sha256.verbatim
  let := quotingBuiltins
  intro t
  obtain ⟨report, hr⟩ : ∃ report, openEnded.describe >>= lintGraphSpec = .ok report :=
    Python.exists_ok (by decide +kernel)
  obtain ⟨issue, hissue, hcode⟩ := exists_reported (P := fun issue => issue.code = .GS102) hr
    (by decide +kernel)
  have ht := exec_simulate (obliging fun _ => .dict []) (run openEnded none (State.new "s"))
  obtain ⟨⟨⟩, hok⟩ : ∃ value, ((run openEnded none (State.new "s")).simulate
      (obliging fun _ => .dict [])).2 = .ok value := Python.exists_ok (by decide +kernel)
  refine ⟨report, hr, ⟨issue, hissue, of_decide_eq_true hcode⟩, ?_⟩
  have hiff := finished_iff_defaulted hr hissue (of_decide_eq_true hcode) ht
    (declared_of_static (by simp [openEnded]))
  exact hiff.trans ⟨fun h => h hok, fun h _ => h⟩

omit [Sha256] in
-- The engine leaves `a` for END where the linter sees no way out of it.
theorem open_ended_is_done :
    ¬∀ [Sha256] [Builtins] (g : CompiledGraph) (gate : Option Gate) (state : State)
      (report : GraphValidationReport) (issue : GraphLintIssue) (t : Run) (o : Except Exn Unit),
      g.describe >>= lintGraphSpec = .ok report → issue ∈ report.issues → issue.code = .GS102 →
        Exec generating (run g gate state) t o → Declared g t → ¬Finished t := by
  intro h
  let := Sha256.verbatim
  let := quotingBuiltins
  obtain ⟨report, hr⟩ : ∃ report, openEnded.describe >>= lintGraphSpec = .ok report :=
    Python.exists_ok (by decide +kernel)
  obtain ⟨issue, hissue, hcode⟩ := exists_reported (P := fun issue => issue.code = .GS102) hr
    (by decide +kernel)
  have ht := exec_simulate (obliging fun _ => .dict []) (run openEnded none (State.new "s"))
  refine h _ _ _ _ _ _ _ hr hissue (of_decide_eq_true hcode) ht
    (declared_of_static (by simp [openEnded])) ?_
  unfold Finished
  decide +kernel

end PerpetuaCore.Graph.Reachability
