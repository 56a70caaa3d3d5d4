import PerpetuaCore.Graph.Course
import PerpetuaCore.Graph.Origin

namespace PerpetuaCore.Graph.Safety

open Interaction Course
open Python (Str Value Dict)

-- A name an edge may lead to.
def Resolves (g : CompiledGraph) (target : Str) : Prop := checkTarget g (.str target) = .ok target

-- A graph in which every edge leads to END or to a node.
structure Wired (g : CompiledGraph) : Prop where
  named : ∀ name, g.nodes.contains name = true → name ≠ []
  static : ∀ source target, g.edges.get? source = some (.static target) → Resolves g target
  conditional : ∀ source edge, g.edges.get? source = some (.conditional edge) →
    ∀ target ∈ edge.declaredTargets, Resolves g target
  entry : ∀ region, g.edges.get? START ≠ some (.fanout region)
  branch : ∀ source region, g.edges.get? source = some (.fanout region) →
    ∀ branch ∈ region.branches, g.nodes.contains branch = true
  thenNode : ∀ source region, g.edges.get? source = some (.fanout region) →
    Resolves g region.thenNode

-- Every router that declares no targets returned END or a node, where it returned.
def Undeclared (g : CompiledGraph) (t : Run) : Prop :=
  ∀ source fn state reply, Event.leave (.router source fn state) reply ∈ t →
    ∀ edge, g.edges.get? source = some edge → edge.declaredTargets = [] →
      ∀ value, reply.result = .ok value →
        ∃ target, value = .str target ∧ (target = END ∨ g.nodes.contains target)

variable {g : CompiledGraph} {gate : Option Gate} {source : Str} {state : State} {steps : Nat}
  {h : Run}

theorem Wired.resolves (hw : Wired g) {target : Str} (ht : target = END ∨ g.nodes.contains target) :
    Resolves g target := by
  refine checkTarget_eq_ok.mpr ⟨rfl, ?_, ht⟩
  rcases ht with rfl | hnode
  · decide
  · exact hw.named target hnode

-- What the linter checks on the description is so of the graph itself.
theorem wired_of_linted [Sha256] {spec : GraphSpec} (hd : Described g spec) (hl : Linted spec) :
    Wired g := by
  have hnode : ∀ name, Names spec.nodeNames (.str name) ↔ g.nodes.contains name = true := by
    intro name
    rw [Dict.contains_iff, Names, List.mem_map]
    constructor
    · rintro ⟨name', hname, ⟨⟩⟩
      obtain ⟨record, hrecord, rfl⟩ := List.mem_map.mp hname
      obtain ⟨key, fn, hget, hp⟩ := hd.nodes.sound record hrecord
      exact hp.name ▸ Dict.mem_keys_iff.mpr ⟨fn, hget⟩
    · intro hname
      obtain ⟨fn, hget⟩ := Dict.mem_keys_iff.mp hname
      obtain ⟨record, hrecord, hp⟩ := hd.nodes.complete name fn hget
      exact ⟨name, List.mem_map.mpr ⟨record, hrecord, hp.name⟩, rfl⟩
  have hnamed : ∀ name, g.nodes.contains name = true → name ≠ [] := by
    intro name hname
    obtain ⟨name', hm, ⟨⟩⟩ := List.mem_map.mp ((hnode name).mpr hname)
    exact (hl.named _ hm).1
  have hresolves : ∀ target, Value.str target = .str END ∨ Names spec.nodeNames (.str target) →
      Resolves g target := by
    intro target ht
    refine checkTarget_eq_ok.mpr ⟨rfl, ?_, ht.imp Value.str.inj (hnode target).mp⟩
    rcases ht with he | hn
    · rw [Value.str.inj he]
      decide
    · exact hnamed target ((hnode target).mp hn)
  constructor
  · exact hnamed
  · intro source target hget
    obtain ⟨record, hm, hp⟩ := hd.edges.complete source _ hget
    have htarget : record.target = .str target := hp.target
    exact hresolves target (htarget ▸ hl.static record hm hp.kind (htarget ▸ nofun))
  · intro source edge hget target ht
    obtain ⟨record, hm, hp⟩ := hd.edges.complete source _ hget
    exact hresolves target (hl.conditional record hm hp.kind _
      ((hp.declaredTargets _).mpr (List.mem_map_of_mem ht)))
  · intro region hget
    obtain ⟨record, hm, hp⟩ := hd.edges.complete START _ hget
    have hsource := (hl.fanout record hm hp.kind).1
    exact (hl.named _ hsource).2.1 hp.source
  · intro source region hget branch hbranch
    obtain ⟨record, hm, hp⟩ := hd.edges.complete source _ hget
    exact (hnode branch).mp ((hl.fanout record hm hp.kind).2.2 _
      ((hp.declaredTargets _).mpr (List.mem_map_of_mem hbranch)))
  · intro source region hget
    obtain ⟨record, hm, hp⟩ := hd.edges.complete source _ hget
    have htarget : record.target = .str region.thenNode := hp.target
    exact hresolves _ (htarget ▸ (hl.fanout record hm hp.kind).2.1 (htarget ▸ nofun))

-- In a run whose routers keep to the graph, a structural error comes from code outside Core.
def Foreign (g : CompiledGraph) (error : Exn) (t : Run) : Prop :=
  Declared g t → Undeclared g t → error.isStructural = true →
    ∃ event ∈ t, event.raised? = some error

theorem foreign_of_borrowed {error : Exn} {t : Run} (hb : Origin.Borrowed t error) :
    Foreign g error t := by
  intro _ _ hs
  refine hb ?_
  cases error with
  | maxStepsExceeded steps last => rfl
  | _ => exact hs

theorem foreign_of_other {error : Exn} {t : Run} (he : error.isStructural = false) :
    Foreign g error t :=
  fun _ _ hs => absurd (he.symm.trans hs) Bool.false_ne_true

-- An edge out of `source` that is about to be taken.
structure Way (g : CompiledGraph) (source : Str) (edge : Edge) : Prop where
  static : ∀ target, edge = .static target → Resolves g target
  single : ∀ region, edge ≠ .fanout region
  own : edge.router? ≠ none → g.edges.get? source = some edge

theorem Wired.way (hw : Wired g) {edge : Edge} (hedge : g.edgeOf source = edge)
    (hsingle : ∀ region, edge ≠ .fanout region) : Way g source edge := by
  unfold CompiledGraph.edgeOf at hedge
  cases hget : g.edges.get? source with
  | none =>
      rw [hget] at hedge
      subst hedge
      exact ⟨fun _ he => Edge.static.inj he ▸ hw.resolves (.inl rfl), nofun, fun hr => absurd rfl hr⟩
  | some found =>
      rw [hget] at hedge
      obtain rfl : found = edge := hedge
      exact ⟨fun target he => hw.static source target (he ▸ hget), hsingle, fun _ => hget⟩

def Registered (g : CompiledGraph) (node : Str) : Prop := node = END ∨ g.nodes.contains node = true

theorem resolveEdge_registered {edge : Edge} :
    (resolveEdge g source edge state).Returns fun taken => Registered g taken.1 := by
  have hchecked : ∀ value : Value, (Prog.ofExcept (checkTarget g value) : Step Str).Returns
      (Registered g) := fun value => .ofExcept fun target ht => (checkTarget_eq_ok.mp ht).2.2
  cases edge with
  | static target => exact .bind (hchecked _) fun _ hr => hr
  | fanout region =>
      unfold resolveEdge
      exact .ofExcept fun _ he => nomatch he
  | callable router =>
      exact .bind (.all _) fun _ _ => .bind (.all _) fun _ _ => .bind (hchecked _) fun _ hr => hr
  | conditional edge =>
      exact .bind (.all _) fun _ _ => .bind (.all _) fun _ _ => .bind (hchecked _) fun _ hr => hr

theorem route_registered {edge : Edge} :
    (route g gate source edge state steps).Returns fun next =>
      ∀ taken, next = some taken → Registered g taken.1 := by
  refine .bind (.all _) fun asked _ => ?_
  cases asked.1 with
  | some decision => exact .bind (.all _) fun _ _ => .bind (.all _) fun _ _ => nofun
  | none =>
      refine .bind (.all _) fun _ _ => .bind (Does.lift_returns resolveEdge_registered) ?_
      refine fun taken hr => .bind (.all _) fun _ _ => ?_
      rintro _ ⟨⟩
      exact hr

theorem route_safe (hw : Wired g) {edge : Edge} (hway : Way g source edge) :
    Ensures generating (Foreign g) (route g gate source edge state steps)
      (Rule.Goes (fun _ => True) fun next _ => Registered g next.1) h := by
  have hraises : Ensures generating (Foreign g) (route g gate source edge state steps)
      (fun _ _ => True) h := by
    refine Origin.route_raises (fun _ _ hb => foreign_of_borrowed hb) ?_ ?_ ?_
    · intro target he error t hc
      cases hc.symm.trans (hway.static target he)
    · exact fun region he => absurd he (hway.single region)
    · intro fn reply value hfn hresult error t hc hdeclared hundeclared
      have hm : Event.leave (.router source fn state) reply ∈
          t ++ [Event.enter (.router source fn state), .leave (.router source fn state) reply] := by simp
      have hedge := hway.own (hfn ▸ nofun)
      have hresolves : ∃ target, value = .str target ∧ Resolves g target := by
        by_cases hnone : edge.declaredTargets = []
        · obtain ⟨target, hvalue, ht⟩ := hundeclared _ _ _ _ hm edge hedge hnone value hresult
          exact ⟨target, hvalue, hw.resolves ht⟩
        · cases edge with
          | conditional edge =>
              obtain ⟨target, ht, hvalue⟩ := hdeclared _ _ _ _ hm edge hedge hnone value hresult
              exact ⟨target, hvalue, hw.conditional source edge hedge target ht⟩
          | callable router => exact absurd rfl hnone
          | _ => cases hfn
      obtain ⟨target, rfl, ht⟩ := hresolves
      cases hc.symm.trans ht
  refine (hraises.and (.returns route_registered)).mono ?_ fun _ _ hx => hx
  rintro (_ | next) t ⟨-, hr⟩
  · trivial
  · exact hr next rfl

variable [Sha256]

theorem runNode_safe {node : Str} (hr : Registered g node) (hend : node ≠ END) :
    Ensures generating (Foreign g) (runNode g gate node state steps) (fun _ _ => True) h := by
  refine Origin.runNode_raises (fun _ _ hb => foreign_of_borrowed hb) fun error he => ?_
  obtain ⟨fn, hget⟩ := Dict.mem_keys_iff.mp (Dict.contains_iff.mp (hr.resolve_left hend))
  cases hget.symm.trans (Origin.nodeFor_error he).1

theorem followRegion_safe (hw : Wired g) {node : Str} :
    Ensures generating (Foreign g) (followRegion g gate node state steps)
      (Rule.Goes (fun _ => True) fun next _ => Way g node next.2) h := by
  have hfanout : ∀ region, g.edgeOf node = .fanout region →
      g.edges.get? node = some (.fanout region) := by
    intro region hedge
    unfold CompiledGraph.edgeOf at hedge
    cases hget : g.edges.get? node with
    | none => rw [hget] at hedge; cases hedge
    | some found => rw [hget] at hedge; exact congrArg some hedge
  have hraises : Ensures generating (Foreign g) (followRegion g gate node state steps)
      (fun _ _ => True) h := by
    refine Origin.followRegion_raises (fun _ _ hb => foreign_of_borrowed hb) ?_
    intro region hedge error he
    have hget := hfanout region hedge
    rcases Origin.enterRegion_error he with rfl | ⟨name, hname, hnode⟩ | ⟨hthen, -⟩ | hplain
    · exact foreign_of_other rfl
    · obtain ⟨fn, hfn⟩ := Dict.mem_keys_iff.mp (Dict.contains_iff.mp (hw.branch node region hget name hname))
      cases hfn.symm.trans (Origin.nodeFor_error hnode).1
    · exact absurd (checkTarget_eq_ok.mp (hw.thenNode node region hget)).2.2 hthen
    · exact foreign_of_borrowed (Origin.borrowed_of_plain hplain)
  have hway : (followRegion g gate node state steps).Returns fun next =>
      ∀ taken, next = some taken → Way g node taken.2 := by
    unfold followRegion
    split
    · rename_i region hedge
      refine .bind (.all _) fun result _ => ?_
      rintro taken htaken
      obtain ⟨_, -, rfl⟩ := Option.map_eq_some_iff.mp htaken
      refine ⟨fun target he => ?_, nofun, fun hnone => absurd rfl hnone⟩
      exact Edge.static.inj he ▸ hw.thenNode node region (hfanout region hedge)
    · rename_i hother
      rintro taken ⟨⟩
      exact hw.way rfl hother
  refine (hraises.and (.returns hway)).mono ?_ fun _ _ hx => hx
  rintro (_ | next) t ⟨-, hr⟩
  · trivial
  · exact hr next rfl

theorem run_safe (hw : Wired g) :
    Ensures generating (Foreign g) (run g gate state) (fun _ _ => True) h := by
  have hentry : ∀ region, g.edgeOf START ≠ .fanout region := by
    intro region hedge
    unfold CompiledGraph.edgeOf at hedge
    cases hget : g.edges.get? START with
    | none => rw [hget] at hedge; cases hedge
    | some found => rw [hget] at hedge; exact hw.entry region (hget.trans (congrArg some hedge))
  refine Rule.run (I := fun node _ _ _ _ => Registered g node) (J := fun _ _ _ _ => True)
    (K := fun node edge _ _ _ => Way g node edge) (route_safe hw (hw.way rfl hentry)) ?_ ?_ ?_ ?_ ?_
  · exact fun _ _ _ _ _ => Origin.finish_borrows.mono (fun _ _ ht => ht)
      fun _ _ hb => foreign_of_borrowed hb
  · exact fun _ _ _ _ _ _ _ => foreign_of_other rfl
  · intro node state steps _ h hr hend _
    refine (runNode_safe hr hend).mono (fun next _ _ => ?_) fun _ _ hf => hf
    cases next <;> trivial
  · exact fun _ _ _ _ _ => followRegion_safe hw
  · exact fun _ _ _ _ _ hway => route_safe hw hway

section Lint

variable [Builtins] {report : GraphValidationReport} {t : Run} {error : Exn}

-- A graph that lints without an error never ends a run with a structural error of the scheduler.
theorem lint_valid_safe (hr : g.describe >>= lintGraphSpec = .ok report) (hv : report.valid = true)
    (he : Exec generating (run g gate state) t (.error error)) (hd : Declared g t)
    (hu : Undeclared g t) (hown : ∀ event ∈ t, event.raised? ≠ some error) :
    error.isStructural = false := by
  obtain ⟨spec, hs, hr⟩ := Python.bind_eq_ok.mp hr
  have hw := wired_of_linted (describe_described hs) (linted_of_valid hr hv)
  have hend : Foreign g error t := run_safe (h := []) hw t _ he
  refine Bool.eq_false_iff.mpr fun hstructural => ?_
  obtain ⟨event, hm, hraised⟩ := hend hd hu hstructural
  exact hown event hm hraised

end Lint

-- The node `a` is left for itself again, or for END.
def returning : CompiledGraph where
  nodes := ⟨[("a", ⟨2, none, none⟩)], by decide⟩
  edges := ⟨[(START, .static "a"), ("a", .conditional ⟨⟨1, none, none⟩, ["a", END]⟩)], by decide⟩
  maxSteps := 1

def lingering : Handler Core
  | .leave (.router _ _ state) => ⟨.ok "a", state⟩
  | op => obliging (fun _ => .dict []) op

omit [Sha256] in
theorem lingers {t : Run} (ht : Obeys lingering t) {fn : Fn} {reply : Reply} {value : Value}
    (hm : Event.leave (.router source fn state) reply ∈ t) (hv : reply.result = .ok value) :
    value = .str "a" := by
  rw [ht _ _ hm] at hv
  exact (Except.ok.inj hv).symm

omit [Sha256] in
theorem lint_valid_safe_returning :
    letI := Sha256.verbatim
    letI := quotingBuiltins
    let t := ((run returning none (State.new "s")).simulate lingering).1
    ∃ error, Exec generating (run returning none (State.new "s")) t (.error error) ∧
      Declared returning t ∧ error.isStructural = false := by
  let := Sha256.verbatim
  let := quotingBuiltins
  intro t
  obtain ⟨report, hr⟩ : ∃ report, returning.describe >>= lintGraphSpec = .ok report :=
    Python.exists_ok (by decide +kernel)
  have hv : report.valid = true := by
    have hchecked : (returning.describe >>= lintGraphSpec).toOption.any (·.valid) = true := by
      decide +kernel
    rw [hr] at hchecked
    exact hchecked
  have hrun := exec_simulate lingering (run returning none (State.new "s"))
  have hexhausted : ((run returning none (State.new "s")).simulate lingering).2 =
      .error (.maxStepsExceeded 1 "a") := by rfl
  have hobeys := obeys_simulate lingering (run returning none (State.new "s"))
  have hdeclared : Declared returning t := by
    intro source fn state reply hm edge hget _ value hvalue
    obtain rfl := lingers hobeys hm hvalue
    have hitem := Dict.mem_items_of_get? hget
    simp only [returning, List.mem_cons, Prod.mk.injEq, reduceCtorEq, and_false, false_or,
      List.not_mem_nil, or_false, Edge.conditional.injEq] at hitem
    exact ⟨"a", by rw [hitem.2]; exact List.mem_cons_self, rfl⟩
  have hundeclared : Undeclared returning t := fun source fn state reply hm edge _ _ value hvalue =>
    ⟨"a", lingers hobeys hm hvalue, .inr (by decide)⟩
  have hown : t.all (fun event => (Event.raised? event).isNone) = true := by decide +kernel
  refine ⟨_, hexhausted ▸ hrun, hdeclared, ?_⟩
  exact lint_valid_safe hr hv (hexhausted ▸ hrun) hdeclared hundeclared (Origin.unraised hown _)

end PerpetuaCore.Graph.Safety
