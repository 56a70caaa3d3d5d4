import PerpetuaCore.Graph.Lint
import PerpetuaCore.Graph.Spec.Typed
import PerpetuaCore.Graph.Spec.Identity
import PerpetuaCore.Json.Writes

namespace PerpetuaCore.Graph

open Json (Writes)
open Python (CodePoint Str Value Dict Decides)

-- Any character but a surrogate, which no UTF-8 text has.
def Encodable (c : CodePoint) : Prop := c.val < 0xD800 ∨ 0xDFFF < c.val

instance (c : CodePoint) : Decidable (Encodable c) := inferInstanceAs (Decidable (_ ∨ _))

theorem encodable_structural : ∀ c, Json.structural c = true → Encodable c := by
  intro c hc
  have hall : ∀ c ∈ [Json.quote, Json.comma, Json.colon, Json.openBracket, Json.closeBracket,
      Json.openBrace, Json.closeBrace], Encodable c := List.forall_iff_forall_mem.mp (by decide)
  exact hall c (by simpa [Json.structural] using hc)

theorem encodable_iff {text : Str} : encodable text = true ↔ ∀ c ∈ text, Encodable c := by
  simp [encodable, Encodable]

theorem computeGraphId_isOk [Sha256] {payload : Value} :
    (∃ id, computeGraphId payload = .ok id) ↔ Writes Encodable payload := by
  simp only [computeGraphId, canonicalJson, Json.dumpsUnicode, Writes]
  cases hd : Json.toDoc id payload with
  | none => simp [bind, Except.bind]
  | some d =>
      simp only [Option.map_some, Python.bind_eq_ok, Except.ok.injEq, Option.some.injEq,
        exists_eq_left', ← encodable_iff]
      split_ifs with h <;> simp [h]

namespace JoinSpec

-- A default join says nothing but its source.
theorem toDict_default {join : JoinSpec} (h : join.isDefault = true) :
    join.toDict = .dict (Json.named
      [("source", .str join.source), ("kind", "all"), ("quorum", .none), ("ref", .none)]) := by
  obtain ⟨source, kind, quorum, ref, hcounted, hchecked⟩ := join
  obtain rfl : kind = .all := by simpa [isDefault] using h
  obtain rfl : quorum = .none := by
    by_contra hne
    simp [checkQuorum, hne] at hcounted
  obtain rfl : ref = .none := by
    by_contra hne
    simp [checkRef, hne] at hchecked
  rfl

theorem writes_default {join : JoinSpec} (h : join.isDefault = true)
    (hsource : ∀ c ∈ Json.escapeUnicode join.source, Encodable c) : Writes Encodable join.toDict := by
  have hletters : ∀ text ∈ ["source", "kind", "quorum", "ref", "all"],
      ∀ c ∈ Json.escapeUnicode text, Encodable c := by
    simp only [← List.forall_iff_forall_mem]
    decide
  simp only [List.forall_mem_cons] at hletters
  obtain ⟨hs, hk, hq, hr, hall, -⟩ := hletters
  have hnone : Writes Encodable .none := ⟨_, rfl, List.forall_iff_forall_mem.mp (by decide)⟩
  rw [toDict_default h, Json.writes_named encodable_structural]
  simp only [List.forall_mem_cons, Json.writes_str encodable_structural]
  exact ⟨⟨hs, hsource⟩, ⟨hk, hall⟩, ⟨hq, hnone⟩, ⟨hr, hnone⟩, nofun⟩

end JoinSpec

theorem EdgeSpec.source_writes {edge : EdgeSpec} (h : Writes Encodable edge.toDict) :
    ∀ c ∈ Json.escapeUnicode edge.source, Encodable c := by
  have hnamed := (Json.writes_named encodable_structural [("source", .str edge.source),
    ("kind", .str edge.kind.text), ("target", edge.target), ("router_ref", edge.routerRef),
    ("declared_targets", .list edge.declaredTargets), ("metadata", edge.metadata.thaw)]).mp h
  exact (Json.writes_str encodable_structural).mp (List.forall_mem_cons.mp hnamed).1.2

namespace GraphSpec

-- A payload stays writable when default joins of sources it names are added.
theorem payload_writes {version : Str} {maxSteps : Int} {nodes : List NodeSpec}
    {edges : List EdgeSpec} {metadata : Metadata} {reducers : List ReducerSpec}
    {joins joins' : List JoinSpec}
    (h : Writes Encodable (.dict (payloadOf version maxSteps nodes edges metadata reducers joins)))
    (hjoins : ∀ join ∈ joins', join ∈ joins ∨
      join.isDefault = true ∧ ∃ edge ∈ edges, edge.source = join.source) :
    Writes Encodable (.dict (payloadOf version maxSteps nodes edges metadata reducers joins')) := by
  by_cases hversion : version = SCHEMA_VERSION
  · simpa only [payloadOf, hversion, if_true] using h
  · have hnamed : ∀ joins, basePayload version maxSteps nodes edges metadata ++
        regionPayload reducers joins = Json.named [("schema_version", .str version),
          ("max_steps", .int maxSteps), ("nodes", .list (nodes.map NodeSpec.toDict)),
          ("edges", .list (edges.map EdgeSpec.toDict)), ("metadata", metadata.thaw),
          ("reducers", .list ((Python.sorted ReducerSpec.field reducers).map ReducerSpec.toDict)),
          ("joins", .list ((Python.sorted JoinSpec.source joins).map JoinSpec.toDict))] :=
      fun joins => rfl
    simp only [payloadOf, hversion, if_false, hnamed, Json.writes_named encodable_structural,
      List.forall_mem_cons, Json.writes_list encodable_structural, List.forall_mem_map,
      Python.mem_sorted] at h ⊢
    obtain ⟨hv, hsteps, hnodes, ⟨he, hedges⟩, hmeta, hreducers, ⟨hj, hkept⟩, hnil⟩ := h
    refine ⟨hv, hsteps, hnodes, ⟨he, hedges⟩, hmeta, hreducers, ⟨hj, fun join hm => ?_⟩, hnil⟩
    rcases hjoins join hm with hm | ⟨hdefault, edge, hedge, hsource⟩
    · exact hkept join hm
    · refine JoinSpec.writes_default hdefault ?_
      rw [← hsource]
      exact EdgeSpec.source_writes (hedges edge hedge)

end GraphSpec

-- The finding about a join whose source had one before.
def repeatedJoin (source : Str) : GraphLintIssue :=
  { code := .GS208, severity := .error,
    message := ["multiple joins are declared for source ", .repr source], source := source }

-- The sources that stand in a list again.
def repeats : List Str → List Str → List Str
  | _, [] => []
  | seen, source :: rest =>
      (if seen.contains source then [source] else []) ++ repeats (source :: seen) rest

theorem count_repeats {seen sources : List Str} {source : Str} :
    (repeats seen sources).count source =
      sources.count source - if seen.contains source then 0 else 1 := by
  induction sources generalizing seen with
  | nil => simp [repeats]
  | cons head rest ih =>
      rw [repeats, List.count_append, ih, List.count_cons]
      by_cases hhead : head = source
      · subst hhead
        by_cases hseen : seen.contains head = true
        · rw [if_pos hseen, if_pos hseen, if_pos (by simp)]
          simp [Nat.add_comm]
        · rw [if_neg hseen, if_neg hseen, if_pos (by simp)]
          simp
      · have hcount : (if seen.contains head = true then [head] else []).count source = 0 := by
          split_ifs <;> simp [hhead]
        have hcontains : (head :: seen).contains source = seen.contains source := by
          simp [Ne.symm hhead]
        have hskip : (if (head == source) = true then 1 else 0) = 0 := if_neg (by simpa using hhead)
        rw [hcount, hcontains, hskip, Nat.zero_add, Nat.add_zero]

section Joins

variable {counts : Dict Str Nat} {seen : List Str} {joins : List JoinSpec} {join : JoinSpec}

def lintJoins (counts : Dict Str Nat) (seen : List Str) (joins : List JoinSpec) :
    List GraphLintIssue :=
  lintEach (lintJoin counts) (fun seen join => join.source :: seen) seen joins

theorem lintJoin_perm : (lintJoin counts seen join).Perm
    (lintJoin counts [] join ++ flag (seen.contains join.source) (repeatedJoin join.source)) := by
  have hfirst : ∀ issue, flag (([] : List Str).contains join.source = true) issue = [] :=
    fun _ => rfl
  have hlast : ∀ a b c d : List GraphLintIssue, (a ++ b ++ c ++ d).Perm (a ++ c ++ d ++ b) := by
    intro a b c d
    rw [List.append_assoc, List.append_assoc, List.append_assoc, List.append_assoc,
      ← List.append_assoc c]
    exact .append_left a List.perm_append_comm
  rw [lintJoin, lintJoin, hfirst, List.append_nil]
  exact hlast _ _ _ _

-- Each join is linted by itself, and its source is found again.
theorem lintJoins_perm : (lintJoins counts seen joins).Perm
    (joins.flatMap (lintJoin counts []) ++
      (repeats seen (joins.map JoinSpec.source)).map repeatedJoin) := by
  induction joins generalizing seen with
  | nil => exact .nil
  | cons join rest ih =>
      have hflag : flag (seen.contains join.source) (repeatedJoin join.source) =
          (if seen.contains join.source then [join.source] else []).map repeatedJoin := by
        unfold flag
        split_ifs <;> rfl
      rw [List.map_cons, repeats, List.map_append, ← hflag, List.flatMap_cons, List.append_assoc]
      refine (lintJoin_perm.append ih).trans ?_
      rw [List.append_assoc]
      refine .append_left _ ?_
      rw [← List.append_assoc, ← List.append_assoc]
      exact List.perm_append_comm.append_right _

theorem lintJoin_implied {edges : List EdgeSpec}
    (hcounts : ∀ edge ∈ edges, GraphSpec.isFanout edge = true → counts.contains edge.source = true)
    (h : GraphSpec.implied edges joins join = true) : lintJoin counts [] join = [] := by
  simp only [GraphSpec.implied, Bool.and_eq_true, List.any_eq_true, decide_eq_true_eq] at h
  obtain ⟨⟨hdefault, edge, hedge, hfan, hsource⟩, -⟩ := h
  have hkind : join.kind = .all := by simpa [JoinSpec.isDefault] using hdefault
  have hregion : counts.contains join.source = true := hsource ▸ hcounts edge hedge hfan
  have hquorum : excessiveQuorum counts join = none := by
    unfold excessiveQuorum
    split
    · simp [hkind]
    · rfl
  simp [lintJoin, flag, hregion, hquorum, hkind]

theorem count_kept {edges : List EdgeSpec} {source : Str} :
    ((GraphSpec.keptJoins edges joins).map JoinSpec.source).count source - 1 =
      (joins.map JoinSpec.source).count source - 1 := by
  have hcount : ∀ l : List JoinSpec, (l.map JoinSpec.source).count source =
      l.countP (·.source = source) := by
    intro l
    rw [List.count, List.countP_map]
    exact List.countP_congr fun join _ => by simp
  rw [hcount, hcount, GraphSpec.keptJoins, List.countP_filter]
  by_cases hmany : joins.countP (·.source = source) ≤ 1
  · have hle : joins.countP (fun join => decide (join.source = source) &&
        !GraphSpec.implied edges joins join) ≤ joins.countP (·.source = source) := by
      refine List.countP_mono_left fun join _ h => ?_
      simp only [Bool.and_eq_true] at h
      exact h.1
    rw [Nat.sub_eq_zero_of_le hmany, Nat.sub_eq_zero_of_le (hle.trans hmany)]
  · congr 1
    refine List.countP_congr fun join _ => ?_
    simp only [Bool.and_eq_true, decide_eq_true_eq, Bool.not_eq_true', and_iff_left_iff_imp]
    rintro rfl
    have hne : joins.countP (·.source = join.source) ≠ 1 := fun h => hmany h.le
    simp [GraphSpec.implied, hne]

-- What is found about the joins does not change when the implied ones are left out and the
-- others are put in another order.
theorem lintJoins_kept {edges : List EdgeSpec} {joins₁ joins₂ : List JoinSpec}
    (hcounts : ∀ edge ∈ edges, GraphSpec.isFanout edge = true → counts.contains edge.source = true)
    (h₁ : joins₁.Perm (GraphSpec.keptJoins edges joins)) (h₂ : joins₂.Perm joins) :
    (lintJoins counts [] joins₁).Perm (lintJoins counts [] joins₂) := by
  have hown : (GraphSpec.keptJoins edges joins).flatMap (lintJoin counts []) =
      joins.flatMap (lintJoin counts []) := by
    have hall : ∀ l : List JoinSpec, (l.filter fun join => !GraphSpec.implied edges joins join).flatMap
        (lintJoin counts []) = l.flatMap (lintJoin counts []) := by
      intro l
      induction l with
      | nil => rfl
      | cons join rest ih =>
          cases himplied : GraphSpec.implied edges joins join with
          | true => simp [himplied, ih, lintJoin_implied hcounts himplied]
          | false => simp [himplied, ih]
    exact hall joins
  refine lintJoins_perm.trans (.trans (.append ?_ (.map _ ?_)) lintJoins_perm.symm)
  · exact (h₁.flatMap_right _).trans (hown ▸ (h₂.flatMap_right _).symm)
  · refine List.perm_iff_count.mpr fun source => ?_
    have hsources : ((joins₁.map JoinSpec.source).count source - 1) =
        (joins₂.map JoinSpec.source).count source - 1 := by
      rw [(h₁.map _).count_eq, (h₂.map _).count_eq, count_kept]
    simpa [count_repeats] using hsources

end Joins

-- A rank as a text, so that a finding's key is a tuple of texts.
def LintSeverity.text : LintSeverity → Str
  | .error => "0"
  | .warning => "1"
  | .info => "2"

def issueText [Builtins] (issue : GraphLintIssue) : List Str :=
  [issue.severity.text, issue.code.text, refText issue.source, refText issue.node,
    refText issue.target, issue.message.flatMap MessagePart.render]

-- What a finding points at is named or absent.
structure GraphLintIssue.Typed (issue : GraphLintIssue) : Prop where
  node : isRef issue.node = true
  source : isRef issue.source = true
  target : isRef issue.target = true

theorem issueText_decides [Builtins] {a b : GraphLintIssue} (ha : a.Typed) (hb : b.Typed) :
    Decides (Python.lessList a.sortKey b.sortKey) (issueText a < issueText b) := by
  have hkey : ∀ issue : GraphLintIssue, issue.Typed → issue.sortKey = .int issue.severity.rank ::
      [issue.code.text, refText issue.source, refText issue.node, refText issue.target,
        issue.message.flatMap MessagePart.render].map .str := by
    intro issue h
    rw [GraphLintIssue.sortKey, orEmpty_ref h.source, orEmpty_ref h.node, orEmpty_ref h.target]
    rfl
  have heq : (Value.int a.severity.rank).eq (.int b.severity.rank) = true ↔
      a.severity.text = b.severity.text := by
    cases a.severity <;> cases b.severity <;> decide
  have hless : Decides ((Value.int a.severity.rank).less (.int b.severity.rank))
      (a.severity.text < b.severity.text) := by
    cases a.severity <;> cases b.severity <;> exact ⟨_, rfl, by decide⟩
  rw [hkey a ha, hkey b hb]
  exact Python.lessList_cons heq hless (Python.lessList_strings _ _)

section Typed

variable {names sources seen : List Str} {edge : EdgeSpec}

theorem declared_typed (h : edge.typed = true) : ∀ target ∈ edge.declaredTargets, isRef target = true := by
  simp only [EdgeSpec.typed, Bool.and_eq_true, List.all_eq_true] at h
  intro target hm
  obtain ⟨s, rfl⟩ := Json.exists_str (h.2 target hm)
  rfl

theorem target_typed (h : edge.typed = true) : isRef edge.target = true := by
  simp only [EdgeSpec.typed, Bool.and_eq_true] at h
  exact h.1.1

theorem lintNode_typed {node : NodeSpec} : ∀ issue ∈ lintNode seen node, issue.Typed := by
  simp only [lintNode, List.forall_mem_append, forall_mem_flag]
  exact ⟨⟨⟨fun _ => ⟨rfl, rfl, rfl⟩, fun _ => ⟨rfl, rfl, rfl⟩⟩, fun _ => ⟨rfl, rfl, rfl⟩⟩,
    fun _ => ⟨rfl, rfl, rfl⟩⟩

theorem lintEdge_typed (h : edge.typed = true) : ∀ issue ∈ lintEdge names seen edge, issue.Typed := by
  simp only [lintEdge, List.forall_mem_append, forall_mem_flag]
  refine ⟨fun _ => ⟨rfl, rfl, rfl⟩, ?_⟩
  cases edge.kind with
  | static =>
      simp only [lintStatic, List.forall_mem_append, forall_mem_flag]
      have htarget := target_typed h
      exact ⟨⟨fun _ => ⟨rfl, rfl, htarget⟩, fun _ => ⟨rfl, rfl, htarget⟩⟩,
        fun _ => ⟨rfl, rfl, htarget⟩⟩
  | conditional =>
      simp only [lintConditional, List.forall_mem_append, List.forall_mem_flatMap, forall_mem_flag]
      exact ⟨⟨⟨⟨fun _ => ⟨rfl, rfl, target_typed h⟩, fun _ => ⟨rfl, rfl, rfl⟩⟩,
        fun target hm _ => ⟨rfl, rfl, declared_typed h target hm⟩⟩, fun _ => ⟨rfl, rfl, rfl⟩⟩,
        fun _ => ⟨rfl, rfl, rfl⟩⟩
  | fanout => exact List.forall_mem_nil _

theorem lintFanout_typed {claimed : Claimed} (h : edge.typed = true) :
    ∀ issue ∈ lintFanout names sources claimed edge, issue.Typed := by
  simp only [lintFanout, List.forall_mem_append, forall_mem_flag]
  refine ⟨⟨fun _ => ⟨rfl, rfl, rfl⟩, fun _ => ⟨rfl, rfl, target_typed h⟩⟩,
    lintEach_forall fun claimed branch hm => ?_⟩
  have hbranch := declared_typed h branch hm
  unfold lintBranch
  split_ifs
  · simp only [List.forall_mem_append, forall_mem_flag]
    exact ⟨⟨fun _ => ⟨rfl, rfl, hbranch⟩, fun _ => ⟨rfl, rfl, hbranch⟩⟩, fun _ => ⟨rfl, rfl, hbranch⟩⟩
  · rintro issue hissue
    obtain rfl := List.mem_singleton.mp hissue
    exact ⟨rfl, rfl, hbranch⟩

def joinCodes : List LintCode := [.GS207, .GS208, .GS209, .GS213]

-- What the finding of a code about a join says; only an excessive quorum adds to it.
def joinMessage (source : Str) (quorum : Int) (count : Nat) : LintCode → Message
  | .GS207 => ["join source ", .repr source, " is not a fan-out source"]
  | .GS208 => ["multiple joins are declared for source ", .repr source]
  | .GS209 => ["quorum ", .insert (Json.toStr (Json.intText quorum)), " exceeds the ",
      .insert (Json.toStr (Json.intText count)), " branches of ", .repr source]
  | _ => ["custom join for ", .repr source, " has no stable function reference"]

theorem lintJoin_cases {counts : Dict Str Nat} {join : JoinSpec} {issue : GraphLintIssue}
    (h : issue ∈ lintJoin counts seen join) : ∃ code ∈ joinCodes, ∃ quorum, issue =
      { code := code, severity := if code = .GS213 then .warning else .error,
        message := joinMessage join.source quorum ((counts.get? join.source).getD 0) code,
        source := join.source } := by
  simp only [lintJoin, List.mem_append, mem_flag] at h
  rcases h with ((⟨-, rfl⟩ | ⟨-, rfl⟩) | h) | ⟨-, rfl⟩
  · exact ⟨.GS207, by decide, 0, rfl⟩
  · exact ⟨.GS208, by decide, 0, rfl⟩
  · split at h
    · rename_i quorum count hquorum
      obtain rfl := List.mem_singleton.mp h
      have hcount : counts.get? join.source = some count := by
        unfold excessiveQuorum at hquorum
        split at hquorum
        · split_ifs at hquorum
          cases hquorum
          assumption
        · cases hquorum
      exact ⟨.GS209, by decide, quorum, by rw [hcount]; rfl⟩
    · cases h
  · exact ⟨.GS213, by decide, 0, rfl⟩

theorem lintJoin_typed {counts : Dict Str Nat} {join : JoinSpec} :
    ∀ issue ∈ lintJoin counts seen join, issue.Typed := by
  intro issue h
  obtain ⟨_, -, _, rfl⟩ := lintJoin_cases h
  exact ⟨rfl, rfl, rfl⟩

theorem lintReducer_typed {reducer : ReducerSpec} :
    ∀ issue ∈ lintReducer seen reducer, issue.Typed := by
  simp only [lintReducer, List.forall_mem_append, forall_mem_flag]
  exact ⟨fun _ => ⟨rfl, rfl, rfl⟩, fun _ => ⟨rfl, rfl, rfl⟩⟩

theorem lintRegions_typed {spec : GraphSpec} (h : ∀ e ∈ spec.edges, e.typed = true) :
    ∀ issue ∈ spec.lintRegions, issue.Typed := by
  simp only [GraphSpec.lintRegions, List.forall_mem_append, forall_mem_flag]
  refine ⟨⟨⟨⟨⟨fun _ => ⟨rfl, rfl, rfl⟩, fun _ => ⟨rfl, rfl, rfl⟩⟩, ?_⟩, ?_⟩, ?_⟩,
    fun _ => ⟨rfl, rfl, rfl⟩⟩
  · exact lintEach_forall fun _ edge hm => lintFanout_typed (h edge (List.mem_of_mem_filter hm))
  · exact lintEach_forall fun _ _ _ => lintJoin_typed
  · exact lintEach_forall fun _ _ _ => lintReducer_typed

theorem issues_typed {spec : GraphSpec} {expectedId : Str} (h : ∀ e ∈ spec.edges, e.typed = true) :
    ∀ issue ∈ spec.issues expectedId, issue.Typed := by
  simp only [GraphSpec.issues, List.forall_mem_append, forall_mem_flag]
  refine ⟨⟨⟨⟨⟨⟨⟨fun _ => ⟨rfl, rfl, rfl⟩, fun _ => ⟨rfl, rfl, rfl⟩⟩, ?_⟩,
    fun _ => ⟨rfl, rfl, rfl⟩⟩, fun _ => ⟨rfl, rfl, rfl⟩⟩, ?_⟩, lintRegions_typed h⟩, ?_⟩
  · exact lintEach_forall fun _ _ _ => lintNode_typed
  · exact lintEach_forall fun _ edge hm => lintEdge_typed (h edge hm)
  · unfold GraphSpec.lintReachability
    split_ifs
    · exact List.forall_mem_nil _
    · simp only [List.forall_mem_append, List.forall_mem_map, forall_mem_flag]
      exact ⟨fun _ _ => ⟨rfl, rfl, rfl⟩, fun _ => ⟨rfl, rfl, rfl⟩⟩

end Typed

-- No two different findings about joins have one key.
theorem lintJoin_determined [Builtins] {counts : Dict Str Nat} {seen seen' : List Str}
    {join join' : JoinSpec} {a b : GraphLintIssue} (ha : a ∈ lintJoin counts seen join)
    (hb : b ∈ lintJoin counts seen' join') (h : issueText a = issueText b) : a = b := by
  obtain ⟨code, hcode, quorum, rfl⟩ := lintJoin_cases ha
  obtain ⟨code', hcode', quorum', rfl⟩ := lintJoin_cases hb
  have hall : ∀ c ∈ joinCodes, ∀ c' ∈ joinCodes, c.text = c'.text → c = c' := by decide
  simp only [issueText, refText, List.cons.injEq] at h
  obtain ⟨-, hsame, hsource, -, -, hmessage, -⟩ := h
  obtain rfl := hall code hcode code' hcode' hsame
  rw [← hsource] at hmessage ⊢
  simp only [joinCodes, List.mem_cons, List.not_mem_nil, or_false] at hcode
  rcases hcode with rfl | rfl | rfl | rfl
  · rfl
  · rfl
  · have htext : Json.toStr (Json.intText quorum) = Json.toStr (Json.intText quorum') := by
      simpa [joinMessage, MessagePart.render] using hmessage
    simp only [joinMessage, htext]
  · rfl

namespace GraphSpec

theorem usesR3_perm {edges edges' : List EdgeSpec} {reducers reducers' : List ReducerSpec}
    {joins joins' : List JoinSpec} (he : edges.Perm edges') (hr : reducers.Perm reducers')
    (hj : joins.Perm joins') : usesR3 edges reducers joins = usesR3 edges' reducers' joins' := by
  rw [usesR3, usesR3, he.any_eq, hr.isEmpty_eq, hj.isEmpty_eq]

-- A join is left out only of a graph with a region.
theorem usesR3_kept (edges : List EdgeSpec) (reducers : List ReducerSpec) (joins : List JoinSpec) :
    usesR3 edges reducers (keptJoins edges joins) = usesR3 edges reducers joins := by
  cases hfan : edges.any isFanout with
  | true => simp [usesR3, hfan]
  | false =>
      have hkept : keptJoins edges joins = joins := by
        refine List.filter_eq_self.mpr fun join _ => ?_
        have hregion : edges.any (fun edge => isFanout edge && edge.source = join.source) = false := by
          rw [List.any_eq_false] at hfan ⊢
          exact fun edge hm h => hfan edge hm (Bool.and_eq_true_iff.mp h).1
        simp [implied, hregion]
      rw [hkept]

theorem contains_branchCounts {spec : GraphSpec} : ∀ edge ∈ spec.edges, isFanout edge = true →
    spec.branchCounts.contains edge.source = true := by
  intro edge hedge hfan
  rw [Dict.contains_iff, branchCounts, Dict.mem_keys_ofList, List.map_map]
  exact List.mem_map.mpr ⟨edge, List.mem_filter.mpr ⟨hedge, hfan⟩, rfl⟩

-- The findings apart from the one about the identity.
def otherIssues (issues : List GraphLintIssue) : List GraphLintIssue :=
  issues.filter fun issue => decide (issue.code ≠ .GS014)

-- Only what is found about the joins depends on them.
theorem issues_joins [Builtins] {spec : GraphSpec} {graphId expectedId expectedId' : Str}
    {joins : List JoinSpec}
    (huses : usesR3 spec.edges spec.reducers spec.joins = usesR3 spec.edges spec.reducers joins)
    (hjoins : (lintJoins spec.branchCounts [] spec.joins).Perm (lintJoins spec.branchCounts [] joins))
    (k : List Str) :
    (otherIssues (spec.issues expectedId)).filter (fun issue => issueText issue = k) =
      (otherIssues (issues { spec with graphId := graphId, joins := joins } expectedId')).filter
        fun issue => issueText issue = k := by
  have hidentity : ∀ (found : Prop) [Decidable found] (issue : GraphLintIssue), issue.code = .GS014 →
      (flag found issue).filter (fun issue => decide (issue.code ≠ .GS014)) = [] := by
    intro found _ issue hcode
    unfold flag
    split_ifs <;> simp [hcode]
  have hties : ∀ a ∈ lintJoins spec.branchCounts [] spec.joins,
      ∀ b ∈ lintJoins spec.branchCounts [] spec.joins, issueText a = issueText b → a = b := by
    have hmem : ∀ a ∈ lintJoins spec.branchCounts [] spec.joins, ∃ seen join,
        a ∈ lintJoin spec.branchCounts seen join :=
      lintEach_forall fun seen join _ issue hm => ⟨seen, join, hm⟩
    intro a ha b hb h
    obtain ⟨seen, join, ha⟩ := hmem a ha
    obtain ⟨seen', join', hb⟩ := hmem b hb
    exact lintJoin_determined ha hb h
  have hkeys : ((lintJoins spec.branchCounts [] spec.joins).filter
        fun issue => decide (issue.code ≠ .GS014)).filter (fun issue => issueText issue = k) =
      ((lintJoins spec.branchCounts [] joins).filter
        fun issue => decide (issue.code ≠ .GS014)).filter fun issue => issueText issue = k := by
    rw [List.filter_comm, Python.filter_eq_of_perm hjoins hties k, List.filter_comm]
  unfold lintJoins at hkeys
  have hnew : usesR3 spec.edges spec.reducers joins = usesR3 spec.edges spec.reducers spec.joins :=
    huses.symm
  simp only [otherIssues, issues, lintRegions, List.filter_append, hkeys, hnew]
  rw [hidentity (spec.graphId ≠ expectedId) _ rfl, hidentity (graphId ≠ expectedId') _ rfl]
  rfl

theorem hashTargets_typed {spec : GraphSpec} (he : ∀ e ∈ spec.edges, e.typed = true) :
    spec.hashTargets = .ok () := by
  refine Python.forM_eq_ok.mpr fun edge hm => ?_
  have hedge : edge ∈ spec.edges := by
    rcases List.mem_append.mp hm with hm | hm <;> exact List.mem_of_mem_filter hm
  have htarget := target_typed (he edge hedge)
  have hhash : edge.target.hashable = true := by
    cases ht : edge.target <;> first | rfl | (rw [ht] at htarget; cases htarget)
  rw [if_pos hhash]

-- Linting a spec of records as annotated returns.
theorem lintGraphSpec_typed [Sha256] [Builtins] {spec : GraphSpec}
    (hn : ∀ n ∈ spec.nodes, n.typed = true) (he : ∀ e ∈ spec.edges, e.typed = true)
    (hnodes : Python.sorted nodeKey spec.nodes = spec.nodes)
    (hedges : Python.sorted edgeKey spec.edges = spec.edges)
    (hw : Writes Encodable (.dict spec.payload)) :
    ∃ expectedId, lintGraphSpec spec =
      .ok ⟨spec.graphId, Python.sorted issueText (spec.issues expectedId)⟩ := by
  obtain ⟨expectedId, hid⟩ := computeGraphId_isOk.mpr hw
  have hpayload : spec.canonicalPayload = .ok spec.payload := by
    rw [canonicalPayload, payloadOf_sorted hn he, hnodes, hedges, payload]
  have hsorted : sortedByKey GraphLintIssue.sortKey (spec.issues expectedId) =
      .ok (Python.sorted issueText (spec.issues expectedId)) :=
    sortedByKey_eq fun a ha b hb =>
      issueText_decides (issues_typed he a ha) (issues_typed he b hb)
  refine ⟨expectedId, ?_⟩
  simp only [lintGraphSpec, Python.bind_eq_ok]
  exact ⟨_, hpayload, _, hid, (), hashTargets_typed he, _, hsorted, rfl⟩

-- Leaving the implied joins out hides nothing from the linter and decides no version.
theorem lint_created [Sha256] [Builtins] {maxSteps : Int} {nodes : List NodeSpec}
    {edges : List EdgeSpec} {metadata : Value} {schemaVersion : Option Str}
    {reducers : List ReducerSpec} {joins : List JoinSpec} {s : GraphSpec} (graphId : Str)
    (hn : ∀ n ∈ nodes, n.typed = true) (he : ∀ e ∈ edges, e.typed = true)
    (h : create maxSteps nodes edges metadata schemaVersion reducers joins = .ok s) :
    (∃ d report report',
      new s.schemaVersion graphId maxSteps nodes edges s.metadata reducers joins = .ok d ∧
      lintGraphSpec s = .ok report ∧ lintGraphSpec d = .ok report' ∧
      otherIssues report.issues = otherIssues report'.issues) ∧
    versionFor schemaVersion (usesR3 edges reducers joins) = .ok s.schemaVersion := by
  obtain ⟨-, hsteps, hnodes, hedges, hreducers, hjoins, hversion, hid⟩ := (create_typed hn he).mp h
  have hn' : ∀ n ∈ s.nodes, n.typed = true := by
    rw [hnodes]
    exact fun n hm => hn n (Python.mem_sorted.mp hm)
  have he' : ∀ e ∈ s.edges, e.typed = true := by
    rw [hedges]
    exact fun e hm => he e (Python.mem_sorted.mp hm)
  have hperm : s.edges.Perm edges := hedges ▸ Python.sorted_perm _ _
  have huses : usesR3 s.edges s.reducers s.joins = usesR3 edges reducers joins := by
    rw [← usesR3_kept edges reducers joins, ← keptJoins_perm hperm joins]
    refine usesR3_perm hperm (hreducers ▸ Python.sorted_perm _ _) ?_
    exact hjoins ▸ Python.sorted_perm _ _
  let d : GraphSpec := { s with graphId := graphId, joins := Python.sorted JoinSpec.source joins }
  have hd : new s.schemaVersion graphId maxSteps nodes edges s.metadata reducers joins = .ok d := by
    rw [new, sortedByKey_nodes hn, sortedByKey_edges he, ← hnodes, ← hedges, ← hreducers, ← hsteps]
    rfl
  have hnodes' : Python.sorted nodeKey s.nodes = s.nodes := by rw [hnodes, Python.sorted_sorted]
  have hedges' : Python.sorted edgeKey s.edges = s.edges := by rw [hedges, Python.sorted_sorted]
  have hw : Writes Encodable (.dict s.payload) := computeGraphId_isOk.mp ⟨_, hid⟩
  have hw' : Writes Encodable (.dict d.payload) := by
    refine payload_writes hw fun join hm => ?_
    have hm : join ∈ joins := Python.mem_sorted.mp hm
    cases himplied : implied s.edges joins join with
    | true =>
        simp only [implied, Bool.and_eq_true, List.any_eq_true, decide_eq_true_eq] at himplied
        obtain ⟨⟨hdefault, edge, hedge, -, hsource⟩, -⟩ := himplied
        exact .inr ⟨hdefault, edge, hedge, hsource⟩
    | false =>
        refine .inl ?_
        rw [hjoins, Python.mem_sorted]
        exact List.mem_filter.mpr ⟨hm, by simp [himplied]⟩
  obtain ⟨expectedId, hreport⟩ := lintGraphSpec_typed hn' he' hnodes' hedges' hw
  obtain ⟨expectedId', hreport'⟩ := @lintGraphSpec_typed _ _ d hn' he' hnodes' hedges' hw'
  refine ⟨⟨d, _, _, hd, hreport, hreport', ?_⟩, huses ▸ hversion⟩
  have huses' : usesR3 s.edges s.reducers s.joins =
      usesR3 s.edges s.reducers (Python.sorted JoinSpec.source joins) := by
    rw [huses]
    exact usesR3_perm hperm.symm (hreducers ▸ (Python.sorted_perm _ _).symm)
      (Python.sorted_perm _ _).symm
  have hfound : (lintJoins s.branchCounts [] s.joins).Perm
      (lintJoins s.branchCounts [] (Python.sorted JoinSpec.source joins)) := by
    refine lintJoins_kept contains_branchCounts ?_ (Python.sorted_perm _ _)
    rw [hjoins]
    exact Python.sorted_perm _ _
  rw [otherIssues, otherIssues, Python.filter_sorted_comm, Python.filter_sorted_comm]
  refine Python.eq_of_filter (Python.sorted_pairwise _ _) (Python.sorted_pairwise _ _) fun k => ?_
  rw [Python.filter_sorted, Python.filter_sorted]
  have hsame := @issues_joins _ s graphId expectedId expectedId' _ huses' hfound k
  rw [otherIssues, otherIssues] at hsame
  convert hsame

-- The one join of a region, as it would be without it, and two joins of no region.
def statedJoins : List JoinSpec :=
  [⟨"__start__", .all, .none, .none, rfl, rfl⟩, ⟨"ghost", .any, .none, .none, rfl, rfl⟩,
    ⟨"ghost", .all, .none, .none, rfl, rfl⟩]

theorem lint_created_stated :
    letI := Sha256.verbatim
    letI := quotingBuiltins
    ∃ s, create 5 sampleNodes sampleEdges (.dict []) none sampleReducers statedJoins = .ok s ∧
      s.joins.length = 2 ∧
      (∃ d report report',
        new s.schemaVersion "copy" 5 sampleNodes sampleEdges s.metadata sampleReducers
          statedJoins = .ok d ∧
        lintGraphSpec s = .ok report ∧ lintGraphSpec d = .ok report' ∧
        otherIssues report.issues = otherIssues report'.issues) ∧
      versionFor none (usesR3 sampleEdges sampleReducers statedJoins) = .ok s.schemaVersion := by
  let := Sha256.verbatim
  let := quotingBuiltins
  obtain ⟨s, hs⟩ : ∃ s, create 5 sampleNodes sampleEdges (.dict []) none sampleReducers
      statedJoins = .ok s := Python.exists_ok (by decide +kernel)
  have hn : ∀ n ∈ sampleNodes, n.typed = true := by decide
  have he : ∀ e ∈ sampleEdges, e.typed = true := by decide
  refine ⟨s, hs, ?_, lint_created "copy" hn he hs⟩
  obtain ⟨-, -, -, hedges, -, hjoins, -⟩ := (create_typed hn he).mp hs
  rw [hjoins, hedges, Python.length_sorted]
  decide +kernel

end GraphSpec

end PerpetuaCore.Graph
