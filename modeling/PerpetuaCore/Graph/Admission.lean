import PerpetuaCore.Graph.Conformance
import PerpetuaCore.Python.Raising

namespace PerpetuaCore.Graph.Admission

open Interaction
open Python (Str Value Dict)

-- The settled branches a join is put before: two or more, in ascending order of their
-- names, none with an error that is not an `Exception`.
structure Settlement where
  items : List Settled
  two : 2 ≤ items.length
  ascending : (items.map Settled.name).Pairwise (· < ·)
  exceptions : ∀ item ∈ items, ∀ error, item.outcome = .error error → error.isException = true

theorem branchCall_exceptions {g : CompiledGraph} {gate : Option Gate} {source name batchId : Str}
    {snapshot : State} {steps : Nat} {h : Run} :
    Ensures acting (fun _ _ => True) (branchCall g gate source batchId snapshot steps name)
      (fun item _ => ∀ error, item.outcome = .error error → error.isException = true) h := by
  have hrun : ∀ h : Run, Ensures acting (fun _ _ => True) (runBranch g source snapshot name)
      (fun item _ => ∀ error, item.outcome = .error error → error.isException = true) h := by
    intro h
    unfold runBranch
    cases hnode : nodeFor g name with
    | error exc =>
        refine .ret fun error he => ?_
        unfold nodeFor at hnode
        split at hnode <;> cases hnode
        exact Except.error.inj he ▸ rfl
    | ok fn =>
        refine .bind (Rule.invoke fun reply => ?_)
        split
        · split_ifs with hexc
          · exact .ret fun error he => Except.error.inj he ▸ hexc
          · exact .raise trivial
        · rename_i value _
          refine .ret fun error he => ?_
          cases value <;> cases he <;> rfl
  unfold branchCall
  split_ifs
  · refine .andThen (Q := fun _ _ => True) (fun t o _ => by cases o <;> trivial) ?_
    rintro (error | ⟨_ | decision, request⟩) t _
    · exact .ret fun error he => Except.error.inj he ▸ rfl
    · refine .andThen (Q := fun _ _ => True) (fun t o _ => by cases o <;> trivial) ?_
      rintro (error | _) t _
      · exact .ret fun error he => Except.error.inj he ▸ rfl
      · exact hrun t
    · exact .ret fun error he => Except.error.inj he ▸ rfl
  · exact hrun h

-- What a region's branches settle to is such a settlement.
theorem settled_settlement {g : CompiledGraph} {gate : Option Gate} {source batchId : Str}
    {snapshot : State} {steps : Nat} {edge : FanOut} {settled : List Settled} {t : Run}
    (ht : Interleaved acting (edge.branches.map (branchCall g gate source batchId snapshot steps)) t
      (settled.map .ok)) : ∃ settlement : Settlement, settlement.items = settled := by
  have hnames := Protocol.settled_names ht
  refine ⟨⟨settled, ?_, hnames ▸ edge.ascending, fun item hitem error he => ?_⟩, rfl⟩
  · rw [← List.length_map, hnames]
    exact edge.two
  · obtain ⟨p, hp, s, hs, -⟩ := ht.exists_of_outcome (List.mem_map_of_mem hitem)
    obtain ⟨name, -, rfl⟩ := List.mem_map.mp hp
    exact branchCall_exceptions (h := []) s _ hs error he

variable {source : Str} {join : Join} {settlement : Settlement} {t : Run}
  {o : Except Exn (List (Str × Delta))}

-- The region's custom join was called, and what it answered.
def Answered (source : Str) (join : Join) (settlement : Settlement) (t : Run)
    (answer : Except Exn (List Value)) : Prop :=
  ∃ fn, join = .custom fn ∧ t =
    [.enter (.join source fn (settlement.items.map Settled.view)),
      .leave (.join source fn (settlement.items.map Settled.view)) answer]

def Successful (settlement : Settlement) (value : Value) : Prop :=
  ∃ item ∈ settlement.items, item.ok = true ∧ value = .str item.name

-- When a join admits branches at all.
def Admits (source : Str) (join : Join) (settlement : Settlement) (t : Run) : Prop :=
  match join with
  | .all => ∀ item ∈ settlement.items, item.ok = true
  | .any | .firstSuccess => ∃ item ∈ settlement.items, item.ok = true
  | .quorum quorum _ => quorum ≤ settlement.items.countP Settled.ok
  | .custom _ => ∃ names, Answered source join settlement t (.ok names) ∧ names ≠ [] ∧
      ∀ name ∈ names, Successful settlement name

-- Which branches it then admits.
structure Admitted (source : Str) (join : Join) (settlement : Settlement) (t : Run)
    (admitted : List (Str × Delta)) : Prop where
  nonempty : admitted ≠ []
  succeeded : admitted.Sublist (succeeded settlement.items)
  ascending : (admitted.map Prod.fst).Pairwise (· < ·)
  chosen : match join with
    | .all | .any | .quorum .. => admitted = Graph.succeeded settlement.items
    | .firstSuccess => ∃ first, admitted = [first] ∧
        ∀ other ∈ Graph.succeeded settlement.items, first.1 ≤ other.1
    | .custom _ => ∃ names, Answered source join settlement t (.ok names) ∧
        ∀ branch, branch ∈ admitted ↔
          branch ∈ Graph.succeeded settlement.items ∧ .str branch.1 ∈ names

-- The errors a refusal is grouped from.
def reasons (join : Join) (settlement : Settlement) : List Exn :=
  if errors settlement.items = [] then [.valueError [.insert join.kind, " join admitted no branch"]]
  else errors settlement.items

-- What a join does with a settlement.
structure Decided (source : Str) (join : Join) (settlement : Settlement) (t : Run)
    (o : Except Exn (List (Str × Delta))) : Prop where
  admitted : ∀ branches, o = .ok branches → Admitted source join settlement t branches
  admits : (∃ branches, o = .ok branches) ↔ Admits source join settlement t
  raised : ∀ error, Answered source join settlement t (.error error) → o = .error error
  -- only a value that is no name at all, and not even hashable, is a TypeError
  misnamed : ∀ names, Answered source join settlement t (.ok names) →
    ∀ name ∈ names, ¬Successful settlement name →
      (∃ message, o = .error (.valueError message)) ∨
      ∃ other ∈ names, other.hashable = false ∧ ∃ message, o = .error (.typeError message)
  refused : ¬Admits source join settlement t →
    (∀ error, ¬Answered source join settlement t (.error error)) →
    (∀ names, Answered source join settlement t (.ok names) →
      ∀ name ∈ names, Successful settlement name) →
    ∃ message, o = .error (.exceptionGroup message (reasons join settlement))

theorem mem_errors {settled : List Settled} {error : Exn} :
    error ∈ errors settled ↔ ∃ item ∈ settled, item.outcome = .error error := by
  unfold errors
  rw [List.mem_filterMap]
  refine exists_congr fun item => and_congr_right fun _ => ?_
  unfold Settled.error?
  cases item.outcome <;> simp

theorem errors_eq_nil_iff {settled : List Settled} :
    errors settled = [] ↔ ∀ item ∈ settled, item.ok = true := by
  rw [errors, List.filterMap_eq_nil_iff]
  exact forall₂_congr fun item _ => Option.isNone_iff_eq_none.symm

theorem mem_succeeded {settled : List Settled} {branch : Str × Delta} :
    branch ∈ succeeded settled ↔ (⟨branch.1, .ok branch.2⟩ : Settled) ∈ settled := by
  unfold succeeded
  rw [List.mem_filterMap]
  constructor
  · rintro ⟨⟨name, outcome⟩, hm, hbranch⟩
    cases outcome with
    | error => cases hbranch
    | ok delta => exact Option.some.inj hbranch ▸ hm
  · exact fun hm => ⟨_, hm, rfl⟩

theorem length_succeeded {settled : List Settled} :
    (succeeded settled).length = settled.countP Settled.ok := by
  induction settled with
  | nil => rfl
  | cons item rest ih =>
      obtain ⟨name, outcome⟩ := item
      cases outcome with
      | error error =>
          rw [List.countP_cons_of_neg (by simp [Settled.ok, Settled.error?]), ← ih]
          rfl
      | ok delta =>
          rw [List.countP_cons_of_pos (by simp [Settled.ok, Settled.error?]), ← ih]
          rfl

theorem succeeded_ne_nil_iff {settled : List Settled} :
    succeeded settled ≠ [] ↔ ∃ item ∈ settled, item.ok = true := by
  rw [← List.length_pos_iff, length_succeeded, List.countP_pos_iff]

theorem admit_nonempty {join : Join} {settled : List Settled} (hne : settled ≠ []) :
    (admitBranches source join settled).Returns (· ≠ []) := by
  unfold admitBranches
  dsimp only
  split
  · split_ifs with hall
    · refine succeeded_ne_nil_iff.mpr ?_
      obtain ⟨item, hitem⟩ := List.exists_mem_of_ne_nil _ hne
      exact ⟨item, hitem, errors_eq_nil_iff.mp (List.isEmpty_iff.mp hall) item hitem⟩
    · trivial
  · split_ifs with hempty
    · trivial
    · exact fun hnil => hempty (List.isEmpty_iff.mpr hnil)
  · split_ifs with hempty
    · trivial
    · intro hnil
      rcases List.take_eq_nil_iff.mp hnil with hone | hnil
      · cases hone
      · exact hempty (List.isEmpty_iff.mpr hnil)
  · rename_i quorum positive
    split_ifs with hquorum
    · intro hnil
      rw [hnil, List.length_nil] at hquorum
      omega
    · trivial
  · refine .bind (.all _) fun _ _ => .bind (.all _) fun _ _ => .bind (.all _) fun _ _ => ?_
    split_ifs with hempty
    · trivial
    · exact fun hnil => hempty (List.isEmpty_iff.mpr hnil)

theorem successful_iff {settlement : Settlement} {name : Str} :
    Successful settlement (.str name) ↔ name ∈ (succeeded settlement.items).map Prod.fst := by
  rw [List.mem_map]
  constructor
  · rintro ⟨⟨name', outcome⟩, hm, hok, he⟩
    obtain rfl := Value.str.inj he
    cases outcome with
    | error error => cases hok
    | ok delta => exact ⟨(name, delta), mem_succeeded.mpr hm, rfl⟩
  · rintro ⟨⟨name', delta⟩, hm, rfl⟩
    exact ⟨_, mem_succeeded.mp hm, rfl, rfl⟩

theorem Settlement.succeeded_ascending (settlement : Settlement) :
    ((succeeded settlement.items).map Prod.fst).Pairwise (· < ·) :=
  settlement.ascending.sublist Protocol.succeeded_names

theorem group_of_settlement (message : Message) :
    Exn.group message (if (errors settlement.items).isEmpty then
      [.valueError [.insert join.kind, " join admitted no branch"]] else errors settlement.items) =
    .exceptionGroup message (reasons join settlement) := by
  have hexc : ∀ error ∈ errors settlement.items, error.isException = true := by
    intro error he
    obtain ⟨item, hm, ho⟩ := mem_errors.mp he
    exact settlement.exceptions item hm error ho
  simp only [Exn.group, reasons, List.isEmpty_iff]
  split_ifs with hempty hall hall
  · rfl
  · exact absurd rfl hall
  · rfl
  · exact absurd (List.all_eq_true.mpr hexc) hall

theorem refusedBy_settlement :
    ∃ message, refusedBy source join (errors settlement.items) =
      .exceptionGroup message (reasons join settlement) :=
  ⟨_, group_of_settlement _⟩

theorem checkAdmitted_eq_ok {ok : List (Str × Delta)} {names : List Value} {chosen : List Str} :
    checkAdmitted source ok names = .ok chosen ↔
      names = chosen.map .str ∧ ∀ name ∈ chosen, name ∈ ok.map Prod.fst := by
  induction names generalizing chosen with
  | nil =>
      constructor
      · rintro ⟨⟩
        exact ⟨rfl, nofun⟩
      · rintro ⟨hnames, -⟩
        obtain rfl := List.map_eq_nil_iff.mp hnames.symm
        rfl
  | cons value rest ih =>
      have hother : (∀ name, value ≠ .str name) →
          (checkAdmitted source ok (value :: rest) = .ok chosen ↔
          value :: rest = chosen.map .str ∧ ∀ name ∈ chosen, name ∈ ok.map Prod.fst) := by
        intro hne
        refine iff_of_false (fun h => ?_) fun ⟨hnames, _⟩ => ?_
        · cases value with
          | str name => exact hne name rfl
          | _ =>
              simp only [checkAdmitted] at h
              split_ifs at h
        · cases chosen with
          | nil => cases hnames
          | cons name chosen => exact hne name (List.cons.inj hnames).1
      cases value with
      | str name =>
          simp only [checkAdmitted, List.contains_iff_mem]
          split_ifs with hname
          · rw [Python.bind_eq_ok]
            constructor
            · rintro ⟨chosen', hrest, ⟨⟩⟩
              obtain ⟨rfl, hall⟩ := ih.mp hrest
              exact ⟨rfl, List.forall_mem_cons.mpr ⟨hname, hall⟩⟩
            · rintro ⟨hnames, hall⟩
              cases chosen with
              | nil => cases hnames
              | cons name' chosen =>
                  obtain ⟨hhead, hrest⟩ := List.cons.inj hnames
                  obtain rfl := Value.str.inj hhead
                  exact ⟨chosen, ih.mpr ⟨hrest, (List.forall_mem_cons.mp hall).2⟩, rfl⟩
          · refine iff_of_false nofun fun ⟨hnames, hall⟩ => ?_
            cases chosen with
            | nil => cases hnames
            | cons name' chosen =>
                obtain rfl := Value.str.inj (List.cons.inj hnames).1
                exact hname (hall name List.mem_cons_self)
      | _ => exact hother nofun

theorem checkAdmitted_error {ok : List (Str × Delta)} {names : List Value} {error : Exn}
    (h : checkAdmitted source ok names = .error error) :
    (∃ message, error = .valueError message) ∨
      ∃ other ∈ names, other.hashable = false ∧ ∃ message, error = .typeError message := by
  induction names with
  | nil => cases h
  | cons value rest ih =>
      have hother : (∀ name, value ≠ .str name) → (∃ message, error = .valueError message) ∨
          ∃ other ∈ value :: rest, other.hashable = false ∧
            ∃ message, error = .typeError message := by
        intro hne
        cases value with
        | str name => exact absurd rfl (hne name)
        | _ =>
            simp only [checkAdmitted] at h
            split_ifs at h with hhash
            · exact .inl ⟨_, (Except.error.inj h).symm⟩
            · exact .inr ⟨_, List.mem_cons_self, Bool.eq_false_iff.mpr hhash, _,
                (Except.error.inj h).symm⟩
      cases value with
      | str name =>
          simp only [checkAdmitted] at h
          split_ifs at h
          · cases hrest : checkAdmitted source ok rest with
            | ok chosen => rw [hrest] at h; cases h
            | error error' =>
                rw [hrest] at h
                obtain rfl : error' = error := Except.error.inj h
                refine (ih hrest).imp_right ?_
                rintro ⟨other, hm, hrefused⟩
                exact ⟨other, List.mem_cons_of_mem _ hm, hrefused⟩
          · exact .inl ⟨_, (Except.error.inj h).symm⟩
      | _ => exact hother nofun

-- A join that calls no code decides by the settled branches alone.
theorem decided_plain {c : Prop} [Decidable c] {branches : List (Str × Delta)}
    (hplain : ∀ fn, join ≠ .custom fn) (hc : c ↔ Admits source join settlement [])
    (hadmitted : c → Admitted source join settlement [] branches)
    (he : Exec acting (if c then .ret branches
      else .raise (refusedBy source join (errors settlement.items)) : Step _) t o) :
    Decided source join settlement t o := by
  have hunanswered : ∀ answer, ¬Answered source join settlement t answer :=
    fun answer ⟨fn, hfn, _⟩ => hplain fn hfn
  split_ifs at he with h
  · obtain ⟨rfl, rfl⟩ := exec_ret he
    refine ⟨?_, iff_of_true ⟨_, rfl⟩ (hc.mp h), fun error ha => absurd ha (hunanswered _),
      fun names ha => absurd ha (hunanswered _), fun hn => absurd (hc.mp h) hn⟩
    rintro _ ⟨⟩
    exact hadmitted h
  · obtain ⟨rfl, rfl⟩ := exec_raise he
    obtain ⟨message, hmessage⟩ := @refusedBy_settlement source join settlement
    exact ⟨nofun, iff_of_false nofun (mt hc.mpr h), fun error ha => absurd ha (hunanswered _),
      fun names ha => absurd ha (hunanswered _), fun _ _ _ => ⟨message, congrArg _ hmessage⟩⟩

theorem checkAdmitted_of_successful {names : List Value}
    (h : ∀ name ∈ names, Successful settlement name) :
    ∃ chosen, checkAdmitted source (succeeded settlement.items) names = .ok chosen := by
  induction names with
  | nil => exact ⟨[], rfl⟩
  | cons value rest ih =>
      obtain ⟨hvalue, hrest⟩ := List.forall_mem_cons.mp h
      obtain ⟨chosen, hchosen⟩ := ih hrest
      obtain ⟨item, hm, hok, rfl⟩ := hvalue
      have hname := List.contains_iff_mem.mpr (successful_iff.mp ⟨item, hm, hok, rfl⟩)
      exact ⟨item.name :: chosen, by simp only [checkAdmitted, hname, if_true, hchosen]; rfl⟩

theorem successful_of_checkAdmitted {names : List Value} {chosen : List Str}
    (h : checkAdmitted source (succeeded settlement.items) names = .ok chosen) :
    ∀ name ∈ names, Successful settlement name := by
  obtain ⟨rfl, hall⟩ := checkAdmitted_eq_ok.mp h
  intro value hvalue
  obtain ⟨name, hm, rfl⟩ := List.mem_map.mp hvalue
  exact successful_iff.mpr (hall name hm)

-- A custom join decides by the names its function answers with.
theorem decided_names {fn : Fn} {names : List Value} {chosen : List Str}
    (hanswered : ∀ {answer}, Answered source (.custom fn) settlement t answer ↔ answer = .ok names)
    (hchosen : checkAdmitted source (succeeded settlement.items) names = .ok chosen)
    (ho : o =
      if ((succeeded settlement.items).filter fun item => chosen.contains item.1).isEmpty then
        .error (refusedBy source (.custom fn) (errors settlement.items))
      else .ok ((succeeded settlement.items).filter fun item => chosen.contains item.1)) :
    Decided source (.custom fn) settlement t o := by
  obtain ⟨rfl, hall⟩ := checkAdmitted_eq_ok.mp hchosen
  have hsuccessful := successful_of_checkAdmitted hchosen
  have hmem : ∀ branch,
      branch ∈ (succeeded settlement.items).filter (fun item => chosen.contains item.1) ↔
      branch ∈ succeeded settlement.items ∧ (branch.1 : Value) ∈ chosen.map Value.str := by
    intro branch
    rw [List.mem_filter, List.contains_iff_mem, List.mem_map_of_injective fun _ _ => Value.str.inj]
  have hadmits : ((succeeded settlement.items).filter fun item => chosen.contains item.1) ≠ [] ↔
      Admits source (.custom fn) settlement t := by
    constructor
    · intro hne
      refine ⟨_, hanswered.mpr rfl, ?_, hsuccessful⟩
      rintro hnil
      obtain ⟨branch, hbranch⟩ := List.exists_mem_of_ne_nil _ hne
      have hm := ((hmem branch).mp hbranch).2
      rw [hnil] at hm
      cases hm
    · rintro ⟨names, ha, hne, -⟩
      obtain rfl := Except.ok.inj (hanswered.mp ha)
      cases chosen with
      | nil => exact absurd rfl hne
      | cons name rest =>
          obtain ⟨branch, hbranch, rfl⟩ := List.mem_map.mp (hall name List.mem_cons_self)
          exact List.ne_nil_of_mem ((hmem branch).mpr ⟨hbranch, List.mem_cons_self⟩)
  have hraised : ∀ error, ¬Answered source (.custom fn) settlement t (.error error) :=
    fun error ha => nomatch hanswered.mp ha
  have hnamed : ∀ names, Answered source (.custom fn) settlement t (.ok names) →
      ∀ name ∈ names, Successful settlement name := by
    intro names ha
    obtain rfl := Except.ok.inj (hanswered.mp ha)
    exact hsuccessful
  split_ifs at ho with hempty
  · subst ho
    have hnot : ¬Admits source (.custom fn) settlement t :=
      fun ha => hadmits.mpr ha (List.isEmpty_iff.mp hempty)
    obtain ⟨message, hmessage⟩ := @refusedBy_settlement source (.custom fn) settlement
    exact ⟨nofun, iff_of_false nofun hnot, fun error ha => absurd ha (hraised error),
      fun names ha name hm hn => absurd (hnamed names ha name hm) hn,
      fun _ _ _ => ⟨message, congrArg _ hmessage⟩⟩
  · subst ho
    have hne : ((succeeded settlement.items).filter fun item => chosen.contains item.1) ≠ [] :=
      fun hnil => hempty (List.isEmpty_iff.mpr hnil)
    refine ⟨?_, iff_of_true ⟨_, rfl⟩ (hadmits.mp hne), fun error ha => absurd ha (hraised error),
      fun names ha name hm hn => absurd (hnamed names ha name hm) hn,
      fun hn => absurd (hadmits.mp hne) hn⟩
    rintro _ ⟨⟩
    exact ⟨hne, List.filter_sublist, settlement.succeeded_ascending.sublist
      (List.filter_sublist.map _), _, hanswered.mpr rfl, hmem⟩

theorem decided_custom {fn : Fn}
    (he : Exec acting (admitBranches source (.custom fn) settlement.items) t o) :
    Decided source (.custom fn) settlement t o := by
  rcases exec_bind he with ⟨s, u, answer, rfl, hcall, hrest⟩ | ⟨error, hcall, -⟩
  · obtain ⟨_, rfl, ha⟩ := Rule.exec_invoke hcall
    obtain rfl := Except.ok.inj ha
    have htrace : ∀ {u : Run}, u = [] → ∀ {answer'}, Answered source (.custom fn) settlement
        (([.enter (.join source fn (settlement.items.map Settled.view)),
          .leave (.join source fn (settlement.items.map Settled.view)) answer] : Run) ++ u)
        answer' ↔ answer' = answer := by
      rintro _ rfl answer'
      constructor
      · rintro ⟨fn', hfn, htrace⟩
        obtain rfl := Join.custom.inj hfn
        cases htrace
        rfl
      · rintro rfl
        exact ⟨fn, rfl, rfl⟩
    cases answer with
    | error error =>
        obtain ⟨hu, rfl⟩ := exec_raise hrest
        have hnot : ¬Admits source (.custom fn) settlement _ :=
          fun ⟨names, hnames, _⟩ => nomatch (htrace hu).mp hnames
        refine ⟨nofun, iff_of_false nofun hnot, fun error' he => ?_, fun names hnames => ?_,
          fun _ hraised => absurd ((htrace hu).mpr rfl) (hraised error)⟩
        · exact congrArg _ (Except.error.inj ((htrace hu).mp he)).symm
        · exact nomatch (htrace hu).mp hnames
    | ok names =>
        cases hchosen : checkAdmitted source (succeeded settlement.items) names with
        | error error =>
            replace hrest : Exec acting ((Prog.ofExcept (checkAdmitted source
                (succeeded settlement.items) names)).bind _) u o := hrest
            rw [hchosen] at hrest
            obtain ⟨hu, rfl⟩ := exec_raise hrest
            have hunsuccessful : ¬∀ name ∈ names, Successful settlement name := by
              intro hall
              obtain ⟨chosen, hok⟩ := checkAdmitted_of_successful hall
              cases hchosen.symm.trans hok
            refine ⟨nofun, iff_of_false nofun ?_, fun _ he => (nomatch (htrace hu).mp he), ?_, ?_⟩
            · rintro ⟨names', hnames, -, hall⟩
              obtain rfl := Except.ok.inj ((htrace hu).mp hnames)
              exact hunsuccessful hall
            · intro names' hnames _ _ _
              obtain rfl := Except.ok.inj ((htrace hu).mp hnames)
              exact (checkAdmitted_error hchosen).imp (fun ⟨_, he⟩ => ⟨_, congrArg _ he⟩)
                fun ⟨other, hm, hhash, _, he⟩ => ⟨other, hm, hhash, _, congrArg _ he⟩
            · exact fun _ _ hall => absurd (hall names ((htrace hu).mpr rfl)) hunsuccessful
        | ok chosen =>
            replace hrest : Exec acting ((Prog.ofExcept (checkAdmitted source
                (succeeded settlement.items) names)).bind _) u o := hrest
            rw [hchosen] at hrest
            generalize hadmitted : ((succeeded settlement.items).filter fun item =>
              chosen.contains item.1) = admitted
            replace hrest : Exec acting (if admitted.isEmpty then
                .raise (refusedBy source (.custom fn) (errors settlement.items))
              else .ret admitted) u o := hadmitted ▸ hrest
            have hend : u = [] ∧ o = if admitted.isEmpty then
                .error (refusedBy source (.custom fn) (errors settlement.items))
              else .ok admitted := by
              split_ifs at hrest ⊢
              · exact exec_raise hrest
              · exact exec_ret hrest
            subst hadmitted
            exact decided_names (htrace hend.1) hchosen hend.2
  · obtain ⟨_, _, ha⟩ := Rule.exec_invoke hcall
    cases ha

theorem admit_decided (he : Exec acting (admitBranches source join settlement.items) t o) :
    Decided source join settlement t o := by
  have hascending := settlement.succeeded_ascending
  cases join with
  | all =>
      refine decided_plain nofun (List.isEmpty_iff.trans errors_eq_nil_iff) (fun hnone => ?_) he
      have hall := errors_eq_nil_iff.mp (List.isEmpty_iff.mp hnone)
      obtain ⟨item, hm⟩ := List.exists_mem_of_length_pos (Nat.zero_lt_of_lt settlement.two)
      exact ⟨succeeded_ne_nil_iff.mpr ⟨item, hm, hall item hm⟩, .refl _, hascending, rfl⟩
  | any =>
      have hne : ¬(succeeded settlement.items).isEmpty = true ↔ succeeded settlement.items ≠ [] :=
        not_congr List.isEmpty_iff
      replace he : Exec acting (if (succeeded settlement.items).isEmpty then
        .raise (refusedBy source .any (errors settlement.items)) else .ret _) t o := he
      rw [← ite_not] at he
      refine decided_plain nofun (hne.trans succeeded_ne_nil_iff) (fun hsome => ?_) he
      exact ⟨hne.mp hsome, .refl _, hascending, rfl⟩
  | firstSuccess =>
      have hne : ¬(succeeded settlement.items).isEmpty = true ↔ succeeded settlement.items ≠ [] :=
        not_congr List.isEmpty_iff
      replace he : Exec acting (if (succeeded settlement.items).isEmpty then
        .raise (refusedBy source .firstSuccess (errors settlement.items)) else .ret _) t o := he
      rw [← ite_not] at he
      refine decided_plain nofun (hne.trans succeeded_ne_nil_iff) (fun hsome => ?_) he
      obtain ⟨first, rest, hcons⟩ := List.exists_cons_of_ne_nil (hne.mp hsome)
      refine ⟨by simp [hcons], List.take_sublist .., hascending.sublist
        ((List.take_sublist ..).map _), first, by rw [hcons]; rfl, fun other hm => ?_⟩
      rw [hcons] at hm hascending
      rcases List.mem_cons.mp hm with rfl | hm
      · exact le_rfl
      · exact ((List.pairwise_cons.mp hascending).1 _ (List.mem_map_of_mem hm)).le
  | quorum quorum positive =>
      refine decided_plain nofun (by rw [length_succeeded]; rfl) (fun hreached => ?_) he
      have hne : succeeded settlement.items ≠ [] :=
        List.ne_nil_of_length_pos (Nat.lt_of_lt_of_le positive hreached)
      exact ⟨hne, .refl _, hascending, rfl⟩
  | custom fn => exact decided_custom he

-- One failed branch succeeded instead.
inductive Turned : List Settled → List Settled → Prop
  | intro (before : List Settled) (name : Str) (error : Exn) (delta : Delta) (after : List Settled) :
      Turned (before ++ ⟨name, .error error⟩ :: after) (before ++ ⟨name, .ok delta⟩ :: after)

theorem Turned.ok {items items' : List Settled} (h : Turned items items') :
    (∃ item ∈ items', item.ok = true) ∧ items.countP Settled.ok ≤ items'.countP Settled.ok ∧
      ¬∀ item ∈ items, item.ok = true := by
  cases h with
  | intro before name error delta after =>
      refine ⟨⟨⟨name, .ok delta⟩, by simp, rfl⟩, ?_, fun hall => ?_⟩
      · rw [List.countP_append, List.countP_append, List.countP_cons_of_neg (by nofun),
          List.countP_cons_of_pos rfl]
        exact Nat.add_le_add_left (Nat.le_succ _) _
      · exact absurd (hall ⟨name, .error error⟩ (by simp)) nofun

theorem Turned.admits {settlement' : Settlement} {t' : Run}
    (h : Turned settlement.items settlement'.items) (hplain : ∀ fn, join ≠ .custom fn)
    (ha : Admits source join settlement t) : Admits source join settlement' t' := by
  obtain ⟨hsome, hcount, hnot⟩ := h.ok
  cases join with
  | all => exact absurd ha hnot
  | any => exact hsome
  | firstSuccess => exact hsome
  | quorum quorum positive => exact Nat.le_trans ha hcount
  | custom fn => exact absurd rfl (hplain fn)

-- A join that calls no code still admits after one more success.
def Persists (source : Str) (join : Join) (settlement : Settlement)
    (o : Except Exn (List (Str × Delta))) : Prop :=
  (∃ branches, o = .ok branches) → (∀ fn, join ≠ .custom fn) →
    ∀ (settlement' : Settlement) (t' : Run) o', Turned settlement.items settlement'.items →
      Exec acting (admitBranches source join settlement'.items) t' o' → ∃ branches, o' = .ok branches

theorem admit_decides (he : Exec acting (admitBranches source join settlement.items) t o) :
    Decided source join settlement t o ∧ Persists source join settlement o := by
  have hdecided := admit_decided he
  refine ⟨hdecided, fun hok hplain settlement' t' o' hturned he' => ?_⟩
  exact (admit_decided he').admits.mpr (hturned.admits hplain (hdecided.admits.mp hok))

-- `b` failed and `c` succeeded.
def halfSettled : Settlement where
  items := [⟨"b", .error (.valueError [])⟩, ⟨"c", .ok .empty⟩]
  two := by decide
  ascending := by decide
  exceptions := by
    intro item hm error he
    simp only [List.mem_cons, List.not_mem_nil, or_false] at hm
    rcases hm with rfl | rfl
    · exact Except.error.inj he ▸ rfl
    · cases he

theorem admit_decides_half :
    Decided "a" .any halfSettled [] (.ok [("c", .empty)]) ∧
      Persists "a" .any halfSettled (.ok [("c", .empty)]) :=
  admit_decides (.ret _)

end PerpetuaCore.Graph.Admission
