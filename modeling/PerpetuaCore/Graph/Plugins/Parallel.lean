import PerpetuaCore.Graph.Engine
import PerpetuaCore.Graph.Spec.Coercions
import PerpetuaCore.Interaction.Pool
import Mathlib.Data.List.Induction
import Mathlib.Data.Set.List

namespace PerpetuaCore.Graph.Parallel

open Interaction
open Python (Str Value Dict)

-- `{**(old or {}), **new}`.
def spread (old : Value) (new : Dict Value Value) : Except Exn (Dict Value Value) :=
  match old with
  | .dict items => .ok ((Dict.ofList items).update new)
  | old =>
      if truthy old then .error (.typeError ["'", .insert old.typeName, "' object is not a mapping"])
      else .ok (Dict.empty.update new)

-- A scratchpad that is a dict is added to what is there, anything else replaces it.
def mergeItem (merged : Dict Value Value) (item : Value × Value) : Except Exn (Dict Value Value) :=
  match item with
  | (key, .dict pad) =>
      if key = ("scratchpad" : Value) then do
        let united ← spread ((merged.get? key).getD .none) (Dict.ofList pad)
        return merged.set key (.dict united.items)
      else .ok (merged.set key (.dict pad))
  | (key, value) => .ok (merged.set key value)

def mergeDelta (merged : Dict Value Value) (delta : Value) : Except Exn (Dict Value Value) :=
  if truthy delta then
    match delta with
    | .dict items => (Dict.ofList items).items.foldlM mergeItem merged
    | _ => .error (.other "AttributeError" none none 0)
  else .ok merged

def mergeDeltas (deltas : List Value) : Except Exn (Dict Value Value) := deltas.foldlM mergeDelta .empty

-- One task: the branch is called on the state that all of them share. It is named by the value it
-- has before the calls: what a branch changes in it is not what a later one is shown here.
def Calls (state : State) (branch : Str × Fn) (t : Run) (o : Except Exn Value) : Prop :=
  ∃ reply : Reply, o = reply.result ∧ t = [.enter (.node branch.1 branch.2 state),
    .leave (.node branch.1 branch.2 state) reply]

-- What `parallel_dispatch` comes to, once it has.
def dispatched (pool : Pool (Str × Fn) Event Exn Value) : Option (Except Exn (Dict Value Value)) :=
  pool.gathered.map fun deltas => deltas.bind mergeDeltas

def isMapping : Value → Bool
  | .dict _ => true
  | _ => false

def entries : Value → Dict Value Value
  | .dict items => Dict.ofList items
  | _ => .empty

-- Everything the deltas write, in the order of the branches.
def writes (deltas : List Value) : List (Value × Value) := deltas.flatMap fun delta => (entries delta).items

-- The scratchpads among them.
def pads (written : List (Value × Value)) : List Value :=
  written.filterMap fun write => if write.1 = ("scratchpad" : Value) then some write.2 else none

-- The dicts at the end: those after the last scratchpad that is none.
def lastRun (pads : List Value) : List Value := (pads.reverse.takeWhile isMapping).reverse

-- A dict follows a scratchpad that it cannot be added to.
def Clash (pads : List Value) : Prop :=
  ∃ before old new after, pads = before ++ old :: new :: after ∧ isMapping old = false ∧
    truthy old = true ∧ isMapping new = true

-- The result: the last write of each key; of scratchpads the last where it is no dict, and else
-- the union of the last run of dicts, with the last write of each of their keys.
structure Merged (written : List (Value × Value)) (merged : Dict Value Value) : Prop where
  last : ∀ key, key ≠ ("scratchpad" : Value) →
    merged.get? key = (written.reverse.find? (·.1 = key)).map Prod.snd
  replaced : ∀ value, (pads written).getLast? = some value → isMapping value = false →
    merged.get? "scratchpad" = some value
  united : ∀ value, (pads written).getLast? = some value → isMapping value = true →
    ∃ items, merged.get? "scratchpad" = some (.dict items) ∧
      ∀ key, (Dict.ofList items).get? key = (lastRun (pads written)).reverse.findSome? fun pad => (entries pad).get? key
  absent : pads written = [] → merged.get? "scratchpad" = none

variable {written : List (Value × Value)} {merged : Dict Value Value}

def unite (run : List Value) : Dict Value Value := run.foldl (fun d pad => d.update (entries pad)) .empty

theorem get?_unite {run : List Value} {key : Value} :
    (unite run).get? key = run.reverse.findSome? fun pad => (entries pad).get? key := by
  induction run using List.reverseRecOn with
  | nil => rfl
  | append_singleton run pad ih =>
      rw [unite, List.foldl_append]
      show ((unite run).update (entries pad)).get? key = _
      rw [Dict.get?_update, ih, List.reverse_concat, List.findSome?_cons]
      cases (entries pad).get? key <;> rfl

theorem lastRun_snoc {before : List Value} {pad : Value} (h : isMapping pad = true) :
    lastRun (before ++ [pad]) = lastRun before ++ [pad] := by
  rw [lastRun, lastRun, List.reverse_concat, List.takeWhile_cons, if_pos h, List.reverse_cons]

-- What the scratchpads written come to.
def padOf (pads : List Value) : Option Value :=
  pads.getLast?.map fun value => if isMapping value then .dict (unite (lastRun pads)).items else value

def padStep (old : Option Value) (value : Value) : Except Exn Value :=
  match value with
  | .dict pad => (spread (old.getD .none) (Dict.ofList pad)).map fun united => .dict united.items
  | value => .ok value

-- The last scratchpad stands in the way of one more.
def Blocks (pads : List Value) (value : Value) : Prop :=
  isMapping value = true ∧ ∃ old, pads.getLast? = some old ∧ isMapping old = false ∧ truthy old = true

theorem mergeItem_eq (key value : Value) : mergeItem merged (key, value) =
    if key = ("scratchpad" : Value) then
      (padStep (merged.get? key) value).map (merged.set key)
    else .ok (merged.set key value) := by
  unfold mergeItem padStep
  by_cases hkey : key = ("scratchpad" : Value)
  · cases value with
    | dict pad =>
        simp only [if_pos hkey]
        cases spread ((merged.get? key).getD .none) (Dict.ofList pad) <;> rfl
    | _ =>
        rw [if_pos hkey]
        rfl
  · cases value <;> simp only [if_neg hkey]

theorem spread_falsy {old : Value} {new : Dict Value Value} (hold : isMapping old = false)
    (h : truthy old = false) : spread old new = .ok (Dict.empty.update new) := by
  cases old with
  | dict items => cases hold
  | _ => simp only [spread, h, Bool.false_eq_true, if_false]

theorem spread_truthy {old : Value} {new : Dict Value Value} (hold : isMapping old = false)
    (h : truthy old = true) : ∃ error, spread old new = .error error := by
  cases old with
  | dict items => cases hold
  | _ => exact ⟨_, by rw [spread, if_pos h]; exact nofun⟩

theorem padStep_blocked {before : List Value} {value : Value} (h : Blocks before value) :
    ∃ error, padStep (padOf before) value = .error error := by
  obtain ⟨hvalue, old, hlast, hold, htruthy⟩ := h
  cases value with
  | dict pad =>
      obtain ⟨error, herror⟩ : ∃ error, spread old (Dict.ofList pad) = .error error :=
        spread_truthy hold htruthy
      refine ⟨error, ?_⟩
      rw [padStep, padOf, hlast, Option.map_some, if_neg (by simp [hold]), Option.getD_some, herror]
      rfl
  | _ => cases hvalue

theorem padStep_free {before : List Value} {value : Value} (h : ¬Blocks before value) :
    ∃ pad, padStep (padOf before) value = .ok pad ∧ padOf (before ++ [value]) = some pad := by
  cases hvalue : isMapping value with
  | false =>
      refine ⟨value, ?_, ?_⟩
      · cases value with
        | dict pad => cases hvalue
        | _ => rfl
      · rw [padOf, List.getLast?_concat, Option.map_some, if_neg (by simp [hvalue])]
  | true =>
      obtain ⟨pad, rfl⟩ : ∃ pad, value = .dict pad := by
        cases value with
        | dict pad => exact ⟨pad, rfl⟩
        | _ => cases hvalue
      have hafter : padOf (before ++ [.dict pad]) =
          some (.dict ((unite (lastRun before)).update (Dict.ofList pad)).items) := by
        rw [padOf, List.getLast?_concat, Option.map_some, if_pos hvalue, lastRun_snoc hvalue, unite,
          List.foldl_append]
        rfl
      refine ⟨_, ?_, hafter⟩
      rw [padStep]
      cases hlast : before.getLast? with
      | none =>
          obtain rfl := List.getLast?_eq_none_iff.mp hlast
          rfl
      | some old =>
          cases hold : isMapping old with
          | true =>
              rw [padOf, hlast, Option.map_some, if_pos hold, Option.getD_some, spread, Dict.ofList_self]
              rfl
          | false =>
              have hfalsy : truthy old = false := Bool.eq_false_iff.mpr fun htruthy =>
                h ⟨hvalue, old, hlast, hold, htruthy⟩
              have hrun : lastRun before = [] := by
                obtain ⟨front, rfl⟩ := List.getLast?_eq_some_iff.mp hlast
                rw [lastRun, List.reverse_concat, List.takeWhile_cons, if_neg (by simp [hold])]
                rfl
              rw [padOf, hlast, Option.map_some, if_neg (by simp [hold]), Option.getD_some,
                spread_falsy hold hfalsy, hrun]
              rfl

theorem clash_snoc {before : List Value} {value : Value} :
    Clash (before ++ [value]) ↔ Clash before ∨ Blocks before value := by
  constructor
  · rintro ⟨front, old, new, after, hsplit, hold, htruthy, hnew⟩
    rcases List.eq_nil_or_concat after with rfl | ⟨after, last, rfl⟩
    · rw [List.append_cons front] at hsplit
      obtain ⟨rfl, hlast⟩ := List.append_inj' hsplit rfl
      obtain rfl : value = new := List.singleton_inj.mp hlast
      exact .inr ⟨hnew, old, List.getLast?_concat, hold, htruthy⟩
    · have hinit : before ++ [value] = (front ++ old :: new :: after) ++ [last] := by simpa using hsplit
      exact .inl ⟨front, old, new, after, (List.append_inj' hinit rfl).1, hold, htruthy, hnew⟩
  · rintro (⟨front, old, new, after, rfl, hold, htruthy, hnew⟩ | ⟨hvalue, old, hlast, hold, htruthy⟩)
    · exact ⟨front, old, new, after ++ [value], by simp, hold, htruthy, hnew⟩
    · obtain ⟨front, rfl⟩ := List.getLast?_eq_some_iff.mp hlast
      exact ⟨front, old, value, [], by simp, hold, htruthy, hvalue⟩

theorem pads_snoc (key value : Value) :
    pads (written ++ [(key, value)]) =
      if key = ("scratchpad" : Value) then pads written ++ [value] else pads written := by
  rw [pads, List.filterMap_append]
  by_cases hkey : key = ("scratchpad" : Value) <;> simp [pads, hkey]

-- The merge so far.
structure Held (written : List (Value × Value)) (merged : Dict Value Value) : Prop where
  last : ∀ key, key ≠ ("scratchpad" : Value) →
    merged.get? key = (written.reverse.find? (·.1 = key)).map Prod.snd
  pad : merged.get? "scratchpad" = padOf (pads written)

theorem Held.set {key value stored : Value} (h : Held written merged)
    (hkey : key ≠ ("scratchpad" : Value) → stored = value)
    (hpad : key = ("scratchpad" : Value) → padOf (pads written ++ [value]) = some stored) :
    Held (written ++ [(key, value)]) (merged.set key stored) where
  last := by
    intro other hother
    rw [Dict.get?_set, List.reverse_concat, List.find?_cons]
    by_cases hsame : other = key
    · simp [hsame, hkey (hsame ▸ hother)]
    · simp [hsame, Ne.symm hsame, h.last other hother]
  pad := by
    rw [Dict.get?_set, pads_snoc]
    by_cases hsame : key = ("scratchpad" : Value)
    · rw [if_pos hsame.symm, if_pos hsame, hpad hsame]
    · rw [if_neg (Ne.symm hsame), if_neg hsame, h.pad]

theorem mergeItem_held (h : Held written merged) (key value : Value) :
    (¬(key = ("scratchpad" : Value) ∧ Blocks (pads written) value) →
      ∃ merged', mergeItem merged (key, value) = .ok merged' ∧ Held (written ++ [(key, value)]) merged') ∧
    (key = ("scratchpad" : Value) ∧ Blocks (pads written) value →
      ∃ error, mergeItem merged (key, value) = .error error) := by
  rw [mergeItem_eq]
  constructor
  · intro hfree
    by_cases hkey : key = ("scratchpad" : Value)
    · obtain ⟨pad, hpad, hafter⟩ := padStep_free fun hblocks => hfree ⟨hkey, hblocks⟩
      refine ⟨merged.set key pad, ?_, h.set (fun hne => absurd hkey hne) fun _ => hafter⟩
      rw [if_pos hkey, hkey, h.pad, hpad]
      rfl
    · exact ⟨merged.set key value, if_neg hkey, h.set (fun _ => rfl) fun he => absurd he hkey⟩
  · rintro ⟨hkey, hblocks⟩
    obtain ⟨error, herror⟩ := padStep_blocked hblocks
    exact ⟨error, by rw [if_pos hkey, hkey, h.pad, herror]; rfl⟩

-- The writes are merged unless two scratchpads clash.
theorem foldlM_mergeItem (written : List (Value × Value)) :
    (¬Clash (pads written) → ∃ merged, written.foldlM mergeItem .empty = .ok merged ∧ Held written merged) ∧
    (Clash (pads written) → ∃ error, written.foldlM mergeItem .empty = .error error) := by
  induction written using List.reverseRecOn with
  | nil =>
      refine ⟨fun _ => ⟨.empty, rfl, fun _ _ => rfl, rfl⟩, ?_⟩
      rintro ⟨before, old, new, after, hsplit, -⟩
      simp [pads] at hsplit
  | append_singleton written write ih =>
      obtain ⟨key, value⟩ := write
      have hclash : Clash (pads (written ++ [(key, value)])) ↔
          Clash (pads written) ∨ key = ("scratchpad" : Value) ∧ Blocks (pads written) value := by
        rw [pads_snoc]
        by_cases hkey : key = ("scratchpad" : Value)
        · rw [if_pos hkey, clash_snoc, and_iff_right hkey]
        · rw [if_neg hkey, or_iff_left fun h => hkey h.1]
      have hstep : ∀ merged : Dict Value Value,
          [(key, value)].foldlM mergeItem merged = mergeItem merged (key, value) := by
        intro merged
        rw [List.foldlM_cons]
        cases mergeItem merged (key, value) <;> rfl
      rw [List.foldlM_append, hclash]
      by_cases hbefore : Clash (pads written)
      · obtain ⟨error, herror⟩ := ih.2 hbefore
        exact ⟨fun h => absurd (.inl hbefore) h, fun _ => ⟨error, by rw [herror]; rfl⟩⟩
      · obtain ⟨merged, hmerged, hheld⟩ := ih.1 hbefore
        obtain ⟨hfree, hblocked⟩ := mergeItem_held hheld key value
        rw [hmerged, or_iff_right hbefore]
        show (_ → ∃ merged', [(key, value)].foldlM mergeItem merged = .ok merged' ∧ _) ∧
          (_ → ∃ error, [(key, value)].foldlM mergeItem merged = .error error)
        rw [hstep]
        exact ⟨hfree, hblocked⟩

-- Deltas that can be merged one by one: what is falsy is passed over.
def Readable (deltas : List Value) : Prop := ∀ delta ∈ deltas, truthy delta = true → isMapping delta = true

theorem entries_falsy {delta : Value} (h : truthy delta = false) : (entries delta).items = [] := by
  cases delta with
  | dict items =>
      cases items with
      | nil => rfl
      | cons => cases h
  | _ => rfl

theorem mergeDelta_eq {delta : Value} (h : truthy delta = true → isMapping delta = true) :
    mergeDelta merged delta = (entries delta).items.foldlM mergeItem merged := by
  unfold mergeDelta
  cases htruthy : truthy delta with
  | false =>
      rw [entries_falsy htruthy]
      rfl
  | true =>
      have hmapping := h htruthy
      cases delta with
      | dict items => rfl
      | _ => cases hmapping

theorem mergeDeltas_eq {deltas : List Value} (h : Readable deltas) :
    deltas.foldlM mergeDelta merged = (writes deltas).foldlM mergeItem merged := by
  induction deltas generalizing merged with
  | nil => rfl
  | cons delta rest ih =>
      rw [List.foldlM_cons, mergeDelta_eq (h delta List.mem_cons_self), writes, List.flatMap_cons,
        List.foldlM_append]
      exact bind_congr fun merged => ih fun delta hm => h delta (List.mem_cons_of_mem _ hm)

theorem mergeDeltas_unreadable {deltas : List Value} (h : ¬Readable deltas) :
    ∃ error, deltas.foldlM mergeDelta merged = .error error := by
  induction deltas generalizing merged with
  | nil => exact absurd (fun _ hm => nomatch hm) h
  | cons delta rest ih =>
      rw [List.foldlM_cons]
      cases hdelta : mergeDelta merged delta with
      | error error => exact ⟨error, rfl⟩
      | ok merged' =>
          refine ih fun hrest => h ?_
          rintro other hm htruthy
          rcases List.mem_cons.mp hm with rfl | hm
          · cases other with
            | dict items => rfl
            | _ =>
                simp only [mergeDelta, htruthy, if_true] at hdelta
                cases hdelta
          · exact hrest other hm htruthy

-- The deltas are merged exactly when they can be read and no two scratchpads clash.
theorem mergeDeltas_merges {deltas : List Value} :
    (Readable deltas ∧ ¬Clash (pads (writes deltas)) →
      ∃ merged, mergeDeltas deltas = .ok merged ∧ Merged (writes deltas) merged) ∧
    (¬(Readable deltas ∧ ¬Clash (pads (writes deltas))) → ∃ error, mergeDeltas deltas = .error error) := by
  constructor
  · rintro ⟨hreadable, hclash⟩
    obtain ⟨merged, hmerged, hlast, hpad⟩ := (foldlM_mergeItem (writes deltas)).1 hclash
    refine ⟨merged, (mergeDeltas_eq hreadable).trans hmerged, hlast, ?_, ?_, ?_⟩
    · intro value hvalue hplain
      rw [hpad, padOf, hvalue, Option.map_some, if_neg (by simp [hplain])]
    · intro value hvalue hmapping
      refine ⟨(unite (lastRun (pads (writes deltas)))).items, ?_, fun key => ?_⟩
      · rw [hpad, padOf, hvalue, Option.map_some, if_pos hmapping]
      · rw [Dict.ofList_self, get?_unite]
    · intro hnone
      rw [hpad, hnone]
      rfl
  · intro h
    by_cases hreadable : Readable deltas
    · obtain ⟨error, herror⟩ := (foldlM_mergeItem (writes deltas)).2
        (not_not.mp fun hclash => h ⟨hreadable, hclash⟩)
      exact ⟨error, (mergeDeltas_eq hreadable).trans herror⟩
    · exact mergeDeltas_unreadable hreadable

section Dispatch

variable {branches : List (Str × Fn)} {state : State} {t : Run} {pool : Pool (Str × Fn) Event Exn Value}

-- The events of one branch's call.
def called (state : State) (branch : Str × Fn) (reply : Reply) : Run :=
  [.enter (.node branch.1 branch.2 state), .leave (.node branch.1 branch.2 state) reply]

theorem dispatched_failed {error : Exn} (h : pool.failed = some error) :
    dispatched pool = some (.error error) := by
  rw [dispatched, Pool.gathered, h]
  rfl

theorem dispatched_finished {deltas : List Value} (hnone : pool.failed = none)
    (htasks : pool.tasks = (deltas.map .ok).map .done) : dispatched pool = some (mergeDeltas deltas) := by
  have hblames : pool.Blames := fun error he => by rw [hnone] at he; cases he
  rw [dispatched, Pool.gathered_ok hblames htasks]
  rfl

theorem called_of_runs {rs : List (Run × Except Exn Value)}
    (h : List.Forall₂ (fun branch r => Calls state branch r.1 r.2) branches rs) :
    ∃ replies : List Reply, replies.length = branches.length ∧
      rs.map Prod.fst = List.zipWith (called state) branches replies ∧
      rs.map Prod.snd = replies.map Reply.result := by
  induction h with
  | nil => exact ⟨[], rfl, rfl, rfl⟩
  | @cons branch r branches rs hcall _ ih =>
      obtain ⟨replies, hlength, hruns, houtcomes⟩ := ih
      obtain ⟨reply, hresult, hcalled⟩ := hcall
      refine ⟨reply :: replies, congrArg Nat.succ hlength, ?_, ?_⟩
      · rw [List.map_cons, hruns, hcalled]
        rfl
      · rw [List.map_cons, houtcomes, hresult]
        rfl

-- Whatever the interleaving, the deltas are merged in the order of the branches, and only once
-- every branch has returned; the first branch to fail decides the result for good.
theorem parallel_dispatch_merges (hs : Pool.Steps (Calls state) (.start none branches) t pool) :
    (pool.finished = false → ∃ es next, Pool.Step (Calls state) pool es next) ∧
    (∀ error, pool.failed = some error →
      (∃ branch ∈ branches, ∃ reply, Event.leave (.node branch.1 branch.2 state) reply ∈ t ∧
        (reply : Reply).result = .error error) ∧
      ∀ t' last, Pool.Steps (Calls state) pool t' last → dispatched last = some (.error error)) ∧
    (pool.failed = none → pool.finished = true → ∃ replies deltas,
      Shuffles (List.zipWith (called state) branches replies) t ∧
      replies.map Reply.result = deltas.map .ok ∧ replies.length = branches.length ∧
      (Readable deltas ∧ ¬Clash (pads (writes deltas)) →
        ∃ merged, dispatched pool = some (.ok merged) ∧ Merged (writes deltas) merged) ∧
      (¬(Readable deltas ∧ ¬Clash (pads (writes deltas))) → ∃ error, dispatched pool = some (.error error))) := by
  have hwoven := hs.woven (Pool.woven_start branches)
  refine ⟨?_, fun error herror => ⟨?_, ?_⟩, fun hnone hfinished => ?_⟩
  · refine (hs.balanced (Pool.balanced_start none branches)).progress nofun fun branch => ?_
    exact ⟨_, _, ⟨.ok .none, state⟩, rfl, rfl⟩
  · have hdone := hs.blames (fun _ h => nomatch h) error herror
    obtain ⟨branch, hbranch, s, ⟨reply, hreply, rfl⟩, hsub⟩ := hwoven.exists_run hdone
    exact ⟨branch, hbranch, reply, hsub.subset (by simp), hreply.symm⟩
  · exact fun t' last hlast => dispatched_failed (hlast.failed_eq herror)
  · obtain ⟨rs, hrs, hshuffles, htasks⟩ := hwoven.runs hfinished
    obtain ⟨replies, hlength, hruns, houtcomes⟩ := called_of_runs hrs
    have hreturned : ∀ o ∈ rs.map Prod.snd, ∃ delta, Except.ok delta = o := by
      intro o ho
      cases o with
      | ok delta => exact ⟨delta, rfl⟩
      | error error =>
          have hrecords := hs.records (Pool.records_start none branches) hnone error
          exact absurd (List.mem_map_of_mem ho) (htasks ▸ hrecords)
    obtain ⟨deltas, hdeltas⟩ := (Set.ext_iff.mp (Set.range_list_map Except.ok) _).mpr hreturned
    have hresult := dispatched_finished hnone (htasks.trans (congrArg _ hdeltas.symm))
    obtain ⟨hmerges, hfails⟩ := @mergeDeltas_merges deltas
    refine ⟨replies, deltas, hruns ▸ hshuffles, houtcomes.symm.trans hdeltas.symm, hlength,
      fun hreadable => ?_, fun hreadable => ?_⟩
    · obtain ⟨merged, hmerged, hwritten⟩ := hmerges hreadable
      exact ⟨merged, by rw [hresult, hmerged], hwritten⟩
    · obtain ⟨error, herror⟩ := hfails hreadable
      exact ⟨error, by rw [hresult, herror]⟩

def pair : List (Str × Fn) := [("a", ⟨0, none, none⟩), ("b", ⟨1, none, none⟩)]

theorem parallel_dispatch_merges_pair :
    ∃ t pool, Pool.Steps (Calls (State.new "s")) (.start none pair) t pool ∧ pool.finished = true ∧
      (pool.failed = none → ∃ result, dispatched pool = some result) := by
  have hbound : (none : Option Nat) ≠ some 0 := nofun
  have hcalls : ∀ branch, ∃ s o, Calls (State.new "s") branch s o :=
    fun branch => ⟨_, _, ⟨.ok .none, State.new "s"⟩, rfl, rfl⟩
  obtain ⟨t, pool, hs, hfinished⟩ :=
    Pool.Balanced.completes hbound hcalls _ (Pool.balanced_start none pair)
  refine ⟨t, pool, hs, hfinished, fun hnone => ?_⟩
  obtain ⟨-, -, hdone⟩ := parallel_dispatch_merges hs
  obtain ⟨_, deltas, -, -, -, hmerges, hfails⟩ := hdone hnone hfinished
  by_cases hreadable : Readable deltas ∧ ¬Clash (pads (writes deltas))
  · obtain ⟨merged, hmerged, -⟩ := hmerges hreadable
    exact ⟨_, hmerged⟩
  · obtain ⟨error, herror⟩ := hfails hreadable
    exact ⟨_, herror⟩

end Dispatch

end PerpetuaCore.Graph.Parallel
