import PerpetuaCore.Graph.Rules

namespace PerpetuaCore.Graph.Protocol

open Interaction
open Python (Str Value Dict)

-- What the round grammar sees of an observation.
abbrev Shape := EventKind × Option Str × Option Str

def shape (observation : GraphObservation) : Shape :=
  (observation.event.kind, observation.event.node, observation.event.target)

def started (name : Str) : Shape := (.nodeStart, some name, none)

def ended (name : Str) : Shape := (.nodeEnd, some name, none)

def selected (source target : Str) : Shape := (.edgeSelected, some source, some target)

-- The superstep of a node whose edge is a region; other nodes have none.
inductive Superstep (g : CompiledGraph) (node : Str) : List Shape → Prop
  | none (hedge : ∀ region, g.edgeOf node ≠ .fanout region) : Superstep g node []
  | region {region : FanOut} {admitted : List Str} (hedge : g.edgeOf node = .fanout region)
      (hadmitted : admitted.Sublist region.branches) :
      Superstep g node ((.superstepStart, some node, some region.thenNode) ::
        (region.branches.map started ++ (admitted.map ended ++
          [(.superstepCommit, some node, some region.thenNode)])))

inductive Round (g : CompiledGraph) (node target : Str) : List Shape → Prop
  | mk {superstep : List Shape} (hs : Superstep g node superstep) :
      Round g node target (started node :: ended node :: (superstep ++ [selected node target]))

-- Rounds from `node` on, until END is selected.
inductive Rounds (g : CompiledGraph) : Str → List Shape → Prop
  | ended : Rounds g END []
  | round {node target : Str} {round rest : List Shape} (hn : node ≠ END)
      (hround : Round g node target round) (hrest : Rounds g target rest) :
      Rounds g node (round ++ rest)

def Word (g : CompiledGraph) (word : List Shape) : Prop :=
  ∃ entry rest, word = selected START entry :: rest ∧ Rounds g entry rest

def statusText : TerminalReason → String
  | .done => "done"
  | .interrupted => "interrupted"
  | .stopped => "stopped"

def terminalKind : TerminalReason → EventKind
  | .done => .done
  | .interrupted => .interrupt
  | .stopped => .stopped

-- `observation` ends a run with `reason` after `word`.
structure Closing (word : List GraphObservation) (reason : TerminalReason)
    (observation : GraphObservation) : Prop where
  terminal : observation.event.terminalReason = some reason
  kind : observation.event.kind = terminalKind reason
  status : observation.state.get "status" = statusText reason
  done : reason = .done → ∃ source, word.getLast?.map shape = some (selected source END)
  interrupted : reason = .interrupted → ∃ name, word.getLast?.map shape = some (started name)

-- The observations of a run: an initial part of a word of the grammar, then at most one
-- terminal observation, the only one with a terminal reason.
structure Follows (g : CompiledGraph) (word terminal : List GraphObservation) : Prop where
  grammar : ∃ rest, Word g (word.map shape ++ rest)
  running : ∀ observation ∈ word, observation.event.terminalReason = none
  single : terminal.length ≤ 1
  closing : ∀ observation ∈ terminal, ∃ reason, Closing word reason observation

-- An observation that leaves the run going, within the step budget.
structure Plain (g : CompiledGraph) (observation : GraphObservation) : Prop where
  running : observation.event.terminalReason = none
  steps : (observation.event.steps : Int) ≤ g.maxSteps

-- `shown'` goes on from `shown` by observations of these shapes.
def Stretch (g : CompiledGraph) (shown : List GraphObservation) (shapes : List Shape)
    (shown' : List GraphObservation) : Prop :=
  ∃ more, shown' = shown ++ more ∧ more.map shape = shapes ∧ ∀ observation ∈ more, Plain g observation

variable {g : CompiledGraph} {shown shown' : List GraphObservation}

theorem Stretch.refl : Stretch g shown [] shown := ⟨[], by simp, rfl, by simp⟩

theorem Stretch.trans {shown'' : List GraphObservation} {xs ys : List Shape}
    (h : Stretch g shown xs shown') (h' : Stretch g shown' ys shown'') :
    Stretch g shown (xs ++ ys) shown'' := by
  obtain ⟨more, rfl, rfl, hp⟩ := h
  obtain ⟨more', rfl, rfl, hp'⟩ := h'
  refine ⟨more ++ more', List.append_assoc .., by simp, fun o ho => ?_⟩
  rcases List.mem_append.mp ho with ho | ho
  · exact hp o ho
  · exact hp' o ho

-- The last observation of a nonempty stretch.
theorem Stretch.last {xs : List Shape} {x : Shape} (h : Stretch g shown (xs ++ [x]) shown') :
    shown'.getLast?.map shape = some x := by
  obtain ⟨more, rfl, hshapes, -⟩ := h
  obtain ⟨first, last, rfl, -, hlast⟩ := List.map_eq_append_iff.mp hshapes
  obtain ⟨observation, rfl, rfl⟩ := List.map_eq_singleton_iff.mp hlast
  simp [← List.append_assoc]

-- A stretch of at most `k` observations that some word of `L` begins with.
def Cut (g : CompiledGraph) (L : List Shape → Prop) (k : Nat)
    (shown shown' : List GraphObservation) : Prop :=
  ∃ full xs, L full ∧ xs <+: full ∧ xs.length ≤ k ∧ Stretch g shown xs shown'

-- Such a stretch, and then a terminal observation.
def Halted (g : CompiledGraph) (L : List Shape → Prop) (k : Nat)
    (shown shown' : List GraphObservation) : Prop :=
  ∃ word observation reason, shown' = word ++ [observation] ∧ Cut g L k shown word ∧
    Closing word reason observation ∧ (observation.event.steps : Int) ≤ g.maxSteps

variable {L M : List Shape → Prop} {k k' : Nat}

theorem Cut.empty (hL : ∃ full, L full) : Cut g L k shown shown := by
  obtain ⟨full, hfull⟩ := hL
  exact ⟨full, [], hfull, List.nil_prefix, Nat.zero_le k, .refl⟩

theorem Stretch.cut {full : List Shape} (h : Stretch g shown full shown') (hL : L full)
    (hk : full.length ≤ k) : Cut g L k shown shown' :=
  ⟨full, full, hL, List.prefix_rfl, hk, h⟩

-- After `xs` begins a word of `L`: together they begin a word of `M`.
theorem Stretch.thenCut {shown'' : List GraphObservation} {xs : List Shape}
    (h : Stretch g shown xs shown') (h' : Cut g L k shown' shown'') (hk : xs.length + k ≤ k')
    (hM : ∀ ys, L ys → ∃ rest, M (xs ++ (ys ++ rest))) : Cut g M k' shown shown'' := by
  obtain ⟨full, ys, hL, ⟨zs, rfl⟩, hlength, hs⟩ := h'
  obtain ⟨rest, hM⟩ := hM _ hL
  refine ⟨_, xs ++ ys, hM, ⟨zs ++ rest, by simp⟩, ?_, h.trans hs⟩
  rw [List.length_append]
  omega

theorem Stretch.thenHalted {shown'' : List GraphObservation} {xs : List Shape}
    (h : Stretch g shown xs shown') (h' : Halted g L k shown' shown'') (hk : xs.length + k ≤ k')
    (hM : ∀ ys, L ys → ∃ rest, M (xs ++ (ys ++ rest))) : Halted g M k' shown shown'' := by
  obtain ⟨word, observation, reason, hshown, hc, hclosing, hsteps⟩ := h'
  exact ⟨word, observation, reason, hshown, h.thenCut hc hk hM, hclosing, hsteps⟩

theorem superstep_exists (g : CompiledGraph) (node : Str) : ∃ superstep, Superstep g node superstep := by
  cases hedge : g.edgeOf node with
  | fanout region => exact ⟨_, .region hedge (List.nil_sublist _)⟩
  | _ => exact ⟨_, .none fun region => by simp [hedge]⟩

theorem round_exists (g : CompiledGraph) (node target : Str) : ∃ round, Round g node target round := by
  obtain ⟨superstep, hs⟩ := superstep_exists g node
  exact ⟨_, .mk hs⟩

theorem rounds_exist (g : CompiledGraph) (node : Str) : ∃ rest, Rounds g node rest := by
  by_cases hn : node = END
  · exact hn ▸ ⟨[], .ended⟩
  · obtain ⟨round, hround⟩ := round_exists g node END
    exact ⟨round ++ [], .round hn hround .ended⟩

-- How many observations a round may show, the terminal one apart.
def roundLength (g : CompiledGraph) : Nat := 5 + 2 * g.maxSteps.toNat

-- Only whole rounds have been shown, and the next one is that of `node`.
structure At (g : CompiledGraph) (node : Str) (steps : Nat) (shown : List GraphObservation) :
    Prop where
  word : ∀ rest, Rounds g node rest → Word g (shown.map shape ++ rest)
  plain : ∀ observation ∈ shown, Plain g observation
  last : ∃ source, shown.getLast?.map shape = some (selected source node)
  length : shown.length ≤ 1 + steps * roundLength g

-- Inside a run: the observations so far begin a word and leave room for a terminal one.
structure Partial (g : CompiledGraph) (shown : List GraphObservation) : Prop where
  grammar : ∃ rest, Word g (shown.map shape ++ rest)
  plain : ∀ observation ∈ shown, Plain g observation
  length : shown.length ≤ 1 + g.maxSteps.toNat * roundLength g

theorem At.toPartial {node : Str} {steps : Nat} (h : At g node steps shown)
    (hsteps : (steps : Int) ≤ g.maxSteps) : Partial g shown where
  grammar := by
    obtain ⟨rest, hrest⟩ := rounds_exist g node
    exact ⟨rest, h.word rest hrest⟩
  plain := h.plain
  length := h.length.trans (by
    have hle : steps ≤ g.maxSteps.toNat := by omega
    have hmul := Nat.mul_le_mul_right (roundLength g) hle
    omega)

theorem Stretch.plain {xs : List Shape} (h : Stretch g shown xs shown')
    (hp : ∀ observation ∈ shown, Plain g observation) : ∀ observation ∈ shown', Plain g observation := by
  obtain ⟨more, rfl, -, hmore⟩ := h
  intro o ho
  rcases List.mem_append.mp ho with ho | ho
  · exact hp o ho
  · exact hmore o ho

theorem Stretch.length_eq {xs : List Shape} (h : Stretch g shown xs shown') :
    shown'.length = shown.length + xs.length := by
  obtain ⟨more, rfl, rfl, -⟩ := h
  simp

theorem Stretch.shapes {xs : List Shape} (h : Stretch g shown xs shown') :
    shown'.map shape = shown.map shape ++ xs := by
  obtain ⟨more, rfl, rfl, -⟩ := h
  simp

abbrev RoundOf (g : CompiledGraph) (node : Str) (full : List Shape) : Prop :=
  ∃ target, Round g node target full

-- Part of a round shown after whole rounds.
theorem At.cut {node : Str} {steps : Nat} (h : At g node steps shown) (hn : node ≠ END)
    (hsteps : (steps : Int) < g.maxSteps) (hk : k ≤ roundLength g)
    (hc : Cut g (RoundOf g node) k shown shown') : Partial g shown' := by
  obtain ⟨full, xs, ⟨target, hround⟩, ⟨ys, rfl⟩, hlength, hs⟩ := hc
  obtain ⟨rest, hrest⟩ := rounds_exist g target
  refine ⟨⟨ys ++ rest, ?_⟩, hs.plain h.plain, ?_⟩
  · rw [hs.shapes, List.append_assoc, ← List.append_assoc xs]
    exact h.word _ (.round hn hround hrest)
  · have hle : steps + 1 ≤ g.maxSteps.toNat := by omega
    have hmul := Nat.mul_le_mul_right (roundLength g) hle
    have hshown := h.length
    rw [hs.length_eq]
    rw [Nat.succ_mul] at hmul
    omega

-- A whole round shown: the next node's turn.
theorem At.next {node target : Str} {steps steps' : Nat} {full : List Shape}
    (h : At g node steps shown) (hn : node ≠ END) (hround : Round g node target full)
    (hlength : full.length ≤ roundLength g) (hs : Stretch g shown full shown')
    (hprogress : steps < steps') : At g target steps' shown' where
  word := by
    intro rest hrest
    rw [hs.shapes, List.append_assoc]
    exact h.word _ (.round hn hround hrest)
  plain := hs.plain h.plain
  last := by
    cases hround with
    | @mk superstep _ =>
        have hlast : Stretch g shown
            ((started node :: ended node :: superstep) ++ [selected node target]) shown' := hs
        exact ⟨node, hlast.last⟩
  length := by
    have hmul := Nat.mul_le_mul_right (roundLength g) hprogress
    have hshown := h.length
    rw [hs.length_eq]
    rw [Nat.succ_mul] at hmul
    omega

end PerpetuaCore.Graph.Protocol
