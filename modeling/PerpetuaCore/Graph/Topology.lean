import PerpetuaCore.Graph.Reducers
import PerpetuaCore.Python.Sorted

namespace PerpetuaCore.Graph

open Python (Str Value Dict)

def START : Str := "__start__"

def END : Str := "__end__"

-- Which settled branches of a region are admitted.
inductive Join where
  | all
  | any
  | firstSuccess
  | quorum (quorum : Nat) (positive : 1 ≤ quorum)
  | custom (fn : Fn)
  deriving DecidableEq

def Join.kind : Join → Str
  | .all => "all"
  | .any => "any"
  | .firstSuccess => "first_success"
  | .quorum .. => "quorum"
  | .custom _ => "custom"

def Join.quorum? : Join → Option Nat
  | .quorum q _ => some q
  | _ => none

-- A region: run `branches` side by side, then go on at `thenNode` (`then`).
structure FanOut where
  branches : List Str
  thenNode : Str
  join : Join
  ascending : branches.Pairwise (· < ·)
  two : 2 ≤ branches.length
  named : ∀ b ∈ branches, b ≠ []
  continues : thenNode ≠ []
  attainable : ∀ q ∈ join.quorum?, q ≤ branches.length

-- `FanOut.__post_init__`.
def FanOut.new (branches : List Str) (thenNode : Str) (join : Join) : Except Exn FanOut :=
  if htwo : branches.length < 2 then
    .error (.valueError ["FanOut requires at least two branches"])
  else if hunique : ¬branches.Nodup then
    .error (.valueError ["FanOut branches must be unique"])
  else if hnamed : ¬∀ b ∈ branches, b ≠ [] then
    .error (.valueError ["FanOut branch names must be non-empty strings"])
  else if hthen : thenNode = [] then
    .error (.valueError ["FanOut.then must be a node name or END"])
  else if hquorum : ¬∀ q ∈ join.quorum?, q ≤ branches.length then
    .error (.valueError ["quorum cannot exceed the number of branches"])
  else .ok
    { branches := Python.sorted id branches
      thenNode, join
      ascending := by
        have hn := (Python.sorted_perm id branches).nodup_iff.mpr (not_not.mp hunique)
        exact ((Python.sorted_pairwise id branches).and hn).imp fun h => lt_of_le_of_ne h.1 h.2
      two := by
        rw [Python.length_sorted]
        exact Nat.not_lt.mp htwo
      named := fun b hb => not_not.mp hnamed b (Python.mem_sorted.mp hb)
      continues := hthen
      attainable := by
        rw [Python.length_sorted]
        exact not_not.mp hquorum }

-- Authoring order has no influence.
theorem FanOut.new_perm {branches branches' : List Str} (h : branches.Perm branches')
    (thenNode : Str) (join : Join) :
    FanOut.new branches thenNode join = FanOut.new branches' thenNode join := by
  have hs := Python.sorted_eq_of_perm Function.injective_id h
  simp only [FanOut.new, h.length_eq, h.nodup_iff, h.mem_iff, hs]

-- A router with the targets it declares; they do not restrict it at run time.
structure ConditionalEdge where
  router : Fn
  declaredTargets : List Str

inductive Edge where
  | static (target : Str)
  | callable (router : Fn)
  | conditional (edge : ConditionalEdge)
  | fanout (region : FanOut)

-- The function a router edge runs: a static target runs no code.
def Edge.router? : Edge → Option Fn
  | .callable router => some router
  | .conditional edge => some edge.router
  | .static _ | .fanout _ => none

structure CompiledGraph where
  nodes : Dict Str Fn
  edges : Dict Str Edge
  maxSteps : Int
  reducers : Dict Str Reducer := .empty

def FanOut.pair : FanOut where
  branches := ["b", "c"]
  thenNode := END
  join := .all
  ascending := by decide
  two := by decide
  named := by decide
  continues := by decide
  attainable := nofun

-- One entry node, then a region of two branches, then the end.
def CompiledGraph.diamond : CompiledGraph where
  nodes := ⟨[("a", ⟨0, none, none⟩), ("b", ⟨1, none, none⟩), ("c", ⟨2, none, none⟩)], by decide⟩
  edges := ⟨[(START, .static "a"), ("a", .fanout .pair)], by decide⟩
  maxSteps := 5

-- `self._edges.get(name, END)`.
def CompiledGraph.edgeOf (g : CompiledGraph) (name : Str) : Edge :=
  (g.edges.get? name).getD (.static END)

end PerpetuaCore.Graph
