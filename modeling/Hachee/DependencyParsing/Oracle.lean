import Hachee.DependencyParsing.Transitions
import Hachee.Foundation.InOrder
import Mathlib.Data.List.Sort

/-!
# The oracle of the dependency parser

A model of the training half of `dependency-parsing/shift-reduce.lisp`, up to
`search-oracle-action-sequence`.

The walk over the gold arcs calls its callback for each vertex, and is modelled by
the list of these calls.  It would not end on a graph with a cycle, so it takes
fuel.  `sort` is applied to lists that `remove-if-not` and `remove-duplicates` have
just made, and it is modelled as a function to a new list.

`find-root` returns `nil` when every parent is a child too; what the source goes on
to do with such a root is not modelled, and the oracle has no result then.
-/

namespace Hachee.DependencyParsing.ShiftReduce

open Foundation Arborescence InOrder Relation

/-! ## Gold arcs -/

/-- `find-root` -/
def findRoot (arcs : List Arc) : Option Vertex :=
  let parents := arcs.map Arc.parent
  let children := arcs.map Arc.child
  parents.find? fun vertex => vertex ∉ children

/-- `outgoing-arcs` -/
def outgoingArcs (arcs : List Arc) (vertex : Vertex) : List Arc :=
  (arcs.filter fun arc => arc.parent = vertex).insertionSort fun a b => a.child ≤ b.child

/-- The local function `visit` of `call/vertex-in-order`. -/
def visit (arcs : List Arc) : Nat → Vertex → Option Vertex → Option (List (Vertex × Option Vertex))
  | 0, _, _ => none
  | fuel + 1, vertex, parent => do
      let children := (outgoingArcs arcs vertex).map Arc.child
      let visitChild := fun child => visit arcs fuel child (some vertex)
      let left ← gather visitChild (children.filter fun v => v < vertex)
      let right ← gather visitChild (children.filter fun v => vertex < v)
      some (left ++ (vertex, parent) :: right)

/-- `call/vertex-in-order`: the calls of the callback. -/
def callVertexInOrder (fuel : Nat) (arcs : List Arc) (root : Vertex) :
    Option (List (Vertex × Option Vertex)) :=
  visit arcs fuel root none

/-- `list-ordered-vertices` -/
def listOrderedVertices (fuel : Nat) (arcs : List Arc) : Option (List Vertex) := do
  let root ← findRoot arcs
  let calls ← callVertexInOrder fuel arcs root
  some (calls.map Prod.fst)

/-- `list-vertices` -/
def listVertices (arcs : List Arc) : List Vertex :=
  (arcs.flatMap fun arc => [arc.parent, arc.child]).dedup.insertionSort (· ≤ ·)

/-! ## The oracle -/

structure Oracle where
  goldArcList : List Arc
  orderedVertices : List Vertex

/-- `oracle-for` -/
def oracleFor (fuel : Nat) (initialConfiguration : Configuration) (goldArcs : List Arc) :
    Option Oracle := do
  let goldRoot ← findRoot goldArcs
  let orderedVertices ← listOrderedVertices fuel goldArcs
  some {
    goldArcList := { parent := initialConfiguration.root, child := goldRoot } :: goldArcs
    orderedVertices := orderedVertices }

/-- Whether an arc is a gold arc to a vertex that has all its gold arcs already. -/
def attachableP (oracle : Oracle) (configuration : Configuration) (parent child : Vertex) : Bool :=
  (oracle.goldArcList.any fun arc => arc.parent = parent && arc.child = child) &&
    (oracle.goldArcList.filter fun arc => arc.parent = child).all (· ∈ configuration.arcs)

/-- `oracle-left-arc-p` -/
def oracleLeftArcP (oracle : Oracle) (configuration : Configuration) : Bool :=
  match configuration.stack with
  | j :: i :: _ => attachableP oracle configuration j i
  | _ => false

/-- `oracle-right-arc-p` -/
def oracleRightArcP (oracle : Oracle) (configuration : Configuration) : Bool :=
  match configuration.stack with
  | j :: i :: _ => attachableP oracle configuration i j
  | _ => false

/-- `oracle-vertex<` -/
def oracleVertexLt (oracle : Oracle) (j i : Vertex) : Option Bool := do
  let posJ ← oracle.orderedVertices.idxOf? j
  let posI ← oracle.orderedVertices.idxOf? i
  some (posJ < posI)

/-- `oracle-swap-p` -/
def oracleSwapP (oracle : Oracle) (configuration : Configuration) : Option Bool :=
  match configuration.stack with
  | j :: i :: _ =>
      if i ≠ configuration.root ∧ j ≠ configuration.root then oracleVertexLt oracle j i
      else some false
  | _ => some false

/-- `oracle-select-action` -/
def oracleSelectAction (oracle : Oracle) (configuration : Configuration) : Option Action :=
  if oracleLeftArcP oracle configuration then some .leftArc
  else if oracleRightArcP oracle configuration then some .rightArc
  else do
    let swapP ← oracleSwapP oracle configuration
    some (if swapP then .swap else .shift)

/-- The action function that asks the oracle. -/
def oracleAction (oracle : Oracle) : ActionFn Unit := fun _ configuration _ =>
  (oracleSelectAction oracle configuration).map fun action => (action, ())

/-- `search-oracle-action-sequence` -/
def searchOracleActionSequence (fuel : Nat) (goldArcs : List Arc) : Option (List Action) := do
  let initialConfiguration := makeInitialConfiguration (listVertices goldArcs)
  let oracle ← oracleFor fuel initialConfiguration goldArcs
  actionStream (oracleAction oracle) fuel () initialConfiguration

/-! ## Gold trees -/

/-- Arcs over vertices that are not negative, no two into one vertex, without a
cycle, and with one vertex that no arc enters.  Every other vertex has one parent
then, and the tree is connected. -/
structure GoldTree (gold : List Arc) : Prop where
  nonempty : gold ≠ []
  nonneg : ∀ arc ∈ gold, 0 ≤ arc.parent ∧ 0 ≤ arc.child
  children : (gold.map Arc.child).Nodup
  root : ∃! v, v ∈ listVertices gold ∧ v ∉ gold.map Arc.child
  acyclic : Acyclic (edge gold)

section Vertices

variable {gold : List Arc}

theorem mem_listVertices {v : Vertex} :
    v ∈ listVertices gold ↔ ∃ arc ∈ gold, v = arc.parent ∨ v = arc.child := by
  simp [listVertices, List.mem_insertionSort]

theorem nodup_listVertices (gold : List Arc) : (listVertices gold).Nodup :=
  (List.perm_insertionSort _ _).nodup_iff.mpr (List.nodup_dedup _)

/-- The vertices are listed in increasing order. -/
theorem listVertices_pairwise_lt (gold : List Arc) :
    (listVertices gold).Pairwise (· < ·) := by
  have hsorted : (listVertices gold).Pairwise (· ≤ ·) := List.pairwise_insertionSort _ _
  have hnodup : (listVertices gold).Pairwise (· ≠ ·) := nodup_listVertices gold
  exact hsorted.imp₂ (fun _ _ hle hne => lt_of_le_of_ne hle hne) hnodup

end Vertices

end Hachee.DependencyParsing.ShiftReduce
