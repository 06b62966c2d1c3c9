import Mathlib.Data.List.Sort
import Hachee.Lisp.Sequence

/-!
# The easy-first parser

A model of `dependency-parsing/easy-first.lisp` up to its streams, and of `parse`.
Nodes are integers, and `-1` is the root, which stands in front of the nodes.

In each turn two neighbours of the list of pending nodes are chosen, and one of them
is attached to the other and leaves the list, or the two change places.  A node only
changes places with a greater one on its right.

The attributes of `sort` are those the language promises: the result has the same
elements, and their keys descend.  Which of several elements with equal keys comes
first is left open, so it is a parameter (`DescendingSort`).

The stream of configurations is lazy and `stream-as-list` forces all of it.  It is
modelled as the list of its elements, with fuel; running out of it is `none`, like an
error.
-/

namespace Hachee.DependencyParsing.EasyFirst

abbrev Node := Int

/-- `+root+` -/
def root : Node := -1

/-! ## Actions -/

/-- An action with its arguments. -/
inductive Action where
  | nop
  | attach (source target : Node)
  | move (node1 node2 : Node)
deriving DecidableEq, Repr

/-- `make-attach` asserts that its source is not the root. -/
def makeAttach (source target : Node) : Option Action :=
  if source ≠ root then some (.attach source target) else none

/-- `make-move` asserts that the nodes are in order and that the first is not the root. -/
def makeMove (node1 node2 : Node) : Option Action :=
  if node1 < node2 ∧ node1 ≠ root then some (.move node1 node2) else none

/-! ## Configurations -/

structure Arc where
  source : Node
  target : Node
deriving DecidableEq, Repr

structure Configuration where
  pendings : List Node
  arcs : List Arc
deriving DecidableEq, Repr

/-- `(make-configuration :pendings (cons +root+ nodes))` -/
def initialConfiguration (nodes : List Node) : Configuration :=
  { pendings := root :: nodes, arcs := [] }

/-- `configuration-terminated-p`; the first of no nodes is not a number. -/
def terminatedP (configuration : Configuration) : Option Bool :=
  match configuration.pendings with
  | [] => none
  | [v] => some (v = root)
  | _ :: _ :: _ => some false

/-- `configuration-attach` -/
def configurationAttach (configuration : Configuration) (source target : Node) : Configuration :=
  { arcs := { source := source, target := target } :: configuration.arcs
    pendings := configuration.pendings.filter fun v => v ≠ source }

/-- `list-swap!` fails when an item has no position in the list. -/
def listSwap (list : List Node) (item1 item2 : Node) : Option (List Node) := do
  let index1 ← list.idxOf? item1
  let index2 ← list.idxOf? item2
  some ((list.set index2 item1).set index1 item2)

/-- `configuration-move` -/
def configurationMove (configuration : Configuration) (v1 v2 : Node) : Option Configuration := do
  let pendings ← listSwap configuration.pendings v1 v2
  some { configuration with pendings := pendings }

/-- `configuration-transitioned` -/
def transitioned (configuration : Configuration) : Action → Option Configuration
  | .attach source target => some (configurationAttach configuration source target)
  | .move v1 v2 => configurationMove configuration v1 v2
  | .nop => some configuration

/-! ## The actions to choose from -/

/-- Every node but the last one, with the node after it. -/
def neighbours (pendings : List Node) : List (Node × Node) := pendings.zip pendings.tail

/-- `collect-attaches`; each turn of the loop pushes its actions. -/
def collectAttaches (pendings : List Node) : Option (List Action) :=
  (neighbours pendings).foldlM (fun actions (vLeft, vRight) => do
    let actions ←
      if vLeft ≠ root then do
        let right ← makeAttach vLeft vRight
        some (right :: actions)
      else some actions
    let left ← makeAttach vRight vLeft
    some (left :: actions)) []

/-- `collect-moves`; the root is the first of the pending nodes and is not moved. -/
def collectMoves (pendings : List Node) : Option (List Action) :=
  ((neighbours pendings.tail).filter fun (vLeft, vRight) => vLeft < vRight).mapM
    fun (vLeft, vRight) => makeMove vLeft vRight

/-- A function that chooses an action. -/
abbrev ActionFn := Configuration → List Action → Option Action

/-- The list of actions that `select-action` and `select` choose from. -/
def collectActions (configuration : Configuration) : Option (List Action) := do
  let attaches ← collectAttaches configuration.pendings
  let moves ← collectMoves configuration.pendings
  some (attaches ++ moves)

/-- `select-action` -/
def selectAction (configuration : Configuration) (actionFn : ActionFn) : Option Action := do
  let actions ← collectActions configuration
  actionFn configuration actions

/-- `make-configuration-stream`, with all its tails forced. -/
def configurationStream (actionFn : ActionFn) : Nat → Configuration → Option (List Configuration)
  | 0, _ => none
  | fuel + 1, configuration => do
      if ← terminatedP configuration then some []
      else
        let action ← selectAction configuration actionFn
        let nextConfiguration ← transitioned configuration action
        let configurations ← configurationStream actionFn fuel nextConfiguration
        some (configuration :: configurations)

/-! ## Parsing -/

section Parse

variable {R : Type} [LinearOrder R]

/-- What `(sort list #'> :key key)` may return. -/
structure DescendingSort (R : Type) [LinearOrder R] where
  sort : {β : Type} → (β → R) → List β → List β
  perm : ∀ {β : Type} (key : β → R) (list : List β), (sort key list).Perm list
  descending : ∀ {β : Type} (key : β → R) (list : List β),
    (sort key list).Pairwise fun a b => key b ≤ key a

/-- The stable sort. -/
def DescendingSort.stable : DescendingSort R where
  sort key list := list.insertionSort fun a b => key b ≤ key a
  perm _ list := List.perm_insertionSort _ list
  descending key list :=
    have : Std.Total fun a b => key b ≤ key a := ⟨fun a b => le_total (key b) (key a)⟩
    have : IsTrans _ fun a b => key b ≤ key a := ⟨fun _ _ _ hab hbc => le_trans hbc hab⟩
    List.pairwise_insertionSort (fun a b => key b ≤ key a) list

/-- `make-action-fn`, where a scorer is given by its `scorer-action-score`.  There must be
an action. -/
def makeActionFn (sorting : DescendingSort R) (score : Action → Configuration → R) : ActionFn :=
  fun configuration actions =>
    let scores := actions.map fun action => score action configuration
    let scoreActionAlist := sorting.sort Prod.fst (scores.zip actions)
    scoreActionAlist.head?.map Prod.snd

/-- `assert-nodes` -/
def assertNodes (nodes : List Node) : Option Unit :=
  if ∀ node ∈ nodes, 0 ≤ node then some () else none

/-- `parse` returns the arcs of the last configuration. -/
def parse (sorting : DescendingSort R) (score : Action → Configuration → R) (fuel : Nat)
    (nodes : List Node) : Option (List Arc) := do
  assertNodes nodes
  let nodes := nodes.insertionSort (· ≤ ·)
  let configurations ←
    configurationStream (makeActionFn sorting score) fuel (initialConfiguration nodes)
  let last ← configurations.getLast?
  some last.arcs

end Parse

end Hachee.DependencyParsing.EasyFirst
