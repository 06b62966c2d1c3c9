import Mathlib.Algebra.Order.Ring.Int
import Hachee.DependencyParsing.EasyFirst
import Hachee.Lisp.Table

/-!
# The oracle and the training of the easy-first parser

A model of the rest of `dependency-parsing/easy-first.lisp`.  In training, an action
is carried out if the oracle allows it.  Otherwise the weights are changed and nothing
else happens in this turn.  An attachment is allowed if it is in the gold tree and the
source has got all its children.  A move is allowed if it makes a parent and a child
neighbours.  The source also looks for pending children of the node that moves, but
throws away what it finds (`oracleNoChildrenP`).

When the oracle allows nothing, the training stops with the error `no allowed
actions!`.  It is kept apart from all other errors here (`Stop`).  The loop need not
end, so it has fuel.
-/

namespace Hachee.DependencyParsing.EasyFirst

open Lisp

/-! ## The oracle -/

structure Oracle where
  goldArcList : List Arc

/-- `is-arc-of`; both keywords may be left out. -/
def isArcOf (source target : Option Node) (arc : Arc) : Bool :=
  source.all (fun v => arc.source = v) && target.all (fun v => arc.target = v)

/-- `oracle-gold-attach-p` -/
def oracleGoldAttachP (oracle : Oracle) (c p : Node) : Bool :=
  oracle.goldArcList.any (isArcOf (some c) (some p))

/-- `oracle-attach-to-child-finished-p` -/
def oracleAttachToChildFinishedP (oracle : Oracle) (child : Node) (attachedArcList : List Arc) :
    Bool :=
  let grandchildren := (oracle.goldArcList.filter (isArcOf none (some child))).map Arc.source
  grandchildren.all fun grandchild => attachedArcList.any (isArcOf (some grandchild) (some child))

/-- `oracle-valid-attach-p` -/
def oracleValidAttachP (oracle : Oracle) (c p : Node) (attachedArcList : List Arc) : Bool :=
  oracleGoldAttachP oracle c p && oracleAttachToChildFinishedP oracle c attachedArcList

/-- `oracle-allowed-attaches` -/
def oracleAllowedAttaches (oracle : Oracle) (configuration : Configuration) :
    Option (List Action) :=
  let pairs := (neighbours configuration.pendings).flatMap fun (v1, v2) => [(v1, v2), (v2, v1)]
  (pairs.filter fun (c, p) => oracleValidAttachP oracle c p configuration.arcs).mapM
    fun (c, p) => makeAttach c p

/-- `oracle-valid-move-p`; the first of the pending nodes does not count as a neighbour. -/
def oracleValidMoveP (oracle : Oracle) (i : Nat) (pendings : List Node) : Bool :=
  match pendings[i]?, pendings[i + 1]? with
  | some vLeft, some vRight =>
      let vLeftLeft := if 1 < i then pendings[i - 1]? else none
      let vRightRight := pendings[i + 2]?
      let isGold := oracleGoldAttachP oracle
      decide (vLeft < vRight) && decide (vLeft ≠ root) &&
        (vLeftLeft.any (fun v => isGold vRight v) ||
          vLeftLeft.any (fun v => isGold v vRight) ||
          vRightRight.any (fun v => isGold vLeft v) ||
          vRightRight.any (fun v => isGold v vLeft))
  | _, _ => false

/-- `oracle-no-children-p`.  The `return` of the source leaves its loop and not the function,
which goes on to its last value. -/
def oracleNoChildrenP (oracle : Oracle) (v : Node) (pendings : List Node) : Bool :=
  let children := pendings.filter fun child => child ≠ v
  let _loop := children.find? fun child => oracleGoldAttachP oracle child v
  true

/-- The nodes that may change places. -/
def allowedPairs (oracle : Oracle) (pendings : List Node) : List (Node × Node) :=
  (List.range pendings.length).filterMap fun i => do
    let v ← pendings[i]?
    let next ← pendings[i + 1]?
    if oracleNoChildrenP oracle v pendings && oracleValidMoveP oracle i pendings then
      some (v, next)
    else none

/-- `oracle-allowed-moves` -/
def oracleAllowedMoves (oracle : Oracle) (configuration : Configuration) : Option (List Action) :=
  (allowedPairs oracle configuration.pendings).mapM fun (v, next) => makeMove v next

/-! ## Scores -/

structure Scorer where
  weights : Table String Int
  featureStringExtractor : Configuration → Action → List String

/-- `inchash` -/
def inchash (key : String) (hash : Table String Int) (delta : Int) : Table String Int :=
  hash.puthash key ((hash.gethash key).getD 0 + delta)

/-- `scorer-update-weights!`; the number of the root stands for `-1`. -/
def scorerUpdateWeights (scorer : Scorer) (configuration : Configuration)
    (goodAction choiceAction : Action) : Scorer :=
  let goodFeatures := scorer.featureStringExtractor configuration goodAction
  let choiceFeatures := scorer.featureStringExtractor configuration choiceAction
  let weights := goodFeatures.foldl (fun weights key => inchash key weights 1) scorer.weights
  let weights := choiceFeatures.foldl (fun weights key => inchash key weights root) weights
  { scorer with weights := weights }

/-- `scorer-action-score` -/
def scorerActionScore (scorer : Scorer) (action : Action) (configuration : Configuration) : Int :=
  ((scorer.featureStringExtractor configuration action).map fun str =>
    (scorer.weights.gethash str).getD 0).sum

/-- `select-in` -/
def selectIn (sorting : DescendingSort Int) (actions : List Action)
    (configuration : Configuration) (scorer : Scorer) : Option Action :=
  let scores := actions.map fun action => scorerActionScore scorer action configuration
  let actionScoreAlist := sorting.sort Prod.snd (actions.zip scores)
  actionScoreAlist.head?.map Prod.fst

/-- `select` -/
def select (sorting : DescendingSort Int) (configuration : Configuration) (scorer : Scorer) :
    Option Action := do
  let actions ← collectActions configuration
  selectIn sorting actions configuration scorer

/-! ## Training -/

/-- Why the training does not come to its end. -/
inductive Stop where
  /-- `(error "no allowed actions!")` -/
  | noAllowedActions
  | otherError
  | outOfFuel
deriving DecidableEq, Repr

def orStop {α : Type} : Option α → Except Stop α
  | some a => .ok a
  | none => .error .otherError

/-- What goes on after a result that may be an error has the result. -/
theorem orStop_bind_eq {α β : Type} {x : Option α} {f : α → Except Stop β} {y : Except Stop β}
    (h : (orStop x >>= f) = y) (hy : y ≠ .error .otherError) : ∃ a, x = some a ∧ f a = y := by
  cases x with
  | none => exact absurd h.symm hy
  | some a => exact ⟨a, rfl, h⟩

/-- The function that `make-action-fn-updating-score!` makes.  All allowed attachments are
attachments and all allowed moves are moves, so `attach=` and `move=` are equality here. -/
def actionFnUpdatingScore (sorting : DescendingSort Int) (oracle : Oracle) (scorer : Scorer)
    (configuration : Configuration) : Except Stop (Action × Scorer) := do
  let allowedMoves ← orStop (oracleAllowedMoves oracle configuration)
  let allowedAttaches ← orStop (oracleAllowedAttaches oracle configuration)
  if allowedAttaches = [] ∧ allowedMoves = [] then .error .noAllowedActions
  else do
    let choice ← orStop (select sorting configuration scorer)
    if choice ∈ allowedAttaches ∨ choice ∈ allowedMoves then .ok (choice, scorer)
    else do
      let allowed := if allowedAttaches ≠ [] then allowedAttaches else allowedMoves
      let good ← orStop (selectIn sorting allowed configuration scorer)
      .ok (.nop, scorerUpdateWeights scorer configuration good choice)

/-- `find-root` -/
def findRoot (arcs : List Arc) : Option Node :=
  let sources := arcs.map Arc.source
  let targets := arcs.map Arc.target
  targets.find? fun node => node ∉ sources

/-- `transit-collecting-actions`, with the scorer that the action function changes. -/
def transitCollectingActions
    (actionFn : Scorer → Configuration → Except Stop (Action × Scorer)) :
    Nat → Scorer → Configuration → Except Stop (List Action × Scorer)
  | 0, _, _ => .error .outOfFuel
  | fuel + 1, scorer, configuration => do
      if ← orStop (terminatedP configuration) then .ok ([], scorer)
      else do
        let _ ← orStop (collectActions configuration)
        let (action, scorer) ← actionFn scorer configuration
        let nextConfiguration ← orStop (transitioned configuration action)
        let (actions, scorer) ←
          transitCollectingActions actionFn fuel scorer nextConfiguration
        .ok (action :: actions, scorer)

/-- The oracle of `train!`, with the arc from the root of the gold tree. -/
def trainingOracle (goldArcList : List Arc) (goldRoot : Node) : Oracle :=
  { goldArcList := { source := goldRoot, target := root } :: goldArcList }

/-- `train!`.  Without a root of the gold tree, the source of the first gold arc is `nil`.
It is compared with a node in the first turn, which is an error. -/
def train (sorting : DescendingSort Int) (fuel : Nat) (nodes : List Node)
    (goldArcList : List Arc) (scorer : Scorer) : Except Stop (List Action × Scorer) := do
  orStop (assertNodes nodes)
  let actionFn :=
    match findRoot goldArcList with
    | some goldRoot => actionFnUpdatingScore sorting (trainingOracle goldArcList goldRoot)
    | none => fun _ _ => .error .otherError
  transitCollectingActions actionFn fuel scorer (initialConfiguration nodes)

end Hachee.DependencyParsing.EasyFirst
