import Hachee.Lisp.Sequence
import Mathlib.Algebra.Order.Ring.Defs

/-!
# The Chu-Liu-Edmonds algorithm

A model of `algorithm/chu-liu-edmonds.lisp`.  Vertices are integers, `0` is the root,
and `-1` stands for "no vertex" and "no score", as in the source.  Scores are exact
numbers, here the elements of an ordered ring.

The score table is changed by `solve` and by its recursive call, so it is passed on as
a state.  The other tables are made anew.  The table of a cycle is traversed, so it is
modelled by its entries; the order in which a traversal meets its keys is up to the
implementation, and `order` is the parameter that says what it is.

The loops along the best edges and the recursion need not end by themselves, so they
take fuel.  As before, `none` is a signalled error, or the end of the fuel.  An entry
that is missing in one of the last two tables would put `nil` into an edge; it counts
as an error here.
-/

namespace Hachee.Algorithm.ChuLiuEdmonds

open Lisp

abbrev Vertex := Int

/-- `(list start end)` -/
abbrev Edge := Vertex × Vertex

section Scores

variable {R : Type}

abbrev ScoreHash (R : Type) := HashTable Edge R

/-- `get-score` -/
def getScore (scoreHash : ScoreHash R) (i j : Vertex) : Option R := scoreHash.gethash (i, j)

/-- `(setf get-score)` -/
def setScore (score : R) (scoreHash : ScoreHash R) (i j : Vertex) : ScoreHash R :=
  scoreHash.puthash (i, j) score

theorem getScore_setScore (score : R) (scoreHash : ScoreHash R) (i j u v : Vertex) :
    getScore (setScore score scoreHash i j) u v =
      if u = i ∧ v = j then some score else getScore scoreHash u v := by
  rw [getScore, setScore, HashTable.gethash_puthash]
  simp only [Prod.mk.injEq, getScore]

end Scores

/-- `(aref front i)` -/
def aref (front : List Vertex) (i : Vertex) : Option Vertex :=
  if 0 ≤ i then front[i.toNat]? else none

/-- `(setf (aref front i) v)` -/
def setAref (front : List Vertex) (i v : Vertex) : Option (List Vertex) :=
  if 0 ≤ i ∧ i.toNat < front.length then some (front.set i.toNat v) else none

/-! ## The cycle among the best edges -/

/-- The entries of a hash table with the keys `start` and the values `end`. -/
abbrev Cycle := List Edge

/-- `(setf (gethash key cycle) value)` -/
def putEntry (cycle : Cycle) (key value : Vertex) : Cycle :=
  (key, value) :: cycle.filter fun entry => entry.1 ≠ key

/-- The loop that collects the cycle through `l`. -/
def collectCycle (front : List Vertex) (l : Vertex) : Nat → Vertex → Cycle → Option Cycle
  | 0, _, _ => none
  | fuel + 1, l₁, cycle => do
      let parent ← aref front l₁
      let cycle := putEntry cycle parent l₁
      if l₁ = l then some cycle else collectCycle front l fuel parent cycle

/-- The loop from a vertex to its parents: the cycle it finds, or `nil`, and the
vertices checked after it. -/
def followParents (front : List Vertex) (cycleFuel : Nat) :
    Nat → Vertex → List Vertex → List Vertex → Option (Option Cycle × List Vertex)
  | 0, _, _, _ => none
  | fuel + 1, l, maybeCycleVertices, checkedVertices =>
      if l ∈ maybeCycleVertices then do
        let parent ← aref front l
        let cycle ← collectCycle front l cycleFuel parent []
        some (some cycle, checkedVertices)
      else do
        let parent ← aref front l
        if parent = -1 ∨ l ∈ checkedVertices then some (none, checkedVertices)
        else
          followParents front cycleFuel fuel parent (l :: maybeCycleVertices)
            (l :: checkedVertices)

/-- The loop over the current vertices while no cycle is found. -/
def findCycle (front : List Vertex) (fuel : Nat) :
    List Vertex → List Vertex → Option (Option Cycle)
  | [], _ => some none
  | i :: rest, checkedVertices =>
      if i ∈ checkedVertices then findCycle front fuel rest checkedVertices
      else do
        let (cycle, checkedVertices) ← followParents front fuel fuel i [] checkedVertices
        match cycle with
        | some cycle => some (some cycle)
        | none => findCycle front fuel rest checkedVertices

/-- The vertices without those of the cycle, except the one that stands for them. -/
def removeCycle (cycleVertices : List Vertex) (representing : Vertex)
    (currentVertices : List Vertex) : List Vertex :=
  cycleVertices.foldl (fun current vertex =>
    if vertex ≠ representing then current.filter (· ≠ vertex) else current) currentVertices

/-! ## The best edges -/

variable {R : Type} [Ring R] [LinearOrder R]

/-- One turn of the loop over the edges that enter `i`. -/
def compareEdge (scoreHash : ScoreHash R) (i : Vertex) (state : R × List Vertex) (j : Vertex) :
    Option (R × List Vertex) :=
  if j ≠ i then
    match getScore scoreHash j i with
    | some score =>
        if state.1 < score then do
          let front ← setAref state.2 i j
          some (score, front)
        else some state
    | none => some state
  else some state

/-- One turn of the loop that fills the array of the best edges. -/
def bestEdge (scoreHash : ScoreHash R) (currentVertices : List Vertex) (front : List Vertex)
    (i : Vertex) : Option (List Vertex) :=
  if i ≠ 0 then do
    let (_, front) ← currentVertices.foldlM (compareEdge scoreHash i) (-1, front)
    some front
  else some front

/-- The array of the best edges: the start of the best edge that enters a vertex. -/
def bestFront (numVertices : Nat) (scoreHash : ScoreHash R) (currentVertices : List Vertex) :
    Option (List Vertex) :=
  currentVertices.foldlM (bestEdge scoreHash currentVertices) (List.replicate numVertices (-1))

/-! ## Contraction -/

/-- The sum of the scores of the cycle. -/
def sumCycle (scoreHash : ScoreHash R) (front cycleVertices : List Vertex) : Option R :=
  cycleVertices.foldlM (fun sum i => do
    let parent ← aref front i
    let score ← getScore scoreHash parent i
    some (sum + score)) 0

/-- The variables of the loop over the edges between a vertex and the cycle. -/
structure Crossing (R : Type) where
  maxDepartureScore : R
  maxArrivalScore : R
  realDepartureVertex : Vertex
  realArrivalVertex : Vertex

/-- The edge that leaves the cycle at `j` for `i`. -/
def compareDeparture (scoreHash : ScoreHash R) (i : Vertex) (crossing : Crossing R) (j : Vertex) :
    Crossing R :=
  match getScore scoreHash j i with
  | some departureScore =>
      if crossing.maxDepartureScore < departureScore then
        { crossing with maxDepartureScore := departureScore, realDepartureVertex := j }
      else crossing
  | none => crossing

/-- The edge from `i` that enters the cycle at `j`. -/
def compareArrival (scoreHash : ScoreHash R) (front : List Vertex) (cycleWeight : R)
    (i : Vertex) (crossing : Crossing R) (j : Vertex) : Option (Crossing R) :=
  match getScore scoreHash i j with
  | some inScore => do
      let parent ← aref front j
      let score ← getScore scoreHash parent j
      let arrivalScore := cycleWeight + inScore + -score
      some (if crossing.maxArrivalScore < arrivalScore then
        { crossing with maxArrivalScore := arrivalScore, realArrivalVertex := j }
        else crossing)
  | none => some crossing

/-- The loop over the edges between `i` and the cycle. -/
def bestCrossing (scoreHash : ScoreHash R) (front : List Vertex) (cycleWeight : R)
    (cycleVertices : List Vertex) (i : Vertex) : Option (Crossing R) :=
  cycleVertices.foldlM (fun crossing j =>
    compareArrival scoreHash front cycleWeight i (compareDeparture scoreHash i crossing j) j)
    { maxDepartureScore := -1, maxArrivalScore := -1,
      realDepartureVertex := -1, realArrivalVertex := -1 }

/-- The tables that the contraction of a cycle changes. -/
structure Tables (R : Type) where
  scoreHash : ScoreHash R
  realDepartureVertices : HashTable Vertex Vertex
  realArrivalVertices : HashTable Vertex Vertex

/-- The edge from the cycle to `i` becomes one from the representing vertex. -/
def noteDeparture (representing i : Vertex) (crossing : Crossing R) (tables : Tables R) :
    Tables R :=
  if -1 < crossing.maxDepartureScore then
    { tables with
      scoreHash := setScore crossing.maxDepartureScore tables.scoreHash representing i
      realDepartureVertices :=
        tables.realDepartureVertices.puthash i crossing.realDepartureVertex }
  else tables

/-- The edge from `i` into the cycle becomes one to the representing vertex. -/
def noteArrival (representing i : Vertex) (crossing : Crossing R) (tables : Tables R) :
    Tables R :=
  if -1 < crossing.maxArrivalScore then
    { tables with
      scoreHash := setScore crossing.maxArrivalScore tables.scoreHash i representing
      realArrivalVertices := tables.realArrivalVertices.puthash i crossing.realArrivalVertex }
  else tables

/-- One turn of the loop that computes the scores of the contracted graph. -/
def contractVertex (front : List Vertex) (cycleWeight : R) (cycleVertices : List Vertex)
    (representing : Vertex) (tables : Tables R) (i : Vertex) : Option (Tables R) :=
  if i ∈ cycleVertices then some tables
  else do
    let crossing ← bestCrossing tables.scoreHash front cycleWeight cycleVertices i
    some (noteArrival representing i crossing (noteDeparture representing i crossing tables))

/-- The loop that computes the scores of the contracted graph. -/
def contract (scoreHash : ScoreHash R) (front : List Vertex) (cycleWeight : R)
    (cycleVertices : List Vertex) (representing : Vertex) (currentVertices : List Vertex) :
    Option (Tables R) :=
  currentVertices.foldlM (contractVertex front cycleWeight cycleVertices representing)
    { scoreHash := scoreHash, realDepartureVertices := HashTable.empty,
      realArrivalVertices := HashTable.empty }

/-! ## Expansion -/

/-- The edge that an edge of the contracted graph stands for. -/
def expandEdge (representing : Vertex) (tables : Tables R) (edge : Edge) : Option Edge := do
  let (start, stop) := edge
  let start ←
    if start = representing then tables.realDepartureVertices.gethash stop else some start
  let stop ←
    if stop = representing then tables.realArrivalVertices.gethash start else some stop
  some (start, stop)

/-- The edges of the contracted graph, expanded. -/
def expandEdges (representing : Vertex) (tables : Tables R) (edges : List Edge) :
    Option (List Edge) :=
  edges.foldlM (fun finalEdges edge => do
    let edge ← expandEdge representing tables edge
    some (edge :: finalEdges)) []

/-- The edges of the cycle whose ends have no other edge. -/
def addCycleEdges (front cycleVertices : List Vertex) (finalEdges : List Edge) :
    Option (List Edge) :=
  cycleVertices.foldlM (fun finalEdges i =>
    if i ∈ finalEdges.map Prod.snd then some finalEdges
    else do
      let parent ← aref front i
      some ((parent, i) :: finalEdges)) finalEdges

/-- The cycle without its worst edge, when nothing else is left. -/
def breakCycle (order : List Vertex → List Vertex) (scoreHash : ScoreHash R) (cycle : Cycle) :
    Option (List Edge) := do
  let entries := (order (cycle.map Prod.fst)).filterMap fun start =>
    (cycle.lookup start).map fun stop => (start, stop)
  let (_, minScoreEdgeStart) ← entries.foldlM (fun (state : R × Vertex) entry => do
    let score ← getScore scoreHash entry.1 entry.2
    some (if state.2 = -1 ∨ score < state.1 then (score, entry.1) else state)) (0, -1)
  some (entries.foldl (fun finalEdges entry =>
    if entry.1 ≠ minScoreEdgeStart then entry :: finalEdges else finalEdges) [])

/-! ## The algorithm -/

/-- `solve` -/
def solve (order : List Vertex → List Vertex) (numVertices : Nat) :
    Nat → ScoreHash R → List Vertex → Option (List Edge × ScoreHash R)
  | 0, _, _ => none
  | fuel + 1, scoreHash, currentVertices => do
      let front ← bestFront numVertices scoreHash currentVertices
      let maybeCycle ← findCycle front (fuel + 1) currentVertices []
      match maybeCycle with
      | none => do
          let edges ← currentVertices.mapM fun i => do
            let parent ← aref front i
            some (parent, i)
          some (edges.filter fun edge => edge.1 ≠ -1, scoreHash)
      | some cycle => do
          let cycleVertices := order (cycle.map Prod.fst)
          let cycleWeight ← sumCycle scoreHash front cycleVertices
          let representing ← cycleVertices.head?
          let tables ← contract scoreHash front cycleWeight cycleVertices representing
            currentVertices
          let currentVertices := removeCycle cycleVertices representing currentVertices
          let (edges, scoreHash) ← solve order numVertices fuel tables.scoreHash currentVertices
          if edges = [] then do
            let finalEdges ← breakCycle order scoreHash cycle
            some (finalEdges, scoreHash)
          else do
            let finalEdges ← expandEdges representing tables edges
            let finalEdges ← addCycleEdges front cycleVertices finalEdges
            some (finalEdges, scoreHash)

end Hachee.Algorithm.ChuLiuEdmonds
