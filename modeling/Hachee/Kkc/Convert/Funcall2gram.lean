import Hachee.Kkc.Convert.Best2gram

/-!
# The bigram converter and the functions it calls

`Viterbi2gram` takes the score function and the listing of the entries as
functions that always return.  In the source they are function objects.  A call
signals an error when the function does, and when it is called with another
number of arguments than it takes.  Here the converter is given such functions.

Where the calls for the substrings and for adjacent nodes return, it is the converter
of `Viterbi2gram` (`execute_eq_of_adjacent`).  Where no call of the score function
does, it signals an error (`execute_eq_none`).
-/

namespace Hachee.Kkc.Convert.Funcall2gram

open Lisp Foundation
open Viterbi2gram (Node endTable endNode backtrack)

variable {ε G : Type}

/-- A score function, as `funcall` sees it: what it returns for a list of arguments. -/
abbrev ScoreFn (ε G : Type) := List ε → Option G

/-- `compute-score`. -/
def computeScore (scoreFn : ScoreFn ε G) (entry prevEntry : ε) : Option G :=
  scoreFn [entry, prevEntry]

section Definitions

variable [AddCommGroup G] [LinearOrder G]

/-- The body of the loops of `connect-by-max-score`. -/
def connect (scoreFn : ScoreFn ε G) (heap : List (Node ε G)) (node prevNode : Nat) :
    Option (List (Node ε G)) := do
  let p ← heap[prevNode]?
  let prevScoreSoFar ← p.scoreSoFar
  let n ← heap[node]?
  let score ← computeScore scoreFn n.entry p.entry
  let scoreSoFar := prevScoreSoFar + score
  if betterP n.scoreSoFar scoreSoFar then
    return heap.set node { n with prevNode := some prevNode, scoreSoFar := some scoreSoFar }
  else return heap

/-- `connect-by-max-score`. -/
def connectByMaxScore (scoreFn : ScoreFn ε G) (nodes prevNodes : List Nat)
    (heap : List (Node ε G)) : Option (List (Node ε G)) :=
  if prevNodes = [] then some heap
  else
    nodes.foldlM
      (fun heap node => prevNodes.foldlM (fun heap prevNode => connect scoreFn heap node prevNode)
        heap)
      heap

/-- The dynamic programming. -/
def dp (scoreFn : ScoreFn ε G) (length : Nat) (lattice : Lattice (Node ε G)) :
    Option (List (Node ε G)) :=
  (List.range' 1 (length + 1)).foldlM
    (fun heap (stop : Nat) =>
      (lattice.groups stop).foldlM
        (fun heap (start, nodes) =>
          (lattice.groups start).foldlM
            (fun heap (_, prevNodes) => connectByMaxScore scoreFn nodes prevNodes heap)
            heap)
        heap)
    lattice.heap

/-- The loop that creates the table. -/
def createNodes {ν : Type} (makeNode : ε → ν) (listEntriesFn : Str → Option (List ε))
    (firstBoundaryIndex : Option Nat) (pronunciation : Str) (lattice : Lattice ν) :
    Option (Lattice ν) :=
  (List.range' 1 pronunciation.length).foldlM
    (fun lattice stop =>
      (List.range stop).foldlM
        (fun lattice start =>
          if boundaryP firstBoundaryIndex start stop then do
            let subPron ← subseq pronunciation start stop
            let entries ← listEntriesFn subPron
            return lattice.push start stop (entries.map makeNode)
          else return lattice)
        lattice)
    lattice

/-- `execute`. -/
def execute (pronunciation : Str) (beginEntry endEntry : ε) (scoreFn : ScoreFn ε G)
    (listEntriesFn : Str → Option (List ε)) (firstBoundaryIndex : Option Nat) :
    Option (List ε × Node ε G × Lattice (Node ε G)) := do
  let length := pronunciation.length
  let lattice ← createNodes (fun ent => { entry := ent }) listEntriesFn
    (clipBoundaryIndex firstBoundaryIndex) pronunciation (endTable beginEntry endEntry length)
  let heap ← dp scoreFn length lattice
  let node ← heap[endNode]?
  let prevNode ← node.prevNode
  let refs ← backtrack heap (length + 1) prevNode []
  let nodes ← refs.mapM fun ref => heap[ref]?
  return (nodes.map Node.entry, node, { lattice with heap })

end Definitions

/-! ## Calls that return -/

section Returning

variable [AddCommGroup G] [LinearOrder G] {scoreFn : ScoreFn ε G} {score : ε → ε → G}

/-- The score function returns the score of the two nodes. -/
def Returns (scoreFn : ScoreFn ε G) (score : ε → ε → G) (heap : List (Node ε G))
    (node prevNode : Nat) : Prop :=
  ∀ n p, heap[node]? = some n → heap[prevNode]? = some p →
    scoreFn [n.entry, p.entry] = some (score n.entry p.entry)

omit [AddCommGroup G] [LinearOrder G] in
/-- The scores depend on the entries only, and connections leave these as they are. -/
theorem Returns.of_map_entry {heap heap' : List (Node ε G)} {node prevNode : Nat}
    (h : Returns scoreFn score heap node prevNode)
    (hsame : heap'.map Node.entry = heap.map Node.entry) :
    Returns scoreFn score heap' node prevNode := by
  have hentry : ∀ (ref : Nat) (n' : Node ε G), heap'[ref]? = some n' →
      ∃ n, heap[ref]? = some n ∧ n.entry = n'.entry := by
    intro ref n' hn'
    have hget := congrArg (·[ref]?) hsame
    simp only [List.getElem?_map, hn', Option.map_some] at hget
    exact Option.map_eq_some_iff.mp hget.symm
  intro n' p' hn' hp'
  obtain ⟨n, hn, hnEntry⟩ := hentry node n' hn'
  obtain ⟨p, hp, hpEntry⟩ := hentry prevNode p' hp'
  rw [← hnEntry, ← hpEntry]
  exact h n p hn hp

/-- One connection. -/
theorem connect_eq {heap : List (Node ε G)} {node prevNode : Nat}
    (hscore : Returns scoreFn score heap node prevNode) :
    connect scoreFn heap node prevNode = Viterbi2gram.connect score heap node prevNode ∧
      ∀ heap', Viterbi2gram.connect score heap node prevNode = some heap' →
        heap'.map Node.entry = heap.map Node.entry := by
  simp only [connect, Viterbi2gram.connect]
  cases hp : heap[prevNode]? with
  | none => exact ⟨rfl, fun heap' h => by cases h⟩
  | some p =>
      cases hs : p.scoreSoFar with
      | none => simp [hs]
      | some prevScoreSoFar =>
          cases hn : heap[node]? with
          | none => simp
          | some n =>
              simp only [hs, computeScore, hscore n p hn hp, Viterbi2gram.computeScore,
                Option.bind_eq_bind, Option.bind_some]
              refine ⟨rfl, fun heap' h => ?_⟩
              rcases ite_inv h with ⟨-, h⟩ | ⟨-, h⟩
              · obtain ⟨hlt, hget⟩ := List.getElem?_eq_some_iff.mp hn
                have hlt' : node < (heap.map Node.entry).length := by rwa [List.length_map]
                have hentry : n.entry = (heap.map Node.entry)[node] := by
                  rw [List.getElem_map, hget]
                rw [← Option.some.inj h, List.map_set]
                change (heap.map Node.entry).set node n.entry = _
                rw [hentry, List.set_getElem_self]
              · rw [← Option.some.inj h]

/-- All connections of the nodes. -/
theorem connectByMaxScore_eq {heap₀ heap : List (Node ε G)} {nodes prevNodes : List Nat}
    (hscore : ∀ node ∈ nodes, ∀ prevNode ∈ prevNodes, Returns scoreFn score heap₀ node prevNode)
    (hheap : heap.map Node.entry = heap₀.map Node.entry) :
    connectByMaxScore scoreFn nodes prevNodes heap =
        Viterbi2gram.connectByMaxScore score nodes prevNodes heap ∧
      ∀ heap', Viterbi2gram.connectByMaxScore score nodes prevNodes heap = some heap' →
        heap'.map Node.entry = heap₀.map Node.entry := by
  unfold connectByMaxScore Viterbi2gram.connectByMaxScore
  split
  next =>
    refine ⟨rfl, fun heap' h => ?_⟩
    rw [← Option.some.inj h]
    exact hheap
  next =>
    refine Loop.foldlM_congr (fun node hnode heap hheap => ?_) hheap
    refine Loop.foldlM_congr (fun prevNode hprev heap hheap => ?_) hheap
    obtain ⟨heq, hkeep⟩ := connect_eq ((hscore node hnode prevNode hprev).of_map_entry hheap)
    exact ⟨heq, fun heap' h => (hkeep heap' h).trans hheap⟩

/-- The dynamic programming calls the score function for adjacent nodes only. -/
theorem dp_eq (length : Nat) {lattice : Lattice (Node ε G)}
    (hscore : ∀ start middle stop prevNode node, lattice.Cell start middle prevNode →
      lattice.Cell middle stop node → Returns scoreFn score lattice.heap node prevNode) :
    dp scoreFn length lattice = Viterbi2gram.dp score length lattice := by
  refine (Loop.foldlM_congr (I := fun heap : List (Node ε G) =>
    heap.map Node.entry = lattice.heap.map Node.entry) (fun stop _ heap hheap => ?_) rfl).1
  refine Loop.foldlM_congr (fun group hgroup heap hheap => ?_) hheap
  refine Loop.foldlM_congr (fun prev hprev heap hheap => ?_) hheap
  exact connectByMaxScore_eq (fun node hnode prevNode hprevNode => hscore prev.1 group.1 stop
    prevNode node ⟨prev.2, hprev, hprevNode⟩ ⟨group.2, hgroup, hnode⟩) hheap

omit [AddCommGroup G] [LinearOrder G] in
/-- The substrings that the loop cuts out. -/
theorem substring_of_lt (pronunciation : Str) {start stop : Nat} (hstart : start < stop)
    (hstop : stop ≤ pronunciation.length) :
    (pronunciation.take stop).drop start <:+: pronunciation ∧
      (pronunciation.take stop).drop start ≠ [] := by
  constructor
  · exact (List.drop_suffix _ _).isInfix.trans (List.take_prefix _ _).isInfix
  · have hlen : ((pronunciation.take stop).drop start).length = stop - start :=
      length_drop_take hstop
    intro hnil
    rw [hnil, List.length_nil] at hlen
    omega

omit [AddCommGroup G] [LinearOrder G] in
/-- The table is the same when the entries of all substrings are there. -/
theorem createNodes_eq {ν : Type} {makeNode : ε → ν} {listEntriesFn : Str → Option (List ε)}
    {entries : Str → List ε} {pronunciation : Str}
    (hlist : ∀ subPron, subPron <:+: pronunciation → subPron ≠ [] →
      listEntriesFn subPron = some (entries subPron))
    (firstBoundaryIndex : Option Nat) (lattice : Lattice ν) :
    createNodes makeNode listEntriesFn firstBoundaryIndex pronunciation lattice =
      Convert.createNodes makeNode entries firstBoundaryIndex pronunciation lattice := by
  refine (Loop.foldlM_congr (I := fun _ => True) (fun stop hstop lattice _ => ?_) trivial).1
  refine Loop.foldlM_congr (fun start hstart lattice _ => ?_) trivial
  rw [List.mem_range'_1] at hstop
  rw [List.mem_range] at hstart
  obtain ⟨hsub, hne⟩ := substring_of_lt pronunciation hstart (by omega)
  refine ⟨?_, fun _ _ => trivial⟩
  simp only [subseq_of_le (s := pronunciation) (Nat.le_of_lt hstart) (by omega),
    hlist _ hsub hne, Option.bind_eq_bind, Option.bind_some]

/-- The converter is that of `Viterbi2gram` when the entries of all substrings and the
scores of adjacent nodes are there. -/
theorem execute_eq_of_adjacent {listEntriesFn : Str → Option (List ε)} {entries : Str → List ε}
    {pronunciation : Str} {beginEntry endEntry : ε} {firstBoundaryIndex : Option Nat}
    (hlist : ∀ subPron, subPron <:+: pronunciation → subPron ≠ [] →
      listEntriesFn subPron = some (entries subPron))
    (hscore : ∀ lattice, Convert.createNodes (fun ent => { entry := ent }) entries
        (clipBoundaryIndex firstBoundaryIndex) pronunciation
        (endTable beginEntry endEntry pronunciation.length) = some lattice →
      ∀ start middle stop prevNode node, lattice.Cell start middle prevNode →
        lattice.Cell middle stop node → Returns scoreFn score lattice.heap node prevNode) :
    execute pronunciation beginEntry endEntry scoreFn listEntriesFn firstBoundaryIndex =
      Viterbi2gram.execute pronunciation beginEntry endEntry score entries firstBoundaryIndex := by
  simp only [execute, Viterbi2gram.execute, createNodes_eq hlist]
  cases hlattice : Convert.createNodes (fun ent => ({ entry := ent } : Node ε G)) entries
      (clipBoundaryIndex firstBoundaryIndex) pronunciation
      (endTable beginEntry endEntry pronunciation.length) with
  | none => rfl
  | some lattice =>
      simp only [Option.bind_eq_bind, Option.bind_some, dp_eq _ (hscore lattice hlattice)]

/-- In particular when the scores of all good entries are there. -/
theorem execute_eq {Good : ε → Prop}
    (hscore : ∀ e p, Good e → Good p → scoreFn [e, p] = some (score e p))
    {listEntriesFn : Str → Option (List ε)} {entries : Str → List ε} {pronunciation : Str}
    (hlist : ∀ subPron, subPron <:+: pronunciation → subPron ≠ [] →
      listEntriesFn subPron = some (entries subPron) ∧ ∀ e ∈ entries subPron, Good e)
    {beginEntry endEntry : ε} (hbegin : Good beginEntry) (hend : Good endEntry)
    (firstBoundaryIndex : Option Nat) :
    execute pronunciation beginEntry endEntry scoreFn listEntriesFn firstBoundaryIndex =
      Viterbi2gram.execute pronunciation beginEntry endEntry score entries firstBoundaryIndex := by
  refine execute_eq_of_adjacent (fun subPron hsub hne => (hlist subPron hsub hne).1) ?_
  intro lattice hcreate start middle stop prevNode node hprevCell hcell n p hn hp
  have hgood : ∀ {start stop : Int} {ref : Nat} {n : Node ε G}, lattice.Cell start stop ref →
      lattice.heap[ref]? = some n → Good n.entry := by
    intro start stop ref n hcell hn
    rcases Viterbi2gram.createNodes_cases hcreate hcell with ⟨-, -, hnode⟩ | ⟨-, -, hnode⟩ |
      ⟨i, j, entry, -, -, hij, hj, hentry, hnode⟩
    · rw [Option.some.inj (hn.symm.trans hnode)]
      exact hbegin
    · rw [Option.some.inj (hn.symm.trans hnode)]
      exact hend
    · rw [Option.some.inj (hn.symm.trans hnode)]
      obtain ⟨hsub, hne⟩ := substring_of_lt pronunciation hij hj
      exact (hlist _ hsub hne).2 entry hentry
  exact hscore _ _ (hgood hcell hn) (hgood hprevCell hp)

end Returning

/-! ## Calls that signal an error -/

section Failing

variable [AddCommGroup G] [LinearOrder G] {scoreFn : ScoreFn ε G}

/-- No node is connected when the score function cannot be called with two arguments. -/
theorem dp_of_no_score (hscore : ∀ e p, scoreFn [e, p] = none) {length : Nat}
    {lattice : Lattice (Node ε G)} {heap : List (Node ε G)}
    (h : dp scoreFn length lattice = some heap) : heap = lattice.heap := by
  have hconnect : ∀ (node prevNode : Nat) (s s' : List (Node ε G)), s = lattice.heap →
      connect scoreFn s node prevNode = some s' → s' = lattice.heap := by
    intro node prevNode s s' _ hs
    obtain ⟨p, -, hs⟩ := bind_inv hs
    obtain ⟨u, -, hs⟩ := bind_inv hs
    obtain ⟨n, -, hs⟩ := bind_inv hs
    obtain ⟨score, hcall, -⟩ := bind_inv hs
    rw [computeScore, hscore] at hcall
    cases hcall
  refine Loop.foldlM_invariant (· = lattice.heap) (fun stop _ s s' hs h => ?_) rfl h
  refine Loop.foldlM_invariant (· = lattice.heap) (fun group _ s s' hs h => ?_) hs h
  refine Loop.foldlM_invariant (· = lattice.heap) (fun prev _ s s' hs h => ?_) hs h
  rcases ite_inv h with ⟨-, h⟩ | ⟨-, h⟩
  · rw [← Option.some.inj h]
    exact hs
  · refine Loop.foldlM_invariant (· = lattice.heap) (fun node _ s s' hs h => ?_) hs h
    exact Loop.foldlM_invariant (· = lattice.heap) (fun prevNode _ s s' hs h =>
      hconnect node prevNode s s' hs h) hs h

omit [AddCommGroup G] [LinearOrder G] in
/-- The end node stays as it was made while the table is filled. -/
theorem createNodes_endNode {listEntriesFn : Str → Option (List ε)}
    {firstBoundaryIndex : Option Nat} {pronunciation : Str} {lattice lattice' : Lattice (Node ε G)}
    {node : Node ε G} (hnode : lattice.heap[endNode]? = some node)
    (h : createNodes (fun ent => { entry := ent }) listEntriesFn firstBoundaryIndex pronunciation
      lattice = some lattice') : lattice'.heap[endNode]? = some node := by
  refine Loop.foldlM_invariant (fun l : Lattice (Node ε G) => l.heap[endNode]? = some node)
    (fun stop _ l l' hl h => ?_) hnode h
  refine Loop.foldlM_invariant (fun l : Lattice (Node ε G) => l.heap[endNode]? = some node)
    (fun start _ l l' hl h => ?_) hl h
  rcases ite_inv h with ⟨-, h⟩ | ⟨-, h⟩
  · obtain ⟨subPron, -, h⟩ := bind_inv h
    obtain ⟨entries, -, h⟩ := bind_inv h
    rw [← Option.some.inj h, Lattice.push,
      List.getElem?_append_left (List.getElem?_eq_some_iff.mp hl).1]
    exact hl
  · rw [← Option.some.inj h]
    exact hl

/-- A score function that cannot be called with two arguments is an error for every
pronunciation. -/
theorem execute_eq_none (hscore : ∀ e p, scoreFn [e, p] = none) (pronunciation : Str)
    (beginEntry endEntry : ε) (listEntriesFn : Str → Option (List ε))
    (firstBoundaryIndex : Option Nat) :
    execute pronunciation beginEntry endEntry scoreFn listEntriesFn firstBoundaryIndex = none := by
  rw [Option.eq_none_iff_forall_ne_some]
  intro result h
  obtain ⟨lattice, hcreate, h⟩ := bind_inv h
  obtain ⟨heap, hdp, h⟩ := bind_inv h
  obtain ⟨node, hnode, h⟩ := bind_inv h
  obtain ⟨prevNode, hprev, -⟩ := bind_inv h
  -- the pointer of the end node was never set
  have hmade : (endTable beginEntry endEntry pronunciation.length :
      Lattice (Node ε G)).heap[endNode]? = some { entry := endEntry } := rfl
  have hend := createNodes_endNode hmade hcreate
  rw [dp_of_no_score hscore hdp, hend, Option.some.injEq] at hnode
  rw [← hnode] at hprev
  cases hprev

end Failing

end Hachee.Kkc.Convert.Funcall2gram
