import Mathlib.Algebra.Group.Defs
import Hachee.Foundation.Segmentation
import Hachee.Kkc.Convert.Lattice

/-!
# A conversion for a trigram score (`hachee.kkc.convert.viterbi-3gram`)

The converter works as the one for bigrams, but a node keeps two pointers: to the
node before it, and to the one before that.  There are two nodes for the begin of
the sentence, and the second one has no score.  A node after it is scored with
respect to both of them.  Any other node is scored with respect to the node before
it, whatever that one points to.

The second pointer of a node is therefore the first pointer of the node before it
(`Linked`).  So the pointers from a node form a chain, and `backtrack`, which takes
two nodes of it at a time, reads the whole chain for an odd and for an even number
of nodes (`Chain.backtrack`).
-/

namespace Hachee.Kkc.Convert.Viterbi3gram

open Lisp Foundation

/-! ## The converter -/

/-- `(defstruct node entry score-so-far prev2-node prev1-node)`. -/
structure Node (ε G : Type) where
  entry : ε
  scoreSoFar : Option G := none
  prev2Node : Option Nat := none
  prev1Node : Option Nat := none

section Definitions

variable {ε G : Type} [AddCommGroup G] [LinearOrder G]

/-- `compute-score`. -/
def computeScore (scoreFn : ε → ε → ε → G) (curr prev2 prev1 : ε) : G := scoreFn curr prev2 prev1

/-- `maybe-update-score`. -/
def maybeUpdateScore (heap : List (Node ε G)) (scoreSoFar : G) (node prev2Node prev1Node : Nat) :
    Option (List (Node ε G)) := do
  let n ← heap[node]?
  if betterP n.scoreSoFar scoreSoFar then
    return heap.set node { n with
      prev1Node := some prev1Node, prev2Node := some prev2Node, scoreSoFar := some scoreSoFar }
  else return heap

/-- The body of the loop of `connect-by-max-score` over a node that has a score. -/
def connectScored (scoreFn : ε → ε → ε → G) (prev1Node : Nat) (prev1Entry : ε) (prev1Score : G)
    (heap : List (Node ε G)) (node : Nat) : Option (List (Node ε G)) := do
  let p1 ← heap[prev1Node]?
  let prev2Node ← p1.prev1Node
  let p2 ← heap[prev2Node]?
  let n ← heap[node]?
  maybeUpdateScore heap (prev1Score + computeScore scoreFn n.entry p2.entry prev1Entry) node
    prev2Node prev1Node

/-- The body of the loop over a node that has none.  Then it is an error if the node
before it has none. -/
def connectUnscored (scoreFn : ε → ε → ε → G) (nodes : List Nat) (prev1Node : Nat)
    (prev1Entry : ε) (heap : List (Node ε G)) (prev2Node : Nat) : Option (List (Node ε G)) := do
  let p2 ← heap[prev2Node]?
  let prev2Score ← p2.scoreSoFar
  nodes.foldlM
    (fun heap node => do
      let n ← heap[node]?
      maybeUpdateScore heap (prev2Score + computeScore scoreFn n.entry p2.entry prev1Entry) node
        prev2Node prev1Node)
    heap

/-- `connect-by-max-score`. -/
def connectByMaxScore (scoreFn : ε → ε → ε → G) (nodes prev2Nodes prev1Nodes : List Nat)
    (heap : List (Node ε G)) : Option (List (Node ε G)) :=
  prev1Nodes.foldlM
    (fun heap prev1Node => do
      let p1 ← heap[prev1Node]?
      match p1.scoreSoFar with
      | some prev1Score =>
          nodes.foldlM (connectScored scoreFn prev1Node p1.entry prev1Score) heap
      | none => prev2Nodes.foldlM (connectUnscored scoreFn nodes prev1Node p1.entry) heap)
    heap

/-- The dynamic programming, over the ends from 1 to `(1+ length)`. -/
def dp (scoreFn : ε → ε → ε → G) (length : Nat) (lattice : Lattice (Node ε G)) :
    Option (List (Node ε G)) :=
  (List.range' 1 (length + 1)).foldlM
    (fun heap (stop : Nat) =>
      (lattice.groups stop).foldlM
        (fun heap (start, nodes) =>
          (lattice.groups start).foldlM
            (fun heap (prev1Start, prev1Nodes) =>
              (lattice.groups prev1Start).foldlM
                (fun heap (_, prev2Nodes) =>
                  connectByMaxScore scoreFn nodes prev2Nodes prev1Nodes heap)
                heap)
            heap)
        heap)
    lattice.heap

/-- `backtrack`.  Each turn of the recursion uses one unit of the fuel. -/
def backtrack [DecidableEq ε] (heap : List (Node ε G)) (beginEntry : ε) :
    Nat → Nat → Nat → List Nat → Option (List Nat)
  | 0, _, _, _ => none
  | fuel + 1, prev1Node, prev2Node, acc => do
      let p2 ← heap[prev2Node]?
      match p2.prev2Node with
      | none => do
          let p1 ← heap[prev1Node]?
          if p1.entry = beginEntry then return acc else return prev1Node :: acc
      | some prev2Node' => do
          let prev1Node' ← p2.prev1Node
          backtrack heap beginEntry fuel prev1Node' prev2Node' (prev2Node :: prev1Node :: acc)

/-- The table with the two nodes for the begin and the one for the end. -/
def endTable (beginEntry endEntry : ε) (length : Nat) : Lattice (Node ε G) :=
  ((Lattice.empty.push (-2) (-1) [{ entry := beginEntry, scoreSoFar := some 0 }]).push (-1) 0
    [{ entry := beginEntry }]).push length (length + 1) [{ entry := endEntry }]

/-- The address of the end node. -/
def endNode : Nat := 2

/-- `execute`.  It answers with the entries, the end node and the table.  The
pointers lead to earlier ends, so the fuel is enough. -/
def execute [DecidableEq ε] (pronunciation : Str) (beginEntry endEntry : ε)
    (scoreFn : ε → ε → ε → G) (listEntriesFn : Str → List ε) (firstBoundaryIndex : Option Nat) :
    Option (List ε × Node ε G × Lattice (Node ε G)) := do
  let length := pronunciation.length
  let lattice ← createNodes (fun ent => { entry := ent }) listEntriesFn
    (clipBoundaryIndex firstBoundaryIndex) pronunciation (endTable beginEntry endEntry length)
  let heap ← dp scoreFn length lattice
  let node ← heap[endNode]?
  let prev1Node ← node.prev1Node
  let prev2Node ← node.prev2Node
  let refs ← backtrack heap beginEntry (length + 1) prev1Node prev2Node []
  let nodes ← refs.mapM fun ref => heap[ref]?
  return (nodes.map Node.entry, node, { lattice with heap })

end Definitions

/-! ## One position of the dynamic programming -/

section Turn

variable {ε G : Type} {lattice : Lattice (Node ε G)} {stop : Int}

/-- The node keeps its entry, and keeps having a score. -/
def Keeps (heap heap' : List (Node ε G)) (ref : Nat) : Prop :=
  ∀ n, heap[ref]? = some n → ∃ n', heap'[ref]? = some n' ∧ n'.entry = n.entry ∧
    (n.scoreSoFar ≠ none → n'.scoreSoFar ≠ none)

theorem Keeps.refl (heap : List (Node ε G)) (ref : Nat) : Keeps heap heap ref :=
  fun n hn => ⟨n, hn, rfl, id⟩

theorem Keeps.trans {heap heap' heap'' : List (Node ε G)} {ref : Nat} (h : Keeps heap heap' ref)
    (h' : Keeps heap' heap'' ref) : Keeps heap heap'' ref := by
  intro n hn
  obtain ⟨n', hn', hentry', hscore'⟩ := h n hn
  obtain ⟨n'', hn'', hentry'', hscore''⟩ := h' n' hn'
  exact ⟨n'', hn'', hentry''.trans hentry', fun hne => hscore'' (hscore' hne)⟩

/-- Only nodes that end at the position change. -/
structure Turn (lattice : Lattice (Node ε G)) (stop : Int) (heap heap' : List (Node ε G)) :
    Prop where
  same : ∀ {start stop' ref}, lattice.Cell start stop' ref → stop' ≠ stop →
    heap'[ref]? = heap[ref]?
  keeps : ∀ ref, Keeps heap heap' ref

theorem Turn.refl (heap : List (Node ε G)) : Turn lattice stop heap heap where
  same := fun _ _ => rfl
  keeps := Keeps.refl heap

theorem Turn.trans {heap heap' heap'' : List (Node ε G)} (h : Turn lattice stop heap heap')
    (h' : Turn lattice stop heap' heap'') : Turn lattice stop heap heap'' where
  same := fun hcell hne => (h'.same hcell hne).trans (h.same hcell hne)
  keeps := fun ref => (h.keeps ref).trans (h'.keeps ref)

/-- The node has a score. -/
def Scored (ref : Nat) (heap : List (Node ε G)) : Prop :=
  ∃ n, heap[ref]? = some n ∧ n.scoreSoFar ≠ none

theorem Scored.turn {heap heap' : List (Node ε G)} {ref : Nat}
    (hturn : Turn lattice stop heap heap') (h : Scored ref heap) : Scored ref heap' := by
  obtain ⟨n, hn, hscore⟩ := h
  obtain ⟨n', hn', -, hscore'⟩ := hturn.keeps ref n hn
  exact ⟨n', hn', hscore' hscore⟩

variable [AddCommGroup G] {scoreFn : ε → ε → ε → G}

/-- The score of the node, if it has one, is one step more than that of the node
before it, and the pointers agree.  If the node before it has no score, it is one
step more than that of the node before that one. -/
def Linked (scoreFn : ε → ε → ε → G) (lattice : Lattice (Node ε G)) (heap : List (Node ε G))
    (start : Int) (ref : Nat) : Prop :=
  ∀ n v, heap[ref]? = some n → n.scoreSoFar = some v →
    ∃ prev1 prev2 prev1Start prev2Start p1 p2 u,
      n.prev1Node = some prev1 ∧ n.prev2Node = some prev2 ∧
      lattice.Cell prev1Start start prev1 ∧ lattice.Cell prev2Start prev1Start prev2 ∧
      heap[prev1]? = some p1 ∧ heap[prev2]? = some p2 ∧
      v = u + scoreFn n.entry p2.entry p1.entry ∧
      (p1.scoreSoFar = some u ∧ p1.prev1Node = some prev2 ∨
        p1.scoreSoFar = none ∧ p2.scoreSoFar = some u)

/-- A node keeps its links when another one is written. -/
theorem Linked.of_same {heap heap' : List (Node ε G)} {start : Int} {ref : Nat}
    (h : Linked scoreFn lattice heap start ref) (href : heap'[ref]? = heap[ref]?)
    (hsame : ∀ {start' stop' ref'}, lattice.Cell start' stop' ref' → stop' ≤ start →
      heap'[ref']? = heap[ref']?) (hgraded : lattice.Graded) :
    Linked scoreFn lattice heap' start ref := by
  intro n v hn hv
  obtain ⟨prev1, prev2, prev1Start, prev2Start, p1, p2, u, hprev1, hprev2, hcell1, hcell2, hp1, hp2,
    hlinks⟩ := h n v (href ▸ hn) hv
  have hle : prev1Start ≤ start := le_of_lt (hgraded.lt hcell1)
  exact ⟨prev1, prev2, prev1Start, prev2Start, p1, p2, u, hprev1, hprev2, hcell1, hcell2,
    (hsame hcell1 le_rfl).trans hp1, (hsame hcell2 hle).trans hp2, hlinks⟩

/-- The position is being visited: what was done since, and what the links are. -/
structure Visiting (scoreFn : ε → ε → ε → G) (lattice : Lattice (Node ε G)) (stop : Int)
    (heap₀ heap : List (Node ε G)) : Prop where
  turn : Turn lattice stop heap₀ heap
  linked : ∀ {start ref}, lattice.Cell start stop ref → Linked scoreFn lattice heap start ref

variable [LinearOrder G]

/-- A node is updated with a score and with pointers that agree with it. -/
theorem maybeUpdateScore_visiting (hgraded : lattice.Graded) {heap₀ heap : List (Node ε G)}
    (h : Visiting scoreFn lattice stop heap₀ heap) {start prev1Start prev2Start : Int}
    {ref prev1 prev2 : Nat} {n p1 p2 : Node ε G} {u : G} (hcell : lattice.Cell start stop ref)
    (hcell1 : lattice.Cell prev1Start start prev1)
    (hcell2 : lattice.Cell prev2Start prev1Start prev2) (hn : heap[ref]? = some n)
    (hp1 : heap[prev1]? = some p1) (hp2 : heap[prev2]? = some p2)
    (hlinks : p1.scoreSoFar = some u ∧ p1.prev1Node = some prev2 ∨
      p1.scoreSoFar = none ∧ p2.scoreSoFar = some u) :
    ∃ heap', maybeUpdateScore heap (u + scoreFn n.entry p2.entry p1.entry) ref prev2 prev1 =
        some heap' ∧
      Visiting scoreFn lattice stop heap₀ heap' ∧ Turn lattice stop heap heap' ∧
      Scored ref heap' := by
  have hupdate : maybeUpdateScore heap (u + scoreFn n.entry p2.entry p1.entry) ref prev2 prev1 =
      if betterP n.scoreSoFar (u + scoreFn n.entry p2.entry p1.entry) then
        some (heap.set ref { n with
          prev1Node := some prev1, prev2Node := some prev2
          scoreSoFar := some (u + scoreFn n.entry p2.entry p1.entry) })
      else some heap := by
    simp only [maybeUpdateScore, hn, Option.bind_eq_bind, Option.bind_some, Option.pure_def]
  rw [hupdate]
  by_cases hbetter : betterP n.scoreSoFar (u + scoreFn n.entry p2.entry p1.entry) = true
  · rw [if_pos hbetter]
    have hwritten := Lattice.Written.of_set hn { n with
      prev1Node := some prev1, prev2Node := some prev2
      scoreSoFar := some (u + scoreFn n.entry p2.entry p1.entry) }
    -- The nodes that end elsewhere stay the same.
    have hsame : ∀ {start' stop' ref'}, lattice.Cell start' stop' ref' → stop' ≠ stop →
        ref ≠ ref' := fun hcell' hne => hgraded.ne_of_cell hcell hcell' hne
    have hturn : Turn lattice stop heap (heap.set ref { n with
        prev1Node := some prev1, prev2Node := some prev2
        scoreSoFar := some (u + scoreFn n.entry p2.entry p1.entry) }) := by
      refine ⟨fun hcell' hne => hwritten.other (hsame hcell' hne), fun ref' n' hn' => ?_⟩
      by_cases hne : ref = ref'
      · subst hne
        cases hn.symm.trans hn'
        exact ⟨_, hwritten.self, rfl, fun _ => Option.some_ne_none _⟩
      · exact ⟨n', (hwritten.other hne).trans hn', rfl, id⟩
    refine ⟨_, rfl, ⟨h.turn.trans hturn, fun {start' ref'} hcell' => ?_⟩, hturn, _, hwritten.self,
      Option.some_ne_none _⟩
    have hstart' : start' < stop := hgraded.lt hcell'
    by_cases hne : ref = ref'
    · subst hne
      obtain ⟨rfl, -⟩ := hgraded.unique hcell hcell'
      have hprev1Start := hgraded.lt hcell1
      intro n' v hn' hv
      cases hwritten.self.symm.trans hn'
      cases hv
      exact ⟨prev1, prev2, prev1Start, prev2Start, p1, p2, u, rfl, rfl, hcell1, hcell2,
        (hwritten.other (hsame hcell1 (by omega))).trans hp1,
        (hwritten.other (hsame hcell2 (by omega))).trans hp2, rfl, hlinks⟩
    · exact (h.linked hcell').of_same (hwritten.other hne)
        (fun hcell'' hle => hwritten.other (hsame hcell'' (by omega))) hgraded
  · rw [if_neg hbetter]
    refine ⟨heap, rfl, h, .refl heap, n, hn, fun hnone => ?_⟩
    simp [betterP, hnone] at hbetter

/-- The nodes that end earlier are there, and have what a connection reads. -/
structure Ready (lattice : Lattice (Node ε G)) (stop : Int) (heap : List (Node ε G)) : Prop where
  group : ∀ {start nodes}, (start, nodes) ∈ lattice.groups stop → 0 ≤ start ∧ start < stop
  node : ∀ {start stop' ref}, lattice.Cell start stop' ref → ∃ n, heap[ref]? = some n
  scored : ∀ {start prev1Start prev1 p1 u}, 0 ≤ start → start < stop →
    lattice.Cell prev1Start start prev1 → heap[prev1]? = some p1 → p1.scoreSoFar = some u →
    ∃ prev2 prev2Start, p1.prev1Node = some prev2 ∧ lattice.Cell prev2Start prev1Start prev2
  unscored : ∀ {start prev1Start prev1 p1 prev2Start prev2}, 0 ≤ start → start < stop →
    lattice.Cell prev1Start start prev1 → heap[prev1]? = some p1 → p1.scoreSoFar = none →
    lattice.Cell prev2Start prev1Start prev2 →
    ∃ p2 u, heap[prev2]? = some p2 ∧ p2.scoreSoFar = some u

section Loops

variable {heap₀ : List (Node ε G)} {start prev1Start prev2Start : Int}
  {nodes prev1Nodes prev2Nodes : List Nat} {prev1 prev2 : Nat} {p1 : Node ε G}

/-- The turn for a node before that has a score. -/
theorem connectScored_visiting (hgraded : lattice.Graded) (hready : Ready lattice stop heap₀)
    (hnodes : (start, nodes) ∈ lattice.groups stop)
    (hcell1 : lattice.Cell prev1Start start prev1) (hp1 : heap₀[prev1]? = some p1) {u : G}
    (hu : p1.scoreSoFar = some u) {ref : Nat} (href : ref ∈ nodes) {heap : List (Node ε G)}
    (h : Visiting scoreFn lattice stop heap₀ heap) :
    ∃ heap', connectScored scoreFn prev1 p1.entry u heap ref = some heap' ∧
      Visiting scoreFn lattice stop heap₀ heap' ∧ Turn lattice stop heap heap' ∧
      Scored ref heap' := by
  obtain ⟨hstart, hlt⟩ := hready.group hnodes
  have hlt1 := hgraded.lt hcell1
  obtain ⟨prev2, prev2Start, hprev2, hcell2⟩ := hready.scored hstart hlt hcell1 hp1 hu
  obtain ⟨p2, hp2⟩ := hready.node hcell2
  obtain ⟨n₀, hn₀⟩ := hready.node ⟨nodes, hnodes, href⟩
  obtain ⟨n, hn, -⟩ := h.turn.keeps ref n₀ hn₀
  have hp1' : heap[prev1]? = some p1 := (h.turn.same hcell1 (by omega)).trans hp1
  have hp2' : heap[prev2]? = some p2 := (h.turn.same hcell2 (by omega)).trans hp2
  rw [connectScored]
  simp only [hp1', hprev2, hp2', hn, computeScore, Option.bind_eq_bind, Option.bind_some]
  exact maybeUpdateScore_visiting hgraded h ⟨nodes, hnodes, href⟩ hcell1 hcell2 hn hp1' hp2'
    (Or.inl ⟨hu, hprev2⟩)

/-- The turn for a node before that has none. -/
theorem connectUnscored_visiting (hgraded : lattice.Graded) (hready : Ready lattice stop heap₀)
    (hnodes : (start, nodes) ∈ lattice.groups stop)
    (hcell1 : lattice.Cell prev1Start start prev1) (hp1 : heap₀[prev1]? = some p1)
    (hnone : p1.scoreSoFar = none) (hcell2 : lattice.Cell prev2Start prev1Start prev2)
    {heap : List (Node ε G)} (h : Visiting scoreFn lattice stop heap₀ heap) :
    ∃ heap', connectUnscored scoreFn nodes prev1 p1.entry heap prev2 = some heap' ∧
      Visiting scoreFn lattice stop heap₀ heap' ∧ Turn lattice stop heap heap' ∧
      ∀ ref ∈ nodes, Scored ref heap' := by
  obtain ⟨hstart, hlt⟩ := hready.group hnodes
  have hlt1 := hgraded.lt hcell1
  obtain ⟨p2, u, hp2, hu⟩ := hready.unscored hstart hlt hcell1 hp1 hnone hcell2
  have hp2' : heap[prev2]? = some p2 := (h.turn.same hcell2 (by omega)).trans hp2
  rw [connectUnscored]
  simp only [hp2', hu, Option.bind_eq_bind, Option.bind_some]
  refine Loop.foldlM_progress Scored Turn.refl Turn.trans Scored.turn ?_ h
  intro ref href heap h
  obtain ⟨n₀, hn₀⟩ := hready.node ⟨nodes, hnodes, href⟩
  obtain ⟨n, hn, -⟩ := h.turn.keeps ref n₀ hn₀
  have hp1' : heap[prev1]? = some p1 := (h.turn.same hcell1 (by omega)).trans hp1
  have hp2' : heap[prev2]? = some p2 := (h.turn.same hcell2 (by omega)).trans hp2
  simp only [hn, computeScore, Option.bind_some]
  exact maybeUpdateScore_visiting hgraded h ⟨nodes, hnodes, href⟩ hcell1 hcell2 hn hp1' hp2'
    (Or.inr ⟨hnone, hu⟩)

/-- Three groups are connected. -/
theorem connectByMaxScore_visiting (hgraded : lattice.Graded) (hready : Ready lattice stop heap₀)
    (hnodes : (start, nodes) ∈ lattice.groups stop)
    (hprev1Nodes : (prev1Start, prev1Nodes) ∈ lattice.groups start)
    (hprev2Nodes : (prev2Start, prev2Nodes) ∈ lattice.groups prev1Start)
    {heap : List (Node ε G)} (h : Visiting scoreFn lattice stop heap₀ heap) :
    ∃ heap', connectByMaxScore scoreFn nodes prev2Nodes prev1Nodes heap = some heap' ∧
      Visiting scoreFn lattice stop heap₀ heap' ∧ Turn lattice stop heap heap' ∧
      ∀ _prev1 ∈ prev1Nodes, ∀ _prev2 ∈ prev2Nodes, ∀ ref ∈ nodes, Scored ref heap' := by
  refine Loop.foldlM_progress
    (fun _ heap => ∀ _prev2 ∈ prev2Nodes, ∀ ref ∈ nodes, Scored ref heap) Turn.refl Turn.trans
    (fun hturn hscored prev2 hprev2 ref href => (hscored prev2 hprev2 ref href).turn hturn) ?_ h
  intro prev1 hprev1 heap h
  have hcell1 : lattice.Cell prev1Start start prev1 := ⟨prev1Nodes, hprev1Nodes, hprev1⟩
  obtain ⟨p1, hp1⟩ := hready.node hcell1
  have hlt := (hready.group hnodes).2
  have hp1' : heap[prev1]? = some p1 := (h.turn.same hcell1 (by omega)).trans hp1
  cases hscore : p1.scoreSoFar with
  | some u =>
      obtain ⟨heap', hloop, hvisiting, hturn, hscored⟩ :=
        Loop.foldlM_progress Scored Turn.refl Turn.trans Scored.turn
          (fun ref href heap h =>
            connectScored_visiting hgraded hready hnodes hcell1 hp1 hscore href h) h
      refine ⟨heap', ?_, hvisiting, hturn, fun _ _ => hscored⟩
      simp only [hp1', Option.bind_eq_bind, Option.bind_some, hscore]
      exact hloop
  | none =>
      obtain ⟨heap', hloop, hvisiting, hturn, hscored⟩ :=
        Loop.foldlM_progress (fun _ heap => ∀ ref ∈ nodes, Scored ref heap) Turn.refl Turn.trans
          (fun hturn hscored ref href => (hscored ref href).turn hturn)
          (fun prev2 hprev2 heap h =>
            connectUnscored_visiting hgraded hready hnodes hcell1 hp1 hscore
              ⟨prev2Nodes, hprev2Nodes, hprev2⟩ h) h
      refine ⟨heap', ?_, hvisiting, hturn, hscored⟩
      simp only [hp1', Option.bind_eq_bind, Option.bind_some, hscore]
      exact hloop

/-- All groups that end at the position are visited. -/
theorem visit_stop (hgraded : lattice.Graded) (hready : Ready lattice stop heap₀)
    (h : Visiting scoreFn lattice stop heap₀ heap₀) :
    ∃ heap', (lattice.groups stop).foldlM
        (fun heap (start, nodes) =>
          (lattice.groups start).foldlM
            (fun heap (prev1Start, prev1Nodes) =>
              (lattice.groups prev1Start).foldlM
                (fun heap (_, prev2Nodes) =>
                  connectByMaxScore scoreFn nodes prev2Nodes prev1Nodes heap)
                heap)
            heap)
        heap₀ = some heap' ∧
      Visiting scoreFn lattice stop heap₀ heap' ∧
      ∀ {start prev1Start prev2Start ref prev1 prev2}, lattice.Cell start stop ref →
        lattice.Cell prev1Start start prev1 → lattice.Cell prev2Start prev1Start prev2 →
        Scored ref heap' := by
  obtain ⟨heap', hloop, hvisiting, -, hscored⟩ :=
    Loop.foldlM_progress
      (fun (group : Int × List Nat) heap =>
        ∀ group1 ∈ lattice.groups group.1, ∀ group2 ∈ lattice.groups group1.1,
          ∀ _prev1 ∈ group1.2, ∀ _prev2 ∈ group2.2, ∀ ref ∈ group.2, Scored ref heap)
      Turn.refl Turn.trans
      (fun hturn hq g1 hg1 g2 hg2 prev1 h1 prev2 h2 ref href =>
        (hq g1 hg1 g2 hg2 prev1 h1 prev2 h2 ref href).turn hturn)
      (fun group hgroup heap h =>
        Loop.foldlM_progress
          (fun (group1 : Int × List Nat) heap =>
            ∀ group2 ∈ lattice.groups group1.1, ∀ _prev1 ∈ group1.2, ∀ _prev2 ∈ group2.2,
              ∀ ref ∈ group.2, Scored ref heap)
          Turn.refl Turn.trans
          (fun hturn hq g2 hg2 prev1 h1 prev2 h2 ref href =>
            (hq g2 hg2 prev1 h1 prev2 h2 ref href).turn hturn)
          (fun group1 hgroup1 heap h =>
            Loop.foldlM_progress
              (fun (group2 : Int × List Nat) heap =>
                ∀ _prev1 ∈ group1.2, ∀ _prev2 ∈ group2.2, ∀ ref ∈ group.2, Scored ref heap)
              Turn.refl Turn.trans
              (fun hturn hq prev1 h1 prev2 h2 ref href =>
                (hq prev1 h1 prev2 h2 ref href).turn hturn)
              (fun group2 hgroup2 heap h =>
                connectByMaxScore_visiting hgraded hready hgroup hgroup1 hgroup2 h) h) h) h
  refine ⟨heap', hloop, hvisiting, ?_⟩
  rintro start prev1Start prev2Start ref prev1 prev2 ⟨refs, hrefs, href⟩ ⟨prevs1, hprevs1, hprev1⟩
    ⟨prevs2, hprevs2, hprev2⟩
  exact hscored (start, refs) hrefs (prev1Start, prevs1) hprevs1 (prev2Start, prevs2) hprevs2
    prev1 hprev1 prev2 hprev2 ref href

end Loops

end Turn

/-! ## The whole dynamic programming -/

section Dp

variable {ε G : Type} [AddCommGroup G] {scoreFn : ε → ε → ε → G}
  {lattice : Lattice (Node ε G)}

/-- The table before the dynamic programming.  The second node for the begin of the
sentence has no score and the first one has.  Every later node has two nodes to be
connected with. -/
structure Initial (lattice : Lattice (Node ε G)) : Prop extends lattice.Graded where
  group : ∀ {start stop nodes}, (start, nodes) ∈ lattice.groups stop → 1 ≤ stop →
    0 ≤ start ∧ start < stop
  node : ∀ {start stop ref}, lattice.Cell start stop ref → ∃ n, lattice.heap[ref]? = some n
  unscored : ∀ {start ref n}, lattice.Cell start 0 ref → lattice.heap[ref]? = some n →
    n.scoreSoFar = none
  scored : ∀ {start ref}, lattice.Cell start (-1) ref →
    ∃ n v, lattice.heap[ref]? = some n ∧ n.scoreSoFar = some v
  begin : ∀ {start ref}, lattice.Cell start 0 ref → start = -1
  fresh : ∀ {start stop ref}, lattice.Cell start stop ref → 1 ≤ stop →
    ∃ n, lattice.heap[ref]? = some n ∧ n.scoreSoFar = none
  connected : ∀ {start stop ref}, lattice.Cell start stop ref → 1 ≤ stop →
    ∃ prev1Start prev2Start prev1 prev2, lattice.Cell prev1Start start prev1 ∧
      lattice.Cell prev2Start prev1Start prev2

/-- The nodes that end before `stop` are final, the others are as they were made. -/
structure FinalBelow (scoreFn : ε → ε → ε → G) (lattice : Lattice (Node ε G)) (stop : Int)
    (heap : List (Node ε G)) : Prop where
  same : ∀ {start stop' ref}, lattice.Cell start stop' ref → stop' ≤ 0 ∨ stop ≤ stop' →
    heap[ref]? = lattice.heap[ref]?
  keeps : ∀ ref, Keeps lattice.heap heap ref
  scored : ∀ {start stop' ref}, lattice.Cell start stop' ref → 1 ≤ stop' → stop' < stop →
    Scored ref heap
  linked : ∀ {start stop' ref}, lattice.Cell start stop' ref → 1 ≤ stop' → stop' < stop →
    Linked scoreFn lattice heap start ref

theorem finalBelow_one : FinalBelow scoreFn lattice 1 lattice.heap where
  same := fun _ _ => rfl
  keeps := Keeps.refl lattice.heap
  scored := by
    intro start stop ref _ h h'
    omega
  linked := by
    intro start stop ref _ h h'
    omega

/-- A position can be visited when the ones before it have been. -/
theorem FinalBelow.ready (hinitial : Initial lattice) {stop : Int} (hstop : 1 ≤ stop)
    {heap : List (Node ε G)} (h : FinalBelow scoreFn lattice stop heap) :
    Ready lattice stop heap where
  group := fun hgroup => hinitial.group hgroup hstop
  node := by
    intro start stop' ref hcell
    obtain ⟨n, hn⟩ := hinitial.node hcell
    obtain ⟨n', hn', -⟩ := h.keeps ref n hn
    exact ⟨n', hn'⟩
  scored := by
    intro start prev1Start prev1 p1 u hstart hlt hcell1 hp1 hu
    by_cases hzero : start = 0
    · subst hzero
      rw [h.same hcell1 (Or.inl le_rfl)] at hp1
      rw [hinitial.unscored hcell1 hp1] at hu
      cases hu
    · obtain ⟨prev2, -, prev2Start, -, -, -, -, hprev2, -, hcell2, -⟩ :=
        h.linked hcell1 (by omega) hlt p1 u hp1 hu
      exact ⟨prev2, prev2Start, hprev2, hcell2⟩
  unscored := by
    intro start prev1Start prev1 p1 prev2Start prev2 hstart hlt hcell1 hp1 hnone hcell2
    by_cases hzero : start = 0
    · subst hzero
      have hbegin := hinitial.begin hcell1
      subst hbegin
      rw [h.same hcell2 (Or.inl (by omega))]
      exact hinitial.scored hcell2
    · obtain ⟨n, hn, hscore⟩ := h.scored hcell1 (by omega) hlt
      cases hp1.symm.trans hn
      exact absurd hnone hscore

/-- Its nodes have no score yet. -/
theorem FinalBelow.visiting (hinitial : Initial lattice) {stop : Int} (hstop : 1 ≤ stop)
    {heap : List (Node ε G)} (h : FinalBelow scoreFn lattice stop heap) :
    Visiting scoreFn lattice stop heap heap where
  turn := .refl heap
  linked := by
    intro start ref hcell n v hn hv
    obtain ⟨m, hm, hnone⟩ := hinitial.fresh hcell hstop
    rw [h.same hcell (Or.inr le_rfl), hm] at hn
    cases hn
    rw [hnone] at hv
    cases hv

/-- After a position was visited its nodes are final too. -/
theorem FinalBelow.next (hinitial : Initial lattice) {stop : Int} (hstop : 1 ≤ stop)
    {heap heap' : List (Node ε G)} (h : FinalBelow scoreFn lattice stop heap)
    (hvisiting : Visiting scoreFn lattice stop heap heap')
    (hscored : ∀ {start prev1Start prev2Start ref prev1 prev2}, lattice.Cell start stop ref →
      lattice.Cell prev1Start start prev1 → lattice.Cell prev2Start prev1Start prev2 →
      Scored ref heap') :
    FinalBelow scoreFn lattice (stop + 1) heap' where
  same := by
    intro start stop' ref hcell hor
    rw [hvisiting.turn.same hcell (by omega)]
    exact h.same hcell (by omega)
  keeps := fun ref => (h.keeps ref).trans (hvisiting.turn.keeps ref)
  scored := by
    intro start stop' ref hcell hone hlt
    by_cases heq : stop' = stop
    · subst heq
      obtain ⟨prev1Start, prev2Start, prev1, prev2, hcell1, hcell2⟩ := hinitial.connected hcell hone
      exact hscored hcell hcell1 hcell2
    · exact (h.scored hcell hone (by omega)).turn hvisiting.turn
  linked := by
    intro start stop' ref hcell hone hlt
    by_cases heq : stop' = stop
    · subst heq
      exact hvisiting.linked hcell
    · have hstart := hinitial.lt hcell
      exact (h.linked hcell hone (by omega)).of_same (hvisiting.turn.same hcell heq)
        (fun hcell' hle => hvisiting.turn.same hcell' (by omega)) hinitial.toGraded

variable [LinearOrder G]

/-- The dynamic programming signals no error, and all nodes are final after it. -/
theorem dp_final (scoreFn : ε → ε → ε → G) (hinitial : Initial lattice) (length : Nat) :
    ∃ heap, dp scoreFn length lattice = some heap ∧
      FinalBelow scoreFn lattice (length + 2) heap := by
  have hcast : ((1 + (length + 1) : Nat) : Int) = length + 2 := by omega
  rw [← hcast]
  refine Loop.foldlM_range' (fun (stop : Nat) heap => FinalBelow scoreFn lattice stop heap)
    (length + 1) 1 lattice.heap (fun stop heap hstop _ h => ?_) finalBelow_one
  obtain ⟨heap', hvisit, hvisiting, hscored⟩ :=
    visit_stop hinitial.toGraded (h.ready hinitial (by omega)) (h.visiting hinitial (by omega))
  exact ⟨heap', hvisit, h.next hinitial (by omega) hvisiting hscored⟩

end Dp

end Hachee.Kkc.Convert.Viterbi3gram
