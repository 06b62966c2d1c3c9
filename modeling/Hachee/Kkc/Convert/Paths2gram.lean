import Mathlib.Algebra.Order.Ring.Int
import Hachee.Kkc.Convert.Viterbi2gram

/-!
# The best path through the table

Which substrings have nodes in the table depends on the boundary that is known.  They
are a relation between two positions and an entry here, and the nodes of the table are
those of the relation (`FilledBy`).  If every step can be reached, a path through the
table ends in a node whose score is at least the score of the path
(`exists_scored_of_steps`), the pointers from a node spell a path with the score of the
node (`backtrack_steps`), and the conversion is a path of maximal score
(`execute_steps`).
-/

namespace Hachee.Kkc.Convert.Viterbi2gram

open Lisp Foundation

variable {ε G : Type} [AddCommGroup G] [LinearOrder G] {scoreFn : ε → ε → G}
  {step : Nat → Nat → ε → Prop} {beginEntry endEntry : ε} {length : Nat}
  {lattice : Lattice (Node ε G)}

/-- The steps go forward, and some step leads to where one starts and to the end. -/
structure Connected (step : Nat → Nat → ε → Prop) (length : Nat) : Prop where
  lt : ∀ {i j entry}, step i j entry → i < j ∧ j ≤ length
  start : ∀ {i j entry}, step i j entry → i = 0 ∨ ∃ i' entry', step i' i entry'
  last : length = 0 ∨ ∃ i entry, step i length entry

/-- Besides those for the begin and the end of the sentence, the nodes are the steps. -/
structure FilledBy (step : Nat → Nat → ε → Prop) (beginEntry endEntry : ε) (length : Nat)
    (lattice : Lattice (Node ε G)) : Prop extends lattice.Graded where
  begin : ∃ ref, lattice.Cell (-1) 0 ref ∧
    lattice.heap[ref]? = some { entry := beginEntry, scoreSoFar := some 0 }
  last : lattice.Cell length (length + 1) endNode ∧
    lattice.heap[endNode]? = some { entry := endEntry }
  created : ∀ {i j : Nat} {entry : ε}, step i j entry →
    ∃ ref, lattice.Cell i j ref ∧ lattice.heap[ref]? = some { entry }
  cases : ∀ {start stop ref}, lattice.Cell start stop ref →
    (start = -1 ∧ stop = 0 ∧
        lattice.heap[ref]? = some { entry := beginEntry, scoreSoFar := some 0 }) ∨
      (start = length ∧ stop = length + 1 ∧ lattice.heap[ref]? = some { entry := endEntry }) ∨
      ∃ (i j : Nat) (entry : ε), start = i ∧ stop = j ∧ step i j entry ∧
        lattice.heap[ref]? = some { entry }

omit [LinearOrder G] in
/-- The table is ready for the dynamic programming: every node has one to be connected
with. -/
theorem FilledBy.initial (h : FilledBy step beginEntry endEntry length lattice)
    (hconnected : Connected step length) : Initial lattice where
  toGraded := h.toGraded
  scored := by
    intro start stop ref hcell hstop
    rcases h.cases hcell with ⟨-, -, hnode⟩ | ⟨-, rfl, -⟩ | ⟨i, j, entry, -, rfl, hstep, -⟩
    · exact ⟨_, _, hnode, rfl⟩
    · omega
    · have hlt := (hconnected.lt hstep).1
      omega
  fresh := by
    intro start stop ref hcell hstop
    rcases h.cases hcell with ⟨-, rfl, -⟩ | ⟨-, -, hnode⟩ | ⟨i, j, entry, -, -, -, hnode⟩
    · omega
    · exact ⟨_, hnode, rfl⟩
    · exact ⟨_, hnode, rfl⟩
  connected := by
    intro start stop ref hcell hstop
    have hstart : ∃ i : Nat, start = i ∧ (i = 0 ∨ ∃ i' entry', step i' i entry') := by
      rcases h.cases hcell with ⟨-, rfl, -⟩ | ⟨rfl, -⟩ | ⟨i, j, entry, rfl, -, hstep, -⟩
      · omega
      · exact ⟨length, rfl, hconnected.last⟩
      · exact ⟨i, rfl, hconnected.start hstep⟩
    obtain ⟨i, rfl, rfl | ⟨i', entry', hstep⟩⟩ := hstart
    · obtain ⟨ref, hbegin, -⟩ := h.begin
      exact ⟨-1, ref, hbegin⟩
    · obtain ⟨prev, hprev, -⟩ := h.created hstep
      exact ⟨i', prev, hprev⟩

/-! ## The table -/

omit [LinearOrder G] in
/-- The table without the entries. -/
theorem endTable_holds (beginEntry endEntry : ε) (length : Nat) :
    (endTable beginEntry endEntry length : Lattice (Node ε G)).Holds
      ([(-1, 0, [{ entry := beginEntry, scoreSoFar := some 0 }])] ++
        [((length : Int), (length : Int) + 1, [{ entry := endEntry }])]) :=
  (Lattice.holds_empty.push _ _ _).push _ _ _

/-- The substrings that are allowed by the boundary, with their entries. -/
def boundedStep (listEntriesFn : Str → List ε) (firstBoundaryIndex : Option Nat)
    (pronunciation : Str) (i j : Nat) (entry : ε) : Prop :=
  substringStep listEntriesFn pronunciation i j entry ∧ boundaryP firstBoundaryIndex i j

omit [LinearOrder G] in
/-- The table is filled without an error, whatever the boundary is. -/
theorem createNodes_filledBy (listEntriesFn : Str → List ε) (beginEntry endEntry : ε)
    (firstBoundaryIndex : Option Nat) (pronunciation : Str) :
    ∃ lattice : Lattice (Node ε G), createNodes (fun ent => { entry := ent }) listEntriesFn
        firstBoundaryIndex pronunciation (endTable beginEntry endEntry pronunciation.length) =
          some lattice ∧
      FilledBy (boundedStep listEntriesFn firstBoundaryIndex pronunciation) beginEntry endEntry
        pronunciation.length lattice := by
  obtain ⟨lattice, hcreate, hholds, hext⟩ :=
    createNodes_holds (fun ent => { entry := ent }) listEntriesFn firstBoundaryIndex pronunciation
      (endTable_holds (G := G) beginEntry endEntry pronunciation.length)
  refine ⟨lattice, hcreate, hholds.graded ?_, ?_, ?_, ?_, ?_⟩
  · intro start stop nodes hmem
    simp only [List.cons_append, List.nil_append, List.mem_cons, Prod.mk.injEq,
      mem_createdGroups] at hmem
    omega
  · exact hholds.cell_of_node (List.mem_append_left _ (List.mem_append_left _
      (List.mem_singleton_self _))) (List.mem_singleton_self _)
  · refine ⟨hext.cell ⟨[1], ?_, List.mem_singleton_self 1⟩, hext.heap rfl⟩
    exact Lattice.mem_groups_push.mpr (Or.inl ⟨rfl, rfl, rfl⟩)
  · rintro i j entry ⟨⟨hij, hj, hentry⟩, hboundary⟩
    refine hholds.cell_of_node (List.mem_append_right _ (mem_createdGroups.mpr
      ⟨i, j, rfl, rfl, hij, hj, hboundary, rfl⟩)) (List.mem_map_of_mem hentry)
  · intro start stop ref hcell
    obtain ⟨node, nodes, hnode, hmade, hmem⟩ := hholds.node_of_cell hcell
    rcases List.mem_append.mp hmade with hmade | hmade
    · rcases List.mem_append.mp hmade with hmade | hmade
      · cases List.mem_singleton.mp hmade
        cases List.mem_singleton.mp hmem
        exact Or.inl ⟨rfl, rfl, hnode⟩
      · cases List.mem_singleton.mp hmade
        cases List.mem_singleton.mp hmem
        exact Or.inr (Or.inl ⟨rfl, rfl, hnode⟩)
    · obtain ⟨i, j, rfl, rfl, hij, hj, hboundary, rfl⟩ := mem_createdGroups.mp hmade
      obtain ⟨entry, hentry, rfl⟩ := List.mem_map.mp hmem
      exact Or.inr (Or.inr ⟨i, j, entry, rfl, rfl, ⟨⟨hij, hj, hentry⟩, hboundary⟩, hnode⟩)

/-! ## Scores and paths -/

section Scores

variable {heap : List (Node ε G)}

/-- The nodes for the begin of the sentence are not changed. -/
theorem FilledBy.begin_final (h : FilledBy step beginEntry endEntry length lattice)
    {stop : Int} (hheap : RelaxedBelow scoreFn lattice stop heap) :
    ∃ ref, lattice.Cell (-1) 0 ref ∧
      heap[ref]? = some { entry := beginEntry, scoreSoFar := some 0 } := by
  obtain ⟨ref, hcell, hnode⟩ := h.begin
  exact ⟨ref, hcell, (hheap.same hcell (Or.inl le_rfl)).trans hnode⟩

/-- A path ends in a node whose score is at least as good.  The induction is on the last
step. -/
theorem exists_scored_of_steps [IsOrderedAddMonoid G]
    (h : FilledBy step beginEntry endEntry length lattice) (hconnected : Connected step length)
    (hheap : RelaxedBelow scoreFn lattice (length + 2) heap) {j : Nat} {entries : List ε}
    (hsteps : Steps step j entries) :
    ∃ start ref n v, lattice.Cell start j ref ∧ heap[ref]? = some n ∧ n.scoreSoFar = some v ∧
      n.entry = entries.getLastD beginEntry ∧ pathScore scoreFn beginEntry entries ≤ v := by
  induction hsteps with
  | nil =>
      obtain ⟨ref, hcell, hnode⟩ := h.begin_final hheap
      exact ⟨-1, ref, _, 0, hcell, hnode, rfl, rfl, le_rfl⟩
  | @snoc i j entries entry _ hstep ih =>
      obtain ⟨prevStart, prev, p, u, hprev, hp, hu, hpentry, hle⟩ := ih
      obtain ⟨hlt, hj⟩ := hconnected.lt hstep
      obtain ⟨ref, hcell, hnode⟩ := h.created hstep
      obtain ⟨n₀, hn₀, hn₀entry, -⟩ := hheap.entry ref _ hnode
      obtain ⟨n, v, hn, hv, hle'⟩ :=
        (hheap.relaxed hcell (by omega) (by omega)).reached hprev n₀ p u hn₀ hp hu
      cases hn₀.symm.trans hn
      refine ⟨i, ref, n₀, v, hcell, hn, hv, by rw [hn₀entry, List.getLastD_concat], ?_⟩
      calc pathScore scoreFn beginEntry (entries ++ [entry])
          = pathScore scoreFn beginEntry entries + scoreFn entry p.entry := by
            rw [pathScore_snoc, hpentry]
        _ ≤ u + scoreFn n₀.entry p.entry := by
            rw [hn₀entry]
            exact add_le_add_left hle _
        _ ≤ v := hle'

/-- The pointers from a node spell a path with the score of the node.  The induction is on
the fuel, which the position where the node ends bounds. -/
theorem backtrack_steps (h : FilledBy step beginEntry endEntry length lattice)
    (hconnected : Connected step length)
    (hheap : RelaxedBelow scoreFn lattice (length + 2) heap) (fuel : Nat) :
    ∀ {j : Nat} {start : Int} {ref : Nat} {n : Node ε G} {v : G} (acc : List Nat), j < fuel →
      j ≤ length → lattice.Cell start j ref → heap[ref]? = some n → n.scoreSoFar = some v →
      ∃ refs nodes, backtrack heap fuel ref acc = some (refs ++ acc) ∧
        refs.mapM (fun ref => heap[ref]?) = some nodes ∧
        Steps step j (nodes.map Node.entry) ∧
        n.entry = (nodes.map Node.entry).getLastD beginEntry ∧
        v = pathScore scoreFn beginEntry (nodes.map Node.entry) := by
  induction fuel with
  | zero => intro j start ref n v acc hj; omega
  | succ fuel ih =>
      intro j start ref n v acc hfuel hj hcell hn hv
      rcases h.cases hcell with ⟨-, hzero, hnode⟩ | ⟨-, hlast, -⟩ |
        ⟨i, j', entry, rfl, hj', hstep, hnode⟩
      · -- The node for the begin of the sentence has no pointer.
        have hj0 : j = 0 := by omega
        subst hj0
        rw [hheap.same hcell (Or.inl le_rfl)] at hn
        cases hnode.symm.trans hn
        cases hv
        refine ⟨[], [], ?_, rfl, Steps.nil, rfl, rfl⟩
        rw [backtrack, hheap.same hcell (Or.inl le_rfl), hnode]
        rfl
      · omega
      · obtain rfl : j = j' := by omega
        have hij := (hconnected.lt hstep).1
        have hrelaxed := hheap.relaxed hcell (by omega) (by omega)
        obtain ⟨prev, prevStart, p, u, hpointer, hprev, hp, hu, rfl⟩ := hrelaxed.pointed n v hn hv
        obtain ⟨refs, nodes, hbacktrack, hnodes, hsteps, hpentry, rfl⟩ :=
          ih (ref :: acc) (by omega) (by omega) hprev hp hu
        obtain ⟨n₀, hn₀, hn₀entry, -⟩ := hheap.entry ref _ hnode
        cases hn₀.symm.trans hn
        refine ⟨refs ++ [ref], nodes ++ [n], ?_, ?_, ?_, ?_, ?_⟩
        · rw [backtrack, hn]
          simp only [Option.bind_eq_bind, Option.bind_some, hpointer, hbacktrack,
            List.append_assoc, List.cons_append, List.nil_append]
        · rw [List.mapM_append, hnodes]
          simp [hn]
        · rw [List.map_append, List.map_singleton, hn₀entry]
          exact hsteps.snoc hstep
        · rw [List.map_append, List.map_singleton, List.getLastD_concat]
        · rw [List.map_append, List.map_singleton, pathScore_snoc, hpentry]

end Scores

/-! ## The conversion -/

/-- The conversion is a path with the maximal score, and no error is signalled. -/
theorem execute_steps [IsOrderedAddMonoid G] (scoreFn : ε → ε → G)
    (firstBoundaryIndex : Option Nat) {listEntriesFn : Str → List ε} {pronunciation : Str}
    (hcreate : createNodes (fun ent => { entry := ent }) listEntriesFn
      (clipBoundaryIndex firstBoundaryIndex) pronunciation
      (endTable beginEntry endEntry pronunciation.length) = some lattice)
    (hfilled : FilledBy step beginEntry endEntry pronunciation.length lattice)
    (hconnected : Connected step pronunciation.length) :
    ∃ entries node table,
      execute pronunciation beginEntry endEntry scoreFn listEntriesFn firstBoundaryIndex =
        some (entries, node, table) ∧
      Steps step pronunciation.length entries ∧
      node.scoreSoFar = some (pathScore scoreFn beginEntry (entries ++ [endEntry])) ∧
      ∀ entries', Steps step pronunciation.length entries' →
        pathScore scoreFn beginEntry (entries' ++ [endEntry]) ≤
          pathScore scoreFn beginEntry (entries ++ [endEntry]) := by
  obtain ⟨heap, hdp, hheap⟩ :=
    dp_relaxed scoreFn (hfilled.initial hconnected) pronunciation.length
  -- The end node is final, and so is the node it points to.
  obtain ⟨hlast, hlastNode⟩ := hfilled.last
  obtain ⟨node, hnode, hnodeEntry, -⟩ := hheap.entry endNode _ hlastNode
  have hrelaxed := hheap.relaxed hlast (by omega) (by omega)
  obtain ⟨node', v, hnode', hv⟩ := hrelaxed.scored
  cases hnode.symm.trans hnode'
  obtain ⟨prev, prevStart, p, u, hpointer, hprev, hp, hu, rfl⟩ := hrelaxed.pointed node v hnode hv
  obtain ⟨refs, nodes, hbacktrack, hnodes, hsteps, hpentry, rfl⟩ :=
    backtrack_steps hfilled hconnected hheap (pronunciation.length + 1) [] (Nat.lt_succ_self _)
      le_rfl hprev hp hu
  refine ⟨nodes.map Node.entry, node, { lattice with heap }, ?_, hsteps, ?_, ?_⟩
  · simp only [execute, hcreate, hdp, hnode, hpointer, hbacktrack, List.append_nil, hnodes,
      Option.bind_eq_bind, Option.bind_some, Option.pure_def]
  · rw [hv, pathScore_snoc, ← hpentry, hnodeEntry]
  · intro entries' hentries'
    obtain ⟨start, ref, m, w, hcell, hm, hw, hmentry, hle⟩ :=
      exists_scored_of_steps hfilled hconnected hheap hentries'
    obtain ⟨node', v', hnode', hv', hle'⟩ := hrelaxed.reached hcell node m w hnode hm hw
    cases hnode.symm.trans hnode'
    cases hv.symm.trans hv'
    calc pathScore scoreFn beginEntry (entries' ++ [endEntry])
        = pathScore scoreFn beginEntry entries' + scoreFn endEntry m.entry := by
          rw [pathScore_snoc, hmentry]
      _ ≤ w + scoreFn node.entry m.entry := by
          rw [hnodeEntry]
          exact add_le_add_left hle _
      _ ≤ pathScore scoreFn beginEntry (nodes.map Node.entry) + scoreFn node.entry p.entry := hle'
      _ = pathScore scoreFn beginEntry (nodes.map Node.entry ++ [endEntry]) := by
          rw [pathScore_snoc, ← hpentry, hnodeEntry]

end Hachee.Kkc.Convert.Viterbi2gram
