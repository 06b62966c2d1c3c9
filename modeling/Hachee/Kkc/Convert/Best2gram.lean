import Mathlib.Algebra.Order.Ring.Int
import Hachee.Kkc.Convert.Paths2gram

/-!
# The bigram conversion is the best one

When no boundary is known, there are nodes for all substrings of the pronunciation, and
the paths through the table are the segmentations.  A single character has an entry, so
every step can be reached, and the conversion has the maximal score (`execute_best`).
-/

namespace Hachee.Kkc.Convert.Viterbi2gram

open Lisp Foundation

variable {ε G : Type} [AddCommGroup G] [LinearOrder G] {scoreFn : ε → ε → G}
  {listEntriesFn : Str → List ε} {beginEntry endEntry : ε} {pronunciation : Str}
  {lattice : Lattice (Node ε G)}

/-! ## The table -/

/-- The table that `execute` fills when no boundary is known. -/
structure Filled (listEntriesFn : Str → List ε) (beginEntry endEntry : ε) (pronunciation : Str)
    (lattice : Lattice (Node ε G)) : Prop extends lattice.Graded where
  begin : ∃ ref, lattice.Cell (-1) 0 ref ∧
    lattice.heap[ref]? = some { entry := beginEntry, scoreSoFar := some 0 }
  last : lattice.Cell pronunciation.length (pronunciation.length + 1) endNode ∧
    lattice.heap[endNode]? = some { entry := endEntry }
  created : ∀ {i j : Nat} {entry : ε}, i < j → j ≤ pronunciation.length →
    entry ∈ listEntriesFn ((pronunciation.take j).drop i) →
    ∃ ref, lattice.Cell i j ref ∧ lattice.heap[ref]? = some { entry }
  cases : ∀ {start stop ref}, lattice.Cell start stop ref →
    (start = -1 ∧ stop = 0 ∧
        lattice.heap[ref]? = some { entry := beginEntry, scoreSoFar := some 0 }) ∨
      (start = pronunciation.length ∧ stop = pronunciation.length + 1 ∧
        lattice.heap[ref]? = some { entry := endEntry }) ∨
      ∃ (i j : Nat) (entry : ε), start = i ∧ stop = j ∧ i < j ∧ j ≤ pronunciation.length ∧
        entry ∈ listEntriesFn ((pronunciation.take j).drop i) ∧
        lattice.heap[ref]? = some { entry }

omit [LinearOrder G] in
/-- Whatever the boundary is, a node of the table is the begin, the end or an entry. -/
theorem createNodes_cases {firstBoundaryIndex : Option Nat}
    (h : createNodes (fun ent => { entry := ent }) listEntriesFn firstBoundaryIndex pronunciation
      (endTable beginEntry endEntry pronunciation.length) = some lattice)
    {start stop : Int} {ref : Nat} (hcell : lattice.Cell start stop ref) :
    (start = -1 ∧ stop = 0 ∧
        lattice.heap[ref]? = some { entry := beginEntry, scoreSoFar := some 0 }) ∨
      (start = pronunciation.length ∧ stop = pronunciation.length + 1 ∧
        lattice.heap[ref]? = some { entry := endEntry }) ∨
      ∃ (i j : Nat) (entry : ε), start = i ∧ stop = j ∧ i < j ∧ j ≤ pronunciation.length ∧
        entry ∈ listEntriesFn ((pronunciation.take j).drop i) ∧
        lattice.heap[ref]? = some { entry } := by
  obtain ⟨lattice', hcreate, hfilled⟩ : ∃ lattice : Lattice (Node ε G), _ :=
    createNodes_filledBy listEntriesFn beginEntry endEntry firstBoundaryIndex pronunciation
  cases h.symm.trans hcreate
  rcases hfilled.cases hcell with hbegin | hlast | ⟨i, j, entry, hi, hj, ⟨hstep, -⟩, hnode⟩
  · exact Or.inl hbegin
  · exact Or.inr (Or.inl hlast)
  · exact Or.inr (Or.inr ⟨i, j, entry, hi, hj, hstep.1, hstep.2.1, hstep.2.2, hnode⟩)

omit [LinearOrder G] in
/-- The table is filled without an error. -/
theorem createNodes_filled (listEntriesFn : Str → List ε) (beginEntry endEntry : ε)
    (pronunciation : Str) :
    ∃ lattice : Lattice (Node ε G), createNodes (fun ent => { entry := ent }) listEntriesFn none
        pronunciation (endTable beginEntry endEntry pronunciation.length) = some lattice ∧
      Filled listEntriesFn beginEntry endEntry pronunciation lattice := by
  obtain ⟨lattice, hcreate, hfilled⟩ : ∃ lattice : Lattice (Node ε G), _ :=
    createNodes_filledBy listEntriesFn beginEntry endEntry none pronunciation
  refine ⟨lattice, hcreate, hfilled.toGraded, hfilled.begin, hfilled.last, ?_,
    createNodes_cases hcreate⟩
  exact fun hij hj hentry => hfilled.created ⟨⟨hij, hj, hentry⟩, rfl⟩

omit [LinearOrder G] in
/-- The nodes are those of all substrings. -/
theorem Filled.filledBy (h : Filled listEntriesFn beginEntry endEntry pronunciation lattice) :
    FilledBy (substringStep listEntriesFn pronunciation) beginEntry endEntry pronunciation.length
      lattice where
  toGraded := h.toGraded
  begin := h.begin
  last := h.last
  created := fun hstep => h.created hstep.1 hstep.2.1 hstep.2.2
  cases := by
    intro start stop ref hcell
    rcases h.cases hcell with hbegin | hlast | ⟨i, j, entry, hi, hj, hij, hjl, hentry, hnode⟩
    · exact Or.inl hbegin
    · exact Or.inr (Or.inl hlast)
    · exact Or.inr (Or.inr ⟨i, j, entry, hi, hj, ⟨hij, hjl, hentry⟩, hnode⟩)

/-- Every position is reached by a single character. -/
theorem connected_substrings (h : HasEntries listEntriesFn pronunciation) :
    Connected (substringStep listEntriesFn pronunciation) pronunciation.length := by
  have hreach : ∀ i ≤ pronunciation.length,
      i = 0 ∨ ∃ i' entry, substringStep listEntriesFn pronunciation i' i entry := by
    intro i hi
    cases i with
    | zero => exact Or.inl rfl
    | succ i =>
        obtain ⟨entry, hentry⟩ := h.exists_entry hi
        exact Or.inr ⟨i, entry, Nat.lt_succ_self i, hi, hentry⟩
  refine ⟨fun hstep => ⟨hstep.1, hstep.2.1⟩, fun hstep => ?_, hreach _ le_rfl⟩
  exact hreach _ (hstep.1.le.trans hstep.2.1)

/-- The conversion is a segmentation of the pronunciation with the maximal score,
and no error is signalled. -/
theorem execute_best [IsOrderedAddMonoid G] (scoreFn : ε → ε → G) (listEntriesFn : Str → List ε)
    (beginEntry endEntry : ε) (pronunciation : Str)
    (hentries : HasEntries listEntriesFn pronunciation) :
    ∃ entries node lattice,
      execute pronunciation beginEntry endEntry scoreFn listEntriesFn none =
        some (entries, node, lattice) ∧
      Segmentation listEntriesFn pronunciation entries ∧
      node.scoreSoFar = some (pathScore scoreFn beginEntry (entries ++ [endEntry])) ∧
      ∀ entries', Segmentation listEntriesFn pronunciation entries' →
        pathScore scoreFn beginEntry (entries' ++ [endEntry]) ≤
          pathScore scoreFn beginEntry (entries ++ [endEntry]) := by
  obtain ⟨lattice, hcreate, hfilled⟩ : ∃ lattice : Lattice (Node ε G), _ :=
    createNodes_filled listEntriesFn beginEntry endEntry pronunciation
  obtain ⟨entries, node, table, hexecute, hsteps, hscore, hbest⟩ :=
    execute_steps scoreFn none hcreate hfilled.filledBy (connected_substrings hentries)
  refine ⟨entries, node, table, hexecute, Segmentation.steps_length_iff.mp hsteps, hscore, ?_⟩
  exact fun entries' hentries' => hbest entries' (Segmentation.steps_length_iff.mpr hentries')

/-- Two characters, and a score that prefers to convert them at once. -/
theorem execute_best_kana :
    let scoreFn : Str → Str → Int := fun entry _ => if entry.length = 2 then 1 else 0
    let result := execute ['か', 'な'] [] [] scoreFn (fun subPron => [subPron]) none
    result.map Prod.fst = some [['か', 'な']] ∧
      ∃ entries node lattice, result = some (entries, node, lattice) ∧
        Segmentation (fun subPron => [subPron]) ['か', 'な'] entries ∧
        node.scoreSoFar = some (pathScore scoreFn [] (entries ++ [[]])) ∧
        ∀ entries', Segmentation (fun subPron => [subPron]) ['か', 'な'] entries' →
          pathScore scoreFn [] (entries' ++ [[]]) ≤ pathScore scoreFn [] (entries ++ [[]]) := by
  intro scoreFn result
  have hentries : HasEntries (fun subPron : Str => [subPron]) ['か', 'な'] := fun _ _ _ _ =>
    List.cons_ne_nil _ _
  exact ⟨rfl, execute_best scoreFn _ [] [] ['か', 'な'] hentries⟩

end Hachee.Kkc.Convert.Viterbi2gram
