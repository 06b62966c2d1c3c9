import Mathlib.Algebra.Order.Ring.Int
import Hachee.Kkc.Convert.Viterbi3gram

/-!
# The trigram conversion is a path with the score of the end node

The pointers of a node form a chain (`Chain`) that ends at the two nodes for the
begin of the sentence.  The chain before a node is a segmentation of the prefix
before it, and the score of the node is the score of this segmentation and the node
(`exists_chain`).  `backtrack` reads the chain (`Chain.backtrack_eq`).
-/

namespace Hachee.Kkc.Convert.Viterbi3gram

open Lisp Foundation

variable {ε G : Type} {heap : List (Node ε G)} {beginEntry endEntry : ε}

/-! ## Chains -/

/-- The addresses are a chain of pointers back to the begin of the sentence.  The
entries are those of its nodes in the order of the sentence, without the begin. -/
inductive Chain (heap : List (Node ε G)) (beginEntry : ε) : List Nat → List ε → Prop
  | base {ref1 ref0 n1 n0} :
      heap[ref1]? = some n1 → n1.entry = beginEntry → n1.prev2Node = none →
      heap[ref0]? = some n0 → n0.entry = beginEntry → n0.prev2Node = none →
      Chain heap beginEntry [ref1, ref0] []
  | step {ref prev1 prev2 rest entries n} :
      Chain heap beginEntry (prev1 :: prev2 :: rest) entries → heap[ref]? = some n →
      n.prev1Node = some prev1 → n.prev2Node = some prev2 → n.entry ≠ beginEntry →
      Chain heap beginEntry (ref :: prev1 :: prev2 :: rest) (entries ++ [n.entry])

/-- The first node of a chain has the last of the entries. -/
theorem Chain.entry {ref : Nat} {rest : List Nat} {entries : List ε}
    (h : Chain heap beginEntry (ref :: rest) entries) :
    ∃ n, heap[ref]? = some n ∧ n.entry = entries.getLastD beginEntry := by
  cases h with
  | base hn1 hentry1 => exact ⟨_, hn1, hentry1⟩
  | step _ hn => exact ⟨_, hn, by rw [List.getLastD_concat]⟩

/-- `backtrack` reads the nodes of a chain, two at a time. -/
theorem Chain.backtrack_eq [DecidableEq ε] (fuel : Nat) :
    ∀ {prev1 prev2 : Nat} {rest : List Nat} {entries : List ε} (acc : List Nat),
      Chain heap beginEntry (prev1 :: prev2 :: rest) entries → rest.length + 1 ≤ fuel →
      ∃ refs nodes, backtrack heap beginEntry fuel prev1 prev2 acc = some (refs ++ acc) ∧
        refs.mapM (fun ref => heap[ref]?) = some nodes ∧ nodes.map Node.entry = entries := by
  induction fuel with
  | zero => intro prev1 prev2 rest entries acc h hfuel; omega
  | succ fuel ih =>
      intro prev1 prev2 rest entries acc h hfuel
      cases h with
      | base hn1 hentry1 _ hn0 hentry0 hprev0 =>
          refine ⟨[], [], ?_, rfl, rfl⟩
          simp only [backtrack, hn0, hprev0, hn1, hentry1, Option.bind_eq_bind, Option.bind_some,
            ↓reduceIte]
          rfl
      | @step _ _ _ _ _ n hchain hn hprev1 hprev2 hne =>
          cases hchain with
          | base hn1 _ hprev _ _ _ =>
              -- One node is left.
              refine ⟨[prev1], [n], ?_, by simp [hn], rfl⟩
              simp only [backtrack, hn1, hprev, hn, hne, Option.bind_eq_bind, Option.bind_some,
                ↓reduceIte]
              rfl
          | @step _ r1 r2 rest' entries' m hchain hm hm1 hm2 _ =>
              -- Two nodes are read, and the rest of the chain is left.
              simp only [List.length_cons] at hfuel
              obtain ⟨refs, nodes, hbacktrack, hnodes, hentries⟩ :=
                ih (prev2 :: prev1 :: acc) hchain (by omega)
              refine ⟨refs ++ [prev2, prev1], nodes ++ [m, n], ?_, ?_, ?_⟩
              · simp only [backtrack, hm, hm2, hm1, hbacktrack, Option.bind_eq_bind,
                  Option.bind_some, List.append_assoc, List.cons_append, List.nil_append]
              · rw [List.mapM_append, hnodes]
                simp [hm, hn]
              · simp [hentries]

/-! ## The table -/

section Table

variable [AddCommGroup G] {listEntriesFn : Str → List ε} {pronunciation : Str}
  {lattice : Lattice (Node ε G)}

/-- The table that `execute` fills when no boundary is known. -/
structure Filled (listEntriesFn : Str → List ε) (beginEntry endEntry : ε) (pronunciation : Str)
    (lattice : Lattice (Node ε G)) : Prop extends lattice.Graded where
  begin2 : ∃ ref, lattice.Cell (-2) (-1) ref
  begin1 : ∃ ref, lattice.Cell (-1) 0 ref
  last : lattice.Cell pronunciation.length (pronunciation.length + 1) endNode ∧
    lattice.heap[endNode]? = some { entry := endEntry }
  created : ∀ {i j : Nat} {entry : ε}, i < j → j ≤ pronunciation.length →
    entry ∈ listEntriesFn ((pronunciation.take j).drop i) →
    ∃ ref, lattice.Cell i j ref ∧ lattice.heap[ref]? = some { entry }
  group : ∀ {start stop nodes}, (start, nodes) ∈ lattice.groups stop → 1 ≤ stop →
    0 ≤ start ∧ start < stop
  cases : ∀ {start stop ref}, lattice.Cell start stop ref →
    (start = -2 ∧ stop = -1 ∧
        lattice.heap[ref]? = some { entry := beginEntry, scoreSoFar := some 0 }) ∨
      (start = -1 ∧ stop = 0 ∧ lattice.heap[ref]? = some { entry := beginEntry }) ∨
      (start = pronunciation.length ∧ stop = pronunciation.length + 1 ∧
        lattice.heap[ref]? = some { entry := endEntry }) ∨
      ∃ (i j : Nat) (entry : ε), start = i ∧ stop = j ∧ i < j ∧ j ≤ pronunciation.length ∧
        entry ∈ listEntriesFn ((pronunciation.take j).drop i) ∧
        lattice.heap[ref]? = some { entry }

/-- The table is filled without an error. -/
theorem createNodes_filled (listEntriesFn : Str → List ε) (beginEntry endEntry : ε)
    (pronunciation : Str) :
    ∃ lattice : Lattice (Node ε G), createNodes (fun ent => { entry := ent }) listEntriesFn none
        pronunciation (endTable beginEntry endEntry pronunciation.length) = some lattice ∧
      Filled listEntriesFn beginEntry endEntry pronunciation lattice := by
  have hends : (endTable beginEntry endEntry pronunciation.length : Lattice (Node ε G)).Holds
      [(-2, -1, [{ entry := beginEntry, scoreSoFar := some 0 }]),
        (-1, 0, [{ entry := beginEntry }]),
        ((pronunciation.length : Int), (pronunciation.length : Int) + 1,
          [{ entry := endEntry }])] :=
    ((Lattice.holds_empty.push _ _ _).push _ _ _).push _ _ _
  obtain ⟨lattice, hcreate, hholds, hext⟩ :=
    createNodes_holds (fun ent => { entry := ent }) listEntriesFn none pronunciation hends
  have hmade : ∀ {start stop nodes}, (start, stop, nodes) ∈
      ([(-2, -1, [{ entry := beginEntry, scoreSoFar := some 0 }]),
        (-1, 0, [{ entry := beginEntry }]),
        ((pronunciation.length : Int), (pronunciation.length : Int) + 1,
          [{ entry := endEntry }])] ++
          createdGroups (fun ent => { entry := ent }) listEntriesFn none pronunciation :
        List (Group (Node ε G))) →
      start < stop ∧ (1 ≤ stop → 0 ≤ start) := by
    intro start stop nodes hmem
    simp only [List.cons_append, List.nil_append, List.mem_cons, Prod.mk.injEq] at hmem
    rcases hmem with ⟨rfl, rfl, -⟩ | ⟨rfl, rfl, -⟩ | ⟨rfl, rfl, -⟩ | hcreated
    · omega
    · omega
    · omega
    · obtain ⟨i, j, rfl, rfl, hij, -⟩ := mem_createdGroups.mp hcreated
      omega
  refine ⟨lattice, hcreate, hholds.graded fun h => (hmade h).1, ?_, ?_, ?_, ?_, ?_, ?_⟩
  · obtain ⟨ref, hcell, -⟩ := hholds.cell_of_node (List.mem_append_left _
      (List.mem_cons_self ..)) (List.mem_singleton_self _)
    exact ⟨ref, hcell⟩
  · obtain ⟨ref, hcell, -⟩ := hholds.cell_of_node (List.mem_append_left _
      (List.mem_cons_of_mem _ (List.mem_cons_self ..))) (List.mem_singleton_self _)
    exact ⟨ref, hcell⟩
  · refine ⟨hext.cell ⟨[2], ?_, List.mem_singleton_self 2⟩, hext.heap rfl⟩
    exact Lattice.mem_groups_push.mpr (Or.inl ⟨rfl, rfl, rfl⟩)
  · intro i j entry hij hj hentry
    refine hholds.cell_of_node (List.mem_append_right _ (mem_createdGroups.mpr
      ⟨i, j, rfl, rfl, hij, hj, rfl, rfl⟩)) (List.mem_map_of_mem hentry)
  · intro start stop nodes hgroup hstop
    obtain ⟨nodes', hmem, -⟩ := hholds.mem_of hgroup
    exact ⟨(hmade hmem).2 hstop, (hmade hmem).1⟩
  · intro start stop ref hcell
    obtain ⟨node, nodes, hnode, hmem, hin⟩ := hholds.node_of_cell hcell
    simp only [List.cons_append, List.nil_append, List.mem_cons, Prod.mk.injEq] at hmem
    rcases hmem with ⟨rfl, rfl, rfl⟩ | ⟨rfl, rfl, rfl⟩ | ⟨rfl, rfl, rfl⟩ | hcreated
    · cases List.mem_singleton.mp hin
      exact Or.inl ⟨rfl, rfl, hnode⟩
    · cases List.mem_singleton.mp hin
      exact Or.inr (Or.inl ⟨rfl, rfl, hnode⟩)
    · cases List.mem_singleton.mp hin
      exact Or.inr (Or.inr (Or.inl ⟨rfl, rfl, hnode⟩))
    · obtain ⟨i, j, rfl, rfl, hij, hj, -, rfl⟩ := mem_createdGroups.mp hcreated
      obtain ⟨entry, hentry, rfl⟩ := List.mem_map.mp hin
      exact Or.inr (Or.inr (Or.inr ⟨i, j, entry, rfl, rfl, hij, hj, hentry, hnode⟩))

/-- There is a node that ends at any position of the pronunciation. -/
theorem Filled.exists_cell (h : Filled listEntriesFn beginEntry endEntry pronunciation lattice)
    (hentries : HasEntries listEntriesFn pronunciation) {i : Nat} (hi : i ≤ pronunciation.length) :
    ∃ ref, lattice.Cell ((i : Int) - 1) i ref := by
  cases i with
  | zero => exact h.begin1
  | succ i =>
      obtain ⟨entry, hentry⟩ := hentries.exists_entry (Nat.lt_of_succ_le hi)
      obtain ⟨ref, hcell, -⟩ := h.created (Nat.lt_succ_self i) hi hentry
      have hcast : ((i + 1 : Nat) : Int) - 1 = i := by omega
      exact ⟨ref, hcast ▸ hcell⟩

/-- A filled table is ready for the dynamic programming. -/
theorem Filled.initial (h : Filled listEntriesFn beginEntry endEntry pronunciation lattice)
    (hentries : HasEntries listEntriesFn pronunciation) : Initial lattice where
  toGraded := h.toGraded
  group := h.group
  node := by
    intro start stop ref hcell
    rcases h.cases hcell with ⟨-, -, hn⟩ | ⟨-, -, hn⟩ | ⟨-, -, hn⟩ |
      ⟨_, _, _, -, -, -, -, -, hn⟩
    · exact ⟨_, hn⟩
    · exact ⟨_, hn⟩
    · exact ⟨_, hn⟩
    · exact ⟨_, hn⟩
  unscored := by
    intro start ref n hcell hn
    rcases h.cases hcell with ⟨-, hstop, -⟩ | ⟨-, -, hn'⟩ | ⟨-, hstop, -⟩ |
      ⟨i, j, _, -, hstop, hij, -⟩
    · omega
    · cases hn.symm.trans hn'
      rfl
    · omega
    · omega
  scored := by
    intro start ref hcell
    rcases h.cases hcell with ⟨-, -, hn⟩ | ⟨-, hstop, -⟩ | ⟨-, hstop, -⟩ | ⟨i, j, _, -, hstop, -⟩
    · exact ⟨_, _, hn, rfl⟩
    · omega
    · omega
    · omega
  begin := by
    intro start ref hcell
    rcases h.cases hcell with ⟨-, hstop, -⟩ | ⟨hstart, -⟩ | ⟨-, hstop, -⟩ |
      ⟨i, j, _, -, hstop, hij, -⟩
    · omega
    · exact hstart
    · omega
    · omega
  fresh := by
    intro start stop ref hcell hone
    rcases h.cases hcell with ⟨-, hstop, -⟩ | ⟨-, hstop, -⟩ | ⟨-, -, hn⟩ |
      ⟨_, _, _, -, -, -, -, -, hn⟩
    · omega
    · omega
    · exact ⟨_, hn, rfl⟩
    · exact ⟨_, hn, rfl⟩
  connected := by
    intro start stop ref hcell hone
    have hstart : ∃ i : Nat, start = i ∧ i ≤ pronunciation.length := by
      rcases h.cases hcell with ⟨-, hstop, -⟩ | ⟨-, hstop, -⟩ | ⟨rfl, -⟩ |
        ⟨i, j, _, rfl, -, hij, hj, -⟩
      · omega
      · omega
      · exact ⟨_, rfl, le_rfl⟩
      · exact ⟨i, rfl, by omega⟩
    obtain ⟨i, rfl, hi⟩ := hstart
    obtain ⟨prev1, hcell1⟩ := h.exists_cell hentries hi
    cases i with
    | zero =>
        obtain ⟨prev2, hcell2⟩ := h.begin2
        exact ⟨-1, -2, prev1, prev2, hcell1, hcell2⟩
    | succ i =>
        obtain ⟨prev2, hcell2⟩ := h.exists_cell hentries (Nat.le_of_succ_le hi)
        have hcast : ((i + 1 : Nat) : Int) - 1 = i := by omega
        exact ⟨i, _, prev1, prev2, hcast ▸ hcell1, hcell2⟩

/-! ## Scores and segmentations -/

variable {scoreFn : ε → ε → ε → G}

/-- The chain before a node is a segmentation of the prefix before it, with the score
of the node.  The induction is on the position where the node starts. -/
theorem exists_chain (h : Filled listEntriesFn beginEntry endEntry pronunciation lattice)
    (hbegin : ∀ subPron, subPron <:+: pronunciation → beginEntry ∉ listEntriesFn subPron)
    (hheap : FinalBelow scoreFn lattice (pronunciation.length + 2) heap) (i : Nat) :
    ∀ {stop : Int} {ref : Nat} {n : Node ε G} {v : G}, i ≤ pronunciation.length →
      lattice.Cell i stop ref → heap[ref]? = some n → n.scoreSoFar = some v →
      ∃ prev1 prev2 rest entries, n.prev1Node = some prev1 ∧ n.prev2Node = some prev2 ∧
        Chain heap beginEntry (prev1 :: prev2 :: rest) entries ∧ rest.length ≤ i ∧
        Segmentation listEntriesFn (pronunciation.take i) entries ∧
        v = pathScore₂ scoreFn beginEntry beginEntry (entries ++ [n.entry]) := by
  induction i using Nat.strongRecOn with
  | ind i ih =>
      intro stop ref n v hi hcell hn hv
      have hlt := h.lt hcell
      have hstop : stop < (pronunciation.length : Int) + 2 := by
        rcases h.cases hcell with ⟨-, hs, -⟩ | ⟨-, hs, -⟩ | ⟨-, hs, -⟩ |
          ⟨_, j, _, -, hs, -, hj, -⟩
        · omega
        · omega
        · omega
        · omega
      obtain ⟨prev1, prev2, prev1Start, prev2Start, p1, p2, u, hprev1, hprev2, hcell1, hcell2, hp1,
        hp2, rfl, hlinks⟩ := hheap.linked hcell (by omega) hstop n v hn hv
      rcases h.cases hcell1 with ⟨-, hs, -⟩ | ⟨rfl, hs, hnode1⟩ | ⟨-, hs, -⟩ |
        ⟨i', j, entry, rfl, hs, hij, -, hentry, hnode1⟩
      · omega
      · -- The node is the first after the begin of the sentence.
        obtain rfl : i = 0 := by omega
        rw [hheap.same hcell1 (Or.inl le_rfl), hnode1] at hp1
        cases hp1
        rcases h.cases hcell2 with ⟨-, -, hnode2⟩ | ⟨-, hs2, -⟩ | ⟨-, hs2, -⟩ | ⟨_, _, _, -, hs2, -⟩
        · rw [hheap.same hcell2 (Or.inl (by omega)), hnode2] at hp2
          cases hp2
          rcases hlinks with ⟨hu, -⟩ | ⟨-, hu⟩
          · cases hu
          cases hu
          refine ⟨prev1, prev2, [], [], hprev1, hprev2, ?_, le_rfl, Segmentation.nil, ?_⟩
          · exact .base ((hheap.same hcell1 (Or.inl le_rfl)).trans hnode1) rfl rfl
              ((hheap.same hcell2 (Or.inl (by omega))).trans hnode2) rfl rfl
          · rw [List.nil_append, pathScore₂, pathScore₂, zero_add, add_zero]
        · omega
        · omega
        · omega
      · omega
      · -- The node before it is one of the pronunciation, so it has a score.
        obtain rfl : i = j := by omega
        obtain ⟨p1', hp1', hscored⟩ := hheap.scored hcell1 (by omega) (by omega)
        cases hp1.symm.trans hp1'
        rcases hlinks with ⟨hu, hlink⟩ | ⟨hnone, -⟩
        · obtain ⟨r1, r2, rest, entries, hr1, hr2, hchain, hrest, hsegmentation, rfl⟩ :=
            ih i' hij (by omega) hcell1 hp1 hu
          obtain rfl : prev2 = r1 := Option.some.inj (hlink.symm.trans hr1)
          obtain ⟨p1', hp1', hp1entry, -⟩ := hheap.keeps prev1 _ hnode1
          cases hp1.symm.trans hp1'
          obtain ⟨p2', hp2', hp2entry⟩ := hchain.entry
          cases hp2.symm.trans hp2'
          have hne : p1.entry ≠ beginEntry := by
            rw [hp1entry]
            rintro rfl
            exact hbegin _ ((List.drop_suffix _ _).isInfix.trans (List.take_prefix _ _).isInfix)
              hentry
          refine ⟨prev1, prev2, r2 :: rest, entries ++ [p1.entry], hprev1, hprev2,
            .step hchain hp1 hr1 hr2 hne, ?_, ?_, ?_⟩
          · rw [List.length_cons]
            omega
          · exact hsegmentation.take_snoc hij hi (hp1entry ▸ hentry)
          · rw [pathScore₂_snoc scoreFn n.entry, ← List.cons_append, List.dropLast_concat,
              List.getLastD_concat, List.getLastD_cons, hp2entry]
        · exact absurd hnone hscored

/-- `backtrack` from the end node reads a segmentation, and the end node has its score. -/
theorem exists_backtrack [DecidableEq ε]
    (h : Filled listEntriesFn beginEntry endEntry pronunciation lattice)
    (hbegin : ∀ subPron, subPron <:+: pronunciation → beginEntry ∉ listEntriesFn subPron)
    (hheap : FinalBelow scoreFn lattice (pronunciation.length + 2) heap) :
    ∃ node prev1 prev2 rest refs nodes, heap[endNode]? = some node ∧ node.entry = endEntry ∧
      node.prev1Node = some prev1 ∧ node.prev2Node = some prev2 ∧
      Chain heap beginEntry (prev1 :: prev2 :: rest) (nodes.map Node.entry) ∧
      backtrack heap beginEntry (pronunciation.length + 1) prev1 prev2 [] = some refs ∧
      refs.mapM (fun ref => heap[ref]?) = some nodes ∧
      Segmentation listEntriesFn pronunciation (nodes.map Node.entry) ∧
      node.scoreSoFar =
        some (pathScore₂ scoreFn beginEntry beginEntry (nodes.map Node.entry ++ [node.entry])) := by
  obtain ⟨hlast, hlastNode⟩ := h.last
  obtain ⟨node, hnode, hnodeEntry, -⟩ := hheap.keeps endNode _ hlastNode
  obtain ⟨node', hnode', hscored⟩ := hheap.scored hlast (by omega) (by omega)
  cases hnode.symm.trans hnode'
  obtain ⟨v, hv⟩ := Option.ne_none_iff_exists'.mp hscored
  obtain ⟨prev1, prev2, rest, entries, hprev1, hprev2, hchain, hrest, hsegmentation, rfl⟩ :=
    exists_chain h hbegin hheap pronunciation.length le_rfl hlast hnode hv
  obtain ⟨refs, nodes, hbacktrack, hnodes, rfl⟩ :=
    hchain.backtrack_eq (pronunciation.length + 1) [] (by omega)
  rw [List.take_length] at hsegmentation
  rw [List.append_nil] at hbacktrack
  exact ⟨node, prev1, prev2, rest, refs, nodes, hnode, hnodeEntry, hprev1, hprev2, hchain,
    hbacktrack, hnodes, hsegmentation, hv⟩

end Table

/-- The conversion is a segmentation of the pronunciation, the end node has its
score, and no error is signalled. -/
theorem execute_path [AddCommGroup G] [LinearOrder G] [DecidableEq ε] (scoreFn : ε → ε → ε → G)
    (listEntriesFn : Str → List ε) (beginEntry endEntry : ε) (pronunciation : Str)
    (hentries : HasEntries listEntriesFn pronunciation)
    (hbegin : ∀ subPron, subPron <:+: pronunciation → beginEntry ∉ listEntriesFn subPron) :
    ∃ entries node lattice,
      execute pronunciation beginEntry endEntry scoreFn listEntriesFn none =
        some (entries, node, lattice) ∧
      Segmentation listEntriesFn pronunciation entries ∧
      node.scoreSoFar =
        some (pathScore₂ scoreFn beginEntry beginEntry (entries ++ [endEntry])) := by
  obtain ⟨lattice, hcreate, hfilled⟩ : ∃ lattice : Lattice (Node ε G), _ :=
    createNodes_filled listEntriesFn beginEntry endEntry pronunciation
  obtain ⟨heap, hdp, hheap⟩ := dp_final scoreFn (hfilled.initial hentries) pronunciation.length
  obtain ⟨node, prev1, prev2, rest, refs, nodes, hnode, hnodeEntry, hprev1, hprev2, -, hbacktrack,
    hnodes, hsegmentation, hv⟩ := exists_backtrack hfilled hbegin hheap
  refine ⟨nodes.map Node.entry, node, { lattice with heap }, ?_, hsegmentation, ?_⟩
  · have hclip : clipBoundaryIndex none = none := rfl
    simp only [execute, hclip, hcreate, hdp, hnode, hprev1, hprev2, hbacktrack, hnodes,
      Option.bind_eq_bind, Option.bind_some, Option.pure_def]
  · rw [hv, hnodeEntry]

/-- Three characters, and a score that prefers to convert them one by one. -/
theorem execute_path_kana :
    let scoreFn : Str → Str → Str → Int := fun entry _ _ => if entry.length = 1 then 1 else 0
    let result := execute ['か', 'な', 'だ'] ['^'] ['$'] scoreFn (fun subPron => [subPron]) none
    result.map Prod.fst = some [['か'], ['な'], ['だ']] ∧
      ∃ entries node lattice, result = some (entries, node, lattice) ∧
        Segmentation (fun subPron => [subPron]) ['か', 'な', 'だ'] entries ∧
        node.scoreSoFar = some (pathScore₂ scoreFn ['^'] ['^'] (entries ++ [['$']])) := by
  intro scoreFn result
  have hentries : HasEntries (fun subPron : Str => [subPron]) ['か', 'な', 'だ'] :=
    fun _ _ _ _ => List.cons_ne_nil _ _
  have hbegin : ∀ subPron, subPron <:+: ['か', 'な', 'だ'] → ['^'] ∉ [subPron] := by
    rintro subPron hinfix hmem
    cases List.mem_singleton.mp hmem
    exact absurd hinfix (by decide)
  exact ⟨rfl, execute_path scoreFn _ ['^'] ['$'] ['か', 'な', 'だ'] hentries hbegin⟩

end Hachee.Kkc.Convert.Viterbi3gram
