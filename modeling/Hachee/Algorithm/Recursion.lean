import Hachee.Algorithm.Contract
import Hachee.Algorithm.CycleSearch
import Hachee.Algorithm.Expansion

/-!
# From a graph to the contracted one

`solve` is called for a graph in which every vertex is reached from the root
(`Rooted`).  Then every vertex but the root has a best edge, and either these edges
are a tree (`Parents.isTree`) or there is a cycle among them.  In the second case the
tables hold the contracted graph (`Contracts.contraction`), and it is again one that
`solve` can be called for, with fewer vertices (`Contracts.rooted`).
-/

namespace Hachee.Algorithm.ChuLiuEdmonds

open Lisp Foundation Loop Arborescence Contraction

variable {R : Type} [Ring R] [LinearOrder R]

/-- Different vertices within the array, and no negative scores. -/
structure Graph (numVertices : Nat) (scoreHash : ScoreHash R) (currentVertices : List Vertex) :
    Prop where
  nodup : currentVertices.Nodup
  bound : ∀ v ∈ currentVertices, 0 ≤ v ∧ v < numVertices
  nonneg : ∀ u ∈ currentVertices, ∀ v ∈ currentVertices, u ≠ v →
    ∀ s, getScore scoreHash u v = some s → 0 ≤ s

/-- A graph in which every vertex is reached from the root. -/
structure Rooted (numVertices : Nat) (scoreHash : ScoreHash R) (currentVertices : List Vertex) :
    Prop where
  nodup : currentVertices.Nodup
  bound : ∀ v ∈ currentVertices, 0 ≤ v ∧ v < numVertices
  nonneg : ∀ u ∈ currentVertices, ∀ v ∈ currentVertices, u ≠ v →
    ∀ s, getScore scoreHash u v = some s → 0 ≤ s
  reach : ∀ v ∈ currentVertices.toFinset,
    Relation.ReflTransGen (Linked (getScore scoreHash) currentVertices.toFinset) 0 v

/-- When it is enough to look at the scores that there are. -/
theorem nonneg_of_getD {scoreHash : ScoreHash R} {currentVertices : List Vertex}
    (h : ∀ u ∈ currentVertices, ∀ v ∈ currentVertices, 0 ≤ (getScore scoreHash u v).getD 0) :
    ∀ u ∈ currentVertices, ∀ v ∈ currentVertices, ∀ s, getScore scoreHash u v = some s → 0 ≤ s := by
  intro u hu v hv s hs
  have hle := h u hu v hv
  rwa [hs] at hle

variable {numVertices : Nat} {scoreHash : ScoreHash R} {currentVertices : List Vertex}

theorem Rooted.graph (h : Rooted numVertices scoreHash currentVertices) :
    Graph numVertices scoreHash currentVertices where
  nodup := h.nodup
  bound := h.bound
  nonneg := h.nonneg

/-! ## The best edges -/

theorem Graph.notMem_neg_one (h : Graph numVertices scoreHash currentVertices) :
    -1 ∉ currentVertices :=
  fun hmem => absurd (h.bound (-1) hmem).1 (by decide)

/-- Every vertex but the root has its best edge from its parent, if an edge enters it. -/
structure BestParents (scoreHash : ScoreHash R) (currentVertices : List Vertex)
    (parent : Vertex → Vertex) : Prop where
  root : parent 0 = -1
  found : ∀ v ∈ currentVertices, parent v ≠ -1 →
    parent v ∈ currentVertices ∧ parent v ≠ v ∧
      Best (getScore scoreHash) currentVertices.toFinset parent v
  missing : ∀ v ∈ currentVertices, v ≠ 0 → parent v = -1 →
    ∀ u ∈ currentVertices, u ≠ v → getScore scoreHash u v = none

/-- It is what the search finds. -/
theorem Graph.bestParents [IsStrictOrderedRing R]
    (h : Graph numVertices scoreHash currentVertices) :
    BestParents scoreHash currentVertices (bestParent scoreHash currentVertices) := by
  have hsearch : ∀ v ∈ currentVertices, v ≠ 0 → _ := fun v hv hne =>
    bestParent_spec hne fun j hj hji => h.nonneg j hj v hv hji
  refine ⟨if_pos rfl, fun v hv hparent => ?_, fun v hv hne hparent => ?_⟩
  · have hne : v ≠ 0 := by
      rintro rfl
      exact hparent (if_pos rfl)
    cases hsearch v hv hne with
    | inl hnone => exact absurd hnone.1 hparent
    | inr hsome =>
        obtain ⟨hmem, hself, s, hs, hmax⟩ := hsome
        refine ⟨hmem, hself, s, hs, fun u hu huv t ht => ?_⟩
        exact hmax u (List.mem_toFinset.mp hu) huv t ht
  · cases hsearch v hv hne with
    | inl hnone => exact hnone.2
    | inr hsome => exact absurd (hparent ▸ hsome.1) h.notMem_neg_one

/-- Every vertex but the root has its best edge from its parent. -/
structure Parents (scoreHash : ScoreHash R) (currentVertices : List Vertex)
    (parent : Vertex → Vertex) : Prop where
  root : parent 0 = -1
  mem : ∀ v ∈ currentVertices, v ≠ 0 → parent v ∈ currentVertices
  ne : ∀ v ∈ currentVertices, v ≠ 0 → parent v ≠ v
  best : ∀ v ∈ currentVertices, v ≠ 0 →
    Best (getScore scoreHash) currentVertices.toFinset parent v

/-- The search finds an edge, as every vertex is reached. -/
theorem Rooted.parents [IsStrictOrderedRing R]
    (h : Rooted numVertices scoreHash currentVertices) :
    Parents scoreHash currentVertices (bestParent scoreHash currentVertices) := by
  have hbest := h.graph.bestParents
  have hparent : ∀ v ∈ currentVertices, v ≠ 0 → bestParent scoreHash currentVertices v ≠ -1 := by
    intro v hv hne heq
    cases (h.reach v (List.mem_toFinset.mpr hv)).cases_tail with
    | inl hroot => exact hne hroot
    | inr hlast =>
        obtain ⟨u, -, hu, -, huv, s, hs⟩ := hlast
        rw [hbest.missing v hv hne heq u (List.mem_toFinset.mp hu) huv] at hs
        cases hs
  exact ⟨hbest.root, fun v hv hne => (hbest.found v hv (hparent v hv hne)).1,
    fun v hv hne => (hbest.found v hv (hparent v hv hne)).2.1,
    fun v hv hne => (hbest.found v hv (hparent v hv hne)).2.2⟩

variable {parent : Vertex → Vertex} {front : List Vertex}

theorem Parents.bestParents (hp : Parents scoreHash currentVertices parent)
    (h : Graph numVertices scoreHash currentVertices) :
    BestParents scoreHash currentVertices parent where
  root := hp.root
  found := by
    intro v hv hparent
    have hne : v ≠ 0 := fun heq => hparent (heq ▸ hp.root)
    exact ⟨hp.mem v hv hne, hp.ne v hv hne, hp.best v hv hne⟩
  missing := fun v hv hne hparent => absurd (hparent ▸ hp.mem v hv hne) h.notMem_neg_one

omit [Ring R] in
theorem BestParents.fronts (hp : BestParents scoreHash currentVertices parent)
    (hfront : ∀ i ∈ currentVertices, aref front i = some (parent i)) :
    Fronts front currentVertices parent where
  aref := hfront
  source := fun i hi => (em (parent i = -1)).imp_right fun hne => (hp.found i hi hne).1

/-- Without a cycle, the best edges are a tree. -/
theorem Parents.isTree (hp : Parents scoreHash currentVertices parent)
    (h : Rooted numVertices scoreHash currentVertices)
    (hstops : ∀ v ∈ currentVertices, Stops currentVertices parent v) :
    IsTree (getScore scoreHash) currentVertices.toFinset 0 parent := by
  have hclimb : ∀ v, Stops currentVertices parent v → v ∈ currentVertices →
      Climbs parent 0 currentVertices.toFinset v := by
    intro v hv
    induction hv with
    | here => exact fun hmem => absurd hmem h.graph.notMem_neg_one
    | @up v hv _ ih =>
        intro _
        by_cases hne : v = 0
        · rw [hne]
          exact Climbs.here
        · exact Climbs.up (List.mem_toFinset.mpr hv) (ih (hp.mem v hv hne))
  refine ⟨fun v hv hne => ?_, fun v hv hne => ?_, fun v hv => ?_⟩
  · exact List.mem_toFinset.mpr (hp.mem v (List.mem_toFinset.mp hv) hne)
  · obtain ⟨s, hs, -⟩ := hp.best v (List.mem_toFinset.mp hv) hne
    exact ⟨s, hs⟩
  · have hv := List.mem_toFinset.mp hv
    exact hclimb v (hstops v hv) hv

/-! ## The cycle -/

/-- The keys of the table of a cycle: its vertices, in some order. -/
structure Round (currentVertices : List Vertex) (parent : Vertex → Vertex)
    (cycleVertices : List Vertex) : Prop where
  nodup : cycleVertices.Nodup
  subset : ∀ c ∈ cycleVertices, c ∈ currentVertices
  closed : ∀ c ∈ cycleVertices, parent c ∈ cycleVertices
  cyclic : ∀ a ∈ cycleVertices, ∀ c ∈ cycleVertices, Climbs parent a {v | v ∈ cycleVertices} c

omit R [Ring R] [LinearOrder R] in
/-- In whatever order the keys of the table are. -/
theorem IsCycle.round {cycle : Cycle} (h : IsCycle currentVertices parent cycle)
    {cycleVertices : List Vertex} (hperm : cycleVertices.Perm (cycle.map Prod.fst)) :
    Round currentVertices parent cycleVertices ∧ cycleVertices ≠ [] ∧
      cycle.Perm (cycleVertices.map fun v => (parent v, v)) := by
  obtain ⟨xs, l, hcircuit, hsubset, hentries⟩ := h
  have hkeys : (cycle.map Prod.fst).Perm ((xs ++ [l]).map parent) := by
    have hmap := hentries.map Prod.fst
    rw [List.map_map] at hmap
    exact hmap
  have hvertices : cycleVertices.Perm (xs ++ [l]) :=
    (hperm.trans hkeys).trans hcircuit.map_perm
  have hset : {v | v ∈ cycleVertices} = {v | v ∈ xs ++ [l]} := by
    ext v
    exact hvertices.mem_iff
  refine ⟨⟨?_, fun c hc => ?_, fun c hc => ?_, fun a ha c hc => ?_⟩, ?_, ?_⟩
  · exact hvertices.nodup_iff.mpr hcircuit.nodup
  · exact hsubset c (hvertices.mem_iff.mp hc)
  · refine hvertices.mem_iff.mpr (hcircuit.map_perm.mem_iff.mp ?_)
    exact List.mem_map_of_mem (hvertices.mem_iff.mp hc)
  · rw [hset]
    exact hcircuit.climbs (hvertices.mem_iff.mp ha) (hvertices.mem_iff.mp hc)
  · rintro rfl
    have hnil := hvertices.symm.eq_nil
    exact absurd hnil (List.append_ne_nil_of_right_ne_nil xs (List.cons_ne_nil l []))
  · exact hentries.trans (hvertices.symm.map _)

variable {cycleVertices : List Vertex}

/-- A vertex of a cycle has a parent. -/
theorem Round.parent_ne (hround : Round currentVertices parent cycleVertices)
    (h : Graph numVertices scoreHash currentVertices) {c : Vertex} (hc : c ∈ cycleVertices) :
    parent c ≠ -1 := by
  intro heq
  exact h.notMem_neg_one (heq ▸ hround.subset _ (hround.closed c hc))

/-- The root is on no cycle. -/
theorem BestParents.root_notMem (hp : BestParents scoreHash currentVertices parent)
    (h : Graph numVertices scoreHash currentVertices)
    (hround : Round currentVertices parent cycleVertices) : 0 ∉ cycleVertices :=
  fun hmem => hround.parent_ne h hmem hp.root

/-! ## The vertices that are left -/

omit R [Ring R] [LinearOrder R] in
theorem removeCycle_eq (representing : Vertex) : ∀ (cycleVertices currentVertices : List Vertex),
    removeCycle cycleVertices representing currentVertices =
      currentVertices.filter fun v => v = representing ∨ v ∉ cycleVertices
  | [], currentVertices => by
      have hall : (fun v : Vertex => decide (v = representing ∨ v ∉ ([] : List Vertex))) =
          fun _ => true := by
        funext v
        exact decide_eq_true (Or.inr List.not_mem_nil)
      rw [hall, List.filter_true]
      rfl
  | c :: cycleVertices, currentVertices => by
      rw [removeCycle, List.foldl_cons]
      by_cases hne : c ≠ representing
      · rw [if_pos hne]
        refine (removeCycle_eq representing cycleVertices _).trans ?_
        rw [List.filter_filter]
        refine List.filter_congr fun v _ => ?_
        rw [← Bool.decide_and, decide_eq_decide, List.mem_cons, not_or]
        constructor
        · rintro ⟨heq | hv, hvc⟩
          · exact Or.inl heq
          · exact Or.inr ⟨hvc, hv⟩
        · rintro (rfl | ⟨hvc, hv⟩)
          · exact ⟨Or.inl rfl, hne.symm⟩
          · exact ⟨Or.inr hv, hvc⟩
      · rw [if_neg hne]
        refine (removeCycle_eq representing cycleVertices _).trans ?_
        refine List.filter_congr fun v _ => ?_
        rw [decide_eq_decide, List.mem_cons, not_or]
        rw [not_not] at hne
        subst hne
        constructor
        · rintro (heq | hv)
          · exact Or.inl heq
          · exact (em (v = c)).imp_right fun h => ⟨h, hv⟩
        · rintro (heq | ⟨-, hv⟩)
          · exact Or.inl heq
          · exact Or.inr hv

omit R [Ring R] [LinearOrder R] in
theorem mem_removeCycle {representing v : Vertex} :
    v ∈ removeCycle cycleVertices representing currentVertices ↔
      v ∈ currentVertices ∧ (v = representing ∨ v ∉ cycleVertices) := by
  rw [removeCycle_eq, List.mem_filter, decide_eq_true_iff]

omit R [Ring R] [LinearOrder R] in
/-- They are the vertices of the contracted graph. -/
theorem toFinset_removeCycle {representing : Vertex} (hrep : representing ∈ currentVertices) :
    (removeCycle cycleVertices representing currentVertices).toFinset =
      contracted currentVertices.toFinset cycleVertices.toFinset representing := by
  ext v
  rw [List.mem_toFinset, mem_removeCycle, mem_contracted, List.mem_toFinset, List.mem_toFinset]
  constructor
  · rintro ⟨hv, heq | hoff⟩
    · exact Or.inl heq
    · exact Or.inr ⟨hv, hoff⟩
  · rintro (rfl | ⟨hv, hoff⟩)
    · exact ⟨hrep, Or.inl rfl⟩
    · exact ⟨hv, Or.inr hoff⟩

omit R [Ring R] [LinearOrder R] in
/-- They are fewer than before when the cycle has another vertex. -/
theorem length_removeCycle_lt {representing c : Vertex} (hcurrent : c ∈ currentVertices)
    (hc : c ∈ cycleVertices) (hne : c ≠ representing) :
    (removeCycle cycleVertices representing currentVertices).length < currentVertices.length := by
  rw [removeCycle_eq, List.length_filter_lt_length_iff_exists]
  refine ⟨c, hcurrent, fun hkept => ?_⟩
  exact (of_decide_eq_true hkept).elim hne fun hoff => hoff hc

/-! ## The weight of the cycle -/

omit [LinearOrder R] in
theorem sumCycle_eq {cost : Vertex → R}
    (hcosts : Costs scoreHash front cycleVertices parent cost) (hnodup : cycleVertices.Nodup) :
    sumCycle scoreHash front cycleVertices = some (∑ c ∈ cycleVertices.toFinset, cost c) := by
  have hturn : ∀ i ∈ cycleVertices, ∀ sum : R, (do
      let parent ← aref front i
      let score ← getScore scoreHash parent i
      some (sum + score)) = some (sum + cost i) := by
    intro i hi sum
    simp only [Option.bind_eq_bind, Option.bind_some, hcosts.aref i hi, hcosts.score i hi]
  rw [sumCycle, foldlM_eq_some cycleVertices hturn, List.sum_toFinset _ hnodup,
    List.sum_eq_foldl, List.foldl_map]

/-- The weight of the edge that enters a vertex. -/
abbrev cost (scoreHash : ScoreHash R) (parent : Vertex → Vertex) : Vertex → R :=
  weight (getScore scoreHash) parent

/-- The array and the table hold the best edges of the cycle. -/
theorem BestParents.costs (hp : BestParents scoreHash currentVertices parent)
    (h : Graph numVertices scoreHash currentVertices)
    (hround : Round currentVertices parent cycleVertices)
    (hfront : ∀ i ∈ currentVertices, aref front i = some (parent i)) :
    Costs scoreHash front cycleVertices parent (cost scoreHash parent) where
  aref := fun c hc => hfront c (hround.subset c hc)
  mem := hround.closed
  score := by
    intro c hc
    obtain ⟨-, -, s, hs, -⟩ := hp.found c (hround.subset c hc) (hround.parent_ne h hc)
    rw [hs, cost, weight_eq hs]

variable [IsStrictOrderedRing R]

/-- The weight of the cycle makes up for the edge that is taken away. -/
theorem BestParents.crossing_nonneg (hp : BestParents scoreHash currentVertices parent)
    (h : Graph numVertices scoreHash currentVertices)
    (hround : Round currentVertices parent cycleVertices) {i : Vertex}
    (hi : i ∈ off cycleVertices currentVertices) :
    Nonneg scoreHash cycleVertices (∑ c ∈ cycleVertices.toFinset, cost scoreHash parent c)
      (cost scoreHash parent) i := by
  obtain ⟨hcurrent, hoff⟩ := mem_off.mp hi
  have hne : ∀ j ∈ cycleVertices, j ≠ i := fun j hj heq => hoff (heq ▸ hj)
  have hcost : ∀ c ∈ cycleVertices.toFinset, 0 ≤ cost scoreHash parent c := by
    intro c hc
    have hc := List.mem_toFinset.mp hc
    have hcv := hround.subset c hc
    obtain ⟨hmem, hself, s, hs, -⟩ := hp.found c hcv (hround.parent_ne h hc)
    rw [cost, weight_eq hs]
    exact h.nonneg _ hmem c hcv hself s hs
  constructor
  · intro j hj s hs
    exact h.nonneg j (hround.subset j hj) i hcurrent (hne j hj) s hs
  · intro j hj s hs
    obtain ⟨t, ht, rfl⟩ := arriving_eq_some.mp hs
    have ht0 : 0 ≤ t := h.nonneg i hcurrent j (hround.subset j hj) (hne j hj).symm t ht
    have hle := Finset.single_le_sum hcost (List.mem_toFinset.mpr hj)
    rw [add_right_comm, ← sub_eq_add_neg]
    exact add_nonneg (sub_nonneg.mpr hle) ht0

/-! ## The contracted graph -/

/-- The real end that a table holds. -/
def noted (table : HashTable Vertex Vertex) (i : Vertex) : Vertex := (table.gethash i).getD 0

omit R [Ring R] [LinearOrder R] [IsStrictOrderedRing R] in
theorem noted_eq {table : HashTable Vertex Vertex} {i a : Vertex}
    (h : table.gethash i = some a) : noted table i = a := by
  rw [noted, h]
  rfl

/-- The tables hold what the loop over all vertices writes for the cycle. -/
structure Contracts (scoreHash : ScoreHash R) (currentVertices cycleVertices : List Vertex)
    (parent : Vertex → Vertex) (representing : Vertex) (tables : Tables R) : Prop where
  crosses : ∀ i ∈ off cycleVertices currentVertices,
    Crosses scoreHash cycleVertices (∑ c ∈ cycleVertices.toFinset, cost scoreHash parent c)
      (cost scoreHash parent) representing i tables
  keeps : ∀ u v, u ∉ cycleVertices → v ∉ cycleVertices →
    getScore tables.scoreHash u v = getScore scoreHash u v

omit R [Ring R] [LinearOrder R] [IsStrictOrderedRing R] in
theorem mem_off_of_toFinset {i : Vertex} (hi : i ∈ currentVertices.toFinset)
    (hC : i ∉ cycleVertices.toFinset) : i ∈ off cycleVertices currentVertices :=
  mem_off.mpr ⟨List.mem_toFinset.mp hi, fun hmem => hC (List.mem_toFinset.mpr hmem)⟩

variable {representing : Vertex} {tables : Tables R}

/-- The loop over all vertices does not fail. -/
theorem BestParents.exists_contracts (hp : BestParents scoreHash currentVertices parent)
    (h : Graph numVertices scoreHash currentVertices)
    (hround : Round currentVertices parent cycleVertices)
    (hfront : ∀ i ∈ currentVertices, aref front i = some (parent i))
    (hrep : representing ∈ cycleVertices) :
    ∃ tables, contract scoreHash front (∑ c ∈ cycleVertices.toFinset, cost scoreHash parent c)
        cycleVertices representing currentVertices = some tables ∧
      Contracts scoreHash currentVertices cycleVertices parent representing tables ∧
      ∀ u ∈ cycleVertices, ∀ v ∈ cycleVertices,
        getScore tables.scoreHash u v = getScore scoreHash u v := by
  obtain ⟨tables, hcontract, hcrosses, hkeeps⟩ :=
    contract_spec h.nodup (hp.costs h hround hfront)
      (fun i hi => hp.crossing_nonneg h hround hi) hrep
  exact ⟨tables, hcontract, ⟨hcrosses, fun u v hu hv => hkeeps u v (iff_of_false hu hv)⟩,
    fun u hu v hv => hkeeps u v (iff_of_true hu hv)⟩

omit [IsStrictOrderedRing R] in
/-- The contracted graph has fewer vertices, as a cycle has at least two. -/
theorem BestParents.length_lt (hp : BestParents scoreHash currentVertices parent)
    (h : Graph numVertices scoreHash currentVertices)
    (hround : Round currentVertices parent cycleVertices)
    (hrep : representing ∈ cycleVertices) :
    (removeCycle cycleVertices representing currentVertices).length <
      currentVertices.length := by
  have hparent := hround.closed representing hrep
  obtain ⟨-, hself, -⟩ :=
    hp.found representing (hround.subset representing hrep) (hround.parent_ne h hrep)
  exact length_removeCycle_lt (hround.subset _ hparent) hparent hself

omit [IsStrictOrderedRing R] in
/-- The tables hold the contracted graph. -/
theorem Contracts.contraction
    (hcontracts : Contracts scoreHash currentVertices cycleVertices parent representing tables)
    (hp : BestParents scoreHash currentVertices parent)
    (h : Graph numVertices scoreHash currentVertices)
    (hround : Round currentVertices parent cycleVertices)
    (hrep : representing ∈ cycleVertices) :
    Contraction (getScore scoreHash) (getScore tables.scoreHash) currentVertices.toFinset
      cycleVertices.toFinset 0 representing parent (noted tables.realDepartureVertices)
      (noted tables.realArrivalVertices) := by
  have hroot := hp.root_notMem h hround
  constructor
  case subset =>
    intro c hc
    exact List.mem_toFinset.mpr (hround.subset c (List.mem_toFinset.mp hc))
  case root_notMem =>
    exact fun hmem => hroot (List.mem_toFinset.mp hmem)
  case rep_mem =>
    exact List.mem_toFinset.mpr hrep
  case closed =>
    intro c hc
    exact List.mem_toFinset.mpr (hround.closed c (List.mem_toFinset.mp hc))
  case cyclic =>
    intro a ha c hc
    refine (hround.cyclic a (List.mem_toFinset.mp ha) c (List.mem_toFinset.mp hc)).mono ?_
    exact fun v hv => List.mem_toFinset.mpr hv
  case best =>
    intro c hc
    have hc := List.mem_toFinset.mp hc
    exact (hp.found c (hround.subset c hc) (hround.parent_ne h hc)).2.2
  case outside =>
    intro u _ hu v _ hv
    exact hcontracts.keeps u v (fun hmem => hu (List.mem_toFinset.mpr hmem))
      fun hmem => hv (List.mem_toFinset.mpr hmem)
  case leave =>
    intro v hv hvC s hs
    obtain ⟨a, ha, hreal, hscore⟩ :=
      (hcontracts.crosses v (mem_off_of_toFinset hv hvC)).leave.found s hs
    rw [noted_eq hreal]
    exact ⟨List.mem_toFinset.mpr ha, hscore⟩
  case le_leave =>
    intro v hv hvC c hc
    exact (hcontracts.crosses v (mem_off_of_toFinset hv hvC)).leave.le c (List.mem_toFinset.mp hc)
  case enter =>
    intro u hu huC s hs
    obtain ⟨a, ha, hreal, hscore⟩ :=
      (hcontracts.crosses u (mem_off_of_toFinset hu huC)).enter.found s hs
    obtain ⟨t, ht, heq⟩ := arriving_eq_some.mp hscore
    rw [noted_eq hreal]
    exact ⟨List.mem_toFinset.mpr ha, t, ht, heq.symm.trans (sub_eq_add_neg _ _).symm⟩
  case le_enter =>
    intro u hu huC c hc t ht
    obtain ⟨s, hs, hle⟩ := (hcontracts.crosses u (mem_off_of_toFinset hu huC)).enter.le c
      (List.mem_toFinset.mp hc) _ (arriving_eq_some.mpr ⟨t, ht, rfl⟩)
    exact ⟨s, hs, (sub_eq_add_neg _ _).trans_le hle⟩

omit [IsStrictOrderedRing R] in
/-- The tables hold the real ends. -/
theorem Contracts.realEnds
    (hcontracts : Contracts scoreHash currentVertices cycleVertices parent representing tables) :
    RealEnds tables currentVertices.toFinset cycleVertices.toFinset representing
      (noted tables.realDepartureVertices) (noted tables.realArrivalVertices) := by
  constructor
  · intro v hv hvC s hs
    obtain ⟨a, -, hreal, -⟩ :=
      (hcontracts.crosses v (mem_off_of_toFinset hv hvC)).leave.found s hs
    rw [hreal, noted_eq hreal]
  · intro u hu huC s hs
    obtain ⟨a, -, hreal, -⟩ :=
      (hcontracts.crosses u (mem_off_of_toFinset hu huC)).enter.found s hs
    rw [hreal, noted_eq hreal]

/-! ## One call -/

omit R [Ring R] [LinearOrder R] [IsStrictOrderedRing R] in
/-- The loop that makes edges of the array. -/
theorem mapM_aref (hfront : ∀ i ∈ currentVertices, aref front i = some (parent i)) :
    (currentVertices.mapM fun i => do
      let parent ← aref front i
      some (parent, i)) = some (currentVertices.map fun i => (parent i, i)) := by
  rw [mapM_eq_some_iff, List.map_map]
  refine List.map_congr_left fun i hi => ?_
  rw [hfront i hi]
  rfl

/-- What a call finds when there is no cycle among the best edges. -/
structure NoCycle (numVertices fuel : Nat) (scoreHash : ScoreHash R)
    (currentVertices front : List Vertex) : Prop where
  best : bestFront numVertices scoreHash currentVertices = some front
  search : findCycle front fuel currentVertices [] = some none
  aref : ∀ i ∈ currentVertices, aref front i = some (bestParent scoreHash currentVertices i)
  stops : ∀ v ∈ currentVertices, Stops currentVertices (bestParent scoreHash currentVertices) v

/-- What a call finds and computes before it calls itself. -/
structure CycleFound (order : List Vertex → List Vertex) (numVertices fuel : Nat)
    (scoreHash : ScoreHash R) (currentVertices front : List Vertex) (cycle : Cycle)
    (cycleWeight : R) (representing : Vertex) (tables : Tables R) : Prop where
  best : bestFront numVertices scoreHash currentVertices = some front
  search : findCycle front fuel currentVertices [] = some (some cycle)
  sum : sumCycle scoreHash front (order (cycle.map Prod.fst)) = some cycleWeight
  head : (order (cycle.map Prod.fst)).head? = some representing
  contract : contract scoreHash front cycleWeight (order (cycle.map Prod.fst)) representing
    currentVertices = some tables
  aref : ∀ i ∈ currentVertices, aref front i = some (bestParent scoreHash currentVertices i)
  entries : cycle.Perm
    ((order (cycle.map Prod.fst)).map fun v => (bestParent scoreHash currentVertices v, v))
  round : Round currentVertices (bestParent scoreHash currentVertices)
    (order (cycle.map Prod.fst))
  rep_mem : representing ∈ order (cycle.map Prod.fst)
  contracts : Contracts scoreHash currentVertices (order (cycle.map Prod.fst))
    (bestParent scoreHash currentVertices) representing tables
  within : ∀ u ∈ order (cycle.map Prod.fst), ∀ v ∈ order (cycle.map Prod.fst),
    getScore tables.scoreHash u v = getScore scoreHash u v

/-- Nothing fails before the recursive call. -/
theorem Graph.search {order : List Vertex → List Vertex} (horder : ∀ l, (order l).Perm l)
    (h : Graph numVertices scoreHash currentVertices) {fuel : Nat}
    (hfuel : currentVertices.length < fuel) :
    (∃ front, NoCycle numVertices fuel scoreHash currentVertices front) ∨
      ∃ front cycle cycleWeight representing tables, CycleFound order numVertices fuel scoreHash
        currentVertices front cycle cycleWeight representing tables := by
  have hp := h.bestParents
  obtain ⟨front, hfront, haref⟩ := bestFront_spec scoreHash h.nodup h.bound
  cases findCycle_spec (hp.fronts haref) hfuel with
  | inr hnone => exact Or.inl ⟨front, hfront, hnone.1, haref, hnone.2⟩
  | inl hsome =>
      obtain ⟨cycle, hsearch, hcycle⟩ := hsome
      obtain ⟨hround, hnil, hentries⟩ := hcycle.round (horder (cycle.map Prod.fst))
      obtain ⟨representing, rest, hvertices⟩ := List.exists_cons_of_ne_nil hnil
      have hrep : representing ∈ order (cycle.map Prod.fst) := hvertices ▸ List.mem_cons_self ..
      obtain ⟨tables, hcontract, hcontracts, hwithin⟩ := hp.exists_contracts h hround haref hrep
      exact Or.inr ⟨front, cycle, _, representing, tables, hfront, hsearch,
        sumCycle_eq (hp.costs h hround haref) hround.nodup, by rw [hvertices]; rfl, hcontract,
        haref, hentries, hround, hrep, hcontracts, hwithin⟩

/-! ## The recursive call -/

/-- The contracted graph has no negative scores either. -/
theorem Contracts.graph
    (hcontracts : Contracts scoreHash currentVertices cycleVertices parent representing tables)
    (hp : BestParents scoreHash currentVertices parent)
    (h : Graph numVertices scoreHash currentVertices)
    (hround : Round currentVertices parent cycleVertices) :
    Graph numVertices tables.scoreHash
      (removeCycle cycleVertices representing currentVertices) := by
  constructor
  · rw [removeCycle_eq]
    exact h.nodup.filter _
  · intro v hv
    exact h.bound v (mem_removeCycle.mp hv).1
  · intro u hu v hv hne s hs
    obtain ⟨hu, hurep⟩ := mem_removeCycle.mp hu
    obtain ⟨hv, hvrep⟩ := mem_removeCycle.mp hv
    by_cases hur : u = representing
    · have hvoff := hvrep.resolve_left fun heq => hne (hur.trans heq.symm)
      have hmem := mem_off.mpr ⟨hv, hvoff⟩
      rw [hur] at hs
      obtain ⟨a, ha, -, hscore⟩ := (hcontracts.crosses v hmem).leave.found s hs
      exact (hp.crossing_nonneg h hround hmem).leave a ha s hscore
    · have huoff := hurep.resolve_left hur
      by_cases hvr : v = representing
      · have hmem := mem_off.mpr ⟨hu, huoff⟩
        rw [hvr] at hs
        obtain ⟨a, ha, -, hscore⟩ := (hcontracts.crosses u hmem).enter.found s hs
        exact (hp.crossing_nonneg h hround hmem).enter a ha s hscore
      · rw [hcontracts.keeps u v huoff (hvrep.resolve_left hvr)] at hs
        exact h.nonneg u hu v hv hne s hs

/-- The contracted graph is one in which every vertex is reached, if the graph is. -/
theorem Contracts.rooted
    (hcontracts : Contracts scoreHash currentVertices cycleVertices parent representing tables)
    (hp : Parents scoreHash currentVertices parent)
    (h : Rooted numVertices scoreHash currentVertices)
    (hround : Round currentVertices parent cycleVertices)
    (hrep : representing ∈ cycleVertices) :
    Rooted numVertices tables.scoreHash
      (removeCycle cycleVertices representing currentVertices) := by
  have hbest := hp.bestParents h.graph
  refine { hcontracts.graph hbest h.graph hround with reach := ?_ }
  rw [toFinset_removeCycle (hround.subset representing hrep)]
  exact (hcontracts.contraction hbest h.graph hround hrep).reach h.reach

end Hachee.Algorithm.ChuLiuEdmonds
