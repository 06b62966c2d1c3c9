import Hachee.Algorithm.Recursion
import Mathlib.Algebra.Order.Ring.Int

/-!
# The solution is a best spanning arborescence

`solve` is proved correct by induction on the number of vertices.  Without a cycle the
best edges are the solution.  With a cycle the contracted graph has a best tree, and its
expansion is a best tree of the graph (`solve_rooted`).

For a graph with the vertices `0` to `numVertices - 1` this says that the edges which
`solve` returns are a spanning arborescence with the greatest score (`solve_best`).
-/

namespace Hachee.Algorithm.ChuLiuEdmonds

open Lisp Foundation Loop Arborescence Contraction

variable {R : Type} [Ring R] [LinearOrder R] [IsStrictOrderedRing R]

/-! ## One call -/

/-- The edges are a best tree of the graph. -/
structure Solves (scoreHash : ScoreHash R) (currentVertices : List Vertex) (edges : List Edge)
    (f : Vertex → Vertex) : Prop where
  edges : Represents edges {v | v ∈ currentVertices.toFinset ∧ v ≠ 0} f
  isTree : IsTree (getScore scoreHash) currentVertices.toFinset 0 f
  best : ∀ g, IsTree (getScore scoreHash) currentVertices.toFinset 0 g →
    score (getScore scoreHash) currentVertices.toFinset 0 g ≤
      score (getScore scoreHash) currentVertices.toFinset 0 f

variable {numVertices : Nat} {scoreHash : ScoreHash R} {currentVertices : List Vertex}
  {parent : Vertex → Vertex} {front : List Vertex}

/-- When there is no cycle, the best edges solve the problem. -/
theorem solves_of_stops (hp : Parents scoreHash currentVertices parent)
    (h : Rooted numVertices scoreHash currentVertices)
    (hfront : ∀ i ∈ currentVertices, aref front i = some (parent i))
    (hstops : ∀ v ∈ currentVertices, Stops currentVertices parent v) :
    ∃ edges, (currentVertices.mapM fun i => do
        let parent ← aref front i
        some (parent, i)) = some edges ∧
      Solves scoreHash currentVertices (edges.filter fun edge => edge.1 ≠ -1) parent := by
  refine ⟨_, mapM_aref hfront, ?_, hp.isTree h hstops, fun g hg => ?_⟩
  · have hedges := (Represents.of_list h.nodup parent).filter fun edge => edge.1 ≠ -1
    have htargets : {v | v ∈ {v | v ∈ currentVertices} ∧ decide (parent v ≠ -1) = true} =
        {v | v ∈ currentVertices.toFinset ∧ v ≠ 0} := by
      ext v
      constructor
      · rintro ⟨hv, hne⟩
        refine ⟨List.mem_toFinset.mpr hv, ?_⟩
        rintro rfl
        exact of_decide_eq_true hne hp.root
      · rintro ⟨hv, hne⟩
        have hv := List.mem_toFinset.mp hv
        refine ⟨hv, decide_eq_true fun heq => ?_⟩
        exact h.graph.notMem_neg_one (heq ▸ hp.mem v hv hne)
    rw [← htargets]
    exact hedges
  · exact score_le_of_best hg fun v hv hne => hp.best v (List.mem_toFinset.mp hv) hne

variable {cycleVertices : List Vertex} {representing : Vertex} {tables : Tables R}

/-- A solution for the contracted graph expands to one for the graph. -/
theorem Contracts.solves
    (hcontracts : Contracts scoreHash currentVertices cycleVertices parent representing tables)
    (hp : Parents scoreHash currentVertices parent)
    (h : Rooted numVertices scoreHash currentVertices)
    (hround : Round currentVertices parent cycleVertices)
    (hrep : representing ∈ cycleVertices)
    (hfront : ∀ i ∈ currentVertices, aref front i = some (parent i))
    {edges : List Edge} {f : Vertex → Vertex}
    (hsolves : Solves tables.scoreHash
      (removeCycle cycleVertices representing currentVertices) edges f) :
    edges ≠ [] ∧ ∃ finalEdges finalEdges' f',
      expandEdges representing tables edges = some finalEdges ∧
        addCycleEdges front cycleVertices finalEdges = some finalEdges' ∧
          Solves scoreHash currentVertices finalEdges' f' := by
  obtain ⟨hedges, hf, hbest⟩ := hsolves
  rw [toFinset_removeCycle (hround.subset representing hrep)] at hedges hf hbest
  have hbestParents := hp.bestParents h.graph
  have hcontraction := hcontracts.contraction hbestParents h.graph hround hrep
  have hne : representing ≠ 0 := fun h0 => hbestParents.root_notMem h.graph hround (h0 ▸ hrep)
  have hnil : edges ≠ [] := by
    rintro rfl
    have hmem := (hedges.mem_iff (f representing) representing).mpr
      ⟨⟨mem_contracted.mpr (Or.inl rfl), hne⟩, rfl⟩
    cases hmem
  obtain ⟨finalEdges, finalEdges', hexpand, hadd, hfinal⟩ :=
    expansion_spec hcontraction hf hcontracts.realEnds hedges
      (fun v => List.mem_toFinset.symm) fun c hc => hfront c (hround.subset c hc)
  exact ⟨hnil, finalEdges, finalEdges', _, hexpand, hadd, hfinal,
    hcontraction.isTree_expand hf, fun g hg => hcontraction.score_le_expand hf hbest hg⟩

/-! ## All calls -/

/-- `solve` ends and returns a best tree. -/
theorem solve_rooted {order : List Vertex → List Vertex} (horder : ∀ l, (order l).Perm l)
    (numVertices : Nat) :
    ∀ (fuel : Nat) {scoreHash : ScoreHash R} {currentVertices : List Vertex},
      Rooted numVertices scoreHash currentVertices → currentVertices.length < fuel →
      ∃ edges scoreHash' f,
        solve order numVertices fuel scoreHash currentVertices = some (edges, scoreHash') ∧
          Solves scoreHash currentVertices edges f
  | 0, _, _, _, hfuel => absurd hfuel (Nat.not_lt_zero _)
  | fuel + 1, scoreHash, currentVertices, h, hfuel => by
      have hp := h.parents
      cases h.graph.search horder hfuel with
      | inl hnone =>
          obtain ⟨front, hfound⟩ := hnone
          obtain ⟨edges, hmap, hsolves⟩ := solves_of_stops hp h hfound.aref hfound.stops
          refine ⟨_, scoreHash, _, ?_, hsolves⟩
          rw [solve, hfound.best]
          simp only [Option.bind_eq_bind, Option.bind_some, hfound.search]
          simp only [Option.bind_eq_bind] at hmap
          rw [hmap]
          rfl
      | inr hcycle =>
          obtain ⟨front, cycle, cycleWeight, representing, tables, hfound⟩ := hcycle
          have hlength := (hp.bestParents h.graph).length_lt h.graph hfound.round hfound.rep_mem
          obtain ⟨edges, scoreHash', f, hrec, hsolves⟩ :=
            solve_rooted horder numVertices fuel
              (hfound.contracts.rooted hp h hfound.round hfound.rep_mem)
              (lt_of_lt_of_le hlength (Nat.le_of_lt_succ hfuel))
          obtain ⟨hne, finalEdges, finalEdges', f', hexpand, hadd, hfinal⟩ :=
            hfound.contracts.solves hp h hfound.round hfound.rep_mem hfound.aref hsolves
          refine ⟨finalEdges', scoreHash', f', ?_, hfinal⟩
          rw [solve, hfound.best]
          simp only [Option.bind_eq_bind, Option.bind_some, hfound.search, hfound.sum, hfound.head,
            hfound.contract, hrec, if_neg hne, hexpand, hadd]

/-! ## The whole graph -/

/-- An edge between two vertices of the graph. -/
def HasEdge (numVertices : Nat) (scoreHash : ScoreHash R) (u v : Vertex) : Prop :=
  (0 ≤ u ∧ u < numVertices) ∧ (0 ≤ v ∧ v < numVertices) ∧ ∃ s, getScore scoreHash u v = some s

/-- A graph with the vertices `0` to `numVertices - 1`, all of which are reached from
`0`, and without negative scores. -/
structure Reached (numVertices : Nat) (scoreHash : ScoreHash R) (currentVertices : List Vertex) :
    Prop where
  nodup : currentVertices.Nodup
  vertices : ∀ v, v ∈ currentVertices ↔ 0 ≤ v ∧ v < numVertices
  nonneg : ∀ u ∈ currentVertices, ∀ v ∈ currentVertices,
    ∀ s, getScore scoreHash u v = some s → 0 ≤ s
  reach : ∀ v ∈ currentVertices, Relation.ReflTransGen (HasEdge numVertices scoreHash) 0 v

/-- The edges are edges of the graph, no vertex but `0` is without an edge that enters
it, no vertex has two such edges and `0` has none, and there is no cycle. -/
structure SpanningArborescence (numVertices : Nat) (scoreHash : ScoreHash R)
    (edges : List Edge) : Prop where
  present : ∀ u v, (u, v) ∈ edges → HasEdge numVertices scoreHash u v
  parent : ∀ v : Vertex, 0 < v → v < numVertices → ∃ u, (u, v) ∈ edges
  distinct : (edges.map Prod.snd).Nodup
  root : ∀ u, (u, 0) ∉ edges
  acyclic : Acyclic fun u v => (u, v) ∈ edges

/-- The sum of the scores of the edges. -/
def totalScore (scoreHash : ScoreHash R) (edges : List Edge) : R :=
  (edges.map fun edge => (getScore scoreHash edge.1 edge.2).getD 0).sum

omit [IsStrictOrderedRing R] in
theorem Reached.rooted (h : Reached numVertices scoreHash currentVertices) :
    Rooted numVertices scoreHash currentVertices where
  nodup := h.nodup
  bound := fun v hv => (h.vertices v).mp hv
  nonneg := fun u hu v hv _ => h.nonneg u hu v hv
  reach := by
    intro v hv
    have hpath := h.reach v (List.mem_toFinset.mp hv)
    clear hv
    induction hpath with
    | refl => exact Relation.ReflTransGen.refl
    | @tail u v _ hedge ih =>
        obtain ⟨hu, hv, hscore⟩ := hedge
        -- a path does not need an edge from a vertex to itself
        by_cases heq : u = v
        · exact heq ▸ ih
        · exact ih.tail ⟨List.mem_toFinset.mpr ((h.vertices u).mpr hu),
            List.mem_toFinset.mpr ((h.vertices v).mpr hv), heq, hscore⟩

omit [IsStrictOrderedRing R] in
/-- The edges of a tree are a spanning arborescence. -/
theorem SpanningArborescence.of_isTree (h : Reached numVertices scoreHash currentVertices)
    {edges : List Edge} {f : Vertex → Vertex}
    (hedges : Represents edges {v | v ∈ currentVertices.toFinset ∧ v ≠ 0} f)
    (hf : IsTree (getScore scoreHash) currentVertices.toFinset 0 f) :
    SpanningArborescence numVertices scoreHash edges := by
  have hmem : ∀ v, v ∈ currentVertices.toFinset ↔ 0 ≤ v ∧ v < numVertices := fun v =>
    List.mem_toFinset.trans (h.vertices v)
  constructor
  · intro u v hedge
    obtain ⟨⟨hv, hne⟩, rfl⟩ := (hedges.mem_iff u v).mp hedge
    exact ⟨(hmem _).mp (hf.source v hv hne), (hmem v).mp hv, hf.weighted v hv hne⟩
  · intro v hv0 hvN
    refine ⟨f v, (hedges.mem_iff (f v) v).mpr ⟨⟨?_, hv0.ne'⟩, rfl⟩⟩
    exact (hmem v).mpr ⟨hv0.le, hvN⟩
  · exact hedges.distinct
  · intro u hedge
    exact ((hedges.mem_iff u 0).mp hedge).1.2 rfl
  · refine (hedges.spanning (fun hmem => hmem.2 rfl) (fun v hv => ?_) fun v hv =>
      hf.climbs v hv.1).acyclic
    exact (em (f v = 0)).imp_right fun hne => ⟨hf.source v hv.1 hv.2, hne⟩

omit [IsStrictOrderedRing R] in
/-- A spanning arborescence is given by the edges of a tree. -/
theorem SpanningArborescence.exists_isTree
    (h : Reached numVertices scoreHash currentVertices) {edges : List Edge}
    (hspan : SpanningArborescence numVertices scoreHash edges) :
    ∃ f, Represents edges {v | v ∈ currentVertices.toFinset ∧ v ≠ 0} f ∧
      IsTree (getScore scoreHash) currentVertices.toFinset 0 f := by
  have hmem : ∀ v, v ∈ currentVertices.toFinset ↔ 0 ≤ v ∧ v < numVertices := fun v =>
    List.mem_toFinset.trans (h.vertices v)
  have hunique : ∀ {u u' v}, (u, v) ∈ edges → (u', v) ∈ edges → u = u' := by
    intro u u' v hu hu'
    have heq := List.inj_on_of_nodup_map hspan.distinct hu hu' rfl
    exact congrArg Prod.fst heq
  have hfinite : {v | v ∈ currentVertices.toFinset ∧ v ≠ 0}.Finite :=
    currentVertices.toFinset.finite_toSet.subset fun v hv => hv.1
  have hspanning : Spanning (fun u v => (u, v) ∈ edges) 0
      {v | v ∈ currentVertices.toFinset ∧ v ≠ 0} := by
    refine Spanning.of_acyclic hfinite (fun hmem => hmem.2 rfl) hspan.acyclic ?_ ?_ ?_ hunique
    · intro u v hedge
      exact (em (u = 0)).imp_right fun hne => ⟨(hmem u).mpr (hspan.present u v hedge).1, hne⟩
    · intro u v hedge
      refine ⟨(hmem v).mpr (hspan.present u v hedge).2.1, ?_⟩
      rintro rfl
      exact hspan.root u hedge
    · intro v hv
      obtain ⟨h0, hN⟩ := (hmem v).mp hv.1
      exact hspan.parent v (lt_of_le_of_ne h0 hv.2.symm) hN
  obtain ⟨f, hedges, hclimb⟩ := Represents.of_spanning hspan.distinct hspanning
  refine ⟨f, hedges, fun v hv hne => ?_, fun v hv hne => ?_, fun v hv => ?_⟩
  · have hedge := (hedges.mem_iff (f v) v).mpr ⟨⟨hv, hne⟩, rfl⟩
    exact (hmem _).mpr (hspan.present _ v hedge).1
  · have hedge := (hedges.mem_iff (f v) v).mpr ⟨⟨hv, hne⟩, rfl⟩
    exact (hspan.present _ v hedge).2.2
  · by_cases hne : v = 0
    · rw [hne]
      exact Climbs.here
    · exact (hclimb v ⟨hv, hne⟩).mono fun u hu => hu.1

/-- `solve` ends with a spanning arborescence, and no other has a greater score. -/
theorem solve_best {order : List Vertex → List Vertex} (horder : ∀ l, (order l).Perm l)
    (h : Reached numVertices scoreHash currentVertices) {fuel : Nat}
    (hfuel : currentVertices.length < fuel) :
    ∃ edges scoreHash',
      solve order numVertices fuel scoreHash currentVertices = some (edges, scoreHash') ∧
      SpanningArborescence numVertices scoreHash edges ∧
      ∀ edges', SpanningArborescence numVertices scoreHash edges' →
        totalScore scoreHash edges' ≤ totalScore scoreHash edges := by
  obtain ⟨edges, scoreHash', f, hsolve, hsolves⟩ :=
    solve_rooted horder numVertices fuel h.rooted hfuel
  refine ⟨edges, scoreHash', hsolve, .of_isTree h hsolves.edges hsolves.isTree, ?_⟩
  intro edges' hspan
  obtain ⟨g, hedges', hg⟩ := hspan.exists_isTree h
  calc totalScore scoreHash edges'
      = score (getScore scoreHash) currentVertices.toFinset 0 g :=
        hedges'.sum_eq (fun _ => Iff.rfl) _
    _ ≤ score (getScore scoreHash) currentVertices.toFinset 0 f := hsolves.best g hg
    _ = totalScore scoreHash edges := (hsolves.edges.sum_eq (fun _ => Iff.rfl) _).symm

/-- Two vertices that are better entered from each other than from the root. -/
def twoVertexCycle : ScoreHash Int :=
  setScore 1 (setScore 2 (setScore 10 (setScore 10 HashTable.empty 1 2) 2 1) 0 2) 0 1

theorem solve_best_twoVertexCycle :
    (solve id 3 4 twoVertexCycle [0, 1, 2]).map Prod.fst = some [(2, 1), (0, 2)] ∧
      ∃ edges scoreHash', solve id 3 4 twoVertexCycle [0, 1, 2] = some (edges, scoreHash') ∧
        SpanningArborescence 3 twoVertexCycle edges ∧
        ∀ edges', SpanningArborescence 3 twoVertexCycle edges' →
          totalScore twoVertexCycle edges' ≤ totalScore twoVertexCycle edges := by
  have hvertices : ∀ v : Int, v ∈ [(0 : Int), 1, 2] ↔ 0 ≤ v ∧ v < (3 : Nat) := by
    intro v
    simp only [List.mem_cons, List.not_mem_nil, or_false]
    omega
  refine ⟨by decide,
    solve_best (fun l => List.Perm.refl l) ⟨by decide, hvertices, ?_, ?_⟩ (by decide)⟩
  · exact nonneg_of_getD (by decide)
  · have hedge : ∀ v ∈ [(1 : Int), 2], HasEdge 3 twoVertexCycle 0 v := by
      intro v hv
      rcases List.mem_cons.mp hv with rfl | hv
      · exact ⟨by decide, by decide, 1, rfl⟩
      · cases List.mem_singleton.mp hv
        exact ⟨by decide, by decide, 2, rfl⟩
    intro v hv
    cases List.mem_cons.mp hv with
    | inl heq => exact heq ▸ Relation.ReflTransGen.refl
    | inr hv => exact Relation.ReflTransGen.single (hedge v hv)

end Hachee.Algorithm.ChuLiuEdmonds
