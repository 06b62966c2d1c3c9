import Hachee.DependencyParsing.Oracle

/-!
# The projective order of a gold tree

The oracle orders the vertices as the in-order walk over the gold tree lists them.
Every vertex is listed once (`Ordered.nodup`, `Ordered.mem`).  What the correctness
of the oracle rests on is how the order treats a set of vertices that contains, with
a vertex, its parent: unless only the root of the tree is in the set, there is a
vertex without children in the set next to its parent (`Ordered.neighbours`).
-/

namespace Hachee.DependencyParsing.ShiftReduce

open Foundation Arborescence InOrder Relation

variable {gold : List Arc}

/-! ## The root of the tree -/

/-- The vertex that is no child is found as the root, if it is the only one. -/
theorem findRoot_eq {r : Vertex} (hr : r ∈ listVertices gold) (hchild : r ∉ gold.map Arc.child)
    (hunique : ∀ v ∈ listVertices gold, v ∉ gold.map Arc.child → v = r) :
    findRoot gold = some r := by
  obtain ⟨arc, harc, hv⟩ := mem_listVertices.mp hr
  have hparent : r ∈ gold.map Arc.parent := by
    cases hv with
    | inl heq => exact heq ▸ List.mem_map_of_mem harc
    | inr heq => exact absurd (heq ▸ List.mem_map_of_mem harc) hchild
  have hfound : (findRoot gold).isSome := by
    rw [findRoot, List.find?_isSome]
    exact ⟨r, hparent, by simpa using hchild⟩
  obtain ⟨r', hr'⟩ := Option.isSome_iff_exists.mp hfound
  have hfind : (gold.map Arc.parent).find? (fun v => decide (v ∉ gold.map Arc.child)) = some r' :=
    hr'
  have hr'child : r' ∉ gold.map Arc.child := by simpa using List.find?_some hfind
  obtain ⟨arc', harc', heq⟩ := List.mem_map.mp (List.mem_of_find?_eq_some hfind)
  have hr'mem : r' ∈ listVertices gold := mem_listVertices.mpr ⟨arc', harc', Or.inl heq.symm⟩
  rw [hr', hunique r' hr'mem hr'child]

namespace GoldTree

/-- A vertex that is no child is found as the root, and it is the only one. -/
theorem findRoot (h : GoldTree gold) :
    ∃ r, findRoot gold = some r ∧ r ∈ listVertices gold ∧ r ∉ gold.map Arc.child ∧
      ∀ v ∈ listVertices gold, v ∉ gold.map Arc.child → v = r := by
  obtain ⟨r, ⟨hr, hchild⟩, hunique⟩ := h.root
  have honly : ∀ v ∈ listVertices gold, v ∉ gold.map Arc.child → v = r :=
    fun v hv hvc => hunique v ⟨hv, hvc⟩
  exact ⟨r, findRoot_eq hr hchild honly, hr, hchild, honly⟩

theorem vertex_nonneg (h : GoldTree gold) {v : Vertex} (hv : v ∈ listVertices gold) : 0 ≤ v := by
  obtain ⟨arc, harc, heq⟩ := mem_listVertices.mp hv
  cases heq with
  | inl heq => exact heq ▸ (h.nonneg arc harc).1
  | inr heq => exact heq ▸ (h.nonneg arc harc).2

/-- The root of the parser is not a vertex. -/
theorem root_notMem (h : GoldTree gold) : ShiftReduce.root ∉ listVertices gold :=
  fun hmem => absurd (h.vertex_nonneg hmem) (by decide)

end GoldTree

theorem edge.parent_mem {u v : Vertex} (h : edge gold u v) : u ∈ listVertices gold :=
  mem_listVertices.mpr ⟨_, h, Or.inl rfl⟩

theorem edge.mem {u v : Vertex} (h : edge gold u v) : v ∈ listVertices gold :=
  mem_listVertices.mpr ⟨_, h, Or.inr rfl⟩

/-- Every vertex is reached from the root of the tree. -/
theorem GoldTree.reach (h : GoldTree gold) {r : Vertex} (hr : r ∉ gold.map Arc.child)
    (hunique : ∀ v ∈ listVertices gold, v ∉ gold.map Arc.child → v = r) {v : Vertex}
    (hv : v ∈ listVertices gold) : ReflTransGen (edge gold) r v := by
  have hspanning : Spanning (edge gold) r {v | v ∈ gold.map Arc.child} := by
    refine Spanning.of_acyclic (List.finite_toSet _) hr h.acyclic ?_ ?_ ?_ ?_
    · intro u w huw
      by_cases hu : u ∈ gold.map Arc.child
      · exact Or.inr hu
      · exact Or.inl (hunique u huw.parent_mem hu)
    · exact fun {u w} huw => huw.child_mem
    · exact fun {w} hw => exists_edge hw
    · exact fun {u u' w} hu hu' => hu.unique h.children hu'
  by_cases hchild : v ∈ gold.map Arc.child
  · exact (hspanning.reach hchild).to_reflTransGen
  · rw [hunique v hv hchild]

/-! ## The walk -/

/-- The children on the left of a vertex. -/
def leftChildren (gold : List Arc) (vertex : Vertex) : List Vertex :=
  ((outgoingArcs gold vertex).map Arc.child).filter fun v => v < vertex

/-- The children on the right of a vertex. -/
def rightChildren (gold : List Arc) (vertex : Vertex) : List Vertex :=
  ((outgoingArcs gold vertex).map Arc.child).filter fun v => vertex < v

/-- The vertices the callback is called with are those of an in-order walk. -/
theorem visit_map_fst : ∀ (fuel : Nat) (vertex : Vertex) (parent : Option Vertex),
    (visit gold fuel vertex parent).map (List.map Prod.fst) =
      walk (leftChildren gold) (rightChildren gold) fuel vertex
  | 0, _, _ => rfl
  | fuel + 1, vertex, parent => by
      have hside : ∀ side : List Vertex,
          (gather (fun child => visit gold fuel child (some vertex)) side).map
              (List.map Prod.fst) =
            gather (walk (leftChildren gold) (rightChildren gold) fuel) side :=
        fun side => gather_map Prod.fst fun child _ => visit_map_fst fuel child (some vertex)
      rw [walk, ← hside, ← hside]
      show Option.map _ ((gather _ (leftChildren gold vertex)).bind fun left =>
        (gather _ (rightChildren gold vertex)).bind fun right => _) = _
      cases gather (fun child => visit gold fuel child (some vertex))
          (leftChildren gold vertex) with
      | none => rfl
      | some left =>
          cases gather (fun child => visit gold fuel child (some vertex))
              (rightChildren gold vertex) with
          | none => rfl
          | some right => simp

theorem mem_outgoing {u v : Vertex} :
    v ∈ (outgoingArcs gold u).map Arc.child ↔ edge gold u v := by
  simp only [outgoingArcs, List.mem_map, List.mem_insertionSort, List.mem_filter,
    decide_eq_true_eq]
  constructor
  · rintro ⟨⟨p, c⟩, ⟨harc, rfl⟩, rfl⟩
    exact harc
  · intro h
    exact ⟨⟨u, v⟩, ⟨h, rfl⟩, rfl⟩

/-- Without a cycle, no vertex is its own child, so every child is on one side. -/
theorem below_iff (hac : Acyclic (edge gold)) {u v : Vertex} :
    Below (leftChildren gold) (rightChildren gold) u v ↔ edge gold u v := by
  simp only [Below, leftChildren, rightChildren, List.mem_filter, mem_outgoing,
    decide_eq_true_eq]
  constructor
  · rintro (hv | hv)
    · exact hv.1
    · exact hv.1
  · intro huv
    cases lt_or_gt_of_ne (hac.ne huv) with
    | inl hlt => exact Or.inr ⟨huv, hlt⟩
    | inr hgt => exact Or.inl ⟨huv, hgt⟩

theorem GoldTree.nodup_sides (h : GoldTree gold) (v : Vertex) :
    (leftChildren gold v ++ rightChildren gold v).Nodup := by
  have hchildren : ((outgoingArcs gold v).map Arc.child).Nodup := by
    have hperm := (List.perm_insertionSort (fun a b : Arc => a.child ≤ b.child)
      (gold.filter fun arc => arc.parent = v)).map Arc.child
    exact hperm.nodup_iff.mpr (List.Nodup.sublist (List.filter_sublist.map Arc.child) h.children)
  refine List.Nodup.append (hchildren.filter _) (hchildren.filter _) ?_
  intro w hw hw'
  have hlt : w < v := of_decide_eq_true (List.mem_filter.mp hw).2
  have hgt : v < w := of_decide_eq_true (List.mem_filter.mp hw').2
  exact absurd hlt (not_lt_of_gt hgt)

/-! ## The order -/

/-- `r` is the root of the tree and `ordered` lists its vertices in projective order. -/
structure Ordered (gold : List Arc) (r : Vertex) (ordered : List Vertex) : Prop where
  tree : GoldTree gold
  root_mem : r ∈ listVertices gold
  root_notMem : r ∉ gold.map Arc.child
  reach : ∀ {v}, v ∈ listVertices gold → ReflTransGen (edge gold) r v
  nodup : ordered.Nodup
  mem : ∀ {v}, v ∈ ordered ↔ v ∈ listVertices gold
  neighbours : ∀ (R : Vertex → Prop) [DecidablePred R],
    (∀ u v, edge gold u v → R v → R u) → R r →
      ordered.filter R = [r] ∧ (∀ c, edge gold r c → ¬R c) ∨
        ∃ pre x y post, ordered.filter R = pre ++ x :: y :: post ∧
          (edge gold y x ∧ (∀ c, edge gold x c → ¬R c) ∨
            edge gold x y ∧ ∀ c, edge gold y c → ¬R c)

/-- The oracle for a gold tree is found. -/
theorem GoldTree.oracleFor (h : GoldTree gold) :
    ∃ r ordered n, Ordered gold r ordered ∧ ∀ fuel, n ≤ fuel →
      oracleFor fuel (makeInitialConfiguration (listVertices gold)) gold =
        some ⟨⟨ShiftReduce.root, r⟩ :: gold, ordered⟩ := by
  obtain ⟨r, hfound, hr, hchild, hunique⟩ := h.findRoot
  have hbelow : Below (leftChildren gold) (rightChildren gold) = edge gold := by
    funext u v
    exact propext (below_iff h.acyclic)
  have hac : Acyclic (Below (leftChildren gold) (rightChildren gold)) := hbelow ▸ h.acyclic
  obtain ⟨n, ordered, hwalk⟩ := exists_walk hac (List.finite_toSet (listVertices gold))
    (fun u _ v huv => edge.mem (hbelow ▸ huv)) r hr
  have hwalk' := hwalk n (Nat.le_refl n)
  refine ⟨r, ordered, n, ⟨h, hr, hchild, h.reach hchild hunique, ?_, ?_, ?_⟩,
    fun fuel hfuel => ?_⟩
  · exact nodup_walk hac (fun u u' v hu hu' => edge.unique h.children (hbelow ▸ hu) (hbelow ▸ hu'))
      h.nodup_sides hwalk'
  · intro v
    rw [mem_walk hwalk', hbelow]
    constructor
    · intro hpath
      cases hpath.cases_tail with
      | inl heq => exact heq ▸ hr
      | inr hlast =>
          obtain ⟨w, -, hw⟩ := hlast
          exact hw.mem
    · exact h.reach hchild hunique
  · intro R _ up hR
    have hadjacent := exists_adjacent (R := R) (fun u v huv => up u v (hbelow ▸ huv)) hwalk' hR
    simp only [HasReducible, Reducible, hbelow] at hadjacent
    exact hadjacent
  · have hvisit : (visit gold fuel r none).map (List.map Prod.fst) = some ordered := by
      rw [visit_map_fst, hwalk fuel hfuel]
    obtain ⟨calls, hcalls, rfl⟩ := Option.map_eq_some_iff.mp hvisit
    simp only [ShiftReduce.oracleFor, listOrderedVertices, callVertexInOrder, hfound, hcalls,
      Option.bind_eq_bind, Option.bind_some]
    rfl

end Hachee.DependencyParsing.ShiftReduce
