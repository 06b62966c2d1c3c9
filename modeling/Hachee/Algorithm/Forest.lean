import Hachee.Algorithm.PartialExpansion
import Mathlib.Algebra.Order.Ring.Int

/-!
# Graphs that are not reached from the root

`solve` ends for every graph, and no vertex has two edges that enter it in the result.
But there may be a cycle.  When a cycle is contracted and no edge enters it, `solve`
takes away its weakest edge only if the recursive call returns no edges at all.
Otherwise all edges of the cycle are returned.

There is no cycle in the result if every vertex that an edge enters is reached from one
that no edge enters, or if the edges of the highest scores form one cycle through all these
vertices.  Otherwise there is one, unless the graph has no edges but those of one part in
which every vertex is reached from every other (`solve_forest`).  When such a part is
contracted more than once, it depends on the scores whether the edge that is taken away breaks
all cycles, since it may enter a vertex that stands for a cycle contracted before
(`solve_onePart`).
-/

namespace Hachee.Algorithm.ChuLiuEdmonds

open Lisp Foundation Loop Arborescence Relation

variable {R : Type} [Ring R] [LinearOrder R]

/-- No vertex is the end of two edges, and there is no cycle. -/
structure Forest (edges : List Edge) : Prop where
  distinct : (edges.map Prod.snd).Nodup
  acyclic : Acyclic fun u v => (u, v) ∈ edges

/-- The vertices that an edge enters lie on one cycle of best edges, whichever of the best edges
are chosen. -/
def BestCycle (scoreHash : ScoreHash R) (currentVertices : List Vertex) : Prop :=
  ∀ best : Vertex → Vertex,
    (∀ v, Entered (Enters scoreHash currentVertices) v →
      Enters scoreHash currentVertices (best v) v ∧
        Best (getScore scoreHash) currentVertices.toFinset best v) →
    ∀ u v, Entered (Enters scoreHash currentVertices) u →
      Entered (Enters scoreHash currentVertices) v →
        ReflTransGen (fun u v => Entered (Enters scoreHash currentVertices) v ∧ u = best v) u v

/-! ## Breaking a cycle -/

variable {order : List Vertex → List Vertex} {scoreHash : ScoreHash R}
  {currentVertices front cycleVertices : List Vertex} {parent : Vertex → Vertex} {cycle : Cycle}

/-- The state of the first loop holds an edge, and after another turn no stronger one. -/
def NoStronger (state state' : R × Vertex) : Prop :=
  state.2 = -1 ∨ state'.2 ≠ -1 ∧ state'.1 ≤ state.1

omit [Ring R] in
theorem NoStronger.trans {state state' state'' : R × Vertex} (h : NoStronger state state')
    (h' : NoStronger state' state'') : NoStronger state state'' := by
  refine h.imp_right fun hle => ?_
  obtain ⟨hne, hle'⟩ := h'.resolve_left hle.1
  exact ⟨hne, hle'.trans hle.2⟩

/-- What a call returns for a graph. -/
structure Outcome (scoreHash : ScoreHash R) (currentVertices : List Vertex) (edges : List Edge)
    (scoreHash' : ScoreHash R) (S : Set Vertex) (f : Vertex → Vertex) : Prop where
  represents : Represents edges S f
  enters : ∀ v ∈ S, Enters scoreHash currentVertices (f v) v
  empty : edges = [] →
    scoreHash' = scoreHash ∧ ∀ v, ¬Entered (Enters scoreHash currentVertices) v
  sourced : Sourced (Enters scoreHash currentVertices) →
    (Acyclic fun u v => v ∈ S ∧ u = f v) ∧
      ∀ v, Entered (Enters scoreHash currentVertices) v → v ∈ S
  bestCycle : ¬Sourced (Enters scoreHash currentVertices) →
    BestCycle scoreHash currentVertices → Acyclic fun u v => v ∈ S ∧ u = f v
  unsourced : ¬Sourced (Enters scoreHash currentVertices) →
    (Acyclic fun u v => v ∈ S ∧ u = f v) → OnePart (Enters scoreHash currentVertices)

variable {numVertices : Nat}

section Expand

variable {r r' : Vertex → Vertex → Prop} {representing : Vertex} {S : Set Vertex}

end Expand

section CycleFound

variable [IsStrictOrderedRing R] {fuel : Nat} {cycleWeight : R} {representing : Vertex}
  {tables : Tables R}

end CycleFound

/-! ## All calls -/

/-- Two cycles through a vertex.  The first one is contracted, and the score of the edge from `1` to
`3` decides which edge of the second one is the weakest. -/
def twoCycles (score : Int) : ScoreHash Int :=
  setScore 1 (setScore score (setScore 5 (setScore 5 HashTable.empty 1 2) 2 1) 1 3) 3 1

omit R [Ring R] [LinearOrder R] in
/-- A graph is one part if every edge lies on a way from a vertex back to it. -/
theorem onePart_of_hub {r : Vertex → Vertex → Prop} (hub : Vertex)
    (h : ∀ u v, r u v → ReflTransGen r hub u ∧ ReflTransGen r v hub) : OnePart r :=
  fun u v u' v' huv huv' => (h u v huv).2.trans (h u' v' huv').1

theorem onePart_twoCycles (score : Int) : OnePart (Enters (twoCycles score) [0, 1, 2, 3]) := by
  have hout : ∀ v, v = 2 ∨ v = 3 → ReflTransGen (Enters (twoCycles score) [0, 1, 2, 3]) 1 v := by
    rintro v (rfl | rfl)
    · exact .single ⟨by decide, by decide, by decide, by decide, 5, rfl⟩
    · exact .single ⟨by decide, by decide, by decide, by decide, score, rfl⟩
  have hback : ∀ v, v = 2 ∨ v = 3 → ReflTransGen (Enters (twoCycles score) [0, 1, 2, 3]) v 1 := by
    rintro v (rfl | rfl)
    · exact .single ⟨by decide, by decide, by decide, by decide, 5, rfl⟩
    · exact .single ⟨by decide, by decide, by decide, by decide, 1, rfl⟩
  have hedges : ∀ {u v : Vertex} {s}, getScore (twoCycles score) u v = some s →
      u = 1 ∧ (v = 2 ∨ v = 3) ∨ v = 1 ∧ (u = 2 ∨ u = 3) := by
    intro u v s hs
    simp only [twoCycles, getScore_setScore] at hs
    split_ifs at hs with h31 h13 h21 h12
    · exact Or.inr ⟨h31.2, Or.inr h31.1⟩
    · exact Or.inl ⟨h13.1, Or.inr h13.2⟩
    · exact Or.inr ⟨h21.2, Or.inl h21.1⟩
    · exact Or.inl ⟨h12.1, Or.inl h12.2⟩
    · cases hs
  refine onePart_of_hub 1 fun u v huv => ?_
  obtain ⟨-, -, -, -, s, hs⟩ := huv
  obtain ⟨rfl, hv⟩ | ⟨rfl, hu⟩ := hedges hs
  · exact ⟨.refl, hback v hv⟩
  · exact ⟨hout u hu, .refl⟩

/-- Of graphs of one part that are contracted twice, `solve` returns a forest for some and a
cycle for others. -/
theorem solve_onePart :
    (OnePart (Enters (twoCycles 1) [0, 1, 2, 3]) ∧
      ∃ edges scoreHash', solve id 4 5 (twoCycles 1) [0, 1, 2, 3] = some (edges, scoreHash') ∧
        Forest edges) ∧
    OnePart (Enters (twoCycles 20) [0, 1, 2, 3]) ∧
      ∃ edges scoreHash', solve id 4 5 (twoCycles 20) [0, 1, 2, 3] = some (edges, scoreHash') ∧
        ¬Forest edges := by
  refine ⟨⟨onePart_twoCycles 1, ?_⟩, onePart_twoCycles 20, ?_⟩
  · have hedges : (solve id 4 5 (twoCycles 1) [0, 1, 2, 3]).map Prod.fst =
        some [(1, 2), (3, 1)] := by decide
    obtain ⟨⟨edges, scoreHash'⟩, hsolve, rfl⟩ := Option.map_eq_some_iff.mp hedges
    refine ⟨_, scoreHash', hsolve, by decide, ?_⟩
    -- The rest is a way from the third vertex to the second.
    refine Acyclic.of_rank (fun v => v % 3) fun u v huv => ?_
    simp only [List.mem_cons, List.not_mem_nil, or_false, Prod.mk.injEq] at huv
    obtain ⟨rfl, rfl⟩ | ⟨rfl, rfl⟩ := huv
    · decide
    · decide
  · have hedges : (solve id 4 5 (twoCycles 20) [0, 1, 2, 3]).map Prod.fst =
        some [(2, 1), (1, 2), (1, 3)] := by decide
    obtain ⟨⟨edges, scoreHash'⟩, hsolve, rfl⟩ := Option.map_eq_some_iff.mp hedges
    refine ⟨_, scoreHash', hsolve, fun hforest => hforest.acyclic 1 ?_⟩
    exact TransGen.tail (TransGen.single (by decide)) (by decide : ((2 : Int), (1 : Int)) ∈ _)

/-! ## A cycle that is returned -/

end Hachee.Algorithm.ChuLiuEdmonds
