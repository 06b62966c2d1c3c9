import Hachee.Algorithm.ChuLiuEdmonds
import Hachee.Foundation.EdgeList
import Hachee.Foundation.Loop

/-!
# The expansion of a solution

The edges of the contracted graph are expanded: an edge from or to the vertex that
represents the cycle gets its real end.  Then every vertex of the cycle which no edge
enters so far gets the edge of the cycle.  When the edges represent a tree of the
contracted graph, the result represents its expansion (`expansion_spec`).
-/

namespace Hachee.Algorithm.ChuLiuEdmonds

open Lisp Foundation Loop Contraction

variable {R : Type}

/-! ## The real ends -/

/-- The tables hold the real ends of the edges between `representing` and the
vertices off the cycle. -/
structure RealEnds (tables : Tables R) (V C : Finset Vertex) (representing : Vertex)
    (leave enter : Vertex → Vertex) : Prop where
  departure : ∀ v ∈ V, v ∉ C → ∀ s, getScore tables.scoreHash representing v = some s →
    tables.realDepartureVertices.gethash v = some (leave v)
  arrival : ∀ u ∈ V, u ∉ C → ∀ s, getScore tables.scoreHash u representing = some s →
    tables.realArrivalVertices.gethash u = some (enter u)

/-- The end of an edge, where `entry` is the vertex at which the cycle is entered. -/
def realEnd (representing entry v : Vertex) : Vertex := if v = representing then entry else v

variable [AddCommGroup R] [LinearOrder R]
  {w : Vertex → Vertex → Option R} {tables : Tables R} {V C : Finset Vertex}
  {representing : Vertex} {parent leave enter f : Vertex → Vertex}

/-- An edge of the contracted graph stands for one of the expanded tree. -/
theorem expandEdge_eq
    (h : Contraction w (getScore tables.scoreHash) V C 0 representing parent leave enter)
    (hf : IsTree (getScore tables.scoreHash) (contracted V C representing) 0 f)
    (hends : RealEnds tables V C representing leave enter) {v : Vertex}
    (hv : v ∈ contracted V C representing) (hne : v ≠ 0) :
    expandEdge representing tables (f v, v) =
      some (expand C representing parent leave enter f
          (realEnd representing (enter (f representing)) v),
        realEnd representing (enter (f representing)) v) := by
  obtain ⟨s, hs⟩ := hf.weighted v hv hne
  rw [expandEdge, realEnd]
  by_cases heq : v = representing
  · subst heq
    obtain ⟨hV, hC, hmem, -⟩ := h.enter_spec hf
    have hstart : f v ≠ v := (hf.climbs v hv).ne hne
    simp only [if_neg hstart, if_true, Option.bind_eq_bind, Option.bind_some,
      hends.arrival (f v) hV hC s hs]
    rw [expand, if_pos hmem, if_pos rfl]
  · obtain ⟨hV, hC⟩ := (mem_contracted.mp hv).resolve_left heq
    rw [if_neg heq, expand, if_neg hC]
    by_cases hstart : f v = representing
    · rw [hstart] at hs
      simp only [if_pos hstart, if_neg heq, Option.bind_eq_bind, Option.bind_some,
        hends.departure v hV hC s hs]
    · simp only [if_neg hstart, if_neg heq, Option.bind_eq_bind, Option.bind_some]

omit [AddCommGroup R] [LinearOrder R] in
/-- The loop over the edges expands each of them. -/
theorem expandEdges_eq {edges : List Edge} {g : Edge → Edge}
    (hedges : ∀ edge ∈ edges, expandEdge representing tables edge = some (g edge)) :
    expandEdges representing tables edges = some (edges.map g).reverse := by
  rw [expandEdges, foldlM_eq_some (g := fun finalEdges edge => g edge :: finalEdges) edges
    fun edge hedge finalEdges => by rw [hedges edge hedge]; rfl]
  rw [List.foldl_flip_cons_eq_append, List.append_nil]

/-! ## The edges of the cycle -/

/-- The vertices of the cycle that have no edge get one. -/
theorem addCycleEdges_spec {front : List Vertex} {g : Vertex → Vertex} {entry : Vertex} :
    ∀ (cycleVertices : List Vertex) {edges : List Edge} {S : Set Vertex},
      Represents edges S g → entry ∈ S →
      (∀ c ∈ cycleVertices, c ≠ entry → aref front c = some (g c)) →
      ∃ edges', addCycleEdges front cycleVertices edges = some edges' ∧
        Represents edges' {v | v ∈ S ∨ v ∈ cycleVertices} g
  | [], edges, S, h, _, _ => by
      have hS : {v | v ∈ S ∨ v ∈ ([] : List Vertex)} = S := by
        ext v
        exact or_iff_left List.not_mem_nil
      rw [hS]
      exact ⟨edges, rfl, h⟩
  | i :: cycleVertices, edges, S, h, hentry, hfront => by
      have hrest : ∀ c ∈ cycleVertices, c ≠ entry → aref front c = some (g c) :=
        fun c hc => hfront c (List.mem_cons_of_mem i hc)
      rw [addCycleEdges, List.foldlM_cons]
      by_cases hi : i ∈ edges.map Prod.snd
      · rw [if_pos hi]
        obtain ⟨edges', hloop, h'⟩ := addCycleEdges_spec cycleVertices h hentry hrest
        have hS : {v | v ∈ S ∨ v ∈ i :: cycleVertices} = {v | v ∈ S ∨ v ∈ cycleVertices} := by
          ext v
          simp only [Set.mem_ofPred_eq, List.mem_cons]
          constructor
          · rintro (hv | rfl | hv)
            · exact Or.inl hv
            · exact Or.inl (h.mem_targets.mp hi)
            · exact Or.inr hv
          · rintro (hv | hv)
            · exact Or.inl hv
            · exact Or.inr (Or.inr hv)
        rw [hS]
        exact ⟨edges', hloop, h'⟩
      · have hiS : i ∉ S := fun hmem => hi (h.mem_targets.mpr hmem)
        have hne : i ≠ entry := by
          rintro rfl
          exact hiS hentry
        rw [if_neg hi, hfront i (List.mem_cons_self ..) hne]
        obtain ⟨edges', hloop, h'⟩ := addCycleEdges_spec cycleVertices (h.cons hiS)
          (Set.mem_insert_of_mem i hentry) hrest
        have hS : {v | v ∈ S ∨ v ∈ i :: cycleVertices} =
            {v | v ∈ insert i S ∨ v ∈ cycleVertices} := by
          ext v
          simp only [Set.mem_ofPred_eq, List.mem_cons, Set.mem_insert_iff]
          exact or_left_comm.trans or_assoc.symm
        rw [hS]
        exact ⟨edges', hloop, h'⟩

/-! ## Both steps -/

omit R [AddCommGroup R] [LinearOrder R] in
/-- The ends of the edges stay different, when `entry` is none of them. -/
theorem realEnd_injOn {S : Set Vertex} {entry : Vertex}
    (hoff : representing ∈ S → ∀ v ∈ S, v ≠ representing → v ≠ entry) :
    Set.InjOn (realEnd representing entry) S := by
  intro u hu v hv heq
  rw [realEnd, realEnd] at heq
  by_cases hur : u = representing
  · by_cases hvr : v = representing
    · rw [hur, hvr]
    · rw [if_pos hur, if_neg hvr] at heq
      exact absurd heq.symm (hoff (hur ▸ hu) v hv hvr)
  · by_cases hvr : v = representing
    · rw [if_neg hur, if_pos hvr] at heq
      exact absurd heq (hoff (hvr ▸ hv) u hu hur)
    · rwa [if_neg hur, if_neg hvr] at heq

/-- Edges that represent a tree of the contracted graph are expanded to edges that
represent the expanded tree. -/
theorem expansion_spec {front cycleVertices : List Vertex} {edges : List Edge}
    (h : Contraction w (getScore tables.scoreHash) V C 0 representing parent leave enter)
    (hf : IsTree (getScore tables.scoreHash) (contracted V C representing) 0 f)
    (hends : RealEnds tables V C representing leave enter)
    (hedges : Represents edges {v | v ∈ contracted V C representing ∧ v ≠ 0} f)
    (hC : ∀ v, v ∈ cycleVertices ↔ v ∈ C)
    (hfront : ∀ c ∈ cycleVertices, aref front c = some (parent c)) :
    ∃ finalEdges finalEdges', expandEdges representing tables edges = some finalEdges ∧
      addCycleEdges front cycleVertices finalEdges = some finalEdges' ∧
      Represents finalEdges' {v | v ∈ V ∧ v ≠ 0}
        (expand C representing parent leave enter f) := by
  obtain ⟨-, -, hentry, -⟩ := h.enter_spec hf
  have hrep : representing ≠ 0 := by
    intro heq
    exact h.root_notMem (heq ▸ h.rep_mem)
  have hexpand : expandEdges representing tables edges =
      some (edges.map fun edge => (expand C representing parent leave enter f
          (realEnd representing (enter (f representing)) edge.2),
        realEnd representing (enter (f representing)) edge.2)).reverse := by
    refine expandEdges_eq fun edge hedge => ?_
    obtain ⟨u, v⟩ := edge
    obtain ⟨⟨hv, hne⟩, rfl⟩ := (hedges.mem_iff u v).mp hedge
    exact expandEdge_eq h hf hends hv hne
  have hoff : ∀ v ∈ {v | v ∈ contracted V C representing ∧ v ≠ 0}, v ≠ representing →
      v ≠ enter (f representing) := by
    rintro v ⟨hv, -⟩ hvr rfl
    exact ((mem_contracted.mp hv).resolve_left hvr).2 hentry
  have hexpanded := (hedges.bend (realEnd_injOn fun _ => hoff)
    (expand C representing parent leave enter f)).perm (List.reverse_perm _)
  have hmem : enter (f representing) ∈ realEnd representing (enter (f representing)) ''
      {v | v ∈ contracted V C representing ∧ v ≠ 0} :=
    ⟨representing, ⟨mem_contracted.mpr (Or.inl rfl), hrep⟩, if_pos rfl⟩
  have hcycle : ∀ c ∈ cycleVertices, c ≠ enter (f representing) →
      aref front c = some (expand C representing parent leave enter f c) := by
    intro c hc hne
    rw [hfront c hc, expand, if_pos ((hC c).mp hc), if_neg hne]
  obtain ⟨finalEdges', hadd, hfinal⟩ :=
    addCycleEdges_spec cycleVertices hexpanded hmem hcycle
  have htargets : {v | v ∈ realEnd representing (enter (f representing)) ''
      {v | v ∈ contracted V C representing ∧ v ≠ 0} ∨ v ∈ cycleVertices} =
      {v | v ∈ V ∧ v ≠ 0} := by
    ext v
    constructor
    · rintro (⟨u, ⟨hu, hne⟩, rfl⟩ | hv)
      · by_cases heq : u = representing
        · rw [realEnd, if_pos heq]
          exact ⟨h.subset hentry, fun h0 => h.root_notMem (h0 ▸ hentry)⟩
        · rw [realEnd, if_neg heq]
          exact ⟨((mem_contracted.mp hu).resolve_left heq).1, hne⟩
      · have hv := (hC v).mp hv
        exact ⟨h.subset hv, fun h0 => h.root_notMem (h0 ▸ hv)⟩
    · rintro ⟨hv, hne⟩
      by_cases hvC : v ∈ C
      · exact Or.inr ((hC v).mpr hvC)
      · have hvr : v ≠ representing := fun heq => hvC (heq ▸ h.rep_mem)
        exact Or.inl ⟨v, ⟨mem_contracted.mpr (Or.inr ⟨hv, hvC⟩), hne⟩,
          if_neg hvr⟩
  rw [htargets] at hfinal
  exact ⟨_, finalEdges', hexpand, hadd, hfinal⟩

end Hachee.Algorithm.ChuLiuEdmonds
