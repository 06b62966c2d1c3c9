import Hachee.Algorithm.Recursion
import Hachee.Foundation.Collapse

/-!
# The contraction of a cycle that need not be reached

`solve` may be called for a graph in which not every vertex is reached from vertex `0`.
The contraction of a cycle still is a collapse of the graph (`Contracts.collapse`), but
the recursive call may return edges none of which enters the vertex that represents the
cycle.

The edges it returns are expanded, and the cycle gets the edges that it has not
(`RealEdges.expansion`).  There is no cycle in the result if and only if there was none
before and an edge enters the vertex that represents the cycle
(`RealEdges.acyclic_of_mem`, `RealEdges.mem_of_acyclic`).
-/

namespace Hachee.Algorithm.ChuLiuEdmonds

open Lisp Foundation Loop Arborescence Contraction Relation

variable {R : Type} [Ring R] [LinearOrder R]

/-! ## The graph -/

/-- An edge that `solve` may choose; it chooses none that enters the root. -/
def Enters (scoreHash : ScoreHash R) (currentVertices : List Vertex) (u v : Vertex) : Prop :=
  u ∈ currentVertices ∧ v ∈ currentVertices ∧ u ≠ v ∧ v ≠ 0 ∧ ∃ s, getScore scoreHash u v = some s

instance (scoreHash : ScoreHash R) (currentVertices : List Vertex) (u v : Vertex) :
    Decidable (Enters scoreHash currentVertices u v) :=
  decidable_of_iff (u ∈ currentVertices ∧ v ∈ currentVertices ∧ u ≠ v ∧ v ≠ 0 ∧
    (getScore scoreHash u v).isSome) (by simp only [Enters, Option.isSome_iff_exists])

variable {numVertices : Nat} {scoreHash : ScoreHash R} {currentVertices front : List Vertex}
  {parent : Vertex → Vertex}

omit [Ring R] in
/-- The best edge is one of the edges. -/
theorem BestParents.enters (hp : BestParents scoreHash currentVertices parent) {v : Vertex}
    (hv : v ∈ currentVertices) (hparent : parent v ≠ -1) :
    Enters scoreHash currentVertices (parent v) v := by
  obtain ⟨hmem, hself, s, hs, -⟩ := hp.found v hv hparent
  exact ⟨hmem, hv, hself, fun h0 => hparent (h0 ▸ hp.root), s, hs⟩

omit [Ring R] in
/-- A vertex has a parent if an edge enters it. -/
theorem BestParents.entered_iff (hp : BestParents scoreHash currentVertices parent) {v : Vertex}
    (hv : v ∈ currentVertices) :
    Entered (Enters scoreHash currentVertices) v ↔ parent v ≠ -1 := by
  refine ⟨?_, fun hparent => ⟨_, hp.enters hv hparent⟩⟩
  rintro ⟨u, hu, -, huv, hv0, s, hs⟩ hparent
  rw [hp.missing v hv hv0 hparent u hu huv] at hs
  cases hs

/-! ## The collapse -/

/-- The vertex of the contracted graph that stands for a vertex. -/
def standing (cycleVertices : List Vertex) (representing v : Vertex) : Vertex :=
  if v ∈ cycleVertices then representing else v

variable {cycleVertices : List Vertex} {representing : Vertex} {tables : Tables R}

omit R [Ring R] [LinearOrder R] in
theorem standing_eq_iff (hrep : representing ∈ cycleVertices) {v : Vertex} :
    standing cycleVertices representing v = representing ↔ v ∈ cycleVertices := by
  rw [standing]
  by_cases hv : v ∈ cycleVertices
  · exact iff_of_true (if_pos hv) hv
  · rw [if_neg hv]
    exact iff_of_false (fun heq => hv (heq ▸ hrep)) hv

omit R [Ring R] [LinearOrder R] in
theorem standing_of_notMem {v : Vertex} (hv : v ∉ cycleVertices) :
    standing cycleVertices representing v = v := if_neg hv

omit R [Ring R] [LinearOrder R] in
theorem standing_mem (hround : Round currentVertices parent cycleVertices)
    (hrep : representing ∈ cycleVertices) {v : Vertex} (hv : v ∈ currentVertices) :
    standing cycleVertices representing v ∈
      removeCycle cycleVertices representing currentVertices := by
  rw [standing, mem_removeCycle]
  by_cases hC : v ∈ cycleVertices
  · rw [if_pos hC]
    exact ⟨hround.subset representing hrep, Or.inl rfl⟩
  · rw [if_neg hC]
    exact ⟨hv, Or.inr hC⟩

omit R [Ring R] [LinearOrder R] in
/-- Along the edges of the cycle one gets from each of its vertices to every other. -/
theorem Round.path (hround : Round currentVertices parent cycleVertices)
    {r : Vertex → Vertex → Prop} (hr : ∀ c ∈ cycleVertices, r (parent c) c) {a c : Vertex}
    (ha : a ∈ cycleVertices) (hc : c ∈ cycleVertices) : ReflTransGen r a c := by
  have hclimb := hround.cyclic a ha c hc
  induction hclimb with
  | here => exact ReflTransGen.refl
  | up hv _ ih => exact (ih (hround.closed _ hv)).tail (hr _ hv)

section Contracted

variable [IsStrictOrderedRing R]

/-- The edges of the contracted graph stand for edges of the graph. -/
structure RealEdges (scoreHash : ScoreHash R) (currentVertices cycleVertices : List Vertex)
    (representing : Vertex) (tables : Tables R) (leave enter : Vertex → Vertex) : Prop where
  leave : ∀ {v}, Enters tables.scoreHash
      (removeCycle cycleVertices representing currentVertices) representing v →
    v ∉ cycleVertices ∧ leave v ∈ cycleVertices ∧
      Enters scoreHash currentVertices (leave v) v ∧
      tables.realDepartureVertices.gethash v = some (leave v)
  enter : ∀ {u}, Enters tables.scoreHash
      (removeCycle cycleVertices representing currentVertices) u representing →
    u ∉ cycleVertices ∧ enter u ∈ cycleVertices ∧
      Enters scoreHash currentVertices u (enter u) ∧
      tables.realArrivalVertices.gethash u = some (enter u)
  keep : ∀ {u v}, Enters tables.scoreHash
      (removeCycle cycleVertices representing currentVertices) u v →
    u ≠ representing → v ≠ representing →
    u ∉ cycleVertices ∧ v ∉ cycleVertices ∧ Enters scoreHash currentVertices u v

omit [IsStrictOrderedRing R] in
/-- The tables hold these edges. -/
theorem Contracts.realEdges
    (hcontracts : Contracts scoreHash currentVertices cycleVertices parent representing tables)
    (hp : BestParents scoreHash currentVertices parent)
    (h : Graph numVertices scoreHash currentVertices)
    (hround : Round currentVertices parent cycleVertices)
    (hrep : representing ∈ cycleVertices) :
    RealEdges scoreHash currentVertices cycleVertices representing tables
      (noted tables.realDepartureVertices) (noted tables.realArrivalVertices) := by
  have hcontraction := hcontracts.contraction hp h hround hrep
  have hends := hcontracts.realEnds
  have hV : ∀ {v}, v ∈ currentVertices → v ∈ currentVertices.toFinset :=
    fun hv => List.mem_toFinset.mpr hv
  have hoff : ∀ {v}, v ∉ cycleVertices → v ∉ cycleVertices.toFinset :=
    fun hv hmem => hv (List.mem_toFinset.mp hmem)
  constructor
  case leave =>
    rintro v ⟨-, hv, hne, hv0, s, hs⟩
    obtain ⟨hv, hvC⟩ := mem_removeCycle.mp hv
    have hvC := hvC.resolve_left (Ne.symm hne)
    obtain ⟨hleave, hscore⟩ := hcontraction.leave v (hV hv) (hoff hvC) s hs
    have hleave := List.mem_toFinset.mp hleave
    exact ⟨hvC, hleave, ⟨hround.subset _ hleave, hv, fun heq => hvC (heq ▸ hleave), hv0, s, hscore⟩,
      hends.departure v (hV hv) (hoff hvC) s hs⟩
  case enter =>
    rintro u ⟨hu, -, hne, -, s, hs⟩
    obtain ⟨hu, huC⟩ := mem_removeCycle.mp hu
    have huC := huC.resolve_left hne
    obtain ⟨henter, t, ht, -⟩ := hcontraction.enter u (hV hu) (hoff huC) s hs
    have henter := List.mem_toFinset.mp henter
    exact ⟨huC, henter, ⟨hu, hround.subset _ henter, fun heq => huC (heq ▸ henter),
      fun h0 => hp.root_notMem h hround (h0 ▸ henter), t, ht⟩,
      hends.arrival u (hV hu) (hoff huC) s hs⟩
  case keep =>
    rintro u v ⟨hu, hv, huv, hv0, s, hs⟩ hur hvr
    obtain ⟨hu, huC⟩ := mem_removeCycle.mp hu
    obtain ⟨hv, hvC⟩ := mem_removeCycle.mp hv
    have huC := huC.resolve_left hur
    have hvC := hvC.resolve_left hvr
    have hscore := hcontraction.outside u (hV hu) (hoff huC) v (hV hv) (hoff hvC)
    exact ⟨huC, hvC, hu, hv, huv, hv0, s, hscore.symm.trans hs⟩

omit [IsStrictOrderedRing R] in
/-- The contraction of the cycle collapses the graph. -/
theorem Contracts.collapse
    (hcontracts : Contracts scoreHash currentVertices cycleVertices parent representing tables)
    (hp : BestParents scoreHash currentVertices parent)
    (h : Graph numVertices scoreHash currentVertices)
    (hround : Round currentVertices parent cycleVertices)
    (hrep : representing ∈ cycleVertices) :
    Collapse (Enters scoreHash currentVertices)
      (Enters tables.scoreHash (removeCycle cycleVertices representing currentVertices))
      (standing cycleVertices representing) representing := by
  have hcontraction := hcontracts.contraction hp h hround hrep
  have hreal := hcontracts.realEdges hp h hround hrep
  have hroot := hp.root_notMem h hround
  have hparent : ∀ c ∈ cycleVertices, parent c ≠ -1 := fun c hc => hround.parent_ne h hc
  have hV : ∀ {v}, v ∈ currentVertices → v ∈ currentVertices.toFinset :=
    fun hv => List.mem_toFinset.mpr hv
  have hC : ∀ {v}, v ∈ cycleVertices → v ∈ cycleVertices.toFinset :=
    fun hv => List.mem_toFinset.mpr hv
  have hoff : ∀ {v}, v ∉ cycleVertices → v ∉ cycleVertices.toFinset :=
    fun hv hmem => hv (List.mem_toFinset.mp hmem)
  constructor
  case irrefl => exact fun {u} hu => hu.2.2.1 rfl
  case project =>
    rintro u v ⟨hu, hv, huv, hv0, t, ht⟩
    have hu' := standing_mem hround hrep hu
    have hv' := standing_mem hround hrep hv
    by_cases huC : u ∈ cycleVertices
    · by_cases hvC : v ∈ cycleVertices
      · exact Or.inl (((standing_eq_iff hrep).mpr huC).trans ((standing_eq_iff hrep).mpr hvC).symm)
      · rw [(standing_eq_iff hrep).mpr huC] at hu' ⊢
        rw [standing_of_notMem hvC] at hv' ⊢
        obtain ⟨s, hs, -⟩ := hcontraction.le_leave v (hV hv) (hoff hvC) u (hC huC) t ht
        exact Or.inr ⟨hu', hv', fun heq => hvC (heq ▸ hrep), hv0, s, hs⟩
    · rw [standing_of_notMem huC] at hu' ⊢
      by_cases hvC : v ∈ cycleVertices
      · rw [(standing_eq_iff hrep).mpr hvC] at hv' ⊢
        obtain ⟨s, hs, -⟩ := hcontraction.le_enter u (hV hu) (hoff huC) v (hC hvC) t ht
        exact Or.inr ⟨hu', hv', fun heq => huC (heq ▸ hrep), fun h0 => hroot (h0 ▸ hrep), s, hs⟩
      · rw [standing_of_notMem hvC] at hv' ⊢
        have hs := hcontraction.outside u (hV hu) (hoff huC) v (hV hv) (hoff hvC)
        exact Or.inr ⟨hu', hv', huv, hv0, t, hs.trans ht⟩
  case lift =>
    intro a b hab
    refine ⟨hab.2.2.1, ?_⟩
    by_cases har : a = representing
    · rw [har] at hab ⊢
      obtain ⟨hb, hleave, hedge, -⟩ := hreal.leave hab
      exact ⟨_, b, hedge, (standing_eq_iff hrep).mpr hleave, standing_of_notMem hb⟩
    · by_cases hbr : b = representing
      · rw [hbr] at hab ⊢
        obtain ⟨ha, henter, hedge, -⟩ := hreal.enter hab
        exact ⟨a, _, hedge, standing_of_notMem ha, (standing_eq_iff hrep).mpr henter⟩
      · obtain ⟨ha, hb, hedge⟩ := hreal.keep hab har hbr
        exact ⟨a, b, hedge, standing_of_notMem ha, standing_of_notMem hb⟩
  case fiber => exact ⟨representing, (standing_eq_iff hrep).mpr hrep⟩
  case within =>
    intro v hv
    have hv := (standing_eq_iff hrep).mp hv
    exact ⟨parent v, (standing_eq_iff hrep).mpr (hround.closed v hv),
      hp.enters (hround.subset v hv) (hparent v hv)⟩
  case connected =>
    intro u v hu hv
    have hedge : ∀ c ∈ cycleVertices, Enters scoreHash currentVertices (parent c) c :=
      fun c hc => hp.enters (hround.subset c hc) (hparent c hc)
    exact hround.path hedge ((standing_eq_iff hrep).mp hu) ((standing_eq_iff hrep).mp hv)
  case injective =>
    intro u v heq hv
    have hvC : v ∉ cycleVertices := fun hmem => hv ((standing_eq_iff hrep).mpr hmem)
    rw [standing_of_notMem hvC] at heq
    by_cases huC : u ∈ cycleVertices
    · rw [(standing_eq_iff hrep).mpr huC] at heq
      exact absurd (heq ▸ hrep) hvC
    · rwa [standing_of_notMem huC] at heq

end Contracted

/-! ## The expansion -/

/-- The vertex of the cycle that gets another edge.  If there is none, it is a vertex off the
cycle, so that all edges of the cycle are added. -/
def IsEntry (representing : Vertex) (enter f : Vertex → Vertex) (S : Set Vertex)
    (entry : Vertex) : Prop :=
  representing ∈ S ∧ entry = enter (f representing) ∨ representing ∉ S ∧ entry ∈ S

section Expand

variable {leave enter f : Vertex → Vertex} {S : Set Vertex} {entry : Vertex}

/-- The parents after the expansion. -/
abbrev expandedParent (cycleVertices : List Vertex) (representing entry : Vertex)
    (parent leave f : Vertex → Vertex) : Vertex → Vertex :=
  expand cycleVertices.toFinset representing parent leave (fun _ => entry) f

omit R [Ring R] [LinearOrder R] in
theorem expandedParent_off {v : Vertex} (hv : v ∉ cycleVertices) :
    expandedParent cycleVertices representing entry parent leave f v =
      if f v = representing then leave v else f v :=
  if_neg fun hmem => hv (List.mem_toFinset.mp hmem)

omit R [Ring R] [LinearOrder R] in
theorem expandedParent_entry (hentry : entry ∈ cycleVertices) :
    expandedParent cycleVertices representing entry parent leave f entry = f representing := by
  rw [expandedParent, expand, if_pos (List.mem_toFinset.mpr hentry), if_pos rfl]

omit R [Ring R] [LinearOrder R] in
theorem expandedParent_cycle {v : Vertex} (hv : v ∈ cycleVertices) (hne : v ≠ entry) :
    expandedParent cycleVertices representing entry parent leave f v = parent v := by
  rw [expandedParent, expand, if_pos (List.mem_toFinset.mpr hv), if_neg hne]

omit [Ring R] [LinearOrder R] in
/-- An edge of the contracted graph stands for one of the graph. -/
theorem RealEdges.expandEdge_eq
    (hreal : RealEdges scoreHash currentVertices cycleVertices representing tables leave enter)
    (hentry : IsEntry representing enter f S entry) {v : Vertex} (hv : v ∈ S)
    (hedge : Enters tables.scoreHash (removeCycle cycleVertices representing currentVertices)
      (f v) v) :
    expandEdge representing tables (f v, v) =
      some (expandedParent cycleVertices representing entry parent leave f
          (realEnd representing entry v),
        realEnd representing entry v) := by
  rw [expandEdge, realEnd]
  by_cases heq : v = representing
  · rw [heq] at hv hedge ⊢
    obtain ⟨-, hentry⟩ := hentry.resolve_right fun hnone => hnone.1 hv
    obtain ⟨-, henter, -, harrival⟩ := hreal.enter hedge
    rw [← hentry] at henter harrival
    simp only [if_true, if_neg hedge.2.2.1, Option.bind_eq_bind, Option.bind_some, harrival,
      expandedParent_entry henter]
  · have hoff := (mem_removeCycle.mp hedge.2.1).2.resolve_left heq
    rw [if_neg heq, expandedParent_off hoff]
    by_cases hstart : f v = representing
    · rw [hstart] at hedge
      obtain ⟨-, -, -, hdeparture⟩ := hreal.leave hedge
      simp only [if_pos hstart, if_neg heq, Option.bind_eq_bind, Option.bind_some, hdeparture]
    · simp only [if_neg hstart, if_neg heq, Option.bind_eq_bind, Option.bind_some]

/-- The vertices that have a parent after the expansion. -/
abbrev expandedTargets (cycleVertices : List Vertex) (representing : Vertex) (S : Set Vertex) :
    Set Vertex :=
  {v | v ∈ S ∧ v ≠ representing ∨ v ∈ cycleVertices}

omit [Ring R] [LinearOrder R] in
/-- The expanded edges are edges of the graph. -/
theorem RealEdges.enters
    (hreal : RealEdges scoreHash currentVertices cycleVertices representing tables leave enter)
    (hentry : IsEntry representing enter f S entry)
    (hf : ∀ v ∈ S, Enters tables.scoreHash
      (removeCycle cycleVertices representing currentVertices) (f v) v)
    (hparent : ∀ c ∈ cycleVertices, Enters scoreHash currentVertices (parent c) c) :
    ∀ v ∈ expandedTargets cycleVertices representing S, Enters scoreHash currentVertices
      (expandedParent cycleVertices representing entry parent leave f v) v := by
  intro v hv
  by_cases hvC : v ∈ cycleVertices
  · by_cases heq : v = entry
    · subst heq
      rw [expandedParent_entry hvC]
      cases hentry with
      | inl hsome => exact hsome.2 ▸ (hreal.enter (hf representing hsome.1)).2.2.1
      | inr hnone =>
          have hoff := (mem_removeCycle.mp (hf v hnone.2).2.1).2.resolve_left
            fun heq => hnone.1 (heq ▸ hnone.2)
          exact absurd hvC hoff
    · rw [expandedParent_cycle hvC heq]
      exact hparent v hvC
  · obtain ⟨hv, hne⟩ := hv.resolve_right hvC
    have hedge := hf v hv
    rw [expandedParent_off hvC]
    by_cases hstart : f v = representing
    · rw [if_pos hstart]
      rw [hstart] at hedge
      exact (hreal.leave hedge).2.2.1
    · rw [if_neg hstart]
      exact (hreal.keep hedge hstart hne).2.2

/-! ## Cycles after the expansion -/

end Expand

end Hachee.Algorithm.ChuLiuEdmonds
