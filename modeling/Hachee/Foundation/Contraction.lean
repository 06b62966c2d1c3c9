import Hachee.Foundation.Arborescence
import Mathlib.Algebra.Order.BigOperators.Group.Finset
import Mathlib.Tactic.Abel
import Mathlib.Tactic.Common

/-!
# Best trees and the contraction of a cycle

A weighted graph over the vertices `V` is a function `w`, where `w u v` is the weight
of the edge from `u` to `v` if there is one.  A tree under `root` is given by the
parent `f v` of every other vertex `v`, and its score is the weight of its edges.

If every vertex takes the best edge that enters it and a tree comes out, then it is
the best one (`score_le_of_best`).  Otherwise these edges contain a cycle `C`.  The
cycle is *contracted*: in the new graph one vertex `r` of it stands for all of them
(`Contraction`).  An edge that leaves `r` is the best one that leaves the cycle, and
an edge that enters `r` has the weight of the whole cycle in addition to that of the
best edge that enters the cycle, less the edge of the cycle which that one replaces.

A tree of the new graph expands to one of the old graph with the same score
(`Contraction.isTree_expand`, `Contraction.score_expand`), and every tree of the old
graph collapses to one of the new graph that is at least as good
(`Contraction.score_le_collapse`).  Thus the best tree of the new graph expands to the
best tree of the old one (`Contraction.score_le_expand`).
-/

namespace Hachee.Foundation

open Arborescence

/-! ## Trees -/

section Trees

variable {α R : Type*} [DecidableEq α] [AddCommGroup R] [LinearOrder R]

/-- `f` gives the parents of a tree under `root`. -/
structure IsTree (w : α → α → Option R) (V : Finset α) (root : α) (f : α → α) : Prop where
  source : ∀ v ∈ V, v ≠ root → f v ∈ V
  weighted : ∀ v ∈ V, v ≠ root → ∃ s, w (f v) v = some s
  climbs : ∀ v ∈ V, Climbs f root V v

/-- The weight of the edge that enters `v`. -/
def weight (w : α → α → Option R) (f : α → α) (v : α) : R := (w (f v) v).getD 0

/-- The weight of all edges. -/
def score (w : α → α → Option R) (V : Finset α) (root : α) (f : α → α) : R :=
  ∑ v ∈ V.erase root, weight w f v

omit [DecidableEq α] [LinearOrder R] in
theorem weight_eq {w : α → α → Option R} {f : α → α} {v : α} {s : R} (h : w (f v) v = some s) :
    weight w f v = s := by
  rw [weight, h]
  rfl

/-- `f` takes the best of the edges that enter a vertex. -/
def Best (w : α → α → Option R) (V : Finset α) (f : α → α) (v : α) : Prop :=
  ∃ s, w (f v) v = some s ∧ ∀ u ∈ V, u ≠ v → ∀ t, w u v = some t → t ≤ s

variable {w : α → α → Option R} {V : Finset α} {root : α} {f g : α → α}

omit [DecidableEq α] in
/-- No edge of a tree is better than the best one. -/
theorem IsTree.weight_le (hg : IsTree w V root g) {v : α} (hv : v ∈ V) (hne : v ≠ root)
    (hbest : Best w V f v) : weight w g v ≤ weight w f v := by
  obtain ⟨s, hs, hle⟩ := hbest
  obtain ⟨t, ht⟩ := hg.weighted v hv hne
  rw [weight_eq hs, weight_eq ht]
  exact hle (g v) (hg.source v hv hne) ((hg.climbs v hv).ne hne) t ht

/-- The best edges have the best score. -/
theorem score_le_of_best [IsOrderedAddMonoid R] (hg : IsTree w V root g)
    (hbest : ∀ v ∈ V, v ≠ root → Best w V f v) : score w V root g ≤ score w V root f := by
  refine Finset.sum_le_sum fun v hv => ?_
  obtain ⟨hne, hmem⟩ := Finset.mem_erase.mp hv
  exact hg.weight_le hmem hne (hbest v hmem hne)

end Trees

/-! ## Contraction -/

section Contract

variable {α R : Type*} [DecidableEq α] [AddCommGroup R] [LinearOrder R]

/-- `w'` is the graph `w` with the vertex `r` in place of the cycle `C` of the edges
`f₀`.  The edge from `r` to `v` is the one from `leave v`, and the edge from `u` to
`r` is the one to `enter u`. -/
structure Contraction (w w' : α → α → Option R) (V C : Finset α) (root r : α)
    (f₀ leave enter : α → α) : Prop where
  subset : C ⊆ V
  root_notMem : root ∉ C
  rep_mem : r ∈ C
  closed : ∀ c ∈ C, f₀ c ∈ C
  cyclic : ∀ a ∈ C, ∀ c ∈ C, Climbs f₀ a C c
  best : ∀ c ∈ C, Best w V f₀ c
  outside : ∀ u ∈ V, u ∉ C → ∀ v ∈ V, v ∉ C → w' u v = w u v
  leave : ∀ v ∈ V, v ∉ C → ∀ s, w' r v = some s → leave v ∈ C ∧ w (leave v) v = some s
  le_leave : ∀ v ∈ V, v ∉ C → ∀ c ∈ C, ∀ t, w c v = some t → ∃ s, w' r v = some s ∧ t ≤ s
  enter : ∀ u ∈ V, u ∉ C → ∀ s, w' u r = some s → enter u ∈ C ∧
    ∃ t, w u (enter u) = some t ∧ s = ∑ c ∈ C, weight w f₀ c + t - weight w f₀ (enter u)
  le_enter : ∀ u ∈ V, u ∉ C → ∀ c ∈ C, ∀ t, w u c = some t →
    ∃ s, w' u r = some s ∧ ∑ c ∈ C, weight w f₀ c + t - weight w f₀ c ≤ s

/-- The vertices of the new graph. -/
def contracted (V C : Finset α) (r : α) : Finset α := insert r (V \ C)

namespace Contraction

variable {w w' : α → α → Option R} {V C : Finset α} {root r : α} {f₀ leave enter : α → α}

omit [AddCommGroup R] [LinearOrder R] in
theorem mem_contracted {v : α} : v ∈ contracted V C r ↔ v = r ∨ v ∈ V ∧ v ∉ C := by
  rw [contracted, Finset.mem_insert, Finset.mem_sdiff]

omit [LinearOrder R] in
/-- The score of a tree, with the vertices of the cycle apart. -/
theorem score_eq (hsub : C ⊆ V) (hroot : root ∉ C) (f : α → α) :
    score w V root f =
      ∑ v ∈ (V \ C).erase root, weight w f v + ∑ v ∈ C, weight w f v := by
  have hsplit : V.erase root = (V \ C).erase root ∪ C := by
    ext v
    simp only [Finset.mem_erase, Finset.mem_union, Finset.mem_sdiff]
    constructor
    · rintro ⟨hne, hv⟩
      by_cases hC : v ∈ C
      · exact Or.inr hC
      · exact Or.inl ⟨hne, hv, hC⟩
    · rintro (⟨hne, hv, -⟩ | hC)
      · exact ⟨hne, hv⟩
      · exact ⟨fun heq => hroot (heq ▸ hC), hsub hC⟩
  have hdisjoint : Disjoint ((V \ C).erase root) C :=
    Finset.disjoint_of_subset_left (Finset.erase_subset _ _) Finset.sdiff_disjoint
  rw [score, hsplit, Finset.sum_union hdisjoint]

omit [LinearOrder R] in
/-- The score of a tree of the new graph, with the new vertex apart. -/
theorem score_contracted (hroot : root ∉ C) (hr : r ∈ C) (f : α → α) :
    score w (contracted V C r) root f =
      ∑ v ∈ (V \ C).erase root, weight w f v + weight w f r := by
  have hne : r ≠ root := by
    rintro rfl
    exact hroot hr
  have hnotMem : r ∉ (V \ C).erase root := by
    intro hmem
    exact (Finset.mem_sdiff.mp (Finset.mem_of_mem_erase hmem)).2 hr
  rw [score, contracted, Finset.erase_insert_of_ne hne, Finset.sum_insert hnotMem, add_comm]

/-! ### Expansion -/

/-- The tree of the old graph for a tree of the new one. -/
def expand (C : Finset α) (r : α) (f₀ leave enter f : α → α) (v : α) : α :=
  if v ∈ C then
    if v = enter (f r) then f r else f₀ v
  else if f v = r then leave v
  else f v

variable {f : α → α}

/-- The edge into the new vertex of a tree. -/
theorem enter_spec (h : Contraction w w' V C root r f₀ leave enter)
    (hf : IsTree w' (contracted V C r) root f) :
    f r ∈ V ∧ f r ∉ C ∧ enter (f r) ∈ C ∧ ∃ t, w (f r) (enter (f r)) = some t ∧
      weight w' f r = ∑ c ∈ C, weight w f₀ c + t - weight w f₀ (enter (f r)) := by
  have hr : r ∈ contracted V C r := mem_contracted.mpr (Or.inl rfl)
  have hne : r ≠ root := by
    rintro rfl
    exact h.root_notMem h.rep_mem
  obtain ⟨hV, hC⟩ := (mem_contracted.mp (hf.source r hr hne)).resolve_left
    ((hf.climbs r hr).ne hne)
  obtain ⟨s, hs⟩ := hf.weighted r hr hne
  obtain ⟨hmem, t, ht, heq⟩ := h.enter (f r) hV hC s hs
  exact ⟨hV, hC, hmem, t, ht, by rw [weight_eq hs, heq]⟩

/-- The edge into another vertex. -/
theorem expand_outside (h : Contraction w w' V C root r f₀ leave enter)
    (hf : IsTree w' (contracted V C r) root f) {v : α} (hv : v ∈ V) (hC : v ∉ C)
    (hne : v ≠ root) :
    expand C r f₀ leave enter f v ∈ V ∧
      ∃ s, w (expand C r f₀ leave enter f v) v = some s ∧ w' (f v) v = some s := by
  have hmem : v ∈ contracted V C r := mem_contracted.mpr (Or.inr ⟨hv, hC⟩)
  obtain ⟨s, hs⟩ := hf.weighted v hmem hne
  rw [expand, if_neg hC]
  by_cases hr : f v = r
  · rw [if_pos hr]
    obtain ⟨hleave, hw⟩ := h.leave v hv hC s (hr ▸ hs)
    exact ⟨h.subset hleave, s, hw, hs⟩
  · rw [if_neg hr]
    obtain ⟨hfv, hfC⟩ := (mem_contracted.mp (hf.source v hmem hne)).resolve_left hr
    exact ⟨hfv, s, by rw [← h.outside (f v) hfv hfC v hv hC]; exact hs, hs⟩

/-- From every vertex of the cycle one gets to the root. -/
theorem climbs_expand_cycle (h : Contraction w w' V C root r f₀ leave enter)
    (hf : IsTree w' (contracted V C r) root f)
    (hup : Climbs (expand C r f₀ leave enter f) root V (f r)) :
    ∀ c ∈ C, Climbs (expand C r f₀ leave enter f) root V c := by
  obtain ⟨-, -, hmem, -⟩ := h.enter_spec hf
  have henter : Climbs (expand C r f₀ leave enter f) root V (enter (f r)) := by
    refine Climbs.up (h.subset hmem) ?_
    rw [expand, if_pos hmem, if_pos rfl]
    exact hup
  intro c hc
  have hclimb := h.cyclic (enter (f r)) hmem c hc
  induction hclimb with
  | here => exact henter
  | @up v hv _ ih =>
      by_cases heq : v = enter (f r)
      · rw [heq]
        exact henter
      · refine Climbs.up (h.subset hv) ?_
        rw [expand, if_pos hc, if_neg heq]
        exact ih (h.closed v hc)

/-- A climb in the new graph leads through the cycle in the old one. -/
theorem climbs_expand (h : Contraction w w' V C root r f₀ leave enter)
    (hf : IsTree w' (contracted V C r) root f) {v : α}
    (hv : Climbs f root (contracted V C r) v) :
    (v ∉ C → Climbs (expand C r f₀ leave enter f) root V v) ∧
      (v = r → ∀ c ∈ C, Climbs (expand C r f₀ leave enter f) root V c) := by
  induction hv with
  | here =>
      refine ⟨fun _ => Climbs.here, fun heq => ?_⟩
      exact absurd (heq ▸ h.rep_mem) h.root_notMem
  | @up v hv _ ih =>
      refine ⟨fun hC => ?_, fun heq => ?_⟩
      · by_cases hroot : v = root
        · rw [hroot]
          exact Climbs.here
        · have hvr : v ≠ r := fun heq => hC (heq ▸ h.rep_mem)
          have hV : v ∈ V := ((mem_contracted.mp hv).resolve_left hvr).1
          refine Climbs.up hV ?_
          rw [expand, if_neg hC]
          by_cases hr : f v = r
          · rw [if_pos hr]
            obtain ⟨s, hs⟩ := hf.weighted v hv hroot
            exact ih.2 hr (leave v) (h.leave v hV hC s (hr ▸ hs)).1
          · rw [if_neg hr]
            exact ih.1 ((mem_contracted.mp (hf.source v hv hroot)).resolve_left hr).2
      · subst heq
        exact h.climbs_expand_cycle hf (ih.1 (h.enter_spec hf).2.1)

/-- A tree of the new graph expands to a tree. -/
theorem isTree_expand (h : Contraction w w' V C root r f₀ leave enter)
    (hf : IsTree w' (contracted V C r) root f) :
    IsTree w V root (expand C r f₀ leave enter f) := by
  obtain ⟨hpV, -, hmem, t, ht, -⟩ := h.enter_spec hf
  refine ⟨fun v hv hne => ?_, fun v hv hne => ?_, fun v hv => ?_⟩
  · by_cases hC : v ∈ C
    · rw [expand, if_pos hC]
      by_cases heq : v = enter (f r)
      · rw [if_pos heq]
        exact hpV
      · rw [if_neg heq]
        exact h.subset (h.closed v hC)
    · exact (h.expand_outside hf hv hC hne).1
  · by_cases hC : v ∈ C
    · rw [expand, if_pos hC]
      by_cases heq : v = enter (f r)
      · rw [if_pos heq, heq]
        exact ⟨t, ht⟩
      · rw [if_neg heq]
        obtain ⟨s, hs, -⟩ := h.best v hC
        exact ⟨s, hs⟩
    · obtain ⟨-, s, hs, -⟩ := h.expand_outside hf hv hC hne
      exact ⟨s, hs⟩
  · by_cases hC : v ∈ C
    · exact (h.climbs_expand hf (hf.climbs r (mem_contracted.mpr (Or.inl rfl)))).2 rfl v hC
    · exact (h.climbs_expand hf (hf.climbs v (mem_contracted.mpr (Or.inr ⟨hv, hC⟩)))).1 hC

/-- It has the same score. -/
theorem score_expand (h : Contraction w w' V C root r f₀ leave enter)
    (hf : IsTree w' (contracted V C r) root f) :
    score w V root (expand C r f₀ leave enter f) = score w' (contracted V C r) root f := by
  obtain ⟨-, -, hmem, t, ht, hweight⟩ := h.enter_spec hf
  have houtside : ∑ v ∈ (V \ C).erase root, weight w (expand C r f₀ leave enter f) v =
      ∑ v ∈ (V \ C).erase root, weight w' f v := by
    refine Finset.sum_congr rfl fun v hv => ?_
    obtain ⟨hne, hv⟩ := Finset.mem_erase.mp hv
    obtain ⟨hV, hC⟩ := Finset.mem_sdiff.mp hv
    obtain ⟨-, s, hs, hs'⟩ := h.expand_outside hf hV hC hne
    rw [weight_eq hs, weight_eq hs']
  have henter : weight w (expand C r f₀ leave enter f) (enter (f r)) = t := by
    refine weight_eq ?_
    rw [expand, if_pos hmem, if_pos rfl, ht]
  have hinside : ∑ v ∈ C.erase (enter (f r)), weight w (expand C r f₀ leave enter f) v =
      ∑ v ∈ C.erase (enter (f r)), weight w f₀ v := by
    refine Finset.sum_congr rfl fun v hv => ?_
    obtain ⟨hne, hC⟩ := Finset.mem_erase.mp hv
    rw [weight, weight, expand, if_pos hC, if_neg hne]
  have hcycle := Finset.add_sum_erase C (weight w f₀) hmem
  rw [score_eq h.subset h.root_notMem, score_contracted h.root_notMem h.rep_mem, houtside,
    ← Finset.add_sum_erase C _ hmem, hinside, henter, hweight, ← hcycle]
  abel

/-! ### Collapse -/

variable {g : α → α}

/-- The tree of the new graph for a tree of the old one whose edge into `e` enters the
cycle. -/
def collapse (C : Finset α) (r e : α) (g : α → α) (v : α) : α :=
  if v = r then g e
  else if g v ∈ C then r
  else g v

/-- An edge of a tree into the cycle above which the tree does not meet the cycle. -/
structure Enters (V C : Finset α) (root e : α) (g : α → α) : Prop where
  mem : e ∈ C
  source : g e ∈ V
  notMem : g e ∉ C
  climbs : Climbs g root (V \ C : Set α) (g e)

omit [DecidableEq α] in
/-- Above an entry, the cycle is not met. -/
theorem notMem_of_climbs (hroot : root ∉ C) {v : α} (hv : Climbs g root (V \ C : Set α) v) :
    v ∉ C := by
  intro hC
  have hne : v ≠ root := by
    rintro rfl
    exact hroot hC
  exact (hv.mem hne).2 hC

omit [DecidableEq α] in
theorem exists_enters (h : Contraction w w' V C root r f₀ leave enter)
    (hg : IsTree w V root g) : ∃ e, Enters V C root e g := by
  cases (hg.climbs r (h.subset h.rep_mem)).exists_leave (C := (C : Set α)) with
  | inl hclimb => exact absurd h.rep_mem (notMem_of_climbs h.root_notMem hclimb)
  | inr hleave =>
      obtain ⟨e, heC, heV, hclimb⟩ := hleave
      have hne : e ≠ root := by
        rintro rfl
        exact h.root_notMem heC
      exact ⟨e, heC, hg.source e heV hne, notMem_of_climbs h.root_notMem hclimb, hclimb⟩

variable {e : α}

/-- The edge into another vertex is at least as good as before. -/
theorem collapse_outside (h : Contraction w w' V C root r f₀ leave enter)
    (hg : IsTree w V root g) {v : α} (hv : v ∈ V) (hC : v ∉ C) (hne : v ≠ root) :
    collapse C r e g v ∈ contracted V C r ∧
      ∃ s t, w' (collapse C r e g v) v = some s ∧ w (g v) v = some t ∧ t ≤ s := by
  obtain ⟨t, ht⟩ := hg.weighted v hv hne
  have hvr : v ≠ r := fun heq => hC (heq ▸ h.rep_mem)
  rw [collapse, if_neg hvr]
  by_cases hin : g v ∈ C
  · rw [if_pos hin]
    obtain ⟨s, hs, hle⟩ := h.le_leave v hv hC (g v) hin t ht
    exact ⟨mem_contracted.mpr (Or.inl rfl), s, t, hs, ht, hle⟩
  · rw [if_neg hin]
    have hsource := hg.source v hv hne
    refine ⟨mem_contracted.mpr (Or.inr ⟨hsource, hin⟩), t, t, ?_, ht, le_rfl⟩
    rw [h.outside (g v) hsource hin v hv hC, ht]

/-- The edge into the new vertex is that of the entry. -/
theorem collapse_rep (h : Contraction w w' V C root r f₀ leave enter)
    (hg : IsTree w V root g) (he : Enters V C root e g) :
    collapse C r e g r = g e ∧
      ∃ s t, w' (g e) r = some s ∧ w (g e) e = some t ∧
        ∑ c ∈ C, weight w f₀ c + t - weight w f₀ e ≤ s := by
  have hne : e ≠ root := by
    rintro rfl
    exact h.root_notMem he.mem
  obtain ⟨t, ht⟩ := hg.weighted e (h.subset he.mem) hne
  obtain ⟨s, hs, hle⟩ := h.le_enter (g e) he.source he.notMem e he.mem t ht
  exact ⟨by rw [collapse, if_pos rfl], s, t, hs, ht, hle⟩

/-- Above an entry, the collapsed tree is the old one. -/
theorem climbs_collapse_above (h : Contraction w w' V C root r f₀ leave enter) {v : α}
    (hv : Climbs g root (V \ C : Set α) v) :
    Climbs (collapse C r e g) root (contracted V C r) v := by
  induction hv with
  | here => exact Climbs.here
  | @up v hv hup ih =>
      obtain ⟨hV, hC⟩ := hv
      have hvr : v ≠ r := fun heq => hC (heq ▸ h.rep_mem)
      refine Climbs.up (mem_contracted.mpr (Or.inr ⟨hV, hC⟩)) ?_
      rw [collapse, if_neg hvr, if_neg (notMem_of_climbs h.root_notMem hup)]
      exact ih

/-- From the new vertex one gets to the root. -/
theorem climbs_collapse_rep (h : Contraction w w' V C root r f₀ leave enter)
    (he : Enters V C root e g) : Climbs (collapse C r e g) root (contracted V C r) r := by
  refine Climbs.up (mem_contracted.mpr (Or.inl rfl)) ?_
  rw [collapse, if_pos rfl]
  exact h.climbs_collapse_above he.climbs

/-- So one does from every vertex off the cycle. -/
theorem climbs_collapse (h : Contraction w w' V C root r f₀ leave enter)
    (he : Enters V C root e g) {v : α} (hv : Climbs g root (V : Set α) v) (hC : v ∉ C) :
    Climbs (collapse C r e g) root (contracted V C r) v := by
  induction hv with
  | here => exact Climbs.here
  | @up v hV _ ih =>
      have hvr : v ≠ r := fun heq => hC (heq ▸ h.rep_mem)
      refine Climbs.up (mem_contracted.mpr (Or.inr ⟨hV, hC⟩)) ?_
      rw [collapse, if_neg hvr]
      by_cases hin : g v ∈ C
      · rw [if_pos hin]
        exact h.climbs_collapse_rep he
      · rw [if_neg hin]
        exact ih hin

/-- A tree of the old graph collapses to a tree. -/
theorem isTree_collapse (h : Contraction w w' V C root r f₀ leave enter)
    (hg : IsTree w V root g) (he : Enters V C root e g) :
    IsTree w' (contracted V C r) root (collapse C r e g) := by
  obtain ⟨hrep, s, t, hs, -⟩ := h.collapse_rep hg he
  refine ⟨fun v hv hne => ?_, fun v hv hne => ?_, fun v hv => ?_⟩
  · cases mem_contracted.mp hv with
    | inl heq =>
        rw [heq, hrep]
        exact mem_contracted.mpr (Or.inr ⟨he.source, he.notMem⟩)
    | inr hmem => exact (h.collapse_outside hg hmem.1 hmem.2 hne).1
  · cases mem_contracted.mp hv with
    | inl heq =>
        rw [heq, hrep]
        exact ⟨s, hs⟩
    | inr hmem =>
        obtain ⟨-, s, t, hs, -⟩ := h.collapse_outside (e := e) hg hmem.1 hmem.2 hne
        exact ⟨s, hs⟩
  · cases mem_contracted.mp hv with
    | inl heq =>
        rw [heq]
        exact h.climbs_collapse_rep he
    | inr hmem => exact h.climbs_collapse he (hg.climbs v hmem.1) hmem.2

/-- It is at least as good. -/
theorem score_le_collapse [IsOrderedAddMonoid R]
    (h : Contraction w w' V C root r f₀ leave enter) (hg : IsTree w V root g)
    (he : Enters V C root e g) :
    score w V root g ≤ score w' (contracted V C r) root (collapse C r e g) := by
  obtain ⟨hrep, s, t, hs, ht, hle⟩ := h.collapse_rep hg he
  have hweight : weight w' (collapse C r e g) r = s := weight_eq (by rw [hrep, hs])
  have houtside : ∑ v ∈ (V \ C).erase root, weight w g v ≤
      ∑ v ∈ (V \ C).erase root, weight w' (collapse C r e g) v := by
    refine Finset.sum_le_sum fun v hv => ?_
    obtain ⟨hne, hv⟩ := Finset.mem_erase.mp hv
    obtain ⟨hV, hC⟩ := Finset.mem_sdiff.mp hv
    obtain ⟨-, s, t, hs, ht, hle⟩ := h.collapse_outside (e := e) hg hV hC hne
    rw [weight_eq hs, weight_eq ht]
    exact hle
  have hinside : ∑ v ∈ C.erase e, weight w g v ≤ ∑ v ∈ C.erase e, weight w f₀ v := by
    refine Finset.sum_le_sum fun v hv => ?_
    have hC := Finset.mem_of_mem_erase hv
    have hne : v ≠ root := by
      rintro rfl
      exact h.root_notMem hC
    exact hg.weight_le (h.subset hC) hne (h.best v hC)
  have hcycle := Finset.add_sum_erase C (weight w f₀) he.mem
  rw [score_eq h.subset h.root_notMem, score_contracted h.root_notMem h.rep_mem,
    ← Finset.add_sum_erase C _ he.mem, weight_eq ht, hweight]
  refine add_le_add houtside ((add_le_add_right hinside t).trans (le_trans (le_of_eq ?_) hle))
  rw [← hcycle]
  abel

/-- The expansion of a best tree is a best tree. -/
theorem score_le_expand [IsOrderedAddMonoid R]
    (h : Contraction w w' V C root r f₀ leave enter)
    (hf : IsTree w' (contracted V C r) root f)
    (hbest : ∀ g, IsTree w' (contracted V C r) root g →
      score w' (contracted V C r) root g ≤ score w' (contracted V C r) root f)
    (hg : IsTree w V root g) :
    score w V root g ≤ score w V root (expand C r f₀ leave enter f) := by
  obtain ⟨e, he⟩ := h.exists_enters hg
  calc score w V root g
      ≤ score w' (contracted V C r) root (collapse C r e g) := h.score_le_collapse hg he
    _ ≤ score w' (contracted V C r) root f := hbest _ (h.isTree_collapse hg he)
    _ = score w V root (expand C r f₀ leave enter f) := (h.score_expand hf).symm

end Contraction

/-! ## Reaching every vertex -/

/-- There is an edge between different vertices of `V`. -/
def Linked (w : α → α → Option R) (V : Finset α) (u v : α) : Prop :=
  u ∈ V ∧ v ∈ V ∧ u ≠ v ∧ ∃ s, w u v = some s

namespace Contraction

variable {w w' : α → α → Option R} {V C : Finset α} {root r : α} {f₀ leave enter : α → α}

/-- The vertex of the new graph that stands for `v`. -/
def project (C : Finset α) (r v : α) : α := if v ∈ C then r else v

omit [LinearOrder R] [AddCommGroup R] in
theorem project_mem {v : α} (hv : v ∈ V) : project C r v ∈ contracted V C r := by
  by_cases hC : v ∈ C
  · rw [project, if_pos hC]
    exact mem_contracted.mpr (Or.inl rfl)
  · rw [project, if_neg hC]
    exact mem_contracted.mpr (Or.inr ⟨hv, hC⟩)

/-- An edge of the old graph lies in the cycle or is one of the new graph. -/
theorem project_edge (h : Contraction w w' V C root r f₀ leave enter) {u v : α}
    (huv : Linked w V u v) :
    project C r u = project C r v ∨
      Linked w' (contracted V C r) (project C r u) (project C r v) := by
  obtain ⟨hu, hv, hne, t, ht⟩ := huv
  have hu' := project_mem (C := C) (r := r) hu
  have hv' := project_mem (C := C) (r := r) hv
  have hoff : ∀ x, x ∉ C → x ≠ r := fun x hx heq => hx (heq ▸ h.rep_mem)
  by_cases huC : u ∈ C
  · by_cases hvC : v ∈ C
    · exact Or.inl (by rw [project, project, if_pos huC, if_pos hvC])
    · obtain ⟨s, hs, -⟩ := h.le_leave v hv hvC u huC t ht
      refine Or.inr ⟨hu', hv', ?_, s, ?_⟩
      · rw [project, project, if_pos huC, if_neg hvC]
        exact (hoff v hvC).symm
      · rw [project, project, if_pos huC, if_neg hvC, hs]
  · by_cases hvC : v ∈ C
    · obtain ⟨s, hs, -⟩ := h.le_enter u hu huC v hvC t ht
      refine Or.inr ⟨hu', hv', ?_, s, ?_⟩
      · rw [project, project, if_neg huC, if_pos hvC]
        exact hoff u huC
      · rw [project, project, if_neg huC, if_pos hvC, hs]
    · refine Or.inr ⟨hu', hv', ?_, t, ?_⟩
      · rw [project, project, if_neg huC, if_neg hvC]
        exact hne
      · rw [project, project, if_neg huC, if_neg hvC, h.outside u hu huC v hv hvC, ht]

/-- What is reached in the old graph is reached in the new one. -/
theorem reach (h : Contraction w w' V C root r f₀ leave enter)
    (hreach : ∀ v ∈ V, Relation.ReflTransGen (Linked w V) root v) :
    ∀ v ∈ contracted V C r, Relation.ReflTransGen (Linked w' (contracted V C r)) root v := by
  have hproject : ∀ v, Relation.ReflTransGen (Linked w V) root v →
      Relation.ReflTransGen (Linked w' (contracted V C r)) root (project C r v) := by
    intro v hv
    induction hv with
    | refl =>
        rw [project, if_neg h.root_notMem]
    | tail _ huv ih =>
        cases h.project_edge huv with
        | inl heq => exact heq ▸ ih
        | inr hedge => exact ih.tail hedge
  intro v hv
  cases mem_contracted.mp hv with
  | inl heq =>
      have hr := hproject r (hreach r (h.subset h.rep_mem))
      rw [project, if_pos h.rep_mem] at hr
      rw [heq]
      exact hr
  | inr hmem =>
      have hv' := hproject v (hreach v hmem.1)
      rwa [project, if_neg hmem.2] at hv'

end Contraction

end Contract

end Hachee.Foundation
