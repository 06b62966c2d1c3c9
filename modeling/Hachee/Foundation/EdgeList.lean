import Hachee.Foundation.Contraction

/-!
# Trees as lists of edges

A program returns a tree as a list of edges.  Such a list *represents* the parents `f`
of the vertices in `S` if it holds the edge from `f v` to `v` for every `v` in `S`, no
edge twice, and nothing else.

The operations on lists of edges then are operations on `S`: edges are sorted out
(`Represents.filter`), bent to other vertices (`Represents.bend`) and added
(`Represents.cons`).  A list whose edges are an arborescence represents its parents
(`Represents.of_spanning`), and the score of a tree is the sum over its edges
(`Represents.sum_eq`).
-/

namespace Hachee.Foundation

open Arborescence

variable {α : Type*}

/-- The edges are those from `f v` to `v` for all `v` in `S`, each of them once. -/
structure Represents (edges : List (α × α)) (S : Set α) (f : α → α) : Prop where
  distinct : (edges.map Prod.snd).Nodup
  mem_iff : ∀ u v, (u, v) ∈ edges ↔ v ∈ S ∧ u = f v

namespace Represents

variable {edges edges' : List (α × α)} {S T : Set α} {f g : α → α}

theorem source (h : Represents edges S f) {edge : α × α} (hedge : edge ∈ edges) :
    edge.1 = f edge.2 := ((h.mem_iff edge.1 edge.2).mp hedge).2

/-- The ends of the edges are the vertices in `S`. -/
theorem mem_targets (h : Represents edges S f) {v : α} : v ∈ edges.map Prod.snd ↔ v ∈ S := by
  rw [List.mem_map]
  constructor
  · rintro ⟨⟨u, v⟩, hedge, rfl⟩
    exact ((h.mem_iff u v).mp hedge).1
  · intro hv
    exact ⟨(f v, v), (h.mem_iff (f v) v).mpr ⟨hv, rfl⟩, rfl⟩

/-! ## Operations -/

theorem of_list {vs : List α} (hvs : vs.Nodup) (f : α → α) :
    Represents (vs.map fun v => (f v, v)) {v | v ∈ vs} f := by
  constructor
  · rw [List.map_map]
    show (vs.map id).Nodup
    rwa [List.map_id]
  · intro u v
    rw [List.mem_map]
    constructor
    · rintro ⟨x, hx, heq⟩
      cases heq
      exact ⟨hx, rfl⟩
    · rintro ⟨hv, rfl⟩
      exact ⟨v, hv, rfl⟩

theorem perm (h : Represents edges S f) (hperm : edges'.Perm edges) :
    Represents edges' S f where
  distinct := (hperm.map Prod.snd).nodup_iff.mpr h.distinct
  mem_iff := fun u v => hperm.mem_iff.trans (h.mem_iff u v)

/-- Sorting out edges. -/
theorem filter (h : Represents edges S f) (p : α × α → Bool) :
    Represents (edges.filter p) {v | v ∈ S ∧ p (f v, v) = true} f where
  distinct := h.distinct.sublist (List.filter_sublist.map Prod.snd)
  mem_iff := by
    intro u v
    rw [List.mem_filter, h.mem_iff]
    constructor
    · rintro ⟨⟨hv, rfl⟩, hp⟩
      exact ⟨⟨hv, hp⟩, rfl⟩
    · rintro ⟨⟨hv, hp⟩, rfl⟩
      exact ⟨⟨hv, rfl⟩, hp⟩

/-- Every edge is bent to the vertex that `t` gives for its end, and to the new parent
of this vertex. -/
theorem bend (h : Represents edges S f) {t : α → α} (inj : Set.InjOn t S) (g : α → α) :
    Represents (edges.map fun edge => (g (t edge.2), t edge.2)) (t '' S) g := by
  constructor
  · have htargets : (edges.map fun edge => (g (t edge.2), t edge.2)).map Prod.snd =
        (edges.map Prod.snd).map t := by
      rw [List.map_map, List.map_map]
      rfl
    rw [htargets]
    refine List.Nodup.map_on (fun x hx y hy heq => ?_) h.distinct
    exact inj (h.mem_targets.mp hx) (h.mem_targets.mp hy) heq
  · intro u v
    rw [List.mem_map]
    constructor
    · rintro ⟨⟨x, y⟩, hedge, heq⟩
      cases heq
      exact ⟨⟨y, ((h.mem_iff x y).mp hedge).1, rfl⟩, rfl⟩
    · rintro ⟨⟨y, hy, rfl⟩, rfl⟩
      exact ⟨(f y, y), (h.mem_iff (f y) y).mpr ⟨hy, rfl⟩, rfl⟩

/-- One edge more. -/
theorem cons (h : Represents edges S f) {v : α} (hv : v ∉ S) :
    Represents ((f v, v) :: edges) (insert v S) f := by
  constructor
  · rw [List.map_cons, List.nodup_cons, h.mem_targets]
    exact ⟨hv, h.distinct⟩
  · intro u x
    rw [List.mem_cons, h.mem_iff, Set.mem_insert_iff]
    constructor
    · rintro (heq | ⟨hx, rfl⟩)
      · cases heq
        exact ⟨Or.inl rfl, rfl⟩
      · exact ⟨Or.inr hx, rfl⟩
    · rintro ⟨rfl | hx, rfl⟩
      · exact Or.inl rfl
      · exact Or.inr ⟨hx, rfl⟩

/-! ## Arborescences -/

variable {root : α}

/-- Parents that lead to the root are an arborescence. -/
theorem spanning (h : Represents edges S f) (hroot : root ∉ S)
    (source : ∀ v ∈ S, f v = root ∨ f v ∈ S) (hclimb : ∀ v ∈ S, Climbs f root T v) :
    Spanning (fun u v => (u, v) ∈ edges) root S := by
  have hrel : (fun u v => (u, v) ∈ edges) = fun u v => v ∈ S ∧ u = f v := by
    funext u v
    exact propext (h.mem_iff u v)
  rw [hrel]
  exact Spanning.of_climbs hroot source hclimb

/-- An arborescence gives its parents, and they lead to the root. -/
theorem of_spanning (hdistinct : (edges.map Prod.snd).Nodup)
    (h : Spanning (fun u v => (u, v) ∈ edges) root S) :
    ∃ f, Represents edges S f ∧ ∀ v ∈ S, Climbs f root S v := by
  have hparent : ∀ v, ∃ u, v ∈ S → (u, v) ∈ edges := by
    intro v
    by_cases hv : v ∈ S
    · obtain ⟨u, hu⟩ := h.parent hv
      exact ⟨u, fun _ => hu⟩
    · exact ⟨v, fun hmem => absurd hmem hv⟩
  choose f hf using hparent
  refine ⟨f, ⟨hdistinct, fun u v => ?_⟩, fun v hv => h.climbs hf hv⟩
  constructor
  · intro hedge
    have hv : v ∈ S := h.target hedge
    exact ⟨hv, h.unique hedge (hf v hv)⟩
  · rintro ⟨hv, rfl⟩
    exact hf v hv

/-- The sum over the edges is the score. -/
theorem sum_eq [DecidableEq α] {R : Type*} [AddCommGroup R] {V : Finset α}
    (h : Represents edges S f) (hS : ∀ v, v ∈ S ↔ v ∈ V ∧ v ≠ root) (w : α → α → Option R) :
    (edges.map fun edge => (w edge.1 edge.2).getD 0).sum = score w V root f := by
  have hweights : edges.map (fun edge => (w edge.1 edge.2).getD 0) =
      (edges.map Prod.snd).map (weight w f) := by
    rw [List.map_map]
    refine List.map_congr_left fun edge hedge => ?_
    rw [h.source hedge]
    rfl
  have hvertices : (edges.map Prod.snd).toFinset = V.erase root := by
    ext v
    rw [List.mem_toFinset, h.mem_targets, hS, Finset.mem_erase, and_comm]
  rw [hweights, ← List.sum_toFinset _ h.distinct, hvertices]
  rfl

end Represents

end Hachee.Foundation
