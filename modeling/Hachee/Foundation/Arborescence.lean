import Mathlib.Logic.Relation
import Mathlib.Order.WellFoundedSet
import Mathlib.Tactic.Common

/-!
# Spanning arborescences

The edges of a directed graph are a relation `r`, where `r u v` says that there
is an edge from `u` to `v`.

An *arborescence* under `root` that spans a set `V` has one edge into every
vertex of `V`, no other edge, and a path from `root` to every vertex of `V`.  It
has no cycle (`Spanning.acyclic`).  Conversely, over a finite set, the paths from
the root need not be asked for when there is no cycle (`Spanning.of_acyclic`).

A forest that grows upwards stays without cycles: the new edge starts at a vertex
that no edge enters (`Acyclic.insert`).

Where every vertex has one parent `f v`, a path from the root is a climb along `f`,
read backwards (`Climbs`).  On a circuit every vertex is climbed to from every other
(`Circuit.climbs`).
-/

namespace Hachee.Foundation.Arborescence

open Relation

variable {α : Type*}

/-! ## Acyclic relations -/

/-- No path along one or more edges leads from a vertex back to it. -/
def Acyclic (r : α → α → Prop) : Prop := ∀ v, ¬TransGen r v v

/-- The last edge of a path. -/
theorem exists_last {r : α → α → Prop} {u v : α} (h : TransGen r u v) : ∃ w, r w v := by
  cases h with
  | single hr => exact ⟨u, hr⟩
  | tail _ hr => exact ⟨_, hr⟩

namespace Acyclic

variable {r : α → α → Prop}

/-- There is no cycle without edges. -/
theorem of_empty (h : ∀ u v, ¬r u v) : Acyclic r := by
  intro v hv
  obtain ⟨w, hw⟩ := exists_last hv
  exact h w v hw

/-- Fewer edges have fewer cycles. -/
theorem mono {s : α → α → Prop} (h : Acyclic r) (hs : ∀ u v, s u v → r u v) : Acyclic s :=
  fun v hv => h v (TransGen.mono hs v v hv)

/-- There is no cycle when a rank grows along the edges. -/
theorem of_rank {β : Type*} [Preorder β] (rank : α → β) (h : ∀ u v, r u v → rank u < rank v) :
    Acyclic r := by
  have hpath : ∀ u v, TransGen r u v → rank u < rank v := by
    intro u v huv
    induction huv with
    | single hr => exact h _ _ hr
    | tail _ hr ih => exact ih.trans (h _ _ hr)
  exact fun v hv => lt_irrefl (rank v) (hpath v v hv)

theorem ne (h : Acyclic r) {u v : α} (hr : r u v) : u ≠ v := by
  rintro rfl
  exact h u (TransGen.single hr)

/-- A path that does not start in `p` does not use an edge that leaves `p`, when
no edge enters `p`. -/
theorem path_of_insert {p c : α} (hp : ∀ u, ¬r u p) {u v : α}
    (h : TransGen (fun a b => a = p ∧ b = c ∨ r a b) u v) (hu : u ≠ p) : TransGen r u v := by
  induction h with
  | single hr =>
      cases hr with
      | inl hnew => exact absurd hnew.1 hu
      | inr hold => exact TransGen.single hold
  | tail _ hr ih =>
      cases hr with
      | inl hnew =>
          obtain ⟨w, hw⟩ := exists_last ih
          exact absurd (hnew.1 ▸ hw) (hp w)
      | inr hold => exact TransGen.tail ih hold

/-- A new edge that leaves a vertex that no edge enters closes no cycle. -/
theorem insert (h : Acyclic r) {p c : α} (hp : ∀ u, ¬r u p) (hne : p ≠ c) :
    Acyclic (fun a b => a = p ∧ b = c ∨ r a b) := by
  intro v hv
  have hvp : v ≠ p := by
    rintro rfl
    obtain ⟨w, hw⟩ := exists_last hv
    cases hw with
    | inl hnew => exact hne hnew.2
    | inr hold => exact hp w hold
  exact h v (path_of_insert hp hv hvp)

/-- The edges the other way round. -/
theorem flip (h : Acyclic r) : Acyclic (fun u v => r v u) :=
  fun v hv => h v (transGen_swap.mp hv)

/-- In a finite set there is no endless way back along the edges: what is passed
on along the edges of the set holds everywhere in it. -/
theorem induction_on (h : Acyclic r) {V : Set α} (hV : V.Finite) {P : α → Prop}
    (turn : ∀ v ∈ V, (∀ u ∈ V, r u v → P u) → P v) : ∀ v ∈ V, P v := by
  have horder : IsStrictOrder α (TransGen r) :=
    { irrefl := h, trans := fun _ _ _ => TransGen.trans }
  intro v hv
  refine (hV.wellFoundedOn (r := TransGen r)).induction hv ?_
  intro v hv ih
  exact turn v hv fun u hu hr => ih u hu (TransGen.single hr)

/-- Where there is an edge in a finite set, some vertex has children in it, but no
grandchildren. -/
theorem exists_innermost (h : Acyclic r) {V : Set α} (hV : V.Finite) {p c : α} (hp : p ∈ V)
    (hc : c ∈ V) (hpc : r p c) :
    ∃ q ∈ V, (∃ d ∈ V, r q d) ∧ ∀ d ∈ V, r q d → ∀ e ∈ V, ¬r d e := by
  have hbelow : ∀ v ∈ V, (∃ d ∈ V, r v d) →
      ∃ q ∈ V, (∃ d ∈ V, r q d) ∧ ∀ d ∈ V, r q d → ∀ e ∈ V, ¬r d e := by
    refine h.flip.induction_on hV fun v hv ih hchild => ?_
    by_cases hgrand : ∃ d ∈ V, r v d ∧ ∃ e ∈ V, r d e
    · obtain ⟨d, hd, hvd, hde⟩ := hgrand
      exact ih d hd hvd hde
    · exact ⟨v, hv, hchild, fun d hd hvd e he hde => hgrand ⟨d, hd, hvd, e, he, hde⟩⟩
  exact hbelow p hp ⟨c, hc, hpc⟩

/-- Below different vertices with one parent there are different vertices. -/
theorem disjoint_of_parent (h : Acyclic r) (unique : ∀ u u' v, r u v → r u' v → u = u')
    {p c c' x : α} (hc : r p c) (hc' : r p c') (hne : c ≠ c') (hx : ReflTransGen r c x)
    (hx' : ReflTransGen r c' x) : False := by
  have hcomparable : ReflTransGen r c c' ∨ ReflTransGen r c' c := by
    induction hx' with
    | refl => exact Or.inl hx
    | tail hpath hr ih =>
        cases hx.cases_tail with
        | inl heq =>
            rw [← heq]
            exact Or.inr (hpath.tail hr)
        | inr hlast =>
            obtain ⟨w, hw, hrw⟩ := hlast
            rw [unique _ _ _ hrw hr] at hw
            exact ih hw
  have hcycle : ∀ d d', r p d → r p d' → d ≠ d' → ¬ReflTransGen r d d' := by
    intro d d' hd hd' hdne hpath
    cases hpath.cases_tail with
    | inl heq => exact hdne heq.symm
    | inr hlast =>
        obtain ⟨w, hw, hrw⟩ := hlast
        rw [unique _ _ _ hrw hd'] at hw
        exact h p (TransGen.head' hd hw)
  cases hcomparable with
  | inl hpath => exact hcycle c c' hc hc' hne hpath
  | inr hpath => exact hcycle c' c hc' hc hne.symm hpath

end Acyclic

/-! ## Arborescences -/

/-- `r` is an arborescence under `root` that spans `V`. -/
structure Spanning (r : α → α → Prop) (root : α) (V : Set α) : Prop where
  root_notMem : root ∉ V
  source : ∀ {u v}, r u v → u = root ∨ u ∈ V
  target : ∀ {u v}, r u v → v ∈ V
  parent : ∀ {v}, v ∈ V → ∃ u, r u v
  unique : ∀ {u u' v}, r u v → r u' v → u = u'
  reach : ∀ {v}, v ∈ V → TransGen r root v

namespace Spanning

variable {r : α → α → Prop} {root : α} {V : Set α}

/-- No cycle can be reached from the root. -/
theorem acyclic (h : Spanning r root V) : Acyclic r := by
  have hpath : ∀ v, ReflTransGen r root v → ¬TransGen r v v := by
    intro v hv
    induction hv with
    | refl =>
        intro hcycle
        obtain ⟨w, hw⟩ := exists_last hcycle
        exact h.root_notMem (h.target hw)
    | tail _ hr ih =>
        intro hcycle
        obtain ⟨w, hpath, hw⟩ := TransGen.tail'_iff.mp hcycle
        rw [h.unique hw hr] at hpath
        exact ih (TransGen.head' hr hpath)
  intro v hv
  obtain ⟨w, hw⟩ := exists_last hv
  exact hpath v (h.reach (h.target hw)).to_reflTransGen hv

/-- Without cycles, the ways back from a vertex of a finite set end in the root. -/
theorem of_acyclic (hV : V.Finite) (hroot : root ∉ V) (hac : Acyclic r)
    (source : ∀ {u v}, r u v → u = root ∨ u ∈ V) (target : ∀ {u v}, r u v → v ∈ V)
    (parent : ∀ {v}, v ∈ V → ∃ u, r u v) (unique : ∀ {u u' v}, r u v → r u' v → u = u') :
    Spanning r root V where
  root_notMem := hroot
  source := source
  target := target
  parent := parent
  unique := unique
  reach := by
    refine fun {v} hv => hac.induction_on hV (P := TransGen r root) ?_ v hv
    intro v hv ih
    obtain ⟨u, hu⟩ := parent hv
    cases source hu with
    | inl heq => exact TransGen.single (heq ▸ hu)
    | inr hmem => exact TransGen.tail (ih u hmem hu) hu

end Spanning

/-! ## Climbing -/

/-- From `v`, one gets to the root along `f`, and all vertices before it are in `S`. -/
inductive Climbs (f : α → α) (root : α) (S : Set α) : α → Prop
  | here : Climbs f root S root
  | up {v : α} : v ∈ S → Climbs f root S (f v) → Climbs f root S v

namespace Climbs

variable {f : α → α} {root v : α} {S T : Set α}

theorem mono (h : Climbs f root S v) (hST : S ⊆ T) : Climbs f root T v := by
  induction h with
  | here => exact here
  | up hv _ ih => exact up (hST hv) ih

/-- Only the root is left out. -/
theorem mem (h : Climbs f root S v) (hv : v ≠ root) : v ∈ S := by
  cases h with
  | here => exact absurd rfl hv
  | up hv _ => exact hv

/-- No vertex but the root stays where it is. -/
theorem ne (h : Climbs f root S v) (hv : v ≠ root) : f v ≠ v := by
  induction h with
  | here => exact absurd rfl hv
  | up _ _ ih =>
      intro heq
      exact ih (heq.symm ▸ hv) (congrArg f heq)

/-- A climb to `c` goes on with one from `c`. -/
theorem trans {c : α} (h : Climbs f c S v) (hc : Climbs f root S c) : Climbs f root S v := by
  induction h with
  | here => exact hc
  | up hv _ ih => exact up hv ih

/-- A climb that meets `C` leaves it for the last time somewhere. -/
theorem exists_leave {C : Set α} (h : Climbs f root S v) :
    Climbs f root (S \ C) v ∨ ∃ e ∈ C, e ∈ S ∧ Climbs f root (S \ C) (f e) := by
  induction h with
  | here => exact Or.inl here
  | @up v hv _ ih =>
      cases ih with
      | inr hleave => exact Or.inr hleave
      | inl hclimb =>
          by_cases hC : v ∈ C
          · exact Or.inr ⟨v, hC, hv, hclimb⟩
          · exact Or.inl (up ⟨hv, hC⟩ hclimb)

end Climbs

/-! ## Circuits -/

/-- A chain along `f` leads from each of its vertices to a later one. -/
theorem Climbs.of_chain {f : α → α} {a : α} {S : Set α} {q : List α} : ∀ {p : List α},
    (p ++ a :: q).IsChain (fun x y => f x = y) → (∀ x ∈ p, x ∈ S) → ∀ x ∈ p, Climbs f a S x
  | [], _, _, _, hx => by cases hx
  | y :: p, hchain, hS, x, hx => by
      have hrest := Climbs.of_chain hchain.tail fun z hz => hS z (List.mem_cons_of_mem y hz)
      cases List.mem_cons.mp hx with
      | inr hmem => exact hrest x hmem
      | inl heq =>
          rw [heq]
          refine Climbs.up (hS y (List.mem_cons_self ..)) ?_
          cases p with
          | nil =>
              rw [(List.isChain_cons_cons.mp hchain).1]
              exact Climbs.here
          | cons z p =>
              rw [(List.isChain_cons_cons.mp hchain).1]
              exact hrest z (List.mem_cons_self ..)

/-- `f` leads through the vertices `xs` to `l`, and from there to the first of them. -/
structure Circuit (f : α → α) (xs : List α) (l : α) : Prop where
  nodup : (xs ++ [l]).Nodup
  chain : (xs ++ [l]).IsChain fun x y => f x = y
  closes : f l = xs.headD l

namespace Circuit

variable {f : α → α} {xs : List α} {l : α}

/-- Along a chain, `f` moves every vertex to the place before it. -/
theorem map_chain : ∀ {xs : List α}, ((xs ++ [l]).IsChain fun x y => f x = y) →
    (xs ++ [l]).map f = (xs ++ [l]).tail ++ [f l]
  | [], _ => rfl
  | x :: xs, hchain => by
      have hrest := map_chain hchain.tail
      obtain ⟨y, ys, hys⟩ : ∃ y ys, xs ++ [l] = y :: ys := by
        cases xs with
        | nil => exact ⟨l, [], rfl⟩
        | cons y ys => exact ⟨y, ys ++ [l], rfl⟩
      rw [List.cons_append, hys] at hchain ⊢
      rw [hys] at hrest
      rw [List.map_cons, hrest, (List.isChain_cons_cons.mp hchain).1]
      rfl

/-- `f` permutes the vertices of a circuit. -/
theorem map_perm (h : Circuit f xs l) : ((xs ++ [l]).map f).Perm (xs ++ [l]) := by
  rw [map_chain h.chain, h.closes]
  cases xs with
  | nil => exact List.Perm.refl _
  | cons x xs => exact List.perm_append_comm

/-- `f` leads from every vertex of a circuit to every other. -/
theorem climbs (h : Circuit f xs l) {a c : α} (ha : a ∈ xs ++ [l]) (hc : c ∈ xs ++ [l]) :
    Climbs f a {v | v ∈ xs ++ [l]} c := by
  have hlast : ∀ c ∈ xs ++ [l], Climbs f l {v | v ∈ xs ++ [l]} c := by
    intro c hc
    cases List.mem_append.mp hc with
    | inl hxs => exact Climbs.of_chain h.chain (fun x hx => List.mem_append_left _ hx) c hxs
    | inr hl =>
        rw [List.mem_singleton.mp hl]
        exact Climbs.here
  have hfirst : Climbs f a {v | v ∈ xs ++ [l]} l := by
    cases List.mem_append.mp ha with
    | inr hl =>
        rw [List.mem_singleton.mp hl]
        exact Climbs.here
    | inl hxs =>
        obtain ⟨p, q, rfl⟩ := List.append_of_mem hxs
        have hchain := h.chain
        rw [List.append_assoc] at hchain
        have hbefore := Climbs.of_chain (S := {v | v ∈ p ++ a :: q ++ [l]}) hchain
          fun x hx => List.mem_append_left _ (List.mem_append_left _ hx)
        refine Climbs.up (List.mem_append_right _ (List.mem_singleton_self l)) ?_
        rw [h.closes]
        cases p with
        | nil => exact Climbs.here
        | cons y p => exact hbefore y (List.mem_cons_self ..)
  exact (hlast c hc).trans hfirst

end Circuit

namespace Spanning

variable {f : α → α} {root : α} {V S : Set α}

/-- In an arborescence the parents lead to the root. -/
theorem climbs {r : α → α → Prop} (h : Spanning r root V) (hf : ∀ v ∈ V, r (f v) v) {v : α}
    (hv : v ∈ V) : Climbs f root V v := by
  have hpath := h.reach hv
  induction hpath with
  | single hr =>
      refine Climbs.up hv ?_
      rw [h.unique (hf _ hv) hr]
      exact Climbs.here
  | @tail u v hpath hr ih =>
      obtain ⟨w, hw⟩ := exists_last hpath
      refine Climbs.up hv ?_
      rw [h.unique (hf _ hv) hr]
      exact ih (h.target hw)

/-- Parents that lead to the root are an arborescence. -/
theorem of_climbs (hroot : root ∉ V) (source : ∀ v ∈ V, f v = root ∨ f v ∈ V)
    (hclimb : ∀ v ∈ V, Climbs f root S v) : Spanning (fun u v => v ∈ V ∧ u = f v) root V where
  root_notMem := hroot
  source := by
    rintro u v ⟨hv, rfl⟩
    exact source v hv
  target := fun h => h.1
  parent := fun {v} hv => ⟨f v, hv, rfl⟩
  unique := fun h h' => h.2.trans h'.2.symm
  reach := by
    intro v hv
    have hpath := hclimb v hv
    induction hpath with
    | here => exact absurd hv hroot
    | @up v _ _ ih =>
        cases source v hv with
        | inl heq => exact TransGen.single ⟨hv, heq.symm⟩
        | inr hmem => exact TransGen.tail (ih hmem) ⟨hv, rfl⟩

end Spanning

end Hachee.Foundation.Arborescence
