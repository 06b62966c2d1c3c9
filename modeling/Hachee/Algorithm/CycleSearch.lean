import Hachee.Algorithm.BestEdges
import Hachee.Foundation.Arborescence

/-!
# The search for a cycle

The second loop of `solve` follows the parents from every current vertex until it meets
a vertex without a parent, one that was checked before, or one that it has passed
itself.  In the last case the vertices passed since then are a circuit, and the table
of the cycle holds their edges.  When no cycle is found, every vertex leads to one
without a parent (`findCycle_spec`).

The vertices passed are different ones, so fuel for all current vertices is enough.
-/

namespace Hachee.Algorithm.ChuLiuEdmonds

open Foundation Arborescence

/-- `parent` is what the array holds for the current vertices. -/
structure Fronts (front currentVertices : List Vertex) (parent : Vertex → Vertex) : Prop where
  aref : ∀ i ∈ currentVertices, aref front i = some (parent i)
  source : ∀ i ∈ currentVertices, parent i = -1 ∨ parent i ∈ currentVertices

/-- The entries of the cycle are the edges of a circuit of current vertices. -/
def IsCycle (currentVertices : List Vertex) (parent : Vertex → Vertex) (cycle : Cycle) : Prop :=
  ∃ xs l, Circuit parent xs l ∧ (∀ v ∈ xs ++ [l], v ∈ currentVertices) ∧
    cycle.Perm ((xs ++ [l]).map fun v => (parent v, v))

/-- The parents lead to a vertex that has none. -/
abbrev Stops (currentVertices : List Vertex) (parent : Vertex → Vertex) (v : Vertex) : Prop :=
  Climbs parent (-1) {v | v ∈ currentVertices} v

variable {front currentVertices : List Vertex} {parent : Vertex → Vertex}

/-- The loop that collects a cycle puts an entry for every vertex that it passes. -/
theorem collectCycle_eq (hf : Fronts front currentVertices parent) {l : Vertex} :
    ∀ (fuel : Nat) {xs : List Vertex} {cycle : Cycle}, xs.length < fuel →
      ((xs ++ [l]).IsChain fun x y => parent x = y) → l ∉ xs →
      (∀ v ∈ xs ++ [l], v ∈ currentVertices) →
      (cycle.map Prod.fst ++ (xs ++ [l]).map parent).Nodup →
      ∃ cycle', collectCycle front l fuel (xs.headD l) cycle = some cycle' ∧
        cycle'.Perm (cycle ++ (xs ++ [l]).map fun v => (parent v, v))
  | 0, _, _, hfuel, _, _, _, _ => absurd hfuel (Nat.not_lt_zero _)
  | fuel + 1, xs, cycle, hfuel, hchain, hl, hmem, hkeys => by
      have hput : ∀ {x : Vertex} {ys : List Vertex}, xs ++ [l] = x :: ys →
          putEntry cycle (parent x) x = (parent x, x) :: cycle := by
        intro x ys hsplit
        rw [hsplit, List.map_cons] at hkeys
        have hdisjoint := List.disjoint_of_nodup_append hkeys
        rw [putEntry, List.filter_eq_self.mpr]
        intro entry hentry
        refine decide_eq_true fun heq => ?_
        exact hdisjoint (List.mem_map_of_mem hentry) (heq ▸ List.mem_cons_self ..)
      cases xs with
      | nil =>
          refine ⟨(parent l, l) :: cycle, ?_, ?_⟩
          · show collectCycle front l (fuel + 1) l cycle = _
            rw [collectCycle, hf.aref l (hmem l (List.mem_singleton_self l)),
              Option.bind_eq_bind, Option.bind_some, if_pos rfl, hput rfl]
          · exact (List.perm_append_singleton _ _).symm
      | cons x xs =>
          have hx : x ∈ currentVertices := hmem x (List.mem_cons_self ..)
          have hne : x ≠ l := fun heq => hl (heq ▸ List.mem_cons_self ..)
          have hhead : parent x = xs.headD l := by
            cases xs with
            | nil => exact (List.isChain_cons_cons.mp hchain).1
            | cons y xs => exact (List.isChain_cons_cons.mp hchain).1
          have hkeys' :
              (((parent x, x) :: cycle).map Prod.fst ++ (xs ++ [l]).map parent).Nodup := by
            refine (List.Perm.nodup_iff ?_).mpr hkeys
            exact List.perm_middle.symm
          obtain ⟨cycle', hrest, hperm⟩ := collectCycle_eq hf fuel
            (Nat.lt_of_succ_lt_succ hfuel) hchain.tail
            (fun hmem => hl (List.mem_cons_of_mem x hmem))
            (fun v hv => hmem v (List.mem_cons_of_mem x hv)) hkeys'
          refine ⟨cycle', ?_, hperm.trans List.perm_middle.symm⟩
          show collectCycle front l (fuel + 1) x cycle = some cycle'
          rw [← hhead] at hrest
          rw [collectCycle, hf.aref x hx, Option.bind_eq_bind, Option.bind_some, if_neg hne,
            hput rfl]
          exact hrest

/-- From the vertices passed one gets to where the loop stops. -/
theorem stops_of_chain {l : Vertex} (hl : Stops currentVertices parent l) :
    ∀ {passed : List Vertex}, ((l :: passed).IsChain fun x y => parent y = x) →
      (∀ v ∈ passed, v ∈ currentVertices) → ∀ v ∈ passed, Stops currentVertices parent v
  | [], _, _, _, hv => by cases hv
  | x :: passed, hchain, hmem, v, hv => by
      obtain ⟨hx, hrest⟩ := List.isChain_cons_cons.mp hchain
      have hstops : Stops currentVertices parent x :=
        Climbs.up (hmem x (List.mem_cons_self ..)) (hx.symm ▸ hl)
      cases List.mem_cons.mp hv with
      | inl heq => exact heq ▸ hstops
      | inr hv =>
          exact stops_of_chain hstops hrest (fun w hw => hmem w (List.mem_cons_of_mem x hw)) v hv

/-- What the loop over the parents finds out: a cycle, or that the vertices which it has
checked lead to one without a parent. -/
def Found (currentVertices : List Vertex) (parent : Vertex → Vertex) (start : Vertex) :
    Option Cycle × List Vertex → Prop
  | (some cycle, _) => IsCycle currentVertices parent cycle
  | (none, checked) =>
      Stops currentVertices parent start ∧ ∀ v ∈ checked, Stops currentVertices parent v

/-- When a vertex is met again, the vertices passed since then are a circuit. -/
theorem collectCycle_of_mem (hf : Fronts front currentVertices parent) {l : Vertex}
    {passed : List Vertex} (hchain : (l :: passed).IsChain fun x y => parent y = x)
    (hnodup : passed.Nodup) (hmem : ∀ v ∈ passed, v ∈ currentVertices) (hl : l ∈ passed)
    {fuel : Nat} (hfuel : currentVertices.length < fuel) :
    ∃ cycle, collectCycle front l fuel (parent l) [] = some cycle ∧
      IsCycle currentVertices parent cycle := by
  obtain ⟨ys, zs, rfl, hys⟩ := List.eq_append_cons_of_mem hl
  have hsub : ∀ v ∈ ys.reverse ++ [l], v ∈ ys ++ l :: zs := by
    intro v hv
    simp only [List.mem_append, List.mem_reverse, List.mem_singleton] at hv
    rcases hv with hv | rfl
    · exact List.mem_append_left _ hv
    · exact List.mem_append_right _ (List.mem_cons_self ..)
  have hround : (l :: (ys.reverse ++ [l])).IsChain fun x y => parent x = y := by
    have hprefix : (l :: (ys ++ [l])).IsChain fun x y => parent y = x :=
      hchain.infix (List.IsPrefix.isInfix ⟨zs, by simp⟩)
    have hreverse : l :: (ys.reverse ++ [l]) = (l :: (ys ++ [l])).reverse := by simp
    rw [hreverse]
    exact List.isChain_reverse.mpr hprefix
  have hcircuit : Circuit parent ys.reverse l := by
    refine ⟨?_, hround.tail, ?_⟩
    · have hys' : (ys ++ [l]).Nodup :=
        hnodup.sublist
          (List.Sublist.append_left (List.singleton_sublist.mpr (List.mem_cons_self ..)) ys)
      exact (List.Perm.nodup_iff ((List.reverse_perm ys).append_right [l])).mpr hys'
    · cases hrev : ys.reverse with
      | nil =>
          rw [hrev] at hround
          exact (List.isChain_cons_cons.mp hround).1
      | cons y rest =>
          rw [hrev] at hround
          exact (List.isChain_cons_cons.mp hround).1
  have hlength : ys.reverse.length < fuel := by
    have hle : (ys ++ l :: zs).length ≤ currentVertices.length :=
      (List.subperm_of_subset hnodup hmem).length_le
    simp only [List.length_append, List.length_cons, List.length_reverse] at hle ⊢
    omega
  have hkeys : (([] : Cycle).map Prod.fst ++ (ys.reverse ++ [l]).map parent).Nodup :=
    hcircuit.map_perm.nodup_iff.mpr hcircuit.nodup
  obtain ⟨cycle, hcollect, hperm⟩ := collectCycle_eq hf fuel hlength hcircuit.chain
    (fun hmem => hys (List.mem_reverse.mp hmem)) (fun v hv => hmem v (hsub v hv)) hkeys
  rw [← hcircuit.closes] at hcollect
  exact ⟨cycle, hcollect, ys.reverse, l, hcircuit, fun v hv => hmem v (hsub v hv), hperm⟩

/-- The loop over the parents ends. -/
theorem followParents_spec (hf : Fronts front currentVertices parent) {cycleFuel : Nat}
    (hcycle : currentVertices.length < cycleFuel) :
    ∀ (fuel : Nat) {l : Vertex} {passed checked : List Vertex},
      currentVertices.length < fuel + passed.length →
      ((l :: passed).IsChain fun x y => parent y = x) → passed.Nodup →
      l ∈ currentVertices → (∀ v ∈ passed, v ∈ currentVertices) →
      (∀ v ∈ checked, v ∈ passed ∨ Stops currentVertices parent v) →
      ∃ result, followParents front cycleFuel fuel l passed checked = some result ∧
        Found currentVertices parent l result
  | 0, l, passed, checked, hfuel, _, hnodup, _, hmem, _ => by
      have hle : passed.length ≤ currentVertices.length :=
        (List.subperm_of_subset hnodup hmem).length_le
      omega
  | fuel + 1, l, passed, checked, hfuel, hchain, hnodup, hl, hmem, hchecked => by
      rw [followParents, hf.aref l hl]
      simp only [Option.bind_eq_bind, Option.bind_some]
      by_cases hpassed : l ∈ passed
      · obtain ⟨cycle, hcollect, hcyc⟩ :=
          collectCycle_of_mem hf hchain hnodup hmem hpassed hcycle
        rw [if_pos hpassed, hcollect]
        exact ⟨(some cycle, checked), rfl, hcyc⟩
      · rw [if_neg hpassed]
        by_cases hstop : parent l = -1 ∨ l ∈ checked
        · have hstops : Stops currentVertices parent l := by
            cases hstop with
            | inl hroot => exact Climbs.up hl (hroot.symm ▸ Climbs.here)
            | inr hmem => exact (hchecked l hmem).resolve_left hpassed
          rw [if_pos hstop]
          refine ⟨(none, checked), rfl, hstops, fun v hv => ?_⟩
          cases hchecked v hv with
          | inl hv => exact stops_of_chain hstops hchain hmem v hv
          | inr hv => exact hv
        · rw [if_neg hstop]
          rw [not_or] at hstop
          have hparent := (hf.source l hl).resolve_left hstop.1
          have hmem' : ∀ v ∈ l :: passed, v ∈ currentVertices := fun v hv =>
            (List.mem_cons.mp hv).elim (fun heq => heq ▸ hl) (hmem v)
          obtain ⟨result, hrest, hfound⟩ := followParents_spec hf hcycle fuel
            (by rw [List.length_cons]; omega)
            (List.isChain_cons_cons.mpr ⟨rfl, hchain⟩) (List.nodup_cons.mpr ⟨hpassed, hnodup⟩)
            hparent hmem' (fun v hv => by
              cases List.mem_cons.mp hv with
              | inl heq => exact Or.inl (heq ▸ List.mem_cons_self ..)
              | inr hv => exact (hchecked v hv).imp_left (List.mem_cons_of_mem l))
          refine ⟨result, hrest, ?_⟩
          obtain ⟨found, checked'⟩ := result
          cases found with
          | some cycle => exact hfound
          | none => exact ⟨Climbs.up hl hfound.1, hfound.2⟩

/-- The search finds a cycle, or every vertex leads to one without a parent. -/
theorem findCycle_loop (hf : Fronts front currentVertices parent) {fuel : Nat}
    (hfuel : currentVertices.length < fuel) :
    ∀ {is checked : List Vertex}, (∀ i ∈ is, i ∈ currentVertices) →
      (∀ v ∈ checked, Stops currentVertices parent v) →
      (∃ cycle, findCycle front fuel is checked = some (some cycle) ∧
          IsCycle currentVertices parent cycle) ∨
        findCycle front fuel is checked = some none ∧ ∀ i ∈ is, Stops currentVertices parent i
  | [], _, _, _ => Or.inr ⟨rfl, fun _ hi => by cases hi⟩
  | i :: is, checked, hmem, hchecked => by
      have hrest : ∀ i ∈ is, i ∈ currentVertices := fun k hk => hmem k (List.mem_cons_of_mem i hk)
      have hcons : Stops currentVertices parent i → (∀ k ∈ is, Stops currentVertices parent k) →
          ∀ k ∈ i :: is, Stops currentVertices parent k := fun hi his k hk =>
        (List.mem_cons.mp hk).elim (fun heq => heq ▸ hi) (his k)
      rw [findCycle]
      by_cases hi : i ∈ checked
      · rw [if_pos hi]
        exact (findCycle_loop hf hfuel hrest hchecked).imp_right fun h =>
          ⟨h.1, hcons (hchecked i hi) h.2⟩
      · rw [if_neg hi]
        have hfuel' : currentVertices.length < fuel + ([] : List Vertex).length := hfuel
        obtain ⟨⟨found, checked'⟩, hfollow, hfound⟩ := followParents_spec hf hfuel fuel
          hfuel' (List.IsChain.singleton i) List.nodup_nil (hmem i (List.mem_cons_self ..))
          (fun _ hv => by cases hv) fun v hv => Or.inr (hchecked v hv)
        rw [hfollow]
        cases found with
        | some cycle => exact Or.inl ⟨cycle, rfl, hfound⟩
        | none =>
            exact (findCycle_loop hf hfuel hrest hfound.2).imp_right fun h =>
              ⟨h.1, hcons hfound.1 h.2⟩

theorem findCycle_spec (hf : Fronts front currentVertices parent) {fuel : Nat}
    (hfuel : currentVertices.length < fuel) :
    (∃ cycle, findCycle front fuel currentVertices [] = some (some cycle) ∧
        IsCycle currentVertices parent cycle) ∨
      findCycle front fuel currentVertices [] = some none ∧
        ∀ i ∈ currentVertices, Stops currentVertices parent i :=
  findCycle_loop hf hfuel (fun _ hi => hi) fun _ hv => by cases hv

end Hachee.Algorithm.ChuLiuEdmonds
