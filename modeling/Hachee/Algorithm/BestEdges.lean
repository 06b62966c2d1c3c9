import Hachee.Algorithm.ChuLiuEdmonds
import Hachee.Foundation.Loop

/-!
# The best edges

The first loop of `solve` fills the array `front`.  For every current vertex it holds
the start of the best edge that enters the vertex, or `-1` when there is none
(`bestFront_spec`).  No score is negative, so the score `-1`, with which the search
begins, is below all of them (`bestParent_spec`).
-/

namespace Hachee.Algorithm.ChuLiuEdmonds

open Lisp Foundation Loop

/-! ## The array -/

section Array

variable {front : List Vertex} {i k v : Int}

theorem setAref_eq_some (hi : 0 ≤ i) (hlt : i.toNat < front.length) :
    setAref front i v = some (front.set i.toNat v) := if_pos ⟨hi, hlt⟩

theorem aref_set_self (hi : 0 ≤ i) (hlt : i.toNat < front.length) :
    aref (front.set i.toNat v) i = some v := by
  rw [aref, if_pos hi, List.getElem?_set_self hlt]

theorem aref_set_ne (hi : 0 ≤ i) (hk : k ≠ i) :
    aref (front.set i.toNat v) k = aref front k := by
  rw [aref, aref]
  by_cases hk0 : 0 ≤ k
  · have hne : i.toNat ≠ k.toNat := by omega
    rw [if_pos hk0, if_pos hk0, List.getElem?_set_ne hne]
  · rw [if_neg hk0, if_neg hk0]

/-- Writing what is there changes nothing. -/
theorem set_of_aref (hi : 0 ≤ i) (h : aref front i = some v) :
    front.set i.toNat v = front := by
  rw [aref, if_pos hi] at h
  obtain ⟨hlt, rfl⟩ := List.getElem?_eq_some_iff.mp h
  exact List.set_getElem_self hlt

theorem aref_replicate {n : Nat} (hi : 0 ≤ i) (hlt : i.toNat < n) :
    aref (List.replicate n (-1)) i = some (-1) := by
  rw [aref, if_pos hi, List.getElem?_replicate, if_pos hlt]

end Array

/-! ## The search -/

variable {R : Type} [Ring R] [LinearOrder R]

/-- The score of the edge from `j` to `i`, if it is one that the search looks at. -/
def entering (scoreHash : ScoreHash R) (i j : Vertex) : Option R :=
  if j ≠ i then getScore scoreHash j i else none

/-- What the search finds for `i`. -/
def bestParent (scoreHash : ScoreHash R) (currentVertices : List Vertex) (i : Vertex) : Vertex :=
  if i = 0 then -1 else (currentVertices.foldl (better (entering scoreHash i)) (-1, -1)).2

omit [Ring R] in
/-- One turn of the search keeps the best edge in the array. -/
theorem compareEdge_eq (scoreHash : ScoreHash R) {i : Vertex} (hi : 0 ≤ i) {front : List Vertex}
    (hlt : i.toNat < front.length) (state : R × Vertex) (j : Vertex) :
    compareEdge scoreHash i (state.1, front.set i.toNat state.2) j =
      some ((better (entering scoreHash i) state j).1,
        front.set i.toNat (better (entering scoreHash i) state j).2) := by
  rw [compareEdge, better, entering]
  by_cases hj : j ≠ i
  · rw [if_pos hj, if_pos hj]
    cases hscore : getScore scoreHash j i with
    | none => rfl
    | some score =>
        by_cases hbetter : state.1 < score
        · have hlt' : i.toNat < (front.set i.toNat state.2).length := by
            rw [List.length_set]
            exact hlt
          simp only [if_pos hbetter, setAref_eq_some hi hlt', List.set_set]
          rfl
        · simp only [if_neg hbetter]
  · rw [if_neg hj, if_neg hj]

omit [Ring R] in
/-- The loop over the edges that enter `i` keeps the best one in the array. -/
theorem compareEdge_loop (scoreHash : ScoreHash R) {i : Vertex} (hi : 0 ≤ i)
    {front : List Vertex} (hlt : i.toNat < front.length) :
    ∀ (js : List Vertex) (state : R × Vertex),
      js.foldlM (compareEdge scoreHash i) (state.1, front.set i.toNat state.2) =
        some ((js.foldl (better (entering scoreHash i)) state).1,
          front.set i.toNat (js.foldl (better (entering scoreHash i)) state).2)
  | [], _ => rfl
  | j :: js, state => by
      rw [List.foldlM_cons, compareEdge_eq scoreHash hi hlt, List.foldl_cons]
      exact compareEdge_loop scoreHash hi hlt js _

/-- The search for one vertex. -/
theorem bestEdge_spec (scoreHash : ScoreHash R) (currentVertices : List Vertex) {i : Vertex}
    (hi : 0 ≤ i) {front : List Vertex} (hlt : i.toNat < front.length)
    (hinit : aref front i = some (-1)) :
    bestEdge scoreHash currentVertices front i =
      some (front.set i.toNat (bestParent scoreHash currentVertices i)) := by
  rw [bestEdge, bestParent]
  by_cases hne : i = 0
  · rw [if_neg (not_not_intro hne), if_pos hne, set_of_aref hi hinit]
  · have hloop := compareEdge_loop scoreHash hi hlt currentVertices ((-1 : R), -1)
    rw [set_of_aref hi hinit] at hloop
    rw [if_pos hne, if_neg hne, hloop]
    rfl

/-- The searches for all vertices of a list. -/
theorem bestEdge_loop (scoreHash : ScoreHash R) (currentVertices : List Vertex) (n : Nat) :
    ∀ (is : List Vertex) {front : List Vertex}, is.Nodup → front.length = n →
      (∀ i ∈ is, 0 ≤ i ∧ i.toNat < n ∧ aref front i = some (-1)) →
      ∃ front', is.foldlM (bestEdge scoreHash currentVertices) front = some front' ∧
        (∀ i ∈ is, aref front' i = some (bestParent scoreHash currentVertices i)) ∧
        ∀ k, k ∉ is → aref front' k = aref front k
  | [], front, _, _, _ => ⟨front, rfl, fun _ h => (by cases h), fun _ _ => rfl⟩
  | i :: is, front, hnodup, hlength, hinit => by
      obtain ⟨hi, hlt, hfront⟩ := hinit i (List.mem_cons_self ..)
      obtain ⟨hnotMem, hnodup⟩ := List.nodup_cons.mp hnodup
      rw [← hlength] at hlt
      have hlength' :
          (front.set i.toNat (bestParent scoreHash currentVertices i)).length = n :=
        List.length_set.trans hlength
      obtain ⟨front', hrest, hmem, hframe⟩ :=
        bestEdge_loop scoreHash currentVertices n is hnodup hlength'
          (fun k hk => by
            have hki : k ≠ i := fun heq => hnotMem (heq ▸ hk)
            rw [aref_set_ne hi hki]
            exact hinit k (List.mem_cons_of_mem i hk))
      refine ⟨front', ?_, fun k hk => ?_, fun k hk => ?_⟩
      · rw [List.foldlM_cons, bestEdge_spec scoreHash currentVertices hi hlt hfront]
        exact hrest
      · cases List.mem_cons.mp hk with
        | inl heq => rw [heq, hframe i hnotMem, aref_set_self hi hlt]
        | inr hk => exact hmem k hk
      · rw [List.mem_cons, not_or] at hk
        rw [hframe k hk.2, aref_set_ne hi hk.1]

/-- The first loop ends, and the array holds what the searches find. -/
theorem bestFront_spec (scoreHash : ScoreHash R) {numVertices : Nat}
    {currentVertices : List Vertex} (hnodup : currentVertices.Nodup)
    (hbound : ∀ i ∈ currentVertices, 0 ≤ i ∧ i < numVertices) :
    ∃ front, bestFront numVertices scoreHash currentVertices = some front ∧
      ∀ i ∈ currentVertices, aref front i = some (bestParent scoreHash currentVertices i) := by
  obtain ⟨front, hloop, hmem, -⟩ :=
    bestEdge_loop scoreHash currentVertices numVertices currentVertices hnodup
      List.length_replicate (fun i hi => by
        obtain ⟨h0, hlt⟩ := hbound i hi
        have hlt' : i.toNat < numVertices := (Int.toNat_lt h0).mpr hlt
        exact ⟨h0, hlt', aref_replicate h0 hlt'⟩)
  exact ⟨front, hloop, hmem⟩

/-- The search finds the best edge, or there is none. -/
theorem bestParent_spec [IsStrictOrderedRing R] {scoreHash : ScoreHash R}
    {currentVertices : List Vertex} {i : Vertex} (hne : i ≠ 0)
    (hnonneg : ∀ j ∈ currentVertices, j ≠ i → ∀ s, getScore scoreHash j i = some s → 0 ≤ s) :
    bestParent scoreHash currentVertices i = -1 ∧
        (∀ j ∈ currentVertices, j ≠ i → getScore scoreHash j i = none) ∨
      bestParent scoreHash currentVertices i ∈ currentVertices ∧
        bestParent scoreHash currentVertices i ≠ i ∧
        ∃ s, getScore scoreHash (bestParent scoreHash currentVertices i) i = some s ∧
          ∀ j ∈ currentVertices, j ≠ i → ∀ t, getScore scoreHash j i = some t → t ≤ s := by
  have hbest := foldl_better (entering scoreHash i) (-1 : R) (-1) currentVertices
    (fun j hj s hs => by
      by_cases hji : j ≠ i
      · rw [entering, if_pos hji] at hs
        exact lt_of_lt_of_le neg_one_lt_zero (hnonneg j hj hji s hs)
      · rw [entering, if_neg hji] at hs
        cases hs)
  rw [bestParent, if_neg hne]
  cases hbest with
  | inl hnone =>
      refine Or.inl ⟨by rw [hnone.1], fun j hj hji => ?_⟩
      have hj := hnone.2 j hj
      rwa [entering, if_pos hji] at hj
  | inr hsome =>
      obtain ⟨hmem, hscore, hmax⟩ := hsome
      have hself : (currentVertices.foldl (better (entering scoreHash i)) (-1, -1)).2 ≠ i := by
        intro heq
        rw [entering, if_neg (not_not_intro heq)] at hscore
        cases hscore
      rw [entering, if_pos hself] at hscore
      refine Or.inr ⟨hmem, hself, _, hscore, fun j hj hji t ht => ?_⟩
      refine hmax j hj t ?_
      rw [entering, if_pos hji, ht]

end Hachee.Algorithm.ChuLiuEdmonds
