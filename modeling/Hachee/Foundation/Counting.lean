import Mathlib.Algebra.BigOperators.Group.Finset.Basic
import Mathlib.Algebra.BigOperators.Group.Finset.Piecewise
import Mathlib.Algebra.BigOperators.Field
import Mathlib.Algebra.CharZero.Defs
import Mathlib.Data.List.Nodup
import Mathlib.Tactic.Common

/-!
# Counting in two ways

Facts about counting in lists: how often a value occurs in a concatenation of
lists without repetition, how the elements with a property are divided by a value
each of them has, how the elements of a list are divided into classes, and how many
elements with a property are left when one element is taken out.
-/

namespace Hachee.Foundation

variable {ι α : Type*}

/-- In a concatenation of lists without repetition a value occurs once for every
part that has it. -/
theorem count_flatMap_of_nodup [DecidableEq α] [BEq α] [LawfulBEq α] {f : ι → List α} (a : α) :
    ∀ {l : List ι}, (∀ i ∈ l, (f i).Nodup) →
      (l.flatMap f).count a = l.countP (fun i => decide (a ∈ f i))
  | [], _ => rfl
  | i :: l, h => by
      have hi : (f i).count a = if a ∈ f i then 1 else 0 := (h i List.mem_cons_self).count
      have ih := count_flatMap_of_nodup (f := f) a fun j hj => h j (List.mem_cons_of_mem _ hj)
      rw [List.flatMap_cons, List.count_append, List.countP_cons, hi, ih, Nat.add_comm]
      simp

/-- The elements with a property are divided by the value that each of them has. -/
theorem sum_countP_value [DecidableEq α] (P : ι → Prop) [DecidablePred P] (value : ι → Option α)
    (W : Finset α) :
    ∀ {l : List ι}, (∀ i ∈ l, P i → ∃ w ∈ W, value i = some w) →
      ∑ w ∈ W, l.countP (fun i => decide (P i ∧ value i = some w)) =
        l.countP (fun i => decide (P i))
  | [], _ => by simp
  | i :: l, h => by
      have ih := sum_countP_value P value W fun j hj => h j (List.mem_cons_of_mem _ hj)
      simp only [List.countP_cons, Finset.sum_add_distrib, ih]
      congr 1
      by_cases hP : P i
      · obtain ⟨v, hv, hval⟩ := h i List.mem_cons_self hP
        simp [hP, hval, hv]
      · simp [hP]

/-! ## Leaving one out -/

section LeaveOneOut

variable {p : α → Bool} {l : List α}

theorem countP_eraseIdx {i : Nat} (hi : i < l.length) :
    l.countP p = (l.eraseIdx i).countP p + if p l[i] then 1 else 0 := by
  rw [← (List.getElem_cons_eraseIdx_perm hi).countP_eq, List.countP_cons]

/-- Of two elements with a property one is left. -/
theorem exists_mem_eraseIdx (h : 2 ≤ l.countP p) {i : Nat} (hi : i < l.length) :
    ∃ x ∈ l.eraseIdx i, p x = true := by
  have hcount := countP_eraseIdx (p := p) hi
  refine List.countP_pos_iff.mp ?_
  split at hcount
  next => omega
  next => omega

/-- The only element with a property can be taken out. -/
theorem exists_eraseIdx_of_countP_eq_one (h : l.countP p = 1) :
    ∃ i, ∃ hi : i < l.length, p l[i] = true ∧ ∀ x ∈ l.eraseIdx i, p x = false := by
  obtain ⟨x, hx, hp⟩ := List.countP_pos_iff.mp (h ▸ Nat.one_pos)
  obtain ⟨i, hi, rfl⟩ := List.getElem_of_mem hx
  have hcount := countP_eraseIdx (p := p) hi
  rw [if_pos hp, h] at hcount
  have hzero : (l.eraseIdx i).countP p = 0 := by omega
  exact ⟨i, hi, hp, fun y hy => by simpa using List.countP_eq_zero.mp hzero y hy⟩

end LeaveOneOut

/-! ## Classes -/

variable {T C K : Type*} [DecidableEq T] [DecidableEq C]

/-- A class occurs as often as its members. -/
theorem count_map_eq_sum (l : List T) (classOf : T → C) (c : C) :
    (l.map classOf).count c = ∑ t ∈ l.toFinset with classOf t = c, l.count t := by
  have hset : {t ∈ l.toFinset | classOf t = c} = (l.filter fun t => classOf t = c).toFinset := by
    ext t
    simp
  have hcount : ∀ t ∈ (l.filter fun t => classOf t = c).toFinset,
      l.count t = (l.filter fun t => classOf t = c).count t := by
    intro t ht
    rw [List.mem_toFinset, List.mem_filter] at ht
    exact (List.count_filter (p := fun t => decide (classOf t = c)) ht.2).symm
  rw [hset, Finset.sum_congr rfl hcount, List.sum_toFinset_count_eq_length, List.count,
    List.countP_map, List.countP_eq_length_filter]
  rfl

/-- When each member gets its share of the value of its class, the shares sum up to
the values of the classes. -/
theorem sum_shares [Field K] [CharZero K] (l : List T) (classOf : T → C) (f : C → K) :
    ∑ t ∈ l.toFinset, f (classOf t) * ((l.count t : K) / ((l.map classOf).count (classOf t) : K)) =
      ∑ c ∈ (l.map classOf).toFinset, f c := by
  have hmaps : ∀ t ∈ l.toFinset, classOf t ∈ (l.map classOf).toFinset := fun t ht =>
    List.mem_toFinset.mpr (List.mem_map_of_mem (List.mem_toFinset.mp ht))
  rw [← Finset.sum_fiberwise_of_maps_to hmaps]
  refine Finset.sum_congr rfl fun c hc => ?_
  have hne : ((l.map classOf).count c : K) ≠ 0 :=
    Nat.cast_ne_zero.mpr (Nat.pos_iff_ne_zero.mp (List.count_pos_iff.mpr (List.mem_toFinset.mp hc)))
  calc ∑ t ∈ l.toFinset with classOf t = c,
        f (classOf t) * ((l.count t : K) / ((l.map classOf).count (classOf t) : K))
      = ∑ t ∈ l.toFinset with classOf t = c,
          f c * ((l.count t : K) / ((l.map classOf).count c : K)) := by
        refine Finset.sum_congr rfl fun t ht => ?_
        rw [(Finset.mem_filter.mp ht).2]
    _ = f c * (((l.map classOf).count c : K) / ((l.map classOf).count c : K)) := by
        rw [← Finset.mul_sum, ← Finset.sum_div, ← Nat.cast_sum, ← count_map_eq_sum]
    _ = f c := by rw [div_self hne, mul_one]

end Hachee.Foundation
