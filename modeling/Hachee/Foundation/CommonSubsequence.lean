import Mathlib.Order.Bounds.Basic
import Mathlib.Tactic.Common

/-!
# Longest common subsequences

A common subsequence of two lists is a sublist of both.  The length of the longest ones
follows the usual recursion (`lcs`), which looks at the first elements.  By reversal it may
look at the last elements as well (`lcs_concat_self`, `lcs_concat_of_ne`).
-/

namespace Hachee.Foundation.CommonSubsequence

variable {α : Type*}

/-- The lengths of the common subsequences. -/
def CommonLengths (xs ys : List α) : Set Nat :=
  {n | ∃ s : List α, s.Sublist xs ∧ s.Sublist ys ∧ s.length = n}

theorem commonLengths_reverse (xs ys : List α) :
    CommonLengths xs.reverse ys.reverse = CommonLengths xs ys := by
  ext n
  constructor
  · intro h
    obtain ⟨s, hx, hy, hn⟩ := h
    exact ⟨s.reverse, List.reverse_sublist.mp (by simpa using hx),
      List.reverse_sublist.mp (by simpa using hy), by simpa using hn⟩
  · intro h
    obtain ⟨s, hx, hy, hn⟩ := h
    exact ⟨s.reverse, List.reverse_sublist.mpr hx, List.reverse_sublist.mpr hy, by simpa using hn⟩

/-- A subsequence that does not take the first element. -/
theorem sublist_or_head_eq {s xs : List α} {x : α} (h : s.Sublist (x :: xs)) :
    s.Sublist xs ∨ s.head? = some x := by
  cases h with
  | cons _ h => exact .inl h
  | cons_cons _ h => exact .inr rfl

theorem sublist_of_tail {s xs : List α} {x : α} (h : s.Sublist (x :: xs)) :
    s.tail.Sublist xs := by
  simpa using h.tail

section Length

variable [DecidableEq α]

/-- The length of the longest common subsequences. -/
def lcs : List α → List α → Nat
  | [], _ => 0
  | _ :: _, [] => 0
  | x :: xs, y :: ys => if x = y then lcs xs ys + 1 else max (lcs xs (y :: ys)) (lcs (x :: xs) ys)
termination_by xs ys => xs.length + ys.length

@[simp] theorem lcs_nil_left (ys : List α) : lcs [] ys = 0 := by rw [lcs]

@[simp] theorem lcs_nil_right (xs : List α) : lcs xs [] = 0 := by
  cases xs with
  | nil => rw [lcs]
  | cons x xs => rw [lcs]

theorem lcs_cons_self (x : α) (xs ys : List α) : lcs (x :: xs) (x :: ys) = lcs xs ys + 1 := by
  rw [lcs, if_pos rfl]

theorem lcs_cons_of_ne {x y : α} (h : x ≠ y) (xs ys : List α) :
    lcs (x :: xs) (y :: ys) = max (lcs xs (y :: ys)) (lcs (x :: xs) ys) := by
  rw [lcs, if_neg h]

/-- No common subsequence is longer. -/
theorem length_le_lcs {s xs ys : List α} (hx : s.Sublist xs) (hy : s.Sublist ys) :
    s.length ≤ lcs xs ys := by
  induction xs, ys using lcs.induct generalizing s with
  | case1 ys => simp [List.sublist_nil.mp hx]
  | case2 x xs => simp [List.sublist_nil.mp hy]
  | case3 xs y ys ih =>
      have hle := ih (sublist_of_tail hx) (sublist_of_tail hy)
      rw [List.length_tail] at hle
      rw [lcs_cons_self]
      omega
  | case4 x xs y ys hne ihx ihy =>
      rw [lcs_cons_of_ne hne]
      cases sublist_or_head_eq hx with
      | inl hx' => exact (ihx hx' hy).trans (le_max_left _ _)
      | inr hhead =>
          cases sublist_or_head_eq hy with
          | inl hy' => exact (ihy hx hy').trans (le_max_right _ _)
          | inr hhead' => exact absurd (Option.some.inj (hhead.symm.trans hhead')) hne

/-- Some common subsequence is as long. -/
theorem exists_length_eq_lcs (xs ys : List α) : lcs xs ys ∈ CommonLengths xs ys := by
  induction xs, ys using lcs.induct with
  | case1 ys => exact ⟨[], List.nil_sublist _, List.nil_sublist _, by simp⟩
  | case2 x xs => exact ⟨[], List.nil_sublist _, List.nil_sublist _, by simp⟩
  | case3 xs y ys ih =>
      obtain ⟨s, hx, hy, hs⟩ := ih
      exact ⟨y :: s, hx.cons_cons y, hy.cons_cons y, by rw [lcs_cons_self, List.length_cons, hs]⟩
  | case4 x xs y ys hne ihx ihy =>
      rw [lcs_cons_of_ne hne]
      cases le_total (lcs xs (y :: ys)) (lcs (x :: xs) ys) with
      | inl hle =>
          obtain ⟨s, hx, hy, hs⟩ := ihy
          exact ⟨s, hx, hy.cons y, by rw [hs, max_eq_right hle]⟩
      | inr hle =>
          obtain ⟨s, hx, hy, hs⟩ := ihx
          exact ⟨s, hx.cons x, hy, by rw [hs, max_eq_left hle]⟩

theorem lcs_le_length_left (xs ys : List α) : lcs xs ys ≤ xs.length := by
  obtain ⟨s, hx, -, hs⟩ := exists_length_eq_lcs xs ys
  exact hs ▸ hx.length_le

theorem lcs_le_length_right (xs ys : List α) : lcs xs ys ≤ ys.length := by
  obtain ⟨s, -, hy, hs⟩ := exists_length_eq_lcs xs ys
  exact hs ▸ hy.length_le

theorem isGreatest_lcs (xs ys : List α) : IsGreatest (CommonLengths xs ys) (lcs xs ys) := by
  refine ⟨exists_length_eq_lcs xs ys, fun n hn => ?_⟩
  obtain ⟨s, hx, hy, rfl⟩ := hn
  exact length_le_lcs hx hy

theorem lcs_reverse (xs ys : List α) : lcs xs.reverse ys.reverse = lcs xs ys := by
  have h := isGreatest_lcs xs.reverse ys.reverse
  rw [commonLengths_reverse] at h
  exact h.unique (isGreatest_lcs xs ys)

/-- Longer lists have longer common subsequences. -/
theorem lcs_mono {xs xs' ys ys' : List α} (hx : xs.Sublist xs') (hy : ys.Sublist ys') :
    lcs xs ys ≤ lcs xs' ys' := by
  obtain ⟨s, hsx, hsy, hs⟩ := exists_length_eq_lcs xs ys
  rw [← hs]
  exact length_le_lcs (hsx.trans hx) (hsy.trans hy)

/-- The first elements of both lists give at most one element of a common subsequence. -/
theorem lcs_cons_le (x y : α) (xs ys : List α) : lcs (x :: xs) (y :: ys) ≤ lcs xs ys + 1 := by
  obtain ⟨s, hx, hy, hs⟩ := exists_length_eq_lcs (x :: xs) (y :: ys)
  have hle := length_le_lcs (sublist_of_tail hx) (sublist_of_tail hy)
  rw [List.length_tail] at hle
  omega

/-! ## The last elements -/

theorem lcs_concat_self (x : α) (xs ys : List α) :
    lcs (xs ++ [x]) (ys ++ [x]) = lcs xs ys + 1 := by
  rw [← lcs_reverse, List.reverse_concat, List.reverse_concat, lcs_cons_self, lcs_reverse]

theorem lcs_concat_of_ne {x y : α} (h : x ≠ y) (xs ys : List α) :
    lcs (xs ++ [x]) (ys ++ [y]) = max (lcs xs (ys ++ [y])) (lcs (xs ++ [x]) ys) := by
  rw [← lcs_reverse, List.reverse_concat, List.reverse_concat, lcs_cons_of_ne h,
    ← List.reverse_concat, ← List.reverse_concat, lcs_reverse, lcs_reverse]

end Length

end Hachee.Foundation.CommonSubsequence
