import Mathlib.Data.List.Perm.Basic
import Mathlib.Order.Defs.LinearOrder
import Mathlib.Tactic.Common
import Mathlib.Tactic.Ring

/-!
# Ascents of a list

An *ascent* of a list is a pair of positions whose elements are in increasing
order.  Exchanging two neighbours in increasing order removes one ascent and
makes no other (`ascents_swap`), and there are no more ascents in a part of a
list (`ascents_sublist`).  Thus the number of ascents bounds how often an
algorithm can make such an exchange.  A list of length `n` has at most
`n * (n - 1) / 2` of them (`two_mul_ascents_le`).
-/

namespace Hachee.Foundation.Ascents

variable {α : Type*} [LinearOrder α]

/-- The number of pairs `a … b` in the list with `a < b`. -/
def ascents : List α → Nat
  | [] => 0
  | a :: l => l.countP (fun b => decide (a < b)) + ascents l

@[simp] theorem ascents_nil : ascents ([] : List α) = 0 := rfl

@[simp] theorem ascents_cons (a : α) (l : List α) :
    ascents (a :: l) = l.countP (fun b => decide (a < b)) + ascents l := rfl

/-- Taking elements away makes no ascent. -/
theorem ascents_sublist {l m : List α} (h : l.Sublist m) : ascents l ≤ ascents m := by
  induction h with
  | slnil => exact Nat.le_refl 0
  | cons a _ ih =>
      rw [ascents_cons]
      omega
  | cons_cons a hs ih =>
      have hcount := hs.countP_le (p := fun b => decide (a < b))
      rw [ascents_cons, ascents_cons]
      omega

/-- Exchanging two neighbours in increasing order removes one ascent. -/
theorem ascents_swap {a b : α} (h : a < b) : ∀ l m : List α,
    ascents (l ++ b :: a :: m) + 1 = ascents (l ++ a :: b :: m)
  | [], m => by
      have hba : ¬b < a := not_lt_of_gt h
      simp [h, hba]
      omega
  | c :: l, m => by
      have hperm : (l ++ b :: a :: m).Perm (l ++ a :: b :: m) :=
        (List.Perm.swap a b m).append_left l
      have hrest := ascents_swap h l m
      have hcount := hperm.countP_eq (fun x => decide (c < x))
      rw [List.cons_append, List.cons_append, ascents_cons, ascents_cons, hcount]
      omega

/-- There are at most as many ascents as pairs. -/
theorem two_mul_ascents_le : ∀ l : List α, 2 * ascents l + l.length ≤ l.length * l.length
  | [] => Nat.le_refl 0
  | a :: l => by
      have ih := two_mul_ascents_le l
      have hcount := List.countP_le_length (p := fun b => decide (a < b)) (l := l)
      have hsquare : (l.length + 1) * (l.length + 1) = l.length * l.length + 2 * l.length + 1 := by
        ring
      rw [ascents_cons, List.length_cons, hsquare]
      omega

end Hachee.Foundation.Ascents
