import Mathlib.Algebra.BigOperators.Group.List.Basic
import Mathlib.Algebra.Order.Ring.Int
import Mathlib.Tactic.Common

/-!
# Consecutive pages

A list that is cut into consecutive pages is known by the sizes of the pages.  The region of
a page is its first and its last position in the list.  When no page is empty, each position
lies in the region of one page (`exists_page`).

Pages of one size, the last of them being shorter, start at the multiples of this size
(`starts_multiples_iff`).
-/

namespace Hachee.Foundation.Pages

/-- The regions of the pages, when the first one starts at a position. -/
def regions (start : Nat) : List Nat → List (Nat × Nat)
  | [] => []
  | size :: sizes => (start, start + size - 1) :: regions (start + size) sizes

/-- A position lies in a region. -/
def Holds (region : Nat × Nat) (i : Nat) : Prop := region.1 ≤ i ∧ i ≤ region.2

section Regions

variable {start i k : Nat} {sizes : List Nat} {region : Nat × Nat}

@[simp] theorem length_regions (start : Nat) (sizes : List Nat) :
    (regions start sizes).length = sizes.length := by
  induction sizes generalizing start with
  | nil => rfl
  | cons size sizes ih => simp [regions, ih]

/-- The pages after some pages start where these end. -/
theorem regions_append (start : Nat) (sizes sizes' : List Nat) :
    regions start (sizes ++ sizes') =
      regions start sizes ++ regions (start + sizes.sum) sizes' := by
  induction sizes generalizing start with
  | nil => simp [regions]
  | cons size sizes ih => simp [regions, ih, Nat.add_assoc]

theorem getElem?_regions (start : Nat) (sizes : List Nat) (k : Nat) :
    (regions start sizes)[k]? = sizes[k]?.map fun size =>
      (start + (sizes.take k).sum, start + (sizes.take k).sum + size - 1) := by
  induction sizes generalizing start k with
  | nil => simp [regions]
  | cons size sizes ih =>
      cases k with
      | zero => simp [regions]
      | succ k => simp [regions, ih, Nat.add_assoc]

theorem start_le_of_getElem? (h : (regions start sizes)[k]? = some region) : start ≤ region.1 := by
  rw [getElem?_regions] at h
  obtain ⟨size, -, rfl⟩ := Option.map_eq_some_iff.mp h
  exact Nat.le_add_right _ _

/-- Each position lies in the region of exactly one page. -/
theorem exists_page (hpos : ∀ size ∈ sizes, 0 < size) (hle : start ≤ i)
    (hlt : i < start + sizes.sum) :
    ∃ (k : Nat) (region : Nat × Nat), (regions start sizes)[k]? = some region ∧ Holds region i ∧
      ∀ (k' : Nat) (region' : Nat × Nat), (regions start sizes)[k']? = some region' →
        Holds region' i → k' = k := by
  induction sizes generalizing start with
  | nil =>
      rw [List.sum_nil] at hlt
      omega
  | cons size sizes ih =>
      have hsize := hpos size List.mem_cons_self
      rw [List.sum_cons] at hlt
      by_cases hfirst : i < start + size
      · refine ⟨0, (start, start + size - 1), rfl, ⟨hle, by show i ≤ _; omega⟩, ?_⟩
        intro k' region' h' hholds'
        cases k' with
        | zero => rfl
        | succ k' =>
            have hstart : start + size ≤ region'.1 := start_le_of_getElem? (k := k') h'
            have hleft := hholds'.1
            omega
      · have hlt' : i < start + size + sizes.sum := by omega
        obtain ⟨k, region, h, hholds, hunique⟩ :=
          ih (fun size' h' => hpos size' (List.mem_cons_of_mem _ h')) (by omega) hlt'
        refine ⟨k + 1, region, h, hholds, ?_⟩
        intro k' region' h' hholds'
        cases k' with
        | zero =>
            obtain rfl : (start, start + size - 1) = region' := Option.some.inj h'
            have hright : i ≤ start + size - 1 := hholds'.2
            omega
        | succ k' => rw [hunique k' region' h' hholds']

end Regions

/-! ## Pages of one size -/

section Multiples

variable {width n k : Nat}

/-- The sizes of pages of one width, and of a last page for the rest. -/
def equalSizes (width n k : Nat) : List Nat := List.replicate k width ++ [n - k * width]

theorem regions_replicate (start count width : Nat) :
    regions start (List.replicate count width) =
      (List.range count).map fun i => (start + i * width, start + (i + 1) * width - 1) := by
  induction count generalizing start with
  | zero => rfl
  | succ count ih =>
      rw [List.replicate_succ, regions, ih, List.range_succ_eq_map, List.map_cons, List.map_map]
      simp only [Nat.zero_mul, Nat.add_zero, Nat.zero_add, Nat.one_mul, List.cons.injEq, true_and]
      refine List.map_congr_left fun i _ => ?_
      simp only [Function.comp, Nat.succ_eq_add_one, Nat.succ_mul]
      congr 1 <;> omega

theorem equalSizes_bounds (hlt : k * width < n) (hle : n ≤ (k + 1) * width) :
    ∀ size ∈ equalSizes width n k, 0 < size ∧ size ≤ width := by
  intro size h
  rw [equalSizes, List.mem_append, List.mem_replicate, List.mem_singleton] at h
  rw [Nat.succ_mul] at hle
  obtain ⟨hk, rfl⟩ | rfl := h
  · exact ⟨by omega, Nat.le_refl _⟩
  · omega

theorem sum_equalSizes (hlt : k * width < n) : (equalSizes width n k).sum = n := by
  simp [equalSizes]
  omega

theorem regions_equalSizes (hlt : k * width < n) (hle : n ≤ (k + 1) * width) :
    regions 0 (equalSizes width n k) =
      (List.range (k + 1)).map fun i => (i * width, min ((i + 1) * width) n - 1) := by
  rw [equalSizes, regions_append, regions_replicate, List.range_succ, List.map_append]
  congr 1
  · refine List.map_congr_left fun i hi => ?_
    have hmul : (i + 1) * width ≤ k * width := Nat.mul_le_mul_right _ (List.mem_range.mp hi)
    rw [Nat.min_eq_left (by omega), Nat.zero_add, Nat.zero_add]
  · simp [regions, Nat.min_eq_right hle]
    omega

/-- Non-empty pages of at most one width start at the first multiples of the width if and only
if the last one of these multiples is inside of the list, and the next one is not. -/
theorem starts_multiples_iff :
    (∃ sizes : List Nat, (∀ size ∈ sizes, 0 < size ∧ size ≤ width) ∧ sizes.sum = n ∧
      (regions 0 sizes).map Prod.fst = (List.range (k + 1)).map (· * width)) ↔
      k * width < n ∧ n ≤ (k + 1) * width := by
  constructor
  · intro h
    obtain ⟨sizes, hsizes, rfl, hstarts⟩ := h
    have hlength : sizes.length = k + 1 := by simpa using congrArg List.length hstarts
    obtain ⟨init, size, rfl⟩ : ∃ init size, sizes = init ++ [size] :=
      ⟨_, _, (List.dropLast_append_getLast (List.ne_nil_of_length_eq_add_one hlength)).symm⟩
    have hsize := hsizes size List.mem_concat_self
    -- the last page starts after all the other ones
    have hinit : init.sum = k * width := by
      rw [regions_append, List.map_append, List.range_succ, List.map_append] at hstarts
      simpa [regions] using (List.append_inj_right' hstarts (by simp [regions]))
    rw [List.sum_append, List.sum_singleton, hinit, Nat.succ_mul]
    omega
  · intro h
    obtain ⟨hlt, hle⟩ := h
    refine ⟨equalSizes width n k, equalSizes_bounds hlt hle, sum_equalSizes hlt, ?_⟩
    rw [regions_equalSizes hlt hle, List.map_map]
    rfl

end Multiples

end Hachee.Foundation.Pages
