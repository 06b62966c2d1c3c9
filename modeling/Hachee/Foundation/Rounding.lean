import Mathlib.Algebra.Order.Floor.Ring
import Mathlib.Algebra.Ring.CharZero
import Mathlib.Data.Int.Log
import Mathlib.Tactic.FieldSimp
import Mathlib.Tactic.Linarith
import Mathlib.Tactic.Positivity
import Mathlib.Tactic.Ring

/-!
# Rounding to floating-point numbers

A *float* with `digits` binary digits is a whole number below `2 ^ digits`, times a power of
two.  A number is rounded to the nearest float, and of two nearest ones to that with an even
last digit.  The exponents are not bounded, so that nothing overflows and nothing underflows.

A normal float has all its digits (`Normal`).  Rounding keeps it and is monotone, and the
relative error is at most `2 ^ -digits`.  The distance of a normal float from the next one is
`2 ^ place`, a unit in its last place.

The harmonic mean of two positive numbers lies between them.  When each operation is rounded,
it may lie outside, but by no more than one such unit (`harmonicMean_mem`).
-/

namespace Hachee.Foundation.Rounding

variable {K : Type*} [Field K] [LinearOrder K] [IsStrictOrderedRing K] [FloorRing K]

/-! ## Whole numbers -/

/-- The nearest whole number, and the even one of two. -/
def nearest (x : K) : ℤ :=
  if x - ⌊x⌋ < ⌊x⌋ + 1 - x then ⌊x⌋
  else if ⌊x⌋ + 1 - x < x - ⌊x⌋ then ⌊x⌋ + 1
  else if ⌊x⌋ % 2 = 0 then ⌊x⌋ else ⌊x⌋ + 1

omit [IsStrictOrderedRing K] in
theorem floor_le_nearest (x : K) : ⌊x⌋ ≤ nearest x := by
  unfold nearest
  split_ifs <;> omega

omit [IsStrictOrderedRing K] in
theorem nearest_le_floor (x : K) : nearest x ≤ ⌊x⌋ + 1 := by
  unfold nearest
  split_ifs <;> omega

theorem nearest_mono {x y : K} (h : x ≤ y) : nearest x ≤ nearest y := by
  cases (Int.floor_mono h).lt_or_eq with
  | inl hlt =>
      have hx := nearest_le_floor x
      have hy := floor_le_nearest y
      omega
  | inr heq =>
      have hpart : x - ⌊y⌋ ≤ y - ⌊y⌋ := sub_le_sub_right h _
      unfold nearest
      rw [heq]
      split_ifs <;> first | omega | linarith

theorem abs_sub_nearest_le (x : K) : |x - nearest x| ≤ 1 / 2 := by
  have hfloor := Int.floor_le x
  have hlt := Int.lt_floor_add_one x
  rw [abs_le]
  unfold nearest
  split_ifs <;> push_cast <;> constructor <;> linarith

/-- A number is rounded to a whole one less than one half away from it. -/
theorem nearest_eq {x : K} {n : ℤ} (h : |x - n| < 1 / 2) : nearest x = n := by
  obtain ⟨hlow, hhigh⟩ := abs_lt.mp h
  obtain ⟨hlow', hhigh'⟩ := abs_le.mp (abs_sub_nearest_le x)
  have hlt : (nearest x : K) - n < 1 := by linarith
  have hgt : (n : K) - nearest x < 1 := by linarith
  norm_cast at hlt hgt
  omega

theorem nearest_intCast (n : ℤ) : nearest (n : K) = n := nearest_eq (by simp)

/-! ## Floats -/

/-- The exponent of the last digit. -/
def place (digits : ℕ) (x : K) : ℤ := Int.log 2 |x| + 1 - digits

/-- The nearest float. -/
def round (digits : ℕ) (x : K) : K :=
  nearest (x / (2 : ℕ) ^ place digits x) * (2 : ℕ) ^ place digits x

/-- A float with all its digits. -/
structure Normal (digits : ℕ) (y : K) (m : ℕ) (e : ℤ) : Prop where
  lower : 2 ^ (digits - 1) ≤ m
  upper : m < 2 ^ digits
  eq : y = m * 2 ^ e

variable {digits m : ℕ} {x y : K} {e : ℤ}

theorem two_zpow_pos (e : ℤ) : (0 : K) < 2 ^ e := zpow_pos two_pos e

omit [IsStrictOrderedRing K] in
theorem round_eq (digits : ℕ) (x : K) :
    round digits x = nearest (x / 2 ^ place digits x) * 2 ^ place digits x := by
  rw [round, Nat.cast_ofNat]

@[simp] theorem round_zero (digits : ℕ) : round digits (0 : K) = 0 := by
  have hzero : nearest (0 : K) = 0 := by
    rw [← Int.cast_zero, nearest_intCast]
  rw [round_eq, zero_div, hzero, Int.cast_zero, zero_mul]

theorem pow_pred (hdigits : 1 ≤ digits) : (2 : ℕ) ^ digits = 2 * 2 ^ (digits - 1) := by
  rw [← Nat.pow_succ', Nat.succ_eq_add_one, Nat.sub_add_cancel hdigits]

/-- A positive number lies between the ends of its place. -/
theorem place_spec (hdigits : 1 ≤ digits) (hx : 0 < x) :
    (2 ^ (digits - 1) : ℕ) * (2 : K) ^ place digits x ≤ x ∧
      x < (2 ^ digits : ℕ) * (2 : K) ^ place digits x := by
  have hlow := Int.zpow_log_le_self (b := 2) one_lt_two (abs_pos.mpr hx.ne')
  have hhigh := Int.lt_zpow_succ_log_self (b := 2) one_lt_two |x|
  rw [abs_of_pos hx] at hlow hhigh
  push_cast at hlow hhigh ⊢
  rw [place, abs_of_pos hx, ← zpow_natCast, ← zpow_natCast, ← zpow_add₀ two_ne_zero,
    ← zpow_add₀ two_ne_zero]
  refine ⟨?_, ?_⟩
  · convert hlow using 2
    omega
  · convert hhigh using 2
    omega

/-- It has no other place. -/
theorem place_eq (hdigits : 1 ≤ digits) (hlow : (2 ^ (digits - 1) : ℕ) * (2 : K) ^ e ≤ x)
    (hhigh : x < (2 ^ digits : ℕ) * (2 : K) ^ e) : place digits x = e := by
  have hpow : (0 : K) < (2 ^ (digits - 1) : ℕ) := Nat.cast_pos.mpr (by positivity)
  have hx : 0 < x := lt_of_lt_of_le (mul_pos hpow (two_zpow_pos e)) hlow
  push_cast at hlow hhigh
  rw [← zpow_natCast, ← zpow_add₀ two_ne_zero] at hlow hhigh
  have hle := (Int.zpow_le_iff_le_log (b := 2) one_lt_two hx).mp (by exact_mod_cast hlow)
  have hlt := (Int.lt_zpow_iff_log_lt (b := 2) one_lt_two hx).mp (by exact_mod_cast hhigh)
  rw [place, abs_of_pos hx]
  omega

theorem place_mono (digits : ℕ) (hx : 0 < x) (h : x ≤ y) : place digits x ≤ place digits y := by
  have hlog := Int.log_mono_right (b := 2) hx h
  rw [place, place, abs_of_pos hx, abs_of_pos (hx.trans_le h)]
  omega

/-- A number is rounded to a float less than half a unit in the last place away from it. -/
theorem round_eq_of_near (hdigits : 1 ≤ digits) (hlow : (2 ^ (digits - 1) : ℕ) * (2 : K) ^ e ≤ x)
    (hm : m < 2 ^ digits) (hnear : |x - m * 2 ^ e| < 2 ^ e / 2) : round digits x = m * 2 ^ e := by
  have he := two_zpow_pos (K := K) e
  have hm' : ((m + 1 : ℕ) : K) ≤ (2 ^ digits : ℕ) := Nat.cast_le.mpr hm
  have hhigh : x < (2 ^ digits : ℕ) * (2 : K) ^ e := by
    have hle := mul_le_mul_of_nonneg_right hm' he.le
    rw [Nat.cast_add, Nat.cast_one] at hle
    linarith [(abs_lt.mp hnear).2]
  have hnearest : nearest (x / 2 ^ e) = (m : ℤ) := by
    refine nearest_eq ?_
    have hscale : x / 2 ^ e - ((m : ℤ) : K) = (x - m * 2 ^ e) / 2 ^ e := by
      rw [Int.cast_natCast, sub_div, mul_div_cancel_right₀ _ he.ne']
    rw [hscale, abs_div, abs_of_pos he, div_lt_iff₀ he]
    linarith
  rw [round_eq, place_eq hdigits hlow hhigh, hnearest, Int.cast_natCast]

omit [IsStrictOrderedRing K] in
/-- A float is a whole number of units of a place that is not above its own. -/
theorem exists_mul_eq {e' : ℤ} (h : e ≤ e') (m : ℕ) :
    ∃ k : ℕ, (m : K) * 2 ^ e' = k * 2 ^ e := by
  obtain ⟨n, hn⟩ := Int.eq_ofNat_of_zero_le (sub_nonneg.mpr h)
  refine ⟨m * 2 ^ n, ?_⟩
  have he' : e' = (n : ℤ) + e := by omega
  rw [he', zpow_add₀ two_ne_zero, zpow_natCast]
  push_cast
  ring

section Normal

theorem Normal.pos (h : Normal digits y m e) : 0 < y := by
  have hm : 0 < m := lt_of_lt_of_le (by positivity) h.lower
  rw [h.eq]
  exact mul_pos (Nat.cast_pos.mpr hm) (two_zpow_pos e)

variable (hdigits : 1 ≤ digits)
include hdigits

theorem Normal.place_eq (h : Normal digits y m e) : place digits y = e := by
  have he := two_zpow_pos (K := K) e
  refine Rounding.place_eq hdigits ?_ ?_
  · rw [h.eq]
    exact mul_le_mul_of_nonneg_right (Nat.cast_le.mpr h.lower) he.le
  · rw [h.eq]
    exact mul_lt_mul_of_pos_right (Nat.cast_lt.mpr h.upper) he

/-- Rounding keeps a normal float. -/
theorem Normal.round_self (h : Normal digits y m e) : round digits y = y := by
  have he := two_zpow_pos (K := K) e
  conv_rhs => rw [h.eq]
  refine round_eq_of_near hdigits ?_ h.upper ?_
  · rw [h.eq]
    exact mul_le_mul_of_nonneg_right (Nat.cast_le.mpr h.lower) he.le
  · rw [h.eq, sub_self, abs_zero]
    exact half_pos he

/-- A number is rounded to a normal float. -/
theorem exists_normal_round (hx : 0 < x) : ∃ m e, Normal digits (round digits x) m e := by
  obtain ⟨hlow, hhigh⟩ := place_spec hdigits hx
  have he := two_zpow_pos (K := K) (place digits x)
  have hlow' : ((2 ^ (digits - 1) : ℕ) : ℤ) ≤ nearest (x / 2 ^ place digits x) := by
    rw [← nearest_intCast (K := K) ((2 ^ (digits - 1) : ℕ) : ℤ)]
    refine nearest_mono ?_
    rwa [Int.cast_natCast, le_div_iff₀ he]
  have hhigh' : nearest (x / 2 ^ place digits x) ≤ ((2 ^ digits : ℕ) : ℤ) := by
    rw [← nearest_intCast (K := K) ((2 ^ digits : ℕ) : ℤ)]
    refine nearest_mono ?_
    rw [Int.cast_natCast, div_le_iff₀ he]
    exact hhigh.le
  obtain ⟨m, hm⟩ := Int.eq_ofNat_of_zero_le (le_trans (Int.natCast_nonneg _) hlow')
  rw [hm] at hlow' hhigh'
  rw [round_eq, hm, Int.cast_natCast]
  cases (Int.ofNat_le.mp hhigh').lt_or_eq with
  | inl hlt => exact ⟨m, _, Int.ofNat_le.mp hlow', hlt, rfl⟩
  | inr heq =>
      -- The digits overflow, and the float is a power of two.
      refine ⟨2 ^ (digits - 1), place digits x + 1, le_rfl, ?_, ?_⟩
      · exact Nat.pow_lt_pow_right one_lt_two (by omega)
      · rw [heq, pow_pred hdigits, zpow_add_one₀ two_ne_zero]
        push_cast
        ring

theorem round_mono (hx : 0 < x) (h : x ≤ y) : round digits x ≤ round digits y := by
  have hy := hx.trans_le h
  have hxe := two_zpow_pos (K := K) (place digits x)
  have hye := two_zpow_pos (K := K) (place digits y)
  cases (place_mono digits hx h).lt_or_eq with
  | inr heq =>
      rw [round_eq, round_eq, heq]
      have hnearest : nearest (x / 2 ^ place digits y) ≤ nearest (y / 2 ^ place digits y) :=
        nearest_mono (div_le_div_of_nonneg_right h hye.le)
      exact mul_le_mul_of_nonneg_right (Int.cast_le.mpr hnearest) hye.le
  | inl hlt =>
      -- The end of the place of `x` is not above the start of that of `y`.
      have hxle : (nearest (x / 2 ^ place digits x) : K) ≤ (2 ^ digits : ℕ) := by
        have hmono := nearest_mono (div_le_div_of_nonneg_right (place_spec hdigits hx).2.le hxe.le)
        rw [mul_div_cancel_right₀ _ hxe.ne', ← Int.cast_natCast, nearest_intCast] at hmono
        exact_mod_cast hmono
      have hyle : ((2 ^ (digits - 1) : ℕ) : K) ≤ nearest (y / 2 ^ place digits y) := by
        have hmono := nearest_mono (div_le_div_of_nonneg_right (place_spec hdigits hy).1 hye.le)
        rw [mul_div_cancel_right₀ _ hye.ne', ← Int.cast_natCast, nearest_intCast] at hmono
        exact_mod_cast hmono
      have hpow : (2 : K) ^ (place digits x + 1) ≤ 2 ^ place digits y :=
        zpow_le_zpow_right₀ one_le_two hlt
      rw [zpow_add_one₀ two_ne_zero] at hpow
      rw [round_eq, round_eq]
      calc (nearest (x / 2 ^ place digits x) : K) * 2 ^ place digits x
          ≤ (2 ^ digits : ℕ) * 2 ^ place digits x := mul_le_mul_of_nonneg_right hxle hxe.le
        _ = (2 ^ (digits - 1) : ℕ) * (2 ^ place digits x * 2) := by
            rw [pow_pred hdigits]
            push_cast
            ring
        _ ≤ (2 ^ (digits - 1) : ℕ) * 2 ^ place digits y :=
            mul_le_mul_of_nonneg_left hpow (Nat.cast_nonneg _)
        _ ≤ nearest (y / 2 ^ place digits y) * 2 ^ place digits y :=
            mul_le_mul_of_nonneg_right hyle hye.le

/-- The relative error is at most `2 ^ -digits`. -/
theorem abs_round_sub_le (hx : 0 < x) :
    |round digits x - x| ≤ x / (2 ^ digits : ℕ) := by
  have he := two_zpow_pos (K := K) (place digits x)
  have hlow := (place_spec hdigits hx).1
  have herror : |round digits x - x| ≤ 2 ^ place digits x / 2 := by
    have hscale : round digits x - x =
        (nearest (x / 2 ^ place digits x) - x / 2 ^ place digits x) * 2 ^ place digits x := by
      rw [round_eq, sub_mul, div_mul_cancel₀ _ he.ne']
    have hnearest := abs_sub_nearest_le (x / 2 ^ place digits x)
    rw [hscale, abs_mul, abs_of_pos he, abs_sub_comm]
    linarith [mul_le_mul_of_nonneg_right hnearest he.le]
  refine herror.trans ?_
  rw [le_div_iff₀ (Nat.cast_pos.mpr (by positivity)), pow_pred hdigits]
  push_cast at hlow ⊢
  linarith

/-- The numbers up to `2 ^ digits` have floats in every place. -/
theorem round_natCast_mul {k : ℕ} (hpos : 0 < k) (hk : k ≤ 2 ^ digits) (e : ℤ) :
    round digits ((k : K) * 2 ^ e) = k * 2 ^ e := by
  have hx : (0 : K) < k * 2 ^ e := mul_pos (Nat.cast_pos.mpr hpos) (two_zpow_pos e)
  obtain ⟨hlow, hhigh⟩ := place_spec hdigits hx
  cases hk.lt_or_eq with
  | inr heq =>
      have hlast : (k : K) * 2 ^ e = (2 ^ (digits - 1) : ℕ) * 2 ^ (e + 1) := by
        rw [heq, pow_pred hdigits, zpow_add_one₀ two_ne_zero]
        push_cast
        ring
      rw [hlast]
      exact (Normal.mk le_rfl (Nat.pow_lt_pow_right one_lt_two (by omega)) rfl).round_self hdigits
  | inl hlt =>
      -- The last place of the number is not above `e`.
      have hplace : place digits ((k : K) * 2 ^ e) ≤ e := by
        by_contra hnot
        have hpow : (2 : K) ^ (e + 1) ≤ 2 ^ place digits ((k : K) * 2 ^ e) :=
          zpow_le_zpow_right₀ one_le_two (by omega)
        rw [zpow_add_one₀ two_ne_zero] at hpow
        have hbound := (mul_le_mul_of_nonneg_left hpow (Nat.cast_nonneg _)).trans hlow
        have hk' : ((k : ℕ) : K) < (2 ^ digits : ℕ) := Nat.cast_lt.mpr hlt
        rw [pow_pred hdigits] at hk'
        push_cast at hk' hbound
        have he := two_zpow_pos (K := K) e
        nlinarith
      obtain ⟨n, hn⟩ := Int.eq_ofNat_of_zero_le (sub_nonneg.mpr hplace)
      have hwhole : (k : K) * 2 ^ e / 2 ^ place digits ((k : K) * 2 ^ e) =
          ((k * 2 ^ n : ℕ) : ℤ) := by
        rw [mul_div_assoc, ← zpow_sub₀ two_ne_zero, hn]
        push_cast
        rw [zpow_natCast]
      rw [round_eq, hwhole, nearest_intCast, ← hwhole, div_mul_cancel₀]
      exact (two_zpow_pos _).ne'

theorem round_pos (hx : 0 < x) : 0 < round digits x := by
  obtain ⟨m, e, hnormal⟩ := exists_normal_round hdigits hx
  exact hnormal.pos

/-! ## Neighbours -/

/-- A number less than one and a half units above a float is rounded to the next one at most. -/
theorem Normal.round_le (h : Normal digits y m e) (hx : 0 < x)
    (hlt : x < (m + 3 / 2) * 2 ^ e) : round digits x ≤ (m + 1) * 2 ^ e := by
  have he := two_zpow_pos (K := K) e
  have hnext : round digits (((m + 1 : ℕ) : K) * 2 ^ e) = ((m + 1 : ℕ) : K) * 2 ^ e :=
    round_natCast_mul hdigits m.succ_pos h.upper e
  push_cast at hnext
  by_cases hle : x ≤ (m + 1) * 2 ^ e
  · rw [← hnext]
    exact round_mono hdigits hx hle
  · rw [not_le] at hle
    have hlower : ((2 ^ (digits - 1) : ℕ) : K) ≤ m := Nat.cast_le.mpr h.lower
    cases (Nat.succ_le_of_lt h.upper).lt_or_eq with
    | inl hroom =>
        refine le_of_eq ?_
        have hnear := round_eq_of_near (m := m + 1) (e := e) (x := x) hdigits ?_ hroom ?_
        · rw [hnear, Nat.cast_add, Nat.cast_one]
        · nlinarith
        · push_cast
          rw [abs_of_pos (by linarith)]
          linarith
    | inr hfull =>
        -- The next float has the last place of the next power of two.
        have hm : (m : K) + 1 = 2 * (2 ^ (digits - 1) : ℕ) := by
          have hm' : m + 1 = 2 * 2 ^ (digits - 1) := hfull.trans (pow_pred hdigits)
          exact_mod_cast hm'
        have hdouble : (2 : K) ^ (e + 1) = 2 ^ e * 2 := zpow_add_one₀ two_ne_zero e
        have hnear :=
          round_eq_of_near (m := 2 ^ (digits - 1)) (e := e + 1) (x := x) hdigits ?_ ?_ ?_
        · rw [hnear, hdouble, hm]
          linarith
        · rw [hdouble]
          rw [hm] at hle
          linarith
        · exact Nat.pow_lt_pow_right one_lt_two (by omega)
        · rw [hm] at hle
          have hlt' : x < (2 * (2 ^ (digits - 1) : ℕ) + 1 / 2) * 2 ^ e := by
            rw [← hm]
            linarith
          rw [hdouble, abs_of_pos (by linarith)]
          linarith

/-- A number less than one and a half units below a float is rounded to the one before it at
least. -/
theorem Normal.le_round (h : Normal digits y m e) (hm : 2 ^ (digits - 1) + 2 ≤ m)
    (hlt : (m - 3 / 2) * 2 ^ e < x) : (m - 1) * 2 ^ e ≤ round digits x := by
  have he := two_zpow_pos (K := K) e
  have hlower : ((2 ^ (digits - 1) : ℕ) : K) + 2 ≤ m := by exact_mod_cast hm
  have hpos : 0 < 2 ^ (digits - 1) := Nat.two_pow_pos _
  have hpred : ((m - 1 : ℕ) : K) = m - 1 := by
    rw [Nat.cast_sub (by omega), Nat.cast_one]
  have hhalf : (0 : K) ≤ (2 ^ (digits - 1) : ℕ) := Nat.cast_nonneg _
  by_cases hle : (m - 1) * 2 ^ e ≤ x
  · have hround : round digits (((m - 1 : ℕ) : K) * 2 ^ e) = ((m - 1 : ℕ) : K) * 2 ^ e :=
      round_natCast_mul hdigits (by omega) (by have := h.upper; omega) e
    rw [hpred] at hround
    rw [← hround]
    exact round_mono hdigits (mul_pos (by linarith) he) hle
  · rw [not_le] at hle
    have hnear := round_eq_of_near (m := m - 1) (e := e) (x := x) hdigits ?_ ?_ ?_
    · rw [hnear, hpred]
    · nlinarith
    · have := h.upper
      omega
    · rw [hpred, abs_of_neg (by linarith)]
      linarith

/-- A float of a lower place is below the floats of a place. -/
theorem Normal.lt_of_place_lt {e' : ℤ} (h : Normal digits y m e) (he : e < e') :
    y < (2 ^ (digits - 1) : ℕ) * 2 ^ e' := by
  have hpow : (2 : K) ^ (e + 1) ≤ 2 ^ e' := zpow_le_zpow_right₀ one_le_two he
  rw [zpow_add_one₀ two_ne_zero] at hpow
  have hm : (m : K) < (2 ^ digits : ℕ) := Nat.cast_lt.mpr h.upper
  have hhalf : (0 : K) ≤ (2 ^ (digits - 1) : ℕ) := Nat.cast_nonneg _
  rw [pow_pred hdigits, Nat.cast_mul, Nat.cast_ofNat] at hm
  rw [h.eq]
  calc (m : K) * 2 ^ e < 2 * (2 ^ (digits - 1) : ℕ) * 2 ^ e :=
        mul_lt_mul_of_pos_right hm (two_zpow_pos e)
    _ = (2 ^ (digits - 1) : ℕ) * (2 ^ e * 2) := by ring
    _ ≤ (2 ^ (digits - 1) : ℕ) * 2 ^ e' := mul_le_mul_of_nonneg_left hpow hhalf

section Gaps

variable {p r : K} {m' : ℕ} {e' : ℤ}

/-- Above a float there is none for one unit in its last place. -/
theorem Normal.add_one_le (hp : Normal digits p m e) (hr : Normal digits r m' e') (h : p < r) :
    (m + 1) * 2 ^ e ≤ r := by
  have he := two_zpow_pos (K := K) e
  by_cases hplace : e ≤ e'
  · obtain ⟨k, hk⟩ := exists_mul_eq (K := K) hplace m'
    rw [hp.eq, hr.eq, hk, mul_lt_mul_iff_left₀ he, Nat.cast_lt] at h
    rw [hr.eq, hk]
    exact mul_le_mul_of_nonneg_right (by exact_mod_cast h) he.le
  · have hlow : ((2 ^ (digits - 1) : ℕ) : K) * 2 ^ e ≤ p := by
      rw [hp.eq]
      exact mul_le_mul_of_nonneg_right (Nat.cast_le.mpr hp.lower) he.le
    linarith [hr.lt_of_place_lt hdigits (lt_of_not_ge hplace)]

/-- Below a float there is none for one unit, unless it is a power of two. -/
theorem Normal.le_sub_one (hr : Normal digits r m e) (hp : Normal digits p m' e') (h : p < r)
    (hm : 2 ^ (digits - 1) < m) : p ≤ (m - 1) * 2 ^ e := by
  have he := two_zpow_pos (K := K) e
  by_cases hplace : e ≤ e'
  · obtain ⟨k, hk⟩ := exists_mul_eq (K := K) hplace m'
    rw [hr.eq, hp.eq, hk, mul_lt_mul_iff_left₀ he, Nat.cast_lt] at h
    have hle : (k : K) + 1 ≤ m := by exact_mod_cast h
    rw [hp.eq, hk]
    exact mul_le_mul_of_nonneg_right (by linarith) he.le
  · have hle : ((2 ^ (digits - 1) : ℕ) : K) + 1 ≤ m := by exact_mod_cast hm
    have hpred : ((2 ^ (digits - 1) : ℕ) : K) ≤ m - 1 := by linarith
    have hmul := mul_le_mul_of_nonneg_right hpred he.le
    linarith [hp.lt_of_place_lt hdigits (lt_of_not_ge hplace)]

end Gaps

/-! ## Harmonic means -/

/-- Doubling a float is exact. -/
theorem round_mul_two (h : Normal digits y m e) : round digits (y * 2) = y * 2 := by
  have hdouble : Normal digits (y * 2) m (e + 1) :=
    ⟨h.lower, h.upper, by rw [h.eq, zpow_add_one₀ two_ne_zero, mul_assoc]⟩
  exact hdouble.round_self hdigits

section Quotient

variable {a b z : K} (ha : 0 < a) (hb : 0 < b) (hz : 0 < z)
include ha hb hz

/-- A bound for a quotient of rounded numbers. -/
theorem rounded_quotient_lt
    (h : a * 2 * ((2 ^ digits : ℕ) + 1) < z * b * ((2 ^ digits : ℕ) - 1)) :
    round digits a * 2 / round digits b < z := by
  have hN : (0 : K) < (2 ^ digits : ℕ) := Nat.cast_pos.mpr (by positivity)
  have hroundA := (abs_le.mp (abs_round_sub_le hdigits ha)).2
  have hroundB := (abs_le.mp (abs_round_sub_le hdigits hb)).1
  rw [le_div_iff₀ hN] at hroundA
  rw [neg_le, le_div_iff₀ hN] at hroundB
  rw [div_lt_iff₀ (round_pos hdigits hb), ← mul_lt_mul_iff_left₀ hN]
  have hscaled := mul_le_mul_of_nonneg_left hroundB hz.le
  linarith

theorem lt_rounded_quotient
    (h : z * b * ((2 ^ digits : ℕ) + 1) < a * 2 * ((2 ^ digits : ℕ) - 1)) :
    z < round digits a * 2 / round digits b := by
  have hN : (0 : K) < (2 ^ digits : ℕ) := Nat.cast_pos.mpr (by positivity)
  have hroundA := (abs_le.mp (abs_round_sub_le hdigits ha)).1
  have hroundB := (abs_le.mp (abs_round_sub_le hdigits hb)).2
  rw [neg_le, le_div_iff₀ hN] at hroundA
  rw [le_div_iff₀ hN] at hroundB
  rw [lt_div_iff₀ (round_pos hdigits hb), ← mul_lt_mul_iff_left₀ hN]
  have hscaled := mul_le_mul_of_nonneg_left hroundB hz.le
  linarith

end Quotient

end Normal

/-- The harmonic mean of two floats, in floating-point arithmetic. -/
def harmonicMean (digits : ℕ) (p r : K) : K :=
  round digits (round digits (round digits (r * p) * (2 : ℕ)) / round digits (r + p))

omit [IsStrictOrderedRing K] in
theorem harmonicMean_comm (digits : ℕ) (p r : K) :
    harmonicMean digits p r = harmonicMean digits r p := by
  rw [harmonicMean, harmonicMean, mul_comm r p, add_comm r p]

section HarmonicMean

variable {p r : K} {m' : ℕ} {e' : ℤ}

/-- The product is doubled exactly. -/
theorem harmonicMean_eq (hdigits : 1 ≤ digits) (hp : 0 < p) (hr : 0 < r) :
    harmonicMean digits p r =
      round digits (round digits (r * p) * 2 / round digits (r + p)) := by
  obtain ⟨m, e, hnormal⟩ := exists_normal_round hdigits (mul_pos hr hp)
  rw [harmonicMean, Nat.cast_ofNat, round_mul_two hdigits hnormal]

variable (hdigits : 3 ≤ digits)
include hdigits

theorem eight_le_pow : (8 : K) ≤ (2 ^ digits : ℕ) := by
  have hpow : 2 ^ 3 ≤ 2 ^ digits := Nat.pow_le_pow_right two_pos hdigits
  exact_mod_cast hpow

/-- The sum of two equal floats is exact. -/
theorem quotient_self (h : Normal digits y m e) :
    round digits (y * y) * 2 / round digits (y + y) = round digits (y * y) / y := by
  have hy := h.pos
  rw [← mul_two y, round_mul_two (by omega) h, mul_div_mul_right _ _ two_ne_zero]

/-- The square of a float is rounded by less than a unit in its last place, times the float. -/
theorem abs_round_square_sub_le (h : Normal digits y m e) :
    |round digits (y * y) - y * y| ≤ 2 ^ e * y := by
  have hN := eight_le_pow (K := K) hdigits
  have hy := h.pos
  have hm : (m : K) + 1 ≤ (2 ^ digits : ℕ) := by exact_mod_cast h.upper
  have hle : y ≤ 2 ^ e * (2 ^ digits : ℕ) := by
    rw [h.eq, mul_comm]
    exact mul_le_mul_of_nonneg_left (by linarith) (two_zpow_pos e).le
  refine (abs_round_sub_le (by omega) (mul_pos hy hy)).trans ?_
  rw [div_le_iff₀ (by linarith)]
  have hmul := mul_le_mul_of_nonneg_left hle hy.le
  linarith

/-- A bound for the quotient when the larger float is `m` units of its last place, and the mean
is not more than `w` such units. -/
theorem quotient_lt (hp : 0 < p) (hr : 0 < r) {w : K} (hmean : r * p * 2 ≤ (r + p) * (w * 2 ^ e))
    (hbound : w * ((2 ^ digits : ℕ) + 1) < ((m : K) + 3 / 2) * ((2 ^ digits : ℕ) - 1)) :
    round digits (r * p) * 2 / round digits (r + p) < (m + 3 / 2) * 2 ^ e := by
  have hN := eight_le_pow (K := K) hdigits
  have hq := two_zpow_pos (K := K) e
  have hm : (0 : K) ≤ m := Nat.cast_nonneg m
  have hadd := add_pos hr hp
  refine rounded_quotient_lt (by omega) (mul_pos hr hp) hadd (mul_pos (by linarith) hq) ?_
  have hscaled := mul_lt_mul_of_pos_left hbound (mul_pos hadd hq)
  have hmean' := mul_le_mul_of_nonneg_right hmean (by linarith : (0 : K) ≤ (2 ^ digits : ℕ) + 1)
  linarith

theorem harmonicMean_le (hp : Normal digits p m' e') (hr : Normal digits r m e) (hle : p ≤ r) :
    harmonicMean digits p r ≤ (m + 1) * 2 ^ e := by
  have hone : 1 ≤ digits := by omega
  have hN := eight_le_pow (K := K) hdigits
  have hq := two_zpow_pos (K := K) e
  have hp0 := hp.pos
  have hr0 := hr.pos
  have hm : (m : K) + 1 ≤ (2 ^ digits : ℕ) := by exact_mod_cast hr.upper
  have hm0 : (0 : K) ≤ m := Nat.cast_nonneg m
  have hadd := add_pos hr0 hp0
  rw [harmonicMean_eq hone hp0 hr0]
  refine hr.round_le hone ?_ ?_
  · exact div_pos (mul_pos (round_pos hone (mul_pos hr0 hp0)) two_pos) (round_pos hone hadd)
  cases hle.lt_or_eq with
  | inr heq =>
      subst heq
      have hround := (abs_le.mp (abs_round_square_sub_le hdigits hr)).2
      have hexact : p * p = m * 2 ^ e * p := by rw [← hr.eq]
      have hqp := mul_pos hq hp0
      rw [quotient_self hdigits hr, div_lt_iff₀ hr0]
      linarith
  | inl hlt =>
      by_cases hpower : 2 ^ (digits - 1) < m
      · -- The mean is at most the arithmetic one.
        refine quotient_lt hdigits hp0 hr0 (w := m - 1 / 2) ?_ (by nlinarith)
        have hgap := hr.le_sub_one hone hp hlt hpower
        have hsquare := sq_nonneg (r - p)
        have hsum : r + p ≤ (2 * m - 1) * 2 ^ e := by
          have hreq := hr.eq
          linarith
        have hprod := mul_le_mul_of_nonneg_left hsum hadd.le
        nlinarith
      · have hmin : (m : K) * 2 = (2 ^ digits : ℕ) := by
          have heq : m = 2 ^ (digits - 1) := le_antisymm (not_lt.mp hpower) hr.lower
          have hdouble : m * 2 = 2 ^ digits := by rw [heq, pow_pred hone, mul_comm]
          exact_mod_cast hdouble
        refine quotient_lt hdigits hp0 hr0 (w := m) ?_ (by nlinarith)
        rw [← hr.eq]
        nlinarith

/-- A bound for the quotient when the smaller float is `m` units of its last place. -/
theorem lt_quotient (hp : Normal digits p m e) (hr : Normal digits r m' e') (hlt : p < r) {w : K}
    (hw : 0 < w) (hbound : w * m * ((2 ^ digits : ℕ) + 1) <
      (m + 1) * (2 * m * ((2 ^ digits : ℕ) - 1) - w * ((2 ^ digits : ℕ) + 1))) :
    w * 2 ^ e < round digits (r * p) * 2 / round digits (r + p) := by
  have hone : 1 ≤ digits := by omega
  have hN := eight_le_pow (K := K) hdigits
  have hq := two_zpow_pos (K := K) e
  have hm0 : (0 : K) ≤ m := Nat.cast_nonneg m
  refine lt_rounded_quotient hone (mul_pos hr.pos hp.pos) (add_pos hr.pos hp.pos)
    (mul_pos hw hq) ?_
  have hgap := hp.add_one_le hone hr hlt
  have hfactor : 0 < 2 * m * ((2 ^ digits : ℕ) - 1) - w * ((2 ^ digits : ℕ) + 1) := by
    refine (mul_pos_iff_of_pos_left (by linarith : (0 : K) < m + 1)).mp ?_
    have hleft : 0 ≤ w * m * ((2 ^ digits : ℕ) + 1) := by positivity
    linarith
  have hgap' := mul_le_mul_of_nonneg_right hgap hfactor.le
  have hbound' := mul_lt_mul_of_pos_right hbound hq
  have hr' : w * m * ((2 ^ digits : ℕ) + 1) * 2 ^ e <
      r * (2 * m * ((2 ^ digits : ℕ) - 1) - w * ((2 ^ digits : ℕ) + 1)) := by linarith
  have hscaled := mul_lt_mul_of_pos_right hr' hq
  rw [hp.eq]
  linarith

theorem le_harmonicMean (hp : Normal digits p m e) (hr : Normal digits r m' e') (hle : p ≤ r) :
    (m - 1) * 2 ^ e ≤ harmonicMean digits p r := by
  have hone : 1 ≤ digits := by omega
  have hN := eight_le_pow (K := K) hdigits
  have hq := two_zpow_pos (K := K) e
  have hhalf : 2 ^ 2 ≤ 2 ^ (digits - 1) := Nat.pow_le_pow_right two_pos (by omega)
  have hm4 : 4 ≤ m := hhalf.trans hp.lower
  have hm4' : (4 : K) ≤ m := by exact_mod_cast hm4
  have hm : (m : K) + 1 ≤ (2 ^ digits : ℕ) := by exact_mod_cast hp.upper
  have hpred : ((m - 1 : ℕ) : K) = m - 1 := by
    rw [Nat.cast_sub (by omega), Nat.cast_one]
  have hround : round digits (((m : K) - 1) * 2 ^ e) = (m - 1) * 2 ^ e := by
    rw [← hpred]
    exact round_natCast_mul hone (by omega) (by have := hp.upper; omega) e
  have hz : (0 : K) < (m - 1) * 2 ^ e := mul_pos (by linarith) hq
  rw [harmonicMean_eq hone hp.pos hr.pos]
  cases hle.lt_or_eq with
  | inr heq =>
      subst heq
      rw [← hround, quotient_self hdigits hp]
      refine round_mono hone hz ?_
      have herror := (abs_le.mp (abs_round_square_sub_le hdigits hp)).1
      have hexact : p * p = m * 2 ^ e * p := by rw [← hp.eq]
      rw [le_div_iff₀ hp.pos]
      linarith
  | inl hlt =>
      by_cases hsmall : 4 * (m : K) ≤ 3 * (2 ^ digits : ℕ)
      · rw [← hround]
        refine round_mono hone hz (lt_quotient hdigits hp hr hlt (by linarith) ?_).le
        nlinarith
      · -- The float is far enough from the power of two below it.
        refine hp.le_round hone ?_ (lt_quotient hdigits hp hr hlt (by linarith) ?_)
        · have hsmall' : 3 * 2 ^ digits < 4 * m := by exact_mod_cast not_le.mp hsmall
          have hdouble := pow_pred hone
          omega
        · nlinarith

/-- The harmonic mean of two floats is at most one unit in the last place out of their
interval. -/
theorem harmonicMean_mem (hp : Normal digits p m e) (hr : Normal digits r m' e') :
    min p r - 2 ^ place digits (min p r) ≤ harmonicMean digits p r ∧
      harmonicMean digits p r ≤ max p r + 2 ^ place digits (max p r) := by
  have hone : 1 ≤ digits := by omega
  cases le_total p r with
  | inl hle =>
      have hlow := le_harmonicMean hdigits hp hr hle
      have hhigh := harmonicMean_le hdigits hp hr hle
      rw [sub_mul, one_mul, ← hp.eq] at hlow
      rw [add_mul, one_mul, ← hr.eq] at hhigh
      rw [min_eq_left hle, max_eq_right hle, hp.place_eq hone, hr.place_eq hone]
      exact ⟨hlow, hhigh⟩
  | inr hle =>
      have hlow := le_harmonicMean hdigits hr hp hle
      have hhigh := harmonicMean_le hdigits hr hp hle
      rw [sub_mul, one_mul, ← hr.eq] at hlow
      rw [add_mul, one_mul, ← hp.eq] at hhigh
      rw [harmonicMean_comm, min_eq_right hle, max_eq_left hle, hp.place_eq hone,
        hr.place_eq hone]
      exact ⟨hlow, hhigh⟩

end HarmonicMean

end Hachee.Foundation.Rounding
