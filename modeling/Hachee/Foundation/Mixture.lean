import Mathlib.Algebra.BigOperators.Field
import Mathlib.Algebra.Order.BigOperators.Group.List
import Mathlib.Analysis.SpecialFunctions.Log.Basic

/-!
# Mixtures, and a step of expectation maximisation

An observation gives a density to each of finitely many components, and weights of the
components mix these to the likelihood of the observation.  The posterior of a component is
its share of this likelihood.  A step of expectation maximisation takes the mean posteriors
of the observations as the new weights.

The observations come in groups here.  The means are taken over each group first and then
over the groups, and the likelihood of a group is the mean of the logarithms.  The step does
not decrease the sum of these likelihoods over the groups (`sum_meanLog_le`): the gain is at
least the relative entropy of the new weights to the old ones (`sum_posterior_mul_log_le`),
which is not negative (`relativeEntropy_nonneg`).
-/

namespace Hachee.Foundation.Mixture

variable {ι : Type*} [Fintype ι]

/-! ## Definitions -/

/-- The likelihood of an observation. -/
noncomputable def mixture (w q : ι → ℝ) : ℝ := ∑ k, w k * q k

/-- The share of a component in the likelihood. -/
noncomputable def posterior (w q : ι → ℝ) (k : ι) : ℝ := w k * q k / mixture w q

/-- The mean posterior over a group of observations. -/
noncomputable def reestimate (w : ι → ℝ) (group : List (ι → ℝ)) (k : ι) : ℝ :=
  (group.map fun q => posterior w q k).sum / group.length

/-- The new weights: the mean over the groups. -/
noncomputable def averaged (w : ι → ℝ) (groups : List (List (ι → ℝ))) (k : ι) : ℝ :=
  (groups.map fun group => reestimate w group k).sum / groups.length

/-- The mean logarithm of the likelihoods of a group. -/
noncomputable def meanLog (w : ι → ℝ) (group : List (ι → ℝ)) : ℝ :=
  (group.map fun q => Real.log (mixture w q)).sum / group.length

/-- Weights: not negative, and with the sum one. -/
structure IsWeights (w : ι → ℝ) : Prop where
  nonneg : ∀ k, 0 ≤ w k
  sum : ∑ k, w k = 1

/-! ## Posteriors -/

section Posterior

variable {w q : ι → ℝ}

theorem posterior_nonneg (hw : ∀ k, 0 ≤ w k) (hq : ∀ k, 0 ≤ q k) (k : ι) :
    0 ≤ posterior w q k :=
  div_nonneg (mul_nonneg (hw k) (hq k)) (Finset.sum_nonneg fun j _ => mul_nonneg (hw j) (hq j))

theorem sum_posterior (hpos : 0 < mixture w q) : ∑ k, posterior w q k = 1 := by
  simp only [posterior]
  rw [← Finset.sum_div]
  exact div_self hpos.ne'

/-- A component with a share has a weight and a density. -/
theorem pos_of_posterior_pos (hw : ∀ k, 0 ≤ w k) (hq : ∀ k, 0 ≤ q k) {k : ι}
    (h : 0 < posterior w q k) : 0 < w k ∧ 0 < q k := by
  have hne : w k * q k ≠ 0 := fun hzero => by simp [posterior, hzero] at h
  exact ⟨(hw k).lt_of_ne' (left_ne_zero_of_mul hne), (hq k).lt_of_ne' (right_ne_zero_of_mul hne)⟩

/-- Some component has a share. -/
theorem exists_posterior_pos (hpos : 0 < mixture w q) : ∃ k, 0 < posterior w q k := by
  obtain ⟨k, -, hk⟩ : ∃ k ∈ Finset.univ, (0 : ℝ) < posterior w q k :=
    Finset.exists_lt_of_sum_lt (by simp [sum_posterior hpos])
  exact ⟨k, hk⟩

end Posterior

/-! ## Two inequalities -/

section Inequalities

variable {v w q : ι → ℝ}

/-- The logarithm of a mean is at least the mean of the logarithms, here for the quotients of
new and old weights. -/
theorem sum_posterior_mul_log_le (hv : ∀ k, 0 ≤ v k) (hw : ∀ k, 0 ≤ w k) (hq : ∀ k, 0 ≤ q k)
    (hpos : 0 < mixture w q) (hsupport : ∀ k, 0 < posterior w q k → 0 < v k) :
    ∑ k, posterior w q k * Real.log (v k / w k) ≤
      Real.log (mixture v q) - Real.log (mixture w q) := by
  have hvpos : 0 < mixture v q := by
    obtain ⟨k, hk⟩ := exists_posterior_pos hpos
    have hqk := (pos_of_posterior_pos hw hq hk).2
    exact Finset.sum_pos' (fun j _ => mul_nonneg (hv j) (hq j))
      ⟨k, Finset.mem_univ k, mul_pos (hsupport k hk) hqk⟩
  have hterm : ∀ k, posterior w q k * Real.log (v k / w k) ≤
      posterior w q k * (Real.log (mixture v q) - Real.log (mixture w q)) +
        (posterior v q k - posterior w q k) := by
    intro k
    rcases (posterior_nonneg hw hq k).eq_or_lt with hzero | hk
    · rw [← hzero]
      simpa using posterior_nonneg hv hq k
    · obtain ⟨hwk, hqk⟩ := pos_of_posterior_pos hw hq hk
      have hvk := hsupport k hk
      -- The quotient of the weights in relation to that of the likelihoods.
      have hlog := Real.log_le_sub_one_of_pos
        (div_pos (div_pos hvk hwk) (div_pos hvpos hpos))
      rw [Real.log_div (div_pos hvk hwk).ne' (div_pos hvpos hpos).ne',
        Real.log_div hvpos.ne' hpos.ne'] at hlog
      have hshare : posterior w q k * (v k / w k / (mixture v q / mixture w q)) =
          posterior v q k := by
        rw [posterior, posterior]
        field_simp
      have hmul := mul_le_mul_of_nonneg_left hlog hk.le
      rw [mul_sub_one, hshare] at hmul
      linarith
  calc ∑ k, posterior w q k * Real.log (v k / w k)
      ≤ ∑ k, (posterior w q k * (Real.log (mixture v q) - Real.log (mixture w q)) +
          (posterior v q k - posterior w q k)) := Finset.sum_le_sum fun k _ => hterm k
    _ = Real.log (mixture v q) - Real.log (mixture w q) := by
      rw [Finset.sum_add_distrib, ← Finset.sum_mul, Finset.sum_sub_distrib, sum_posterior hpos,
        sum_posterior hvpos]
      ring

/-- The relative entropy of two distributions is not negative. -/
theorem relativeEntropy_nonneg (hv : IsWeights v) (hw : IsWeights w)
    (hsupport : ∀ k, 0 < v k → 0 < w k) : 0 ≤ ∑ k, v k * Real.log (v k / w k) := by
  have hterm : ∀ k, v k - w k ≤ v k * Real.log (v k / w k) := by
    intro k
    rcases (hv.nonneg k).eq_or_lt with hzero | hpos
    · rw [← hzero]
      simpa using hw.nonneg k
    · have hwpos := hsupport k hpos
      have hlog := Real.one_sub_inv_le_log_of_pos (div_pos hpos hwpos)
      calc v k - w k = v k * (1 - (v k / w k)⁻¹) := by field_simp
        _ ≤ v k * Real.log (v k / w k) := mul_le_mul_of_nonneg_left hlog hpos.le
  calc (0 : ℝ) = ∑ k, (v k - w k) := by rw [Finset.sum_sub_distrib, hv.sum, hw.sum, sub_self]
    _ ≤ ∑ k, v k * Real.log (v k / w k) := Finset.sum_le_sum fun k _ => hterm k

end Inequalities

/-! ## The new weights -/

section Step

variable {w : ι → ℝ} {groups : List (List (ι → ℝ))}

/-- The observations of a group have no negative density, and a positive likelihood. -/
structure Likely (w : ι → ℝ) (group : List (ι → ℝ)) : Prop where
  nonempty : group ≠ []
  density : ∀ q ∈ group, ∀ k, 0 ≤ q k
  pos : ∀ q ∈ group, 0 < mixture w q

theorem length_pos {α : Type*} {l : List α} (h : l ≠ []) : (0 : ℝ) < l.length :=
  Nat.cast_pos.mpr (List.length_pos_iff.mpr h)

/-- Sums over a list and over the components. -/
theorem sum_map_sum {α : Type*} (f : α → ι → ℝ) (l : List α) :
    (l.map fun a => ∑ k, f a k).sum = ∑ k, (l.map fun a => f a k).sum := by
  induction l with
  | nil => simp
  | cons a l ih =>
      simp only [List.map_cons, List.sum_cons]
      rw [ih, Finset.sum_add_distrib]

theorem sum_map_mul {α : Type*} (f : α → ℝ) (c : ℝ) (l : List α) :
    (l.map fun a => f a * c).sum = (l.map f).sum * c := by
  induction l with
  | nil => simp
  | cons a l ih => simp only [List.map_cons, List.sum_cons, ih, add_mul]

/-- The mean of weights is weights. -/
theorem isWeights_mean {α : Type*} {f : α → ι → ℝ} {l : List α} (hl : l ≠ [])
    (hf : ∀ a ∈ l, IsWeights (f a)) : IsWeights fun k => (l.map fun a => f a k).sum / l.length where
  nonneg := by
    intro k
    refine div_nonneg (List.sum_nonneg fun x hx => ?_) (length_pos hl).le
    obtain ⟨a, ha, rfl⟩ := List.mem_map.mp hx
    exact (hf a ha).nonneg k
  sum := by
    rw [← Finset.sum_div, ← sum_map_sum, List.map_congr_left fun a ha => (hf a ha).sum,
      List.map_const', List.sum_replicate, nsmul_one]
    exact div_self (length_pos hl).ne'

theorem isWeights_reestimate (hw : IsWeights w) {group : List (ι → ℝ)} (h : Likely w group) :
    IsWeights (reestimate w group) :=
  isWeights_mean h.nonempty fun q hq =>
    ⟨posterior_nonneg hw.nonneg (h.density q hq), sum_posterior (h.pos q hq)⟩

theorem isWeights_averaged (hw : IsWeights w) (hne : groups ≠ [])
    (h : ∀ group ∈ groups, Likely w group) : IsWeights (averaged w groups) :=
  isWeights_mean hne fun group hgroup => isWeights_reestimate hw (h group hgroup)

theorem mean_pos {α : Type*} {f : α → ℝ} {l : List α} (hf : ∀ a ∈ l, 0 ≤ f a)
    (hpos : ∃ a ∈ l, 0 < f a) : 0 < (l.map f).sum / l.length := by
  obtain ⟨a, ha, hlt⟩ := hpos
  refine div_pos ?_ (length_pos (List.ne_nil_of_mem ha))
  calc (0 : ℝ) < f a := hlt
    _ ≤ (l.map f).sum := by
      refine List.single_le_sum (fun x hx => ?_) _ (List.mem_map_of_mem ha)
      obtain ⟨b, hb, rfl⟩ := List.mem_map.mp hx
      exact hf b hb

/-- A component with a share in some likelihood has a weight afterwards. -/
theorem averaged_pos (hw : IsWeights w) (h : ∀ group ∈ groups, Likely w group)
    {group : List (ι → ℝ)} (hgroup : group ∈ groups) {q : ι → ℝ} (hq : q ∈ group) {k : ι}
    (hk : 0 < posterior w q k) : 0 < averaged w groups k := by
  refine mean_pos (fun group hgroup => (isWeights_reestimate hw (h group hgroup)).nonneg k)
    ⟨group, hgroup, ?_⟩
  exact mean_pos (fun q hq => posterior_nonneg hw.nonneg ((h group hgroup).density q hq) k)
    ⟨q, hq, hk⟩

/-- A component with a weight afterwards had one before. -/
theorem pos_of_averaged_pos (hw : IsWeights w) {k : ι} (hk : 0 < averaged w groups k) :
    0 < w k := by
  refine (hw.nonneg k).lt_of_ne fun hzero => ?_
  have hposterior : ∀ q : ι → ℝ, posterior w q k = 0 := fun q => by simp [posterior, ← hzero]
  simp [averaged, reestimate, hposterior] at hk

/-- Every likelihood stays positive. -/
theorem likely_averaged (hw : IsWeights w) (h : ∀ group ∈ groups, Likely w group)
    {group : List (ι → ℝ)} (hgroup : group ∈ groups) : Likely (averaged w groups) group where
  nonempty := (h group hgroup).nonempty
  density := (h group hgroup).density
  pos := by
    intro q hq
    have hdensity := (h group hgroup).density q hq
    obtain ⟨k, hk⟩ := exists_posterior_pos ((h group hgroup).pos q hq)
    have hne : groups ≠ [] := List.ne_nil_of_mem hgroup
    exact Finset.sum_pos'
      (fun j _ => mul_nonneg ((isWeights_averaged hw hne h).nonneg j) (hdensity j))
      ⟨k, Finset.mem_univ k, mul_pos (averaged_pos hw h hgroup hq hk)
        (pos_of_posterior_pos hw.nonneg hdensity hk).2⟩

/-- What a group gains. -/
theorem meanLog_add_le (hw : IsWeights w) (h : ∀ group ∈ groups, Likely w group)
    {group : List (ι → ℝ)} (hgroup : group ∈ groups) :
    meanLog w group + ∑ k, reestimate w group k * Real.log (averaged w groups k / w k) ≤
      meanLog (averaged w groups) group := by
  have hne : groups ≠ [] := List.ne_nil_of_mem hgroup
  have hgain : ∀ q ∈ group, Real.log (mixture w q) +
      ∑ k, posterior w q k * Real.log (averaged w groups k / w k) ≤
        Real.log (mixture (averaged w groups) q) := by
    intro q hq
    have hle := sum_posterior_mul_log_le (isWeights_averaged hw hne h).nonneg hw.nonneg
      ((h group hgroup).density q hq) ((h group hgroup).pos q hq)
      fun k hk => averaged_pos hw h hgroup hq hk
    linarith
  have hsum : ∑ k, reestimate w group k * Real.log (averaged w groups k / w k) =
      (group.map fun q => ∑ k, posterior w q k * Real.log (averaged w groups k / w k)).sum /
        group.length := by
    rw [sum_map_sum, Finset.sum_div]
    refine Finset.sum_congr rfl fun k _ => ?_
    rw [sum_map_mul, reestimate, div_mul_eq_mul_div]
  rw [meanLog, meanLog, hsum, ← add_div, ← List.sum_map_add]
  exact div_le_div_of_nonneg_right (List.sum_le_sum hgain) (length_pos (h group hgroup).nonempty).le

/-- A step does not decrease the likelihood. -/
theorem sum_meanLog_le (hw : IsWeights w) (hne : groups ≠ [])
    (h : ∀ group ∈ groups, Likely w group) :
    (groups.map (meanLog w)).sum ≤ (groups.map (meanLog (averaged w groups))).sum := by
  have hgain : (groups.map fun group =>
      ∑ k, reestimate w group k * Real.log (averaged w groups k / w k)).sum =
        groups.length * ∑ k, averaged w groups k * Real.log (averaged w groups k / w k) := by
    rw [sum_map_sum, Finset.mul_sum]
    refine Finset.sum_congr rfl fun k _ => ?_
    rw [sum_map_mul, ← mul_assoc]
    congr 1
    rw [averaged, mul_div_cancel₀ _ (length_pos hne).ne']
  have hentropy : 0 ≤ ∑ k, averaged w groups k * Real.log (averaged w groups k / w k) :=
    relativeEntropy_nonneg (isWeights_averaged hw hne h) hw fun k hk => pos_of_averaged_pos hw hk
  calc (groups.map (meanLog w)).sum
      ≤ (groups.map (meanLog w)).sum + (groups.map fun group =>
          ∑ k, reestimate w group k * Real.log (averaged w groups k / w k)).sum := by
        rw [hgain]
        exact le_add_of_nonneg_right (mul_nonneg (length_pos hne).le hentropy)
    _ = (groups.map fun group => meanLog w group +
          ∑ k, reestimate w group k * Real.log (averaged w groups k / w k)).sum :=
        List.sum_map_add.symm
    _ ≤ (groups.map (meanLog (averaged w groups))).sum :=
        List.sum_le_sum fun group hgroup => meanLog_add_le hw h hgroup

end Step

end Hachee.Foundation.Mixture
