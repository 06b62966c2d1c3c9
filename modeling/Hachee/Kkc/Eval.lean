import Hachee.Algorithm.LongestCommonSubsequence
import Hachee.Lisp.Number

/-!
# The evaluation of conversions (`hachee.kkc.eval`)

The outputs of the converter are compared with the gold texts by the lengths of their
longest common subsequences.  The f-measure divides by the sum of the precision and the
recall, which is zero when no pair of the list has a character counted
(`evalByLcs_isSome_iff`).

The factor `1.0d0` makes the measures double-floats, so the f-measure is a rounded harmonic
mean.  It may lie outside of the interval between the precision and the recall, but not by more
than a unit in the last place (`evalByLcs_measures`).
-/

namespace Hachee.Kkc.Eval

open Lisp (Str divide divide_of_ne_zero)
open Lisp.DoubleFloat (ofRational mul add div unit div_of_ne_zero)
open Algorithm.LongestCommonSubsequence (computeLength computeLength_bounds Shares)
open Foundation.Rounding (Normal exists_normal_round round_mono harmonicMean harmonicMean_mem)

/-! ## The code -/

/-- `len-gold`, `len-lcs` and `len-sys`. -/
structure Lengths where
  lenGold : Nat
  lenLcs : Nat
  lenSys : Nat

/-- A turn of the loop. -/
def addPair (lengths : Lengths) (goldSys : Str × Str) : Option Lengths := do
  let length ← computeLength goldSys.1 goldSys.2
  some ⟨lengths.lenGold + goldSys.1.length, lengths.lenLcs + length,
    lengths.lenSys + goldSys.2.length⟩

/-- The values after the loop: the f-measure, the precision and the recall. -/
def measures (lengths : Lengths) : Option (Rat × Rat × Rat) := do
  let quotient ← divide (lengths.lenLcs : Rat) lengths.lenSys
  let precision := mul 1 (ofRational quotient)
  let quotient ← divide (lengths.lenLcs : Rat) lengths.lenGold
  let recall' := mul 1 (ofRational quotient)
  let fMeasure ← div (mul (mul recall' precision) 2) (add recall' precision)
  some (fMeasure, precision, recall')

/-- `eval-by-lcs` -/
def evalByLcs (goldSysList : List (Str × Str)) : Option (Rat × Rat × Rat) := do
  let lengths ← goldSysList.foldlM addPair ⟨0, 0, 0⟩
  measures lengths

/-! ## The sums -/

/-- What the sums are for the pairs so far. -/
structure Summed (goldSysList : List (Str × Str)) (lengths : Lengths) : Prop where
  le_gold : lengths.lenLcs ≤ lengths.lenGold
  le_sys : lengths.lenLcs ≤ lengths.lenSys
  pos_iff : 0 < lengths.lenLcs ↔ ∃ pair ∈ goldSysList, Shares pair.1 pair.2

theorem addPair_summed {goldSysList : List (Str × Str)} {lengths : Lengths}
    (h : Summed goldSysList lengths) (pair : Str × Str) :
    ∃ lengths', addPair lengths pair = some lengths' ∧
      Summed (goldSysList ++ [pair]) lengths' := by
  obtain ⟨n, hn, hgold, hsys, hpos⟩ := computeLength_bounds pair.1 pair.2
  refine ⟨_, by rw [addPair, hn]; rfl, ?_⟩
  constructor
  · exact Nat.add_le_add h.le_gold hgold
  · exact Nat.add_le_add h.le_sys hsys
  · show 0 < lengths.lenLcs + n ↔ _
    rw [Nat.add_pos_iff_pos_or_pos, h.pos_iff, hpos]
    simp [or_and_right, exists_or]

theorem foldlM_addPair_summed (goldSysList : List (Str × Str)) :
    ∃ lengths, goldSysList.foldlM addPair ⟨0, 0, 0⟩ = some lengths ∧
      Summed goldSysList lengths := by
  induction goldSysList using List.reverseRecOn with
  | nil => exact ⟨_, rfl, by constructor <;> simp⟩
  | append_singleton goldSysList pair ih =>
      obtain ⟨lengths, hloop, hsummed⟩ := ih
      obtain ⟨lengths', hstep, hsummed'⟩ := addPair_summed hsummed pair
      refine ⟨lengths', ?_, hsummed'⟩
      rw [List.foldlM_append, hloop]
      simpa using hstep

/-! ## The measures -/

/-- What the measures are, up to the rounding of the f-measure. -/
structure Measured (fMeasure precision recall' : Rat) : Prop where
  precision_mem : 0 ≤ precision ∧ precision ≤ 1
  recall_mem : 0 ≤ recall' ∧ recall' ≤ 1
  le_fMeasure : min precision recall' - unit (min precision recall') ≤ fMeasure
  fMeasure_le : fMeasure ≤ max precision recall' + unit (max precision recall')

section Measures

variable {lenGold lenLcs lenSys : Nat} {p r : Rat} {m m' : Nat} {e e' : Int}

/-- The factor `1.0d0` changes the type only. -/
theorem mul_one_ofRational {x : Rat} (hx : 0 < x) : mul 1 (ofRational x) = ofRational x := by
  obtain ⟨m, e, hnormal⟩ := exists_normal_round (by decide : 1 ≤ 53) hx
  rw [mul, one_mul]
  exact hnormal.round_self (by decide)

/-- A part of a positive length, as a double-float. -/
theorem quotient_mem {part whole : Nat} (hpos : 0 < part) (hle : part ≤ whole) :
    divide (part : Rat) whole = some ((part : Rat) / whole) ∧
      0 < (part : Rat) / whole ∧ ofRational ((part : Rat) / whole) ≤ 1 := by
  have hwhole : (0 : Rat) < whole := Nat.cast_pos.mpr (hpos.trans_le hle)
  have hquotient : (0 : Rat) < part / whole := div_pos (Nat.cast_pos.mpr hpos) hwhole
  refine ⟨divide_of_ne_zero _ hwhole.ne', hquotient, ?_⟩
  have hone : ofRational 1 = 1 := by
    have hround := Foundation.Rounding.round_natCast_mul (K := Rat) (by decide : 1 ≤ 53)
      Nat.one_pos (by decide) 0
    simpa [ofRational] using hround
  rw [← hone]
  refine round_mono (by decide) hquotient ?_
  rw [div_le_one hwhole]
  exact Nat.cast_le.mpr hle

/-- The last operations are the rounded harmonic mean. -/
theorem div_eq_harmonicMean (hp : Normal 53 p m e) (hr : Normal 53 r m' e') :
    div (mul (mul r p) 2) (add r p) = some (harmonicMean 53 p r) := by
  have hsum : 0 < add r p :=
    Foundation.Rounding.round_pos (by decide) (add_pos hr.pos hp.pos)
  exact div_of_ne_zero _ hsum.ne'

theorem measures_zero : measures ⟨lenGold, 0, lenSys⟩ = none := by
  have hdivide : ∀ b : Rat, divide 0 b = none ∨ divide 0 b = some 0 := by
    intro b
    unfold divide
    split
    · exact .inl rfl
    · exact .inr (by rw [zero_div])
  rw [measures, Nat.cast_zero]
  cases hdivide lenSys with
  | inl h => rw [h]; rfl
  | inr h =>
      cases hdivide lenGold with
      | inl h' => rw [h, h']; rfl
      | inr h' =>
          rw [h, h']
          simp

theorem measures_eq (hlcs : 0 < lenLcs) (hgold : lenLcs ≤ lenGold) (hsys : lenLcs ≤ lenSys) :
    measures ⟨lenGold, lenLcs, lenSys⟩ =
      some (harmonicMean 53 (ofRational (lenLcs / lenSys)) (ofRational (lenLcs / lenGold)),
        ofRational (lenLcs / lenSys), ofRational (lenLcs / lenGold)) := by
  obtain ⟨hprecision, hp0, -⟩ := quotient_mem hlcs hsys
  obtain ⟨hrecall, hr0, -⟩ := quotient_mem hlcs hgold
  obtain ⟨m, e, hp⟩ := exists_normal_round (by decide : 1 ≤ 53) hp0
  obtain ⟨m', e', hr⟩ := exists_normal_round (by decide : 1 ≤ 53) hr0
  rw [measures, hprecision, hrecall]
  simp only [Option.bind_eq_bind, Option.bind_some]
  rw [mul_one_ofRational hp0, mul_one_ofRational hr0]
  exact congrArg (Option.bind · _) (div_eq_harmonicMean hp hr)

theorem measures_measured (hlcs : 0 < lenLcs) (hgold : lenLcs ≤ lenGold) (hsys : lenLcs ≤ lenSys) :
    ∃ fMeasure precision recall',
      measures ⟨lenGold, lenLcs, lenSys⟩ = some (fMeasure, precision, recall') ∧
        Measured fMeasure precision recall' := by
  obtain ⟨-, hp0, hp1⟩ := quotient_mem hlcs hsys
  obtain ⟨-, hr0, hr1⟩ := quotient_mem hlcs hgold
  obtain ⟨m, e, hp⟩ := exists_normal_round (by decide : 1 ≤ 53) hp0
  obtain ⟨m', e', hr⟩ := exists_normal_round (by decide : 1 ≤ 53) hr0
  obtain ⟨hlow, hhigh⟩ := harmonicMean_mem (by decide) hp hr
  exact ⟨_, _, _, measures_eq hlcs hgold hsys, ⟨hp.pos.le, hp1⟩, ⟨hr.pos.le, hr1⟩, hlow, hhigh⟩

end Measures

/-! ## Lists of pairs -/

/-- The measures of a list that has a character counted. -/
theorem evalByLcs_measures (goldSysList : List (Str × Str))
    (h : ∃ pair ∈ goldSysList, Shares pair.1 pair.2) :
    ∃ fMeasure precision recall', evalByLcs goldSysList = some (fMeasure, precision, recall') ∧
      Measured fMeasure precision recall' := by
  obtain ⟨⟨lenGold, lenLcs, lenSys⟩, hloop, hsummed⟩ := foldlM_addPair_summed goldSysList
  rw [evalByLcs, hloop]
  exact measures_measured (hsummed.pos_iff.mpr h) hsummed.le_gold hsummed.le_sys

/-- Two texts, of which the second one has nothing counted. -/
theorem evalByLcs_measures_two :
    ∃ fMeasure precision recall',
      evalByLcs [(['今', '日', 'は'], ['今', '日', 'わ', '。']), (['雨'], ['飴'])] =
        some (fMeasure, precision, recall') ∧
      Measured fMeasure precision recall' :=
  evalByLcs_measures _ ⟨_, List.mem_cons_self, by simp [Shares]⟩

/-- A list without one divides by zero. -/
theorem evalByLcs_isSome_iff (goldSysList : List (Str × Str)) :
    (evalByLcs goldSysList).isSome ↔ ∃ pair ∈ goldSysList, Shares pair.1 pair.2 := by
  obtain ⟨⟨lenGold, lenLcs, lenSys⟩, hloop, hsummed⟩ := foldlM_addPair_summed goldSysList
  rw [← hsummed.pos_iff, evalByLcs, hloop]
  show (measures _).isSome ↔ 0 < lenLcs
  cases lenLcs with
  | zero => simp [measures_zero]
  | succ n => simp [measures_eq (Nat.succ_pos n) hsummed.le_gold hsummed.le_sys]

/-- The f-measure is above the precision and the recall for four characters of five counted, and
below them for seventeen of twenty-three. -/
theorem evalByLcs_outside :
    (∃ fMeasure precision recall',
      evalByLcs [(['x', 'a', 'b', 'c', 'd'], ['y', 'a', 'b', 'c', 'd'])] =
        some (fMeasure, precision, recall') ∧ max precision recall' < fMeasure) ∧
    ∃ fMeasure precision recall',
      evalByLcs ((['a', 'b', 'c'], ['d', 'e', 'c']) ::
          List.replicate 4 (['x', 'a', 'b', 'c', 'd'], ['y', 'a', 'b', 'c', 'd'])) =
        some (fMeasure, precision, recall') ∧ fMeasure < min precision recall' := by
  constructor
  · refine ⟨7205759403792795 / 2 ^ 53, 7205759403792794 / 2 ^ 53, 7205759403792794 / 2 ^ 53, ?_, ?_⟩
    · decide +kernel
    · norm_num
  · refine ⟨6657495101330297 / 2 ^ 53, 6657495101330298 / 2 ^ 53, 6657495101330298 / 2 ^ 53, ?_, ?_⟩
    · decide +kernel
    · norm_num

end Hachee.Kkc.Eval
