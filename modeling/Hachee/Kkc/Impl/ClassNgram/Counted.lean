import Mathlib.Algebra.Order.Field.Rat
import Mathlib.Tactic.NormNum
import Hachee.Kkc.Impl.ClassNgram.Convert

/-!
# Scores without an error

A table that was read from a file holds how often each n-gram of a corpus occurs
(`CountsOf`), and holds nothing for an n-gram that does not occur.  The score of an
entry is defined when the single classes that it divides by occur.  The probability
of an unknown word is defined when every character that it could have occurs, among
them the one that stands for all characters without an id.
-/

namespace Hachee.Kkc.Impl.ClassNgram

open Lisp (Str Table bind_inv divide divide_of_ne_zero)

/-- What is looked up is how often it occurs. -/
def CountsOf {κ : Type} [BEq κ] (get : κ → Option Int) (items : List κ) : Prop :=
  ∀ k, get k = (Table.tally (items.count k)).map Int.ofNat

section CountsOf

variable {κ : Type} [BEq κ] [LawfulBEq κ] {get : κ → Option Int} {items : List κ} {k : κ}

/-- What occurs has a count. -/
theorem CountsOf.exists_of_mem (h : CountsOf get items) (hk : k ∈ items) :
    ∃ n : Nat, 0 < n ∧ get k = some (n : Int) := by
  have hpos : 0 < items.count k := List.count_pos_iff.mpr hk
  refine ⟨items.count k, hpos, ?_⟩
  rw [h k, Table.tally_eq_some_iff.mpr ⟨rfl, hpos⟩]
  rfl

/-- What has a count occurs. -/
theorem CountsOf.mem_of_get (h : CountsOf get items) {c : Int} (hc : get k = some c) :
    k ∈ items ∧ 0 < c := by
  rw [h k, Option.map_eq_some_iff] at hc
  obtain ⟨n, hn, rfl⟩ := hc
  rw [Table.tally_eq_some_iff] at hn
  exact ⟨List.count_pos_iff.mp (hn.1 ▸ hn.2), Int.ofNat_lt.mpr hn.2⟩

omit [LawfulBEq κ] in
/-- No count is negative. -/
theorem CountsOf.getD_nonneg (h : CountsOf get items) (k : κ) :
    0 ≤ (((get k).getD 0 : Int) : Rat) := by
  rw [h k]
  cases Table.tally (items.count k) with
  | none => simp
  | some n => simp

end CountsOf

/-! ## The class model -/

section ClassModel

variable {classModel : ClassModel} {ngrams : List (List Int)} {tokens : List Int}
  {currWord prevWord : Word}

/-- One count is divided by another without an error. -/
theorem exists_divide_natCast {a b : Nat} (ha : 0 < a) (hb : 0 < b) :
    ∃ q : Rat, 0 < q ∧ divide (a : Rat) b = some q := by
  refine ⟨(a : Rat) / b, div_pos (Nat.cast_pos.mpr ha) (Nat.cast_pos.mpr hb), ?_⟩
  exact divide_of_ne_zero _ (Nat.cast_ne_zero.mpr hb.ne')

theorem exists_unigramProbability {counts : Counts} (h : CountsOf (countGet counts) ngrams)
    {currId : Int} (hcurr : [currId] ∈ ngrams) (hnil : [] ∈ ngrams) :
    ∃ q, 0 < q ∧ unigramProbability counts currId = some q := by
  obtain ⟨curr, hcurrPos, hcurr⟩ := h.exists_of_mem hcurr
  obtain ⟨total, htotalPos, htotal⟩ := h.exists_of_mem hnil
  simp only [unigramProbability, hcurr, htotal, Option.bind_eq_bind, Option.bind_some,
    Int.cast_natCast]
  exact exists_divide_natCast hcurrPos htotalPos

/-- The probability of a class is positive when the weight of its share is. -/
theorem exists_classProbability2gram (h : CountsOf (countGet classModel.ngramCounts) ngrams)
    {w₂ w₁ : Rat} (hw₂ : 0 ≤ w₂) (hw₁ : 0 < w₁) (hcurr : [currWord.classId] ∈ ngrams)
    (hprev : [prevWord.classId] ∈ ngrams) (hnil : [] ∈ ngrams) :
    ∃ p, 0 < p ∧ classProbability2gram classModel w₂ w₁ currWord prevWord = some p := by
  obtain ⟨prev, hprevPos, hprev⟩ := h.exists_of_mem hprev
  obtain ⟨q, hqPos, hq⟩ := exists_unigramProbability h hcurr hnil
  have hne : (prev : Rat) ≠ 0 := Nat.cast_ne_zero.mpr hprevPos.ne'
  have hpair := h.getD_nonneg [prevWord.classId, currWord.classId]
  refine ⟨w₂ * (((countGet classModel.ngramCounts [prevWord.classId, currWord.classId]).getD 0 :
    Int) / (prev : Rat)) + w₁ * q, ?_, ?_⟩
  · have hfirst := mul_nonneg hw₂ (div_nonneg hpair (Nat.cast_nonneg prev))
    have hsecond := mul_pos hw₁ hqPos
    exact add_pos_of_nonneg_of_pos hfirst hsecond
  · simp only [classProbability2gram, hprev, hq, Int.cast_natCast, divide_of_ne_zero _ hne,
      Option.bind_eq_bind, Option.bind_some]

theorem exists_wordProbability (hngram : CountsOf (countGet classModel.ngramCounts) ngrams)
    (hword : CountsOf (fun t => countGet classModel.wordCounts [t]) tokens)
    (hcurr : [currWord.classId] ∈ ngrams)
    (hmet : currWord.wordId ∈ tokens) :
    ∃ q, 0 < q ∧ wordProbability classModel currWord = some q := by
  obtain ⟨word, hwordPos, hword⟩ := hword.exists_of_mem hmet
  obtain ⟨curr, hcurrPos, hcurr⟩ := hngram.exists_of_mem hcurr
  simp only [wordProbability, hword, hcurr, Option.bind_eq_bind, Option.bind_some,
    Int.cast_natCast]
  exact exists_divide_natCast hwordPos hcurrPos

/-- The score is there when the two classes and the word occur. -/
theorem exists_transitionLogProbability2gram {R : Type} [Add R] (log : Rat → R)
    (hngram : CountsOf (countGet classModel.ngramCounts) ngrams)
    (hword : CountsOf (fun t => countGet classModel.wordCounts [t]) tokens) {w₂ w₁ : Rat}
    (hw₂ : 0 ≤ w₂) (hw₁ : 0 < w₁)
    (hcurr : [currWord.classId] ∈ ngrams) (hprev : [prevWord.classId] ∈ ngrams)
    (hnil : [] ∈ ngrams) (hmet : currWord.wordId ∈ tokens) :
    ∃ r, transitionLogProbability2gram log classModel w₂ w₁ currWord prevWord = some r := by
  obtain ⟨p, hpPos, hp⟩ := exists_classProbability2gram hngram hw₂ hw₁ hcurr hprev hnil
  obtain ⟨q, hqPos, hq⟩ := exists_wordProbability hngram hword hcurr hmet
  refine ⟨log p + log q, ?_⟩
  rw [transitionLogProbability2gram, sumOfLogs, hp, hq]
  simp only [logarithm_of_ne_zero log hpPos.ne', logarithm_of_ne_zero log hqPos.ne',
    Option.bind_eq_bind, Option.bind_some]

end ClassModel

/-! ## Unknown words -/

section UnkModel

variable {R : Type} [AddCommGroup R] {log : Rat → R} {unkVocab : UnkVocab} {unkModel : UnkModel}
  {ngrams : List (List Int)}

/-- The two models compute a probability in the same way. -/
theorem unkModelTransitionProbability_eq (unkModel : UnkModel) (currId prevId : Int) :
    unkModelTransitionProbability unkModel currId prevId =
      classProbability2gram ⟨unkModel.ngramCounts, .empty⟩ (4 / 5) (1 / 5) ⟨0, currId⟩
        ⟨0, prevId⟩ := rfl

omit [AddCommGroup R] in
theorem exists_unkModelTransitionLogProbability (log : Rat → R)
    (h : CountsOf (countGet unkModel.ngramCounts) ngrams)
    {currId prevId : Int} (hcurr : [currId] ∈ ngrams) (hprev : [prevId] ∈ ngrams)
    (hnil : [] ∈ ngrams) :
    ∃ r, unkModelTransitionLogProbability log unkModel currId prevId = some r := by
  obtain ⟨p, hpPos, hp⟩ : ∃ p, 0 < p ∧ classProbability2gram ⟨unkModel.ngramCounts, .empty⟩
      (4 / 5) (1 / 5) ⟨0, currId⟩ ⟨0, prevId⟩ = some p :=
    exists_classProbability2gram h (by norm_num) (by norm_num) hcurr hprev hnil
  refine ⟨log p, ?_⟩
  rw [unkModelTransitionLogProbability, unkModelTransitionProbability_eq, hp]
  exact logarithm_of_ne_zero log hpPos.ne'

/-- The id of a character. -/
def UnkVocab.charId (unkVocab : UnkVocab) (ch : Char) : Int :=
  (unkVocab.strIdHash.gethash [ch]).getD unkVocab.unkId

/-- Every step of the recursion goes from an id that occurs to one that occurs. -/
theorem exists_unkRec (h : CountsOf (countGet unkModel.ngramCounts) ngrams) (hnil : [] ∈ ngrams)
    (heos : [unkVocab.eosId] ∈ ngrams) (hchars : ∀ ch, [unkVocab.charId ch] ∈ ngrams)
    (unkCharLogProb : R) (string : Str) {prev : Int} (hprev : [prev] ∈ ngrams) (sum : R) :
    ∃ r, unkRec log unkVocab unkModel unkCharLogProb prev string sum = some r := by
  induction string generalizing prev sum with
  | nil =>
      obtain ⟨logProb, hlogProb⟩ :=
        exists_unkModelTransitionLogProbability log h heos hprev hnil
      exact ⟨sum + logProb, by rw [unkRec, hlogProb]; rfl⟩
  | cons currCh string ih =>
      obtain ⟨logProb, hlogProb⟩ :=
        exists_unkModelTransitionLogProbability log h (hchars currCh) hprev hnil
      obtain ⟨r, hr⟩ := ih (hchars currCh)
        (sum + (logProb + if unkVocab.charId currCh = unkVocab.unkId then unkCharLogProb else 0))
      refine ⟨r, ?_⟩
      rw [unkRec]
      change (do
        let logProb ← unkModelTransitionLogProbability log unkModel (unkVocab.charId currCh) prev
        unkRec log unkVocab unkModel unkCharLogProb (unkVocab.charId currCh) string
          (sum + (logProb +
            if unkVocab.charId currCh = unkVocab.unkId then unkCharLogProb else 0))) = some r
      rw [hlogProb]
      exact hr

theorem exists_unkLogProbability (h : CountsOf (countGet unkModel.ngramCounts) ngrams)
    (hsize : unkModel.charSetSize ≠ 0) (hnil : [] ∈ ngrams) (hbos : [unkVocab.bosId] ∈ ngrams)
    (heos : [unkVocab.eosId] ∈ ngrams) (hchars : ∀ ch, [unkVocab.charId ch] ∈ ngrams)
    (string : Str) : ∃ r, unkLogProbability log unkVocab unkModel string = some r := by
  have hchar : unkModelCharLogProbability log unkModel = some (log (1 / unkModel.charSetSize)) := by
    rw [unkModelCharLogProbability, divide_of_ne_zero 1 hsize]
    exact logarithm_of_ne_zero log (one_div_ne_zero hsize)
  obtain ⟨total, -, htotal⟩ := h.exists_of_mem hnil
  have hempty : unkModelEmptyP unkModel = some (decide ((total : Int) = 0)) := by
    rw [unkModelEmptyP, htotal]
    rfl
  simp only [unkLogProbability, hchar, hempty, Option.bind_eq_bind, Option.bind_some]
  split
  next => exact ⟨_, rfl⟩
  next => exact exists_unkRec h hnil heos hchars _ string hbos 0

/-- A character without an id asks for the count of the id that stands for it. -/
theorem mem_of_unkLogProbability (h : CountsOf (countGet unkModel.ngramCounts) ngrams) {ch : Char}
    (hch : unkVocab.strIdHash.gethash [ch] = none) {r : R}
    (hr : unkLogProbability log unkVocab unkModel [ch] = some r) : [unkVocab.unkId] ∈ ngrams := by
  obtain ⟨unkCharLogProb, -, hr⟩ := bind_inv hr
  obtain ⟨emptyP, hempty, hr⟩ := bind_inv hr
  obtain ⟨total, htotal, hempty⟩ := bind_inv hempty
  have hne : total ≠ 0 := (h.mem_of_get htotal).2.ne'
  rw [← Option.some.inj hempty, decide_eq_false hne, if_neg Bool.false_ne_true, unkRec, hch,
    Option.getD_none] at hr
  obtain ⟨logProb, hlogProb, -⟩ := bind_inv hr
  obtain ⟨prob, hprob, -⟩ := bind_inv hlogProb
  obtain ⟨prev, -, hprob⟩ := bind_inv hprob
  obtain ⟨p, -, hprob⟩ := bind_inv hprob
  obtain ⟨q, hq, -⟩ := bind_inv hprob
  obtain ⟨curr, hcurr, -⟩ := bind_inv hq
  exact (h.mem_of_get hcurr).1

end UnkModel

end Hachee.Kkc.Impl.ClassNgram
