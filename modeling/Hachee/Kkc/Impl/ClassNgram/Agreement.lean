import Mathlib.Tactic.NormNum
import Hachee.LanguageModel.Ngram.ClassCounts
import Hachee.Kkc.Impl.Lm.Dump
import Hachee.Kkc.Impl.ClassNgram.Read

/-!
# The class n-gram engine agrees with the language model

The engine reads the tables that a trained class model has dumped.  It finds the
counts of the model (`ReadBack`), and its probability of a token is that of the
model.

The model divides the count of a token by the count of its class, and the engine
divides it by the n-gram count of the class.  These are the same but for the
class of `BOS`, whose n-gram count includes the padding.
-/

namespace Hachee.Kkc.Impl.ClassNgram

open Lisp (ClPpcre Str Table HashTable record split readLines writeLines divide divide_of_ne_zero)
open Hachee.LanguageModel.Ngram (Classifier classToken initialWeights addCorpusCounts corpusNgrams
  getCount_addCorpusCounts)
open Hachee.LanguageModel.Ngram.Probability
open Lm.Dump

/-! ## What was written is read -/

section Read

variable [ClPpcre]

theorem readCountLine_countLine (tokens : List Int) (count : Nat) :
    readCountLine (countLine tokens count) = some (tokens, (count : Int)) := by
  have hsplit := Lisp.split_record ',' fun part hpart =>
    ⟨notMem_countPart tokens count (by decide) (by decide) part hpart,
      countPart_ne_nil part hpart⟩
  have htokens : (tokens.map Lisp.princInteger).mapM Lisp.parseInteger = some tokens :=
    Lisp.mapM_map_of_inverse fun t _ => Lisp.parseInteger_princInteger t
  simp only [readCountLine, countLine, hsplit, Lisp.parseInteger_princNat, htokens,
    Option.bind_eq_bind, Option.bind_some]

theorem readWeights_weightsLine (weights : List Rat) :
    readWeights (writeLines [weightsLine weights]) = some weights := by
  have hlines : readLines (writeLines [weightsLine weights]) = [weightsLine weights] :=
    Lisp.readLines_writeLines fun line hline => by
      rw [List.mem_singleton.mp hline]
      exact newline_notMem_weightsLine weights
  have hread : (weights.map Lisp.princRational).mapM Lisp.readRational = some weights :=
    Lisp.mapM_map_of_inverse fun w _ => Lisp.readRational_princRational w
  cases weights with
  | nil =>
      rw [readWeights, hlines]
      exact congrArg (List.mapM Lisp.readRational) (Lisp.split_nil _)
  | cons w weights =>
      have hsplit : split '\t' (weightsLine (w :: weights)) =
          (w :: weights).map Lisp.princRational :=
        Lisp.split_record '\t' fun part hpart => by
          refine ⟨notMem_weightPart (w :: weights) (by decide) (by decide) (by decide)
            part hpart, ?_⟩
          obtain ⟨v, -, hv⟩ := List.mem_map.mp (show part ∈ (w :: weights).map _ from hpart)
          rw [← hv]
          exact Lisp.princRational_ne_nil v
      rw [readWeights, hlines, List.head?_cons, Option.bind_eq_bind, Option.bind_some, hsplit,
        hread]

/-- The counts of a file with one line for each key. -/
theorem readCounts_countLines (es : List (List Int × Nat)) (hnd : (es.map Prod.fst).Nodup) :
    ∃ counts, readCounts (writeLines (es.map fun e => countLine e.1 e.2)) = some counts ∧
      ∀ k c, countGet counts k = some c ↔ ∃ n : Nat, (k, n) ∈ es ∧ (n : Int) = c := by
  have hlines : readLines (writeLines (es.map fun e => countLine e.1 e.2)) =
      es.map fun e => countLine e.1 e.2 :=
    Lisp.readLines_writeLines fun line hline => by
      obtain ⟨e, -, he⟩ := List.mem_map.mp hline
      rw [← he]
      exact newline_notMem_countLine e.1 e.2
  have hentries : (es.map fun e => countLine e.1 e.2).mapM readCountLine =
      some (es.map fun e => (e.1, (e.2 : Int))) :=
    Lisp.mapM_map fun e _ => readCountLine_countLine e.1 e.2
  refine ⟨(es.map fun e => (e.1, (e.2 : Int))).foldl (fun t e => t.puthash e.1 e.2) .empty, ?_, ?_⟩
  · rw [readCounts, hlines, hentries]
    rfl
  · intro k c
    have hnd' : ((es.map fun e => (e.1, (e.2 : Int))).map Prod.fst).Nodup := by
      rwa [List.map_map]
    rw [countGet, HashTable.gethash_foldl_puthash_iff hnd', List.mem_map]
    constructor
    · intro h
      obtain ⟨e, he, heq⟩ := h
      rw [Prod.mk.injEq] at heq
      exact ⟨e.2, by rw [← heq.1]; exact he, heq.2⟩
    · intro h
      obtain ⟨n, hn, rfl⟩ := h
      exact ⟨(k, n), hn, rfl⟩

/-- The n-gram counts of a model are read back. -/
theorem readCounts_dumpNgramCounts (freq : Freq Int) :
    ∃ counts, readCounts (dumpNgramCounts freq) = some counts ∧
      ∀ k, countGet counts k = (getCount freq k).map Int.ofNat := by
  obtain ⟨counts, hread, hiff⟩ :=
    readCounts_countLines (doNgramCounts freq) (Table.nodup_sortedEntries _ _)
  refine ⟨counts, hread, fun k => Option.ext fun c => ?_⟩
  simp only [hiff, Option.map_eq_some_iff, doNgramCounts, Table.mem_sortedEntries_iff]
  rfl

/-- The tables that are read hold the counts of the model. -/
structure ReadBack (trained : LanguageModel.Ngram.ClassModel Rat Int Int)
    (classModel : ClassModel) : Prop where
  ngram : ∀ k, countGet classModel.ngramCounts k = (getCount trained.freq k).map Int.ofNat
  word : ∀ t, countGet classModel.wordCounts [t] = (trained.tokenFreq.gethash t).map Int.ofNat

/-- What a class model dumps is read back. -/
theorem readClassModel_dump (trained : LanguageModel.Ngram.ClassModel Rat Int Int) :
    ∃ classModel, readClassModel (dumpClassModel trained).classNgramCounts
        (dumpClassModel trained).classWordCounts = some classModel ∧
      ReadBack trained classModel := by
  obtain ⟨ngramCounts, hngram, hngramGet⟩ := readCounts_dumpNgramCounts trained.freq
  have hnd : (((doClassModelTokenCount trained.tokenFreq).map fun e => ([e.1], e.2)).map
      Prod.fst).Nodup := by
    have hkeys := Table.nodup_sortedEntries (fun t₁ t₂ : Int => decide (t₁ < t₂)) trained.tokenFreq
    rw [List.map_map]
    have hmap := hkeys.map (f := fun t : Int => [t]) fun t t' h => (List.cons.inj h).1
    rwa [List.map_map] at hmap
  obtain ⟨wordCounts, hword, hwordIff⟩ := readCounts_countLines _ hnd
  rw [List.map_map] at hword
  refine ⟨⟨ngramCounts, wordCounts⟩, ?_, hngramGet, ?_⟩
  · have hword' : readCounts (dumpWordCounts trained.tokenFreq) = some wordCounts := hword
    simp only [readClassModel, dumpClassModel, hngram, hword', Option.bind_eq_bind,
      Option.bind_some]
  · intro t
    refine Option.ext fun c => ?_
    simp only [hwordIff, Option.map_eq_some_iff, doClassModelTokenCount, List.mem_map]
    constructor
    · intro h
      obtain ⟨n, ⟨e, he, heq⟩, hc⟩ := h
      cases heq
      exact ⟨e.2, Table.mem_sortedEntries_iff.mp he, hc⟩
    · intro h
      obtain ⟨n, hn, hc⟩ := h
      exact ⟨n, ⟨(t, n), Table.mem_sortedEntries_iff.mpr hn, rfl⟩, hc⟩

end Read

/-! ## The counts of a token that was met -/

section Trained

variable {BOS EOS : Int} {weights : List Rat} {classifier : Classifier Int Int}
  {sentences : List (List Int)} {trained : LanguageModel.Ngram.ClassModel Rat Int Int}

/-- A token and its class are counted: the class as often among the classes as among
the n-grams. -/
structure Met (trained : LanguageModel.Ngram.ClassModel Rat Int Int) (curr c : Int)
    (wordCount classCount total : Nat) : Prop where
  word_eq : trained.tokenFreq.gethash curr = some wordCount
  class_eq : trained.classTokenFreq.gethash c = some classCount
  ngram_eq : getCount trained.freq [c] = some classCount
  total_eq : getCount trained.freq [] = some total
  class_ne : (classCount : Rat) ≠ 0
  total_ne : (total : Rat) ≠ 0

/-- The class of a token that was counted is another than that of `BOS`, unless the
token is `BOS`. -/
theorem met_of_counted
    (h : LanguageModel.Ngram.ClassModel.addCounts BOS EOS
      (LanguageModel.Ngram.ClassModel.make weights classifier) sentences = some trained)
    (hshare : ∀ t c, classToken classifier t = some c → classToken classifier BOS = some c →
      t = BOS)
    {curr c : Int} {wordCount : Nat} (hne : curr ≠ BOS)
    (hword : trained.tokenFreq.gethash curr = some wordCount)
    (hc : classToken classifier curr = some c) :
    ∃ classCount total, Met trained curr c wordCount classCount total := by
  obtain ⟨cB, cE, classSentences, hcB, hcE, hmap, rfl⟩ :=
    LanguageModel.Ngram.ClassModel.addCounts_eq_some h
  have hcne : c ≠ cB := fun heq => hne (hshare curr c hc (heq ▸ hcB))
  have hn : 1 ≤ (initialWeights weights).length := by
    cases weights with
    | nil => exact Nat.le_add_left 1 1
    | cons w weights => exact Nat.le_add_left 1 _
  -- the sentence in which the token was met
  have hcount := Table.gethash_foldl_inchash_empty curr (sentences.flatMap (· ++ [EOS]))
  rw [hword, eq_comm, Table.tally_eq_some_iff] at hcount
  have hmem : curr ∈ sentences.flatMap (· ++ [EOS]) :=
    List.count_pos_iff.mp (by rw [hcount.1]; exact hcount.2)
  obtain ⟨tokens, htokens, hcurr⟩ := List.mem_flatMap.mp hmem
  obtain ⟨classTokens, hclassTokens, hcmem⟩ :=
    LanguageModel.Ngram.ClassModel.exists_classTokens hcE hmap htokens hcurr hc
  have hpos : 0 < (classSentences.flatMap (· ++ [cE])).count c :=
    List.count_pos_iff.mpr (List.mem_flatMap.mpr ⟨classTokens, hclassTokens, hcmem⟩)
  have htotal : 0 < (corpusNgrams (initialWeights weights).length classSentences cB cE).count [] :=
    List.count_pos_iff.mpr (List.mem_flatMap.mpr
      ⟨classTokens, hclassTokens, LanguageModel.Ngram.nil_mem_eachNgramSubseq⟩)
  refine ⟨_, _, hword, ?_, ?_, ?_, Nat.cast_ne_zero.mpr (Nat.pos_iff_ne_zero.mp hpos),
    Nat.cast_ne_zero.mpr (Nat.pos_iff_ne_zero.mp htotal)⟩
  · rw [Table.gethash_foldl_inchash_empty, Table.tally_eq_some_iff]
    exact ⟨rfl, hpos⟩
  · rw [getCount_addCorpusCounts, LanguageModel.Ngram.count_singleton_corpusNgrams hn hcne,
      Table.tally_eq_some_iff]
    exact ⟨rfl, hpos⟩
  · rw [getCount_addCorpusCounts, Table.tally_eq_some_iff]
    exact ⟨rfl, htotal⟩

/-- Nothing is counted that was not met. -/
theorem count_ne_zero
    (h : LanguageModel.Ngram.ClassModel.addCounts BOS EOS
      (LanguageModel.Ngram.ClassModel.make weights classifier) sentences = some trained)
    {g : List Int} {k : Nat} (hk : getCount trained.freq g = some k) : (k : Rat) ≠ 0 := by
  obtain ⟨cB, cE, classSentences, -, -, -, rfl⟩ :=
    LanguageModel.Ngram.ClassModel.addCounts_eq_some h
  rw [getCount_addCorpusCounts, Table.tally_eq_some_iff] at hk
  exact Nat.cast_ne_zero.mpr (Nat.pos_iff_ne_zero.mp hk.2)

end Trained

/-! ## The two probabilities -/

section Probabilities

variable {trained : LanguageModel.Ngram.ClassModel Rat Int Int} {classModel : ClassModel}
  {curr c : Int} {wordCount classCount total : Nat}

/-- The product of what is inside of the two logarithms. -/
def productOf (classProbability wordProbability : Option Rat) : Option Rat := do
  let p ← classProbability
  let q ← wordProbability
  some (p * q)

theorem ReadBack.wordProbability_eq (hread : ReadBack trained classModel)
    (hmet : Met trained curr c wordCount classCount total) :
    wordProbability classModel ⟨curr, c⟩ = some ((wordCount : Rat) / classCount) := by
  have hword := (hread.word curr).trans (congrArg _ hmet.word_eq)
  have hclass := (hread.ngram [c]).trans (congrArg _ hmet.ngram_eq)
  simp only [Option.map_some, Int.ofNat_eq_natCast] at hword hclass
  simp only [wordProbability, hword, hclass, Option.bind_eq_bind, Option.bind_some,
    Int.cast_natCast]
  exact divide_of_ne_zero _ hmet.class_ne

theorem ReadBack.unigramProbability_eq (hread : ReadBack trained classModel)
    (hmet : Met trained curr c wordCount classCount total) :
    unigramProbability classModel.ngramCounts c = some ((classCount : Rat) / total) := by
  have hclass := (hread.ngram [c]).trans (congrArg _ hmet.ngram_eq)
  have htotal := (hread.ngram []).trans (congrArg _ hmet.total_eq)
  simp only [Option.map_some, Int.ofNat_eq_natCast] at hclass htotal
  simp only [unigramProbability, hclass, htotal, Option.bind_eq_bind, Option.bind_some,
    Int.cast_natCast]
  exact divide_of_ne_zero _ hmet.total_ne

theorem Met.tokenProbability_eq (hmet : Met trained curr c wordCount classCount total)
    (hc : classToken trained.classifier curr = some c) :
    trained.tokenProbability curr = some ((wordCount : Rat) / classCount) := by
  simp only [LanguageModel.Ngram.ClassModel.tokenProbability, hc, hmet.word_eq, hmet.class_eq,
    Option.bind_eq_bind, Option.bind_some]

theorem Met.getD_unigram (hmet : Met trained curr c wordCount classCount total) :
    (conditionalProbability trained.freq c []).getD 0 = (classCount : Rat) / total := by
  have hcond := LanguageModel.Ngram.getD_conditionalProbability (K := Rat) hmet.total_eq c
  rw [List.nil_append, hmet.ngram_eq] at hcond
  exact hcond

/-- The number that a count is read as, with zero for none. -/
theorem ReadBack.getD_eq (hread : ReadBack trained classModel) (g : List Int) :
    (((countGet classModel.ngramCounts g).getD 0 : Int) : Rat) =
      (((getCount trained.freq g).getD 0 : Nat) : Rat) := by
  rw [hread.ngram g]
  cases getCount trained.freq g with
  | none => rfl
  | some n => simp

/-- The engine's product is the probability of the model, for a history of one token. -/
theorem ReadBack.product2gram (hread : ReadBack trained classModel)
    (hmet : Met trained curr c wordCount classCount total) {w₂ w₁ : Rat}
    (hweights : trained.weights = [w₂, w₁]) {prev cp : Int} {k : Nat}
    (hc : classToken trained.classifier curr = some c)
    (hcp : classToken trained.classifier prev = some cp)
    (hk : getCount trained.freq [cp] = some k) (hne : (k : Rat) ≠ 0) :
    ∃ r, productOf (classProbability2gram classModel w₂ w₁ ⟨curr, c⟩ ⟨prev, cp⟩)
        (wordProbability classModel ⟨curr, c⟩) = some r ∧
      trained.modelProbability curr [prev] = some r := by
  have hprev := (hread.ngram [cp]).trans (congrArg _ hk)
  simp only [Option.map_some, Int.ofNat_eq_natCast] at hprev
  have hcond := LanguageModel.Ngram.getD_conditionalProbability (K := Rat) hk c
  refine ⟨(w₂ * ((conditionalProbability trained.freq c [cp]).getD 0) +
    w₁ * ((classCount : Rat) / total)) * ((wordCount : Rat) / classCount), ?_, ?_⟩
  · rw [hcond]
    simp only [productOf, classProbability2gram, hprev, hread.wordProbability_eq hmet,
      hread.unigramProbability_eq hmet, hread.getD_eq, Int.cast_natCast, divide_of_ne_zero _ hne,
      Option.bind_eq_bind, Option.bind_some, List.singleton_append]
  · simp only [LanguageModel.Ngram.ClassModel.modelProbability,
      LanguageModel.Ngram.ClassModel.classInterpolatedProbability, hc, hcp, List.mapM_cons,
      List.mapM_nil, LanguageModel.Ngram.modelInterpolatedProbability,
      LanguageModel.Ngram.ClassModel.toModel, hweights, weightedList, List.tail_cons,
      hmet.getD_unigram, hmet.tokenProbability_eq hc, Option.bind_eq_bind,
      Option.bind_some, Option.pure_def, List.sum_cons, List.sum_nil, add_zero]

/-- The summand of a history of two classes lacks a count where the model lacks it. -/
theorem ReadBack.trigramTerm_eq (hread : ReadBack trained classModel)
    (hpos : ∀ {g : List Int} {k : Nat}, getCount trained.freq g = some k → (k : Rat) ≠ 0)
    (w : Rat) (c cp2 cp1 : Int) :
    trigramTerm w (countGet classModel.ngramCounts [cp2, cp1, c])
        (countGet classModel.ngramCounts [cp2, cp1]) =
      some (w * ((conditionalProbability trained.freq c [cp2, cp1]).getD 0)) := by
  rw [hread.ngram, hread.ngram]
  cases hn : getCount trained.freq [cp2, cp1, c] with
  | none => simp [trigramTerm, conditionalProbability, hn]
  | some n =>
      cases hd : getCount trained.freq [cp2, cp1] with
      | none => simp [trigramTerm, conditionalProbability, hd]
      | some d =>
          simp [trigramTerm, conditionalProbability, hn, hd, divide_of_ne_zero _ (hpos hd)]

/-- The summand of a history of one class that has a count. -/
theorem ReadBack.bigramTerm_eq (hread : ReadBack trained classModel) {k : Nat} {cp : Int}
    (hk : getCount trained.freq [cp] = some k) (hne : (k : Rat) ≠ 0) (w : Rat) (c : Int) :
    bigramTerm w (countGet classModel.ngramCounts [cp, c])
        (countGet classModel.ngramCounts [cp]) =
      some (w * ((conditionalProbability trained.freq c [cp]).getD 0)) := by
  have hcond := LanguageModel.Ngram.getD_conditionalProbability (K := Rat) hk c
  rw [List.singleton_append] at hcond
  rw [hcond, hread.ngram, hread.ngram, hk]
  cases getCount trained.freq [cp, c] with
  | none => simp [bigramTerm]
  | some n => simp [bigramTerm, divide_of_ne_zero _ hne]

/-- The same for a history of two tokens. -/
theorem ReadBack.product3gram (hread : ReadBack trained classModel)
    (hmet : Met trained curr c wordCount classCount total)
    (hpos : ∀ {g : List Int} {k : Nat}, getCount trained.freq g = some k → (k : Rat) ≠ 0)
    {w₃ w₂ w₁ : Rat} (hweights : trained.weights = [w₃, w₂, w₁]) {prev2 cp2 prev1 cp1 : Int}
    {k : Nat} (hc : classToken trained.classifier curr = some c)
    (hcp2 : classToken trained.classifier prev2 = some cp2)
    (hcp1 : classToken trained.classifier prev1 = some cp1)
    (hk : getCount trained.freq [cp1] = some k) :
    ∃ r, productOf (classProbability3gram classModel w₃ w₂ w₁ ⟨curr, c⟩ ⟨prev2, cp2⟩ ⟨prev1, cp1⟩)
        (wordProbability classModel ⟨curr, c⟩) = some r ∧
      trained.modelProbability curr [prev2, prev1] = some r := by
  refine ⟨(w₃ * ((conditionalProbability trained.freq c [cp2, cp1]).getD 0) +
    w₂ * ((conditionalProbability trained.freq c [cp1]).getD 0) +
    w₁ * ((classCount : Rat) / total)) * ((wordCount : Rat) / classCount), ?_, ?_⟩
  · have htrigrams := hread.trigramTerm_eq hpos w₃ c cp2 cp1
    have hbigrams := hread.bigramTerm_eq hk (hpos hk) w₂ c
    simp only [productOf, classProbability3gram, htrigrams, hbigrams,
      hread.wordProbability_eq hmet, hread.unigramProbability_eq hmet, Option.bind_eq_bind,
      Option.bind_some]
  · simp only [LanguageModel.Ngram.ClassModel.modelProbability,
      LanguageModel.Ngram.ClassModel.classInterpolatedProbability, hc, hcp2, hcp1, List.mapM_cons,
      List.mapM_nil, LanguageModel.Ngram.modelInterpolatedProbability,
      LanguageModel.Ngram.ClassModel.toModel, hweights, weightedList, List.tail_cons,
      hmet.getD_unigram, hmet.tokenProbability_eq hc, Option.bind_eq_bind,
      Option.bind_some, Option.pure_def, List.sum_cons, List.sum_nil, add_zero, add_assoc]

end Probabilities

/-! ## The agreement -/

/-- The files of a trained class model are read back, and for every token but `BOS`
that was counted, after a token whose class has a count, the product of the two
probabilities of the engine is the probability of the model. -/
theorem product_eq_modelProbability [ClPpcre] {BOS EOS : Int} {weights : List Rat}
    {classifier : Classifier Int Int} {sentences : List (List Int)}
    {trained : LanguageModel.Ngram.ClassModel Rat Int Int}
    (h : LanguageModel.Ngram.ClassModel.addCounts BOS EOS
      (LanguageModel.Ngram.ClassModel.make weights classifier) sentences = some trained)
    (hshare : ∀ t c, classToken classifier t = some c → classToken classifier BOS = some c →
      t = BOS) :
    ∃ classModel, readClassModel (dumpClassModel trained).classNgramCounts
        (dumpClassModel trained).classWordCounts = some classModel ∧
      (∀ w₂ w₁, weights = [w₂, w₁] →
        readWeights (dumpClassModel trained).classWeights = some [w₂, w₁] ∧
        ∀ curr prev c cp, curr ≠ BOS → (∃ n, trained.tokenFreq.gethash curr = some n) →
          classToken classifier curr = some c → classToken classifier prev = some cp →
            (∃ k, getCount trained.freq [cp] = some k) →
              ∃ r, productOf (classProbability2gram classModel w₂ w₁ ⟨curr, c⟩ ⟨prev, cp⟩)
                  (wordProbability classModel ⟨curr, c⟩) = some r ∧
                trained.modelProbability curr [prev] = some r) ∧
      ∀ w₃ w₂ w₁, weights = [w₃, w₂, w₁] →
        readWeights (dumpClassModel trained).classWeights = some [w₃, w₂, w₁] ∧
        ∀ curr prev2 prev1 c cp2 cp1, curr ≠ BOS → (∃ n, trained.tokenFreq.gethash curr = some n) →
          classToken classifier curr = some c → classToken classifier prev2 = some cp2 →
            classToken classifier prev1 = some cp1 → (∃ k, getCount trained.freq [cp1] = some k) →
              ∃ r, productOf (classProbability3gram classModel w₃ w₂ w₁ ⟨curr, c⟩ ⟨prev2, cp2⟩
                    ⟨prev1, cp1⟩) (wordProbability classModel ⟨curr, c⟩) = some r ∧
                trained.modelProbability curr [prev2, prev1] = some r := by
  obtain ⟨classModel, hclassModel, hread⟩ := readClassModel_dump trained
  have hpos : ∀ {g : List Int} {k : Nat}, getCount trained.freq g = some k → (k : Rat) ≠ 0 :=
    fun hk => count_ne_zero h hk
  have htrained : trained.classifier = classifier ∧ trained.weights = initialWeights weights := by
    obtain ⟨_, _, _, -, -, -, rfl⟩ := LanguageModel.Ngram.ClassModel.addCounts_eq_some h
    exact ⟨rfl, rfl⟩
  have hweights := readWeights_weightsLine trained.weights
  refine ⟨classModel, hclassModel, ?_, ?_⟩
  · intro w₂ w₁ hw
    have hw' : trained.weights = [w₂, w₁] := by rw [htrained.2, hw]; rfl
    refine ⟨hw' ▸ hweights, ?_⟩
    intro curr prev c cp hne hcounted hc hcp hcount
    obtain ⟨n, hn⟩ := hcounted
    obtain ⟨k, hk⟩ := hcount
    obtain ⟨classCount, total, hmet⟩ := met_of_counted h hshare hne hn hc
    rw [← htrained.1] at hc hcp
    exact hread.product2gram hmet hw' hc hcp hk (hpos hk)
  · intro w₃ w₂ w₁ hw
    have hw' : trained.weights = [w₃, w₂, w₁] := by rw [htrained.2, hw]; rfl
    refine ⟨hw' ▸ hweights, ?_⟩
    intro curr prev2 prev1 c cp2 cp1 hne hcounted hc hcp2 hcp1 hcount
    obtain ⟨n, hn⟩ := hcounted
    obtain ⟨k, hk⟩ := hcount
    obtain ⟨classCount, total, hmet⟩ := met_of_counted h hshare hne hn hc
    rw [← htrained.1] at hc hcp2 hcp1
    exact hread.product3gram hmet hpos hw' hc hcp2 hcp1 hk

/-- The classes of four tokens: `1` and `2` around a sentence, and two words of one
class. -/
def wordClassifier : Classifier Int Int :=
  ⟨(((HashTable.empty.puthash 1 1).puthash 2 2).puthash 3 7).puthash 4 7⟩

/-- Each token has its class, and `1` is alone in its class. -/
theorem wordClassifier_share : ∀ t c, classToken wordClassifier t = some c →
    classToken wordClassifier 1 = some c → t = 1 := by
  intro t c ht h1
  have hc : c = 1 := (Option.some.inj h1).symm
  subst hc
  simp only [classToken, wordClassifier, HashTable.gethash_puthash] at ht
  split_ifs at ht with h4 h3 h2 h1
  · cases ht
  · cases ht
  · cases ht
  · exact h1
  · cases ht

/-- Two sentences of two words that share a class. -/
theorem product_eq_modelProbability_word :
    ∃ trained classModel, LanguageModel.Ngram.ClassModel.addCounts 1 2
        (LanguageModel.Ngram.ClassModel.make [(1 / 4 : Rat), 3 / 4] wordClassifier) [[3, 4], [3]] =
          some trained ∧
      readClassModel (dumpClassModel trained).classNgramCounts
        (dumpClassModel trained).classWordCounts = some classModel ∧
      ∃ r, productOf (classProbability2gram classModel (1 / 4) (3 / 4) ⟨4, 7⟩ ⟨3, 7⟩)
          (wordProbability classModel ⟨4, 7⟩) = some r ∧
        trained.modelProbability 4 [3] = some r := by
  have hsome : (LanguageModel.Ngram.ClassModel.addCounts 1 2
      (LanguageModel.Ngram.ClassModel.make [(1 / 4 : Rat), 3 / 4] wordClassifier)
      [[3, 4], [3]]).isSome := by decide
  obtain ⟨trained, htrained⟩ := Option.isSome_iff_exists.mp hsome
  obtain ⟨classModel, hclassModel, h2gram, -⟩ :=
    product_eq_modelProbability htrained wordClassifier_share
  have hword : ∃ n, trained.tokenFreq.gethash 4 = some n := by
    cases htrained
    exact ⟨_, rfl⟩
  have hcount : ∃ k, getCount trained.freq [7] = some k := by
    cases htrained
    exact ⟨_, rfl⟩
  exact ⟨trained, classModel, htrained, hclassModel, (h2gram _ _ rfl).2 4 3 7 7 (by decide)
    hword rfl rfl hcount⟩

/-- A sentence with a `BOS` in it: its class has one more n-gram count than it has
tokens, so the engine's probability is half of the model's. -/
theorem product_ne_modelProbability_BOS :
    ∃ trained classModel, LanguageModel.Ngram.ClassModel.addCounts 1 2
        (LanguageModel.Ngram.ClassModel.make [(1 / 2 : Rat), 1 / 2] wordClassifier) [[1]] =
          some trained ∧
      readClassModel (dumpClassModel trained).classNgramCounts
        (dumpClassModel trained).classWordCounts = some classModel ∧
      (∀ t c, classToken wordClassifier t = some c → classToken wordClassifier 1 = some c →
        t = 1) ∧
      trained.tokenFreq.gethash 1 = some 1 ∧ classToken wordClassifier 1 = some 1 ∧
      getCount trained.freq [1] = some 2 ∧
      productOf (classProbability2gram classModel (1 / 2) (1 / 2) ⟨1, 1⟩ ⟨1, 1⟩)
          (wordProbability classModel ⟨1, 1⟩) = some (3 / 8) ∧
        trained.modelProbability 1 [1] = some (3 / 4) := by
  have hsome : (LanguageModel.Ngram.ClassModel.addCounts 1 2
      (LanguageModel.Ngram.ClassModel.make [(1 / 2 : Rat), 1 / 2] wordClassifier) [[1]]).isSome :=
    by decide
  obtain ⟨trained, htrained⟩ := Option.isSome_iff_exists.mp hsome
  obtain ⟨classModel, hclassModel, hread⟩ := readClassModel_dump trained
  have hcounts : trained.tokenFreq.gethash 1 = some 1 ∧ trained.classTokenFreq.gethash 1 = some 1 ∧
      getCount trained.freq [1] = some 2 ∧ getCount trained.freq [1, 1] = some 1 ∧
        getCount trained.freq [] = some 2 ∧ trained.weights = [1 / 2, 1 / 2] ∧
          trained.classifier = wordClassifier := by
    cases htrained
    exact ⟨rfl, rfl, rfl, rfl, rfl, rfl, rfl⟩
  obtain ⟨hword, hclass, huni, hbi, htotal, hweights, hclassifier⟩ := hcounts
  have hcls : classToken wordClassifier 1 = some 1 := rfl
  refine ⟨trained, classModel, htrained, hclassModel, wordClassifier_share, hword, rfl, huni,
    ?_, ?_⟩
  · norm_num [productOf, classProbability2gram, wordProbability, unigramProbability, hread.ngram,
      hread.word, hword, huni, hbi, htotal, divide]
  · norm_num [LanguageModel.Ngram.ClassModel.modelProbability,
      LanguageModel.Ngram.ClassModel.classInterpolatedProbability,
      LanguageModel.Ngram.ClassModel.tokenProbability, hclassifier, hcls, hword, hclass,
      LanguageModel.Ngram.modelInterpolatedProbability, hweights, weightedList,
      LanguageModel.Ngram.ClassModel.toModel, conditionalProbability, huni, hbi, htotal]

end Hachee.Kkc.Impl.ClassNgram
