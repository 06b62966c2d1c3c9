import Mathlib.Algebra.Order.Field.Basic
import Hachee.LanguageModel.Ngram.Probability

/-!
# N-gram models

An n-gram model is a table of counts with one weight for each order.  A class
model counts the classes of the tokens instead, and next to the n-grams it
counts every token and every class, so that the probability of a token is that
of its class times its share of the class.

The weights are exact numbers.  The default weights of the source are floating
point numbers, which are taken here as the decimal fractions they are written
as.  The logarithm is a parameter, and need not be there for every number.
-/

namespace Hachee.LanguageModel.Ngram

open Lisp (Table HashTable)
open Probability

variable {K T C : Type} [Field K] [DecidableEq T] [DecidableEq C]

/-! ## The n-gram model -/

/-- `model`. -/
structure Model (K T : Type) where
  freq : Freq T
  weights : List K

/-- The weights of a model made with `weights`. -/
def initialWeights (weights : List K) : List K :=
  match weights with
  | [] => [4 / 5, 1 / 5]
  | w :: ws => w :: ws

/-- A fresh model. -/
def Model.make (T : Type) (weights : List K) : Model K T :=
  { freq := Table.empty, weights := initialWeights weights }

/-- `model-n`. -/
def Model.n (model : Model K T) : Nat := model.weights.length

/-- `model-interpolated-probability`. -/
def modelInterpolatedProbability (model : Model K T) (token : T) (historyTokens : List T) : K :=
  (weightedList model.freq model.weights token historyTokens).sum

/-- `model-add-counts-fn`. -/
def Model.addCounts (BOS EOS : T) (model : Model K T) (sentenceTokens : List T) : Model K T :=
  { model with freq := addNgramCounts model.freq model.n sentenceTokens BOS EOS }

/-- `model-probability`. -/
def modelProbability (model : Model K T) (token : T) (historyTokens : List T) : K :=
  modelInterpolatedProbability model token historyTokens

section Sentence

variable [LinearOrder K] (log : K → Option K)

/-- The loop of `sentence-log-probability` over the positions of the padded sentence. -/
def sumLogs (model : Model K T) (tokens : List T) : List Nat → K → Option K
  | [], sum => some sum
  | currIndex :: rest, sum => do
      let token ← tokens[currIndex]?
      let historyTokens ← Lisp.subseq tokens (currIndex - (model.n - 1)) currIndex
      let p := modelProbability model token historyTokens
      if p = 0 then some (-65535)
      else do
        let logP ← log p
        sumLogs model tokens rest (sum + logP)

/-- `sentence-log-probability`. -/
def sentenceLogProbability (model : Model K T) (sentenceTokens : List T) (BOS EOS : T) :
    Option K :=
  let tokens := extendedTokens sentenceTokens model.n BOS EOS
  sumLogs log model tokens (List.range' (model.n - 1) (tokens.length - (model.n - 1))) 0

variable [IsStrictOrderedRing K]

/-- The quotients of two counts are not negative. -/
theorem getD_conditionalProbability_nonneg (freq : Freq T) (token : T) (historyTokens : List T) :
    0 ≤ (conditionalProbability freq token historyTokens : Option K).getD 0 := by
  rw [conditionalProbability]
  cases getCount freq (historyTokens ++ [token]) with
  | none => exact le_rfl
  | some numer =>
      cases getCount freq historyTokens with
      | none => exact le_rfl
      | some denom => exact div_nonneg (Nat.cast_nonneg numer) (Nat.cast_nonneg denom)

/-- No probability is negative when no weight is. -/
theorem modelProbability_nonneg {model : Model K T} (hweights : ∀ w ∈ model.weights, 0 ≤ w)
    (token : T) (historyTokens : List T) : 0 ≤ modelProbability model token historyTokens := by
  rw [modelProbability, modelInterpolatedProbability]
  generalize model.weights = weights at hweights
  induction weights generalizing historyTokens with
  | nil => exact le_rfl
  | cons w weights ih =>
      rw [weightedList, List.sum_cons]
      refine add_nonneg (mul_nonneg (hweights w List.mem_cons_self) ?_) ?_
      · exact getD_conditionalProbability_nonneg model.freq token historyTokens
      · exact ih historyTokens.tail fun v hv => hweights v (List.mem_cons_of_mem _ hv)

variable {log}

/-- Every position has a token and a history, and only of positive numbers the
logarithm is taken. -/
theorem exists_sumLogs (hlog : ∀ x, 0 < x → ∃ y, log x = some y) {model : Model K T}
    (hweights : ∀ w ∈ model.weights, 0 ≤ w) (tokens : List T) :
    ∀ (is : List Nat) (sum : K), (∀ i ∈ is, i < tokens.length) →
      ∃ r, sumLogs log model tokens is sum = some r
  | [], sum, _ => ⟨sum, rfl⟩
  | i :: is, sum, h => by
      have hi := h i List.mem_cons_self
      rw [sumLogs, List.getElem?_eq_getElem hi,
        Lisp.subseq_of_le (Nat.sub_le _ _) (Nat.le_of_lt hi), Option.bind_eq_bind,
        Option.bind_some, Option.bind_eq_bind, Option.bind_some]
      dsimp only
      split
      next => exact ⟨_, rfl⟩
      next hne =>
        have hnonneg := modelProbability_nonneg hweights tokens[i]
          ((tokens.take i).drop (i - (model.n - 1)))
        obtain ⟨y, hy⟩ := hlog _ (lt_of_le_of_ne hnonneg (Ne.symm hne))
        rw [hy, Option.bind_eq_bind, Option.bind_some]
        exact exists_sumLogs hlog hweights tokens is _ fun j hj => h j (List.mem_cons_of_mem _ hj)

theorem exists_sentenceLogProbability (hlog : ∀ x, 0 < x → ∃ y, log x = some y)
    {model : Model K T} (hweights : ∀ w ∈ model.weights, 0 ≤ w) (sentenceTokens : List T)
    (BOS EOS : T) : ∃ r, sentenceLogProbability log model sentenceTokens BOS EOS = some r := by
  refine exists_sumLogs hlog hweights _ _ _ fun i hi => ?_
  rw [List.mem_range'_1] at hi
  omega

end Sentence

/-! ## The class model -/

/-- `classifier`. -/
structure Classifier (T C : Type) where
  toClassMap : HashTable T C

/-- `class-token`.  An unknown token is an error. -/
def classToken (classifier : Classifier T C) (x : T) : Option C :=
  classifier.toClassMap.gethash x

/-- `class-model`. -/
structure ClassModel (K T C : Type) where
  freq : Freq C
  weights : List K
  classifier : Classifier T C
  tokenFreq : Table T Nat
  classTokenFreq : Table C Nat

namespace ClassModel

/-- The n-gram model of the classes. -/
def toModel (model : ClassModel K T C) : Model K C :=
  { freq := model.freq, weights := model.weights }

/-- A fresh class model. -/
def make (weights : List K) (classifier : Classifier T C) : ClassModel K T C :=
  { freq := Table.empty
    weights := initialWeights weights
    classifier := classifier
    tokenFreq := Table.empty
    classTokenFreq := Table.empty }

/-- `add-token-counts` and `add-class-token-counts`. -/
def addTokenCounts {A : Type} [DecidableEq A] (tokenFreq : Table A Nat) (sentenceTokens : List A)
    (EOS : A) : Table A Nat :=
  (sentenceTokens.foldl Table.inchash tokenFreq).inchash EOS

/-- What `model-add-counts-fn` does with one sentence. -/
def addSentence (classBOS classEOS : C) (EOS : T) (model : ClassModel K T C) (tokens : List T) :
    Option (ClassModel K T C) := do
  let classTokens ← tokens.mapM (classToken model.classifier)
  some
    { model with
      freq := addNgramCounts model.freq model.toModel.n classTokens classBOS classEOS
      tokenFreq := addTokenCounts model.tokenFreq tokens EOS
      classTokenFreq := addTokenCounts model.classTokenFreq classTokens classEOS }

/-- `with-model-add-counts` around a loop over the sentences. -/
def addCounts (BOS EOS : T) (model : ClassModel K T C) (sentences : List (List T)) :
    Option (ClassModel K T C) := do
  let classEOS ← classToken model.classifier EOS
  let classBOS ← classToken model.classifier BOS
  sentences.foldlM (addSentence classBOS classEOS EOS) model

/-- `class-token->token-probability`. -/
def tokenProbability (model : ClassModel K T C) (token : T) : Option K := do
  let classTok ← classToken model.classifier token
  match model.tokenFreq.gethash token with
  | some tokenCount => do
      let classCount ← model.classTokenFreq.gethash classTok
      some ((tokenCount : K) / (classCount : K))
  | none => some 0

/-- `class-interpolated-probability`. -/
def classInterpolatedProbability (model : ClassModel K T C) (token : T) (historyTokens : List T) :
    Option K := do
  let classTok ← classToken model.classifier token
  let classHistoryTokens ← historyTokens.mapM (classToken model.classifier)
  some (modelInterpolatedProbability model.toModel classTok classHistoryTokens)

/-- `model-probability` of a class model. -/
def modelProbability (model : ClassModel K T C) (token : T) (historyTokens : List T) :
    Option K := do
  let p ← classInterpolatedProbability model token historyTokens
  let q ← tokenProbability model token
  some (p * q)

end ClassModel

end Hachee.LanguageModel.Ngram
