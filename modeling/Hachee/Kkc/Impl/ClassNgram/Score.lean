import Hachee.Lisp.Number
import Hachee.Lisp.Sequence

/-!
# Scores of the class n-gram engine (`hachee.kkc.impl.class-ngram`)

The engine works on tables of counts that it has read from files.  A count that
is not in the table is `nil`.  Some of the quotients replace it by zero, and the
others signal an error, as does a division by zero or the logarithm of zero.

The counts and the weights are exact numbers, and the logarithm is a parameter.
What is inside of the logarithms has a name of its own.
-/

namespace Hachee.Kkc.Impl.ClassNgram

open Lisp

/-! ## Arithmetic -/

/-- `(log x)`. -/
def logarithm {R : Type} (log : Rat → R) (x : Rat) : Option R :=
  if x = 0 then none else some (log x)

theorem logarithm_of_ne_zero {R : Type} (log : Rat → R) {x : Rat} (h : x ≠ 0) :
    logarithm log x = some (log x) := if_neg h

/-! ## The class model -/

/-- `word`. -/
structure Word where
  wordId : Int
  classId : Int
deriving DecidableEq, Inhabited

/-- A table of counts. -/
abbrev Counts := HashTable (List Int) Int

/-- `count-get`. -/
def countGet (hash : Counts) (items : List Int) : Option Int := hash.gethash items

/-- `class-model`. -/
structure ClassModel where
  ngramCounts : Counts
  wordCounts : Counts

/-- P(class_curr): the last summand in both logarithms of a class. -/
def unigramProbability (ngramCounts : Counts) (currId : Int) : Option Rat := do
  let curr ← countGet ngramCounts [currId]
  let total ← countGet ngramCounts []
  divide curr total

/-- P(class_curr | class_prev): what is inside of the first logarithm of
`transition-log-probability-2gram`. -/
def classProbability2gram (classModel : ClassModel) (weight2 weight1 : Rat)
    (currWord prevWord : Word) : Option Rat := do
  let prev ← countGet classModel.ngramCounts [prevWord.classId]
  let p ← divide
    (((countGet classModel.ngramCounts [prevWord.classId, currWord.classId]).getD 0 : Int) : Rat)
    prev
  let q ← unigramProbability classModel.ngramCounts currWord.classId
  some (weight2 * p + weight1 * q)

/-- The first summand for a history of two classes: `(if (and n d) (* weight-3 (/ n d)) 0)`. -/
def trigramTerm (weight3 : Rat) (n d : Option Int) : Option Rat :=
  match n, d with
  | some n, some d => do
      let p ← divide (n : Rat) d
      some (weight3 * p)
  | _, _ => some 0

/-- The second summand: `(if n (* weight-2 (/ n d)) 0)`. -/
def bigramTerm (weight2 : Rat) (n d : Option Int) : Option Rat :=
  match n with
  | some n => do
      let d ← d
      let p ← divide (n : Rat) d
      some (weight2 * p)
  | none => some 0

/-- P(class_curr | class_prev2, class_prev1): what is inside of the first
logarithm of `transition-log-probability-3gram`. -/
def classProbability3gram (classModel : ClassModel) (weight3 weight2 weight1 : Rat)
    (currWord prev2Word prev1Word : Word) : Option Rat := do
  let p₃ ← trigramTerm weight3
    (countGet classModel.ngramCounts [prev2Word.classId, prev1Word.classId, currWord.classId])
    (countGet classModel.ngramCounts [prev2Word.classId, prev1Word.classId])
  let p₂ ← bigramTerm weight2
    (countGet classModel.ngramCounts [prev1Word.classId, currWord.classId])
    (countGet classModel.ngramCounts [prev1Word.classId])
  let q ← unigramProbability classModel.ngramCounts currWord.classId
  some (p₃ + p₂ + weight1 * q)

/-- P(word_curr | class_curr): what is inside of the second logarithm. -/
def wordProbability (classModel : ClassModel) (currWord : Word) : Option Rat := do
  let word ← countGet classModel.wordCounts [currWord.wordId]
  let curr ← countGet classModel.ngramCounts [currWord.classId]
  divide word curr

section Log

variable {R : Type} [Add R] (log : Rat → R)

/-- The sum of the logarithms of the two probabilities. -/
def sumOfLogs (classProbability wordProbability : Option Rat) : Option R := do
  let p ← classProbability
  let logP ← logarithm log p
  let q ← wordProbability
  let logQ ← logarithm log q
  some (logP + logQ)

/-- `transition-log-probability-2gram`. -/
def transitionLogProbability2gram (classModel : ClassModel) (weight2 weight1 : Rat)
    (currWord prevWord : Word) : Option R :=
  sumOfLogs log (classProbability2gram classModel weight2 weight1 currWord prevWord)
    (wordProbability classModel currWord)

/-- `transition-log-probability-3gram`. -/
def transitionLogProbability3gram (classModel : ClassModel) (weight3 weight2 weight1 : Rat)
    (currWord prev2Word prev1Word : Word) : Option R :=
  sumOfLogs log
    (classProbability3gram classModel weight3 weight2 weight1 currWord prev2Word prev1Word)
    (wordProbability classModel currWord)

end Log

end Hachee.Kkc.Impl.ClassNgram
