import Hachee.Senn.Ja
import Hachee.Kkc.Convert.Funcall2gram
import Hachee.Kkc.Impl.Lm.Dump
import Hachee.Kkc.Impl.ClassNgram.Read

/-!
# Conversion with the class n-gram engine (`hachee.kkc.impl.class-ngram`)

An entry of the lattice is a word of the vocabulary, a word of the extended
dictionary, or an unknown word.  The probability of an unknown word is that of its
characters, by an n-gram model of its own.

Every count that is missing where one is needed, every division by zero and every
logarithm of zero is an error here.
-/

namespace Hachee.Kkc.Impl.ClassNgram

open Lisp
open Convert.Funcall2gram (ScoreFn)

variable [ClPpcre]

/-! ## Unknown words -/

/-- `unk-model-empty-p`. -/
def unkModelEmptyP (unkModel : UnkModel) : Option Bool := do
  let total ← countGet unkModel.ngramCounts []
  some (total = 0)

/-- The probability of `unk-model-transition-log-probability`. -/
def unkModelTransitionProbability (unkModel : UnkModel) (currId prevId : Int) : Option Rat := do
  let prev ← countGet unkModel.ngramCounts [prevId]
  let p ← divide (((countGet unkModel.ngramCounts [prevId, currId]).getD 0 : Int) : Rat) prev
  let q ← unigramProbability unkModel.ngramCounts currId
  some (4 / 5 * p + 1 / 5 * q)

section Log

variable {R : Type} [AddCommGroup R] (log : Rat → R)

/-- `unk-model-char-log-probability`. -/
def unkModelCharLogProbability (unkModel : UnkModel) : Option R := do
  let p ← divide 1 unkModel.charSetSize
  logarithm log p

/-- `unk-model-transition-log-probability`. -/
def unkModelTransitionLogProbability (unkModel : UnkModel) (currId prevId : Int) : Option R := do
  let prob ← unkModelTransitionProbability unkModel currId prevId
  logarithm log prob

/-- `rec`: the sum over the characters, and the end of the word. -/
def unkRec (unkVocab : UnkVocab) (unkModel : UnkModel) (unkCharLogProb : R) :
    Int → Str → R → Option R
  | prev, [], sum => do
      let logProb ← unkModelTransitionLogProbability log unkModel unkVocab.eosId prev
      some (sum + logProb)
  | prev, currCh :: string, sum => do
      let curr := (unkVocab.strIdHash.gethash [currCh]).getD unkVocab.unkId
      let logProb ← unkModelTransitionLogProbability log unkModel curr prev
      unkRec unkVocab unkModel unkCharLogProb curr string
        (sum + (logProb + if curr = unkVocab.unkId then unkCharLogProb else 0))

/-- `unk-log-probability`. -/
def unkLogProbability (unkVocab : UnkVocab) (unkModel : UnkModel) (string : Str) : Option R := do
  let unkCharLogProb ← unkModelCharLogProbability log unkModel
  let emptyP ← unkModelEmptyP unkModel
  if emptyP then some (string.length • unkCharLogProb)
  else unkRec log unkVocab unkModel unkCharLogProb unkVocab.bosId string 0

/-! ## Entries -/

/-- The origins of the entries. -/
inductive EntryOrigin where
  | vocab
  | exDict
  | unk
deriving DecidableEq

/-- `convert-entry`.  The entries for the begin and the end have a word only. -/
structure ConvertEntry (R : Type) where
  word : Word
  form : Option Str
  pron : Option Str
  origin : Option EntryOrigin
  unkLogProbability : R

/-- The entry for the begin or the end, `(make-convert-entry :word word)`. -/
def boundaryEntry (word : Word) : ConvertEntry R :=
  { word, form := none, pron := none, origin := none, unkLogProbability := 0 }

/-- `hachee.kkc.impl.class-ngram.ex-dict:entry`. -/
structure ExDictEntry (R : Type) where
  form : Str
  unkLogProbability : R

/-- The entries that are listed for any string: those of the vocabulary and those of
the extended dictionary. -/
def knownEntries (classVocab : ClassVocab) (exDict : HashTable Str (List (ExDictEntry R)))
    (pron : Str) : List (ConvertEntry R) :=
  ((classVocab.entries pron).map fun e =>
      { word := e.word, form := some e.form, pron := some pron, origin := some .vocab,
        unkLogProbability := 0 }) ++
    ((exDict.gethash pron).getD []).map fun e =>
      { word := classVocab.unkWord, form := some e.form, pron := some pron, origin := some .exDict,
        unkLogProbability := e.unkLogProbability }

/-- The entry of an unknown word. -/
def unkEntry (unkWord : Word) (pron : Str) (logProb : R) : ConvertEntry R :=
  { word := unkWord
    form := some (Senn.Ja.hiraganaToKatakana pron)
    pron := some pron
    origin := some .unk
    unkLogProbability := logProb }

/-- `list-convert-entries`. -/
def listConvertEntries (classVocab : ClassVocab) (exDict : HashTable Str (List (ExDictEntry R)))
    (unkVocab : UnkVocab) (unkModel : UnkModel) (pron : Str) : Option (List (ConvertEntry R)) :=
  if pron.length < 8 then do
    let logProb ← unkLogProbability log unkVocab unkModel pron
    some (unkEntry classVocab.unkWord pron logProb ::
      (knownEntries classVocab exDict pron).reverse)
  else some (knownEntries classVocab exDict pron).reverse

/-! ## The engine -/

/-- `kkc` and `kkc-2gram`. -/
structure Kkc2gram (R : Type) where
  classVocab : ClassVocab
  classModel : ClassModel
  unkModel : UnkModel
  unkVocab : UnkVocab
  exDict : HashTable Str (List (ExDictEntry R))
  w2 : Rat
  w1 : Rat

/-- `convert-begin-entry`. -/
def convertBeginEntry (kkc : Kkc2gram R) : ConvertEntry R := boundaryEntry kkc.classVocab.bosWord

/-- `convert-end-entry`. -/
def convertEndEntry (kkc : Kkc2gram R) : ConvertEntry R := boundaryEntry kkc.classVocab.eosWord

/-- `convert-list-entries-fn`. -/
def convertListEntriesFn (kkc : Kkc2gram R) (pron : Str) : Option (List (ConvertEntry R)) :=
  listConvertEntries log kkc.classVocab kkc.exDict kkc.unkVocab kkc.unkModel pron

/-- `convert-score-fn`. -/
def convertScoreFn (kkc : Kkc2gram R) : ScoreFn (ConvertEntry R) R
  | [currEntry, prevEntry] => do
      let logProb ← transitionLogProbability2gram log kkc.classModel kkc.w2 kkc.w1 currEntry.word
        prevEntry.word
      some (logProb + currEntry.unkLogProbability)
  | _ => none

/-- `execute`, the method of the bigram converter. -/
def execute [LinearOrder R] (kkc : Kkc2gram R) (pronunciation : Str)
    (firstBoundaryIndex : Option Nat) :
    Option (List (ConvertEntry R) × Convert.Viterbi2gram.Node (ConvertEntry R) R ×
      Convert.Lattice (Convert.Viterbi2gram.Node (ConvertEntry R) R)) :=
  Convert.Funcall2gram.execute pronunciation (convertBeginEntry kkc) (convertEndEntry kkc)
    (convertScoreFn log kkc) (convertListEntriesFn log kkc) firstBoundaryIndex

end Log

/-! ## Reading -/

/-- `read-kkc` and `read-kkc-2gram`.  The extended dictionary is empty. -/
def readKkc2gram (R : Type) (files : Lm.Dump.Files) : Option (Kkc2gram R) := do
  let weights ← readWeights files.classModel.classWeights
  let classVocab ← readClassVocab files.classVocab
  let classModel ← readClassModel files.classModel.classNgramCounts
    files.classModel.classWordCounts
  let unkVocab ← readUnkVocab files.unkVocab
  let unkModel ← readUnkModel files.unkNgramCounts files.charSetSize
  match weights with
  | [w2, w1] => some { classVocab, classModel, unkModel, unkVocab, exDict := .empty, w2, w1 }
  | _ => none

end Hachee.Kkc.Impl.ClassNgram
