import Hachee.Corpus
import Hachee.LanguageModel.Vocabulary
import Hachee.LanguageModel.Ngram.Model
import Hachee.Kkc.Impl.Lm.Dictionary

/-!
# Building a language model (`hachee.kkc.impl.lm.build`)

A corpus is a list of files, and a file is its text.  A word that occurs in
enough of the files gets a token of its own in the vocabulary, and all other
words share the token of `UNK`.  The characters of the pronunciations of these
unknown words make a vocabulary and an n-gram model of their own.

The walks over hash tables take the order of the walk as a parameter.
-/

namespace Hachee.Kkc.Impl.Lm.Build

open Lisp (ClPpcre Str Table HashTable WalkOrder readLines split parseInteger)
open LanguageModel (Vocabulary)
open LanguageModel.Ngram (Model ClassModel Classifier)

variable [ClPpcre]

/-! ## Corpora -/

/-- `line-units`. -/
def lineUnits (line : Str) : List Str := Corpus.lineUnits line makeUnit

/-- The units that the loops over the lines of a file meet. -/
def fileUnits (file : Str) : List Str := (readLines file).flatMap lineUnits

/-- `line->sentence`. -/
def lineSentence (vocabulary : Vocabulary) (line : Str) : Option (List Int) :=
  (lineUnits line).mapM fun u => vocabulary.toIntOrUnk (unitToKey u)

/-- The sentences that `do-sentences` meets in the files. -/
def sentences (pathnames : List Str) (vocabulary : Vocabulary) : Option (List (List Int)) :=
  (pathnames.flatMap readLines).mapM (lineSentence vocabulary)

/-! ## Vocabularies -/

/-- `build-vocabulary`.  Of the words that occur once, the first that is met has to
stand for the unknown ones. -/
def buildVocabulary (order : WalkOrder) (pathnames : List Str) : Vocabulary :=
  let wordKeyFreq := (pathnames.flatMap fileUnits).foldl
    (fun freq word => freq.inchash (unitToKey word)) Table.empty
  (wordKeyFreq.maphash order
    (fun state wordKey count =>
      if 1 < count ∨ state.2 = true then (state.1.addNew wordKey, state.2) else (state.1, true))
    (Vocabulary.make, false)).1

/-- `curr-words` and `curr-prons`: the words of one file, each once. -/
def currWords (units : List Str) : Table Str Str :=
  units.foldl (fun words unit => words.puthash (unitToKey unit) unit) Table.empty

/-- What the walk over the words of one file does with a word: it is counted, and
added to the vocabulary when it was met in `overlap` files. -/
def countWord (overlap : Nat) (state : Vocabulary × Table Str Nat) (wordKey word : Str) :
    Vocabulary × Table Str Nat :=
  if overlap ≤ ((state.2.inchash wordKey).gethash wordKey).getD 0 then
    (state.1.addNew (unitToKey word), state.2.inchash wordKey)
  else (state.1, state.2.inchash wordKey)

/-- The walk over the words of one file. -/
def addOverlapping (order : WalkOrder) (overlap : Nat) (state : Vocabulary × Table Str Nat)
    (units : List Str) : Vocabulary × Table Str Nat :=
  (currWords units).maphash order (countWord overlap) state

/-- The vocabulary of the words that occur in `overlap` of the files. -/
def overlapVocabulary (order : WalkOrder) (overlap : Nat) (files : List (List Str)) : Vocabulary :=
  (files.foldl (addOverlapping order overlap) (Vocabulary.make, Table.empty)).1

/-- `build-vocabulary-with-unk`. -/
def buildVocabularyWithUnk (order : WalkOrder) (pathnames : List Str) (overlap : Nat) :
    Option Vocabulary :=
  if overlap ≤ pathnames.length then
    some (overlapVocabulary order overlap (pathnames.map fileUnits))
  else none

/-- `extend-existing-vocabulary`. -/
def extendExistingVocabulary (vocabulary : Vocabulary) (trustedWordDictionary : Dictionary)
    (pathnamesInaccuratelySegmented : List Str) : Vocabulary :=
  (pathnamesInaccuratelySegmented.flatMap fileUnits).foldl
    (fun vocabulary unit =>
      if trustedWordDictionary.containsP unit then vocabulary.addNew (unitToKey unit)
      else vocabulary)
    vocabulary

/-! ## Dictionaries -/

/-- `build-word-dictionary`. -/
def buildWordDictionary (pathnames : List Str) (vocabulary : Vocabulary) : Dictionary :=
  (pathnames.flatMap fileUnits).foldl
    (fun dict unit =>
      if (vocabulary.toIntOrNil (unitToKey unit)).isSome then dict.addEntry unit .vocabulary
      else dict.addEntry unit .corpus)
    Dictionary.make

/-- `add-to-word-dictionary-from-resources`. -/
def addToWordDictionaryFromResources (dict : Dictionary) (pathnames : List Str) :
    Option Dictionary :=
  (pathnames.flatMap readLines).foldlM
    (fun dict line =>
      match split '/' line with
      | [form, _, pron] => some (dict.addEntry (makeUnit form pron) .resource)
      | _ => none)
    dict

/-! ## Models -/

/-- The two kinds of models a kkc is built with. -/
inductive NgramModel (K : Type) where
  | model (model : Model K Int)
  | classModel (model : ClassModel K Int Int)

section Models

variable {K : Type} [Field K]

omit [Field K] in
/-- `train-ngram-model`. -/
def trainNgramModel (model : NgramModel K) (pathnames : List Str) (vocabulary : Vocabulary) :
    Option (NgramModel K) := do
  let BOS ← vocabulary.toInt Vocabulary.BOS
  let EOS ← vocabulary.toInt Vocabulary.EOS
  let tokens ← sentences pathnames vocabulary
  match model with
  | .model model => some (.model (tokens.foldl (Model.addCounts BOS EOS) model))
  | .classModel model => do
      let model ← ClassModel.addCounts BOS EOS model tokens
      some (.classModel model)

/-- The units of a file that are not in the vocabulary. -/
def unknownUnits (vocabulary : Vocabulary) (file : Str) : List Str :=
  (fileUnits file).filter fun unit => (vocabulary.toIntOrNil (unitToKey unit)).isNone

/-- The characters of the unknown words of a file. -/
def unknownPronUnits (vocabulary : Vocabulary) (file : Str) : Option (List Str) := do
  let pronUnits ← (unknownUnits vocabulary file).mapM unitToPronUnits
  some pronUnits.flatten

/-- `build-unknown-word-vocabulary`. -/
def buildUnknownWordVocabulary (order : WalkOrder) (pathnames : List Str)
    (vocabulary : Vocabulary) (overlap : Nat) : Option Vocabulary := do
  let files ← pathnames.mapM (unknownPronUnits vocabulary)
  some (overlapVocabulary order overlap files)

/-- `pron->sentence`, and `string->sentence` of the conversion. -/
def pronSentence (unknownWordCharVocabulary : Vocabulary) (pron : Str) : Option (List Int) :=
  pron.mapM fun ch => unknownWordCharVocabulary.toIntOrUnk (unitToKey (makeUnit [ch] [ch]))

/-- The sentence of an unknown word. -/
def unknownSentence (unknownWordVocabulary : Vocabulary) (unit : Str) : Option (List Int) := do
  let pron ← unitPron unit
  pronSentence unknownWordVocabulary pron

/-- `build-unknown-word-ngram-model`. -/
def buildUnknownWordNgramModel (pathnames : List Str) (vocabulary : Vocabulary)
    (unknownWordVocabulary : Vocabulary) : Option (Model K Int) := do
  let BOS ← unknownWordVocabulary.toInt Vocabulary.BOS
  let EOS ← unknownWordVocabulary.toInt Vocabulary.EOS
  let tokens ← (pathnames.flatMap (unknownUnits vocabulary)).mapM
    (unknownSentence unknownWordVocabulary)
  some (tokens.foldl (Model.addCounts BOS EOS) (Model.make Int []))

end Models

/-! ## Classifiers -/

/-- The token of the second field of a class file. -/
def classFileToken (vocabulary : Vocabulary) (formPronString : Str) : Option Int :=
  if formPronString = "UT".toList then vocabulary.toInt Vocabulary.UNK
  else if formPronString = "BT".toList then vocabulary.toInt Vocabulary.BOS
  else
    let forms := (split '-' formPronString).map fun x => (split '/' x).head?.getD []
    let prons := (split '-' formPronString).map fun x => (split '/' x)[1]?.getD []
    vocabulary.toInt (unitToKey (makeUnit forms.flatten prons.flatten))

/-- One line of a class file. -/
def addClassLine (vocabulary : Vocabulary) (toClassMap : HashTable Int Int) (line : Str) :
    Option (HashTable Int Int) :=
  match split ' ' line with
  | [classTokenString, formPronString] => do
      let classToken ← parseInteger classTokenString
      let token ← classFileToken vocabulary formPronString
      some (toClassMap.puthash token classToken)
  | _ => none

/-- `build-classifier`. -/
def buildClassifier (classTokenToWordFile : Str) (vocabulary : Vocabulary) :
    Option (Classifier Int Int) := do
  let toClassMap ← (readLines classTokenToWordFile).foldlM (addClassLine vocabulary) HashTable.empty
  let EOS ← vocabulary.toInt Vocabulary.EOS
  some ⟨toClassMap.puthash EOS vocabulary.size⟩

end Hachee.Kkc.Impl.Lm.Build
