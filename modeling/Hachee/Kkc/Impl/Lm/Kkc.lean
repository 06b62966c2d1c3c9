import Hachee.Senn.Ja
import Hachee.Kkc.Convert.Funcall2gram
import Hachee.Kkc.Impl.Lm.Build
import Hachee.Kkc.Impl.Lm.Dump

/-!
# Conversion with a language model (`hachee.kkc.impl.lm`)

A kkc is built from corpora.  The number of the weights decides its class, and
with it the score function: of two arguments for bigrams, and of three for
trigrams.  Both classes inherit the bigram converter.

The numbers are exact, and the logarithm is a parameter that need not be there for
every number.
-/

set_option linter.dupNamespace false

namespace Hachee.Kkc.Impl.Lm

open Lisp (ClPpcre Str WalkOrder)
open LanguageModel (Vocabulary)
open LanguageModel.Ngram (Model ClassModel modelProbability sentenceLogProbability)
open Build (NgramModel)
open Convert.Funcall2gram (ScoreFn)

variable [ClPpcre]

/-! ## Building -/

/-- `kkc-2gram` and `kkc-3gram`. -/
inductive KkcClass where
  | kkc2gram
  | kkc3gram
deriving DecidableEq

/-- `kkc`. -/
structure Kkc (K : Type) where
  kkcClass : KkcClass
  ngramModel : NgramModel K
  vocabulary : Vocabulary
  wordDictionary : Dictionary
  charDictionary : Dictionary
  unknownWordVocabulary : Vocabulary
  unknownWordNgramModel : Model K Int

/-- `(ecase (length weights) (2 'kkc-2gram) (3 'kkc-3gram))`. -/
def kkcClassOf {K : Type} (weights : List K) : Option KkcClass :=
  match weights.length with
  | 2 => some .kkc2gram
  | 3 => some .kkc3gram
  | _ => none

section Building

variable {K : Type} [Field K]

/-- The n-gram model before it is trained: a class model if there is a class file. -/
def untrainedModel (classTokenToWordFile : Option Str) (classWeights weights : List K)
    (vocabulary : Vocabulary) : Option (NgramModel K) :=
  match classTokenToWordFile with
  | some file => (Build.buildClassifier file vocabulary).map fun classifier =>
      .classModel (ClassModel.make classWeights classifier)
  | none => some (.model (Model.make Int weights))

/-- `build-kkc-simple`.  With a class file the weights are not given to the model. -/
def buildKkcSimple (order : WalkOrder) (pathnames : List Str) (classTokenToWordFile : Option Str)
    (weights : List K) (charDictionary : Option Dictionary) : Option (Kkc K) := do
  let vocabulary := Build.buildVocabulary order pathnames
  let untrained ← untrainedModel classTokenToWordFile [] weights vocabulary
  let ngramModel ← Build.trainNgramModel untrained pathnames vocabulary
  let kkcClass ← kkcClassOf weights
  some
    { kkcClass
      ngramModel
      vocabulary
      wordDictionary := Build.buildWordDictionary pathnames vocabulary
      charDictionary := charDictionary.getD Dictionary.make
      unknownWordVocabulary := Vocabulary.make
      unknownWordNgramModel := Model.make Int [] }

/-- The arguments of `build-kkc`. -/
structure BuildArgs (K : Type) where
  pathnamesSegmented : List Str
  pathnamesInaccuratelySegmented : List Str
  wordDictionaryPathnames : List Str
  charDictionary : Option Dictionary
  trustedWordDictionary : Option Dictionary
  classTokenToWordFile : Option Str
  weights : List K

/-- The vocabulary of `build-kkc`.  An added word could not be mapped to a class. -/
def extendedVocabulary (args : BuildArgs K) (vocabulary : Vocabulary) : Vocabulary :=
  match args.trustedWordDictionary, args.classTokenToWordFile with
  | some trusted, none =>
      if args.pathnamesInaccuratelySegmented = [] then vocabulary
      else
        Build.extendExistingVocabulary vocabulary trusted args.pathnamesInaccuratelySegmented
  | _, _ => vocabulary

/-- `build-kkc`. -/
def buildKkc (order : WalkOrder) (args : BuildArgs K) : Option (Kkc K) := do
  let withUnk ← Build.buildVocabularyWithUnk order args.pathnamesSegmented 2
  let vocabulary := extendedVocabulary args withUnk
  let pathnames := args.pathnamesSegmented ++ args.pathnamesInaccuratelySegmented
  let untrained ← untrainedModel args.classTokenToWordFile args.weights args.weights vocabulary
  let ngramModel ← Build.trainNgramModel untrained pathnames vocabulary
  let wordDictionary ← Build.addToWordDictionaryFromResources
    (Build.buildWordDictionary pathnames vocabulary) args.wordDictionaryPathnames
  let unknownWordVocabulary ← Build.buildUnknownWordVocabulary order pathnames vocabulary 2
  let unknownWordNgramModel ←
    Build.buildUnknownWordNgramModel pathnames vocabulary unknownWordVocabulary
  let kkcClass ← kkcClassOf args.weights
  some
    { kkcClass
      ngramModel
      vocabulary
      wordDictionary
      charDictionary := args.charDictionary.getD Dictionary.make
      unknownWordVocabulary
      unknownWordNgramModel }

end Building

/-! ## Entries -/

/-- `convert-entry`. -/
structure ConvertEntry where
  unit : Option Str
  token : Int
  origin : Origin

/-- `from-vocabulary-p`. -/
def fromVocabularyP (entry : ConvertEntry) : Bool := entry.origin = .vocabulary

/-- `entry-form`. -/
def ConvertEntry.form (e : ConvertEntry) : Option Str := do
  let unit ← e.unit
  unitForm unit

/-- `entry-pron`. -/
def ConvertEntry.pron (e : ConvertEntry) : Option Str := do
  let unit ← e.unit
  unitPron unit

/-- `hachee.ja:hiragana->katakana`, which is that of `senn.ja`. -/
def hiraganaToKatakana (string : Str) : Str := Senn.Ja.hiraganaToKatakana string

/-- `make-unknown-word-unit`. -/
def makeUnknownWordUnit (pron : Str) : Str := makeUnit (hiraganaToKatakana pron) pron

/-- The entry of a unit that was looked up. -/
def dictEntry (vocabulary : Vocabulary) (entry : Entry) : Option ConvertEntry := do
  let token ← vocabulary.toIntOrUnk (unitToKey entry.unit)
  some { unit := some entry.unit, token, origin := entry.origin }

/-- `list-entries`. -/
def listEntries (subPron : Str) (dictionaries : List Dictionary) (vocabulary : Vocabulary) :
    Option (List ConvertEntry) := do
  let entries ← (dictionaries.flatMap (·.lookup (some subPron))).mapM (dictEntry vocabulary)
  let unkUnit := makeUnknownWordUnit subPron
  if subPron.length < 8 ∧ dictionaries.any (·.containsP unkUnit) = false then do
    let token ← vocabulary.toInt Vocabulary.UNK
    some (entries ++ [{ unit := some unkUnit, token, origin := .outOfDictionary }])
  else some entries

/-! ## Scores -/

section Scores

variable {K : Type} [Field K] [LinearOrder K] (log : K → Option K) (kkc : Kkc K)

/-- `unknown-word-log-probability`. -/
def unknownWordLogProbability (form : Str) : Option K := do
  let sentence ← Build.pronSentence kkc.unknownWordVocabulary form
  let bos ← kkc.unknownWordVocabulary.toInt Vocabulary.BOS
  let eos ← kkc.unknownWordVocabulary.toInt Vocabulary.EOS
  sentenceLogProbability log kkc.unknownWordNgramModel sentence bos eos

/-- `transition-probability`. -/
def transitionProbability (currEntry : ConvertEntry) (historyEntryList : List ConvertEntry) :
    Option K :=
  match kkc.ngramModel with
  | .model model =>
      some (modelProbability model currEntry.token (historyEntryList.map ConvertEntry.token))
  | .classModel model =>
      model.modelProbability currEntry.token (historyEntryList.map ConvertEntry.token)

/-- `convert-entry-unk-log-probability`. -/
def convertEntryUnkLogProbability (entry : ConvertEntry) : Option K :=
  if fromVocabularyP entry then some 0
  else do
    let form ← entry.form
    unknownWordLogProbability log kkc form

/-- `compute-convert-score`. -/
def computeConvertScore (currEntry : ConvertEntry) (historyEntryList : List ConvertEntry) :
    Option K := do
  let transitionProb ← transitionProbability kkc currEntry historyEntryList
  if 0 < transitionProb then do
    let logProb ← log transitionProb
    let unk ← convertEntryUnkLogProbability log kkc currEntry
    some (logProb + unk)
  else some ((-65535 : Int) : K)

/-! ## The methods of the converter -/

/-- `convert-begin-entry`. -/
def convertBeginEntry : Option ConvertEntry := do
  let token ← kkc.vocabulary.toInt Vocabulary.BOS
  some { unit := none, token, origin := .vocabulary }

/-- `convert-end-entry`. -/
def convertEndEntry : Option ConvertEntry := do
  let token ← kkc.vocabulary.toInt Vocabulary.EOS
  some { unit := none, token, origin := .vocabulary }

/-- `convert-list-entries-fn`. -/
def convertListEntriesFn (pron : Str) : Option (List ConvertEntry) :=
  listEntries pron [kkc.wordDictionary] kkc.vocabulary

/-- `convert-score-fn`. -/
def convertScoreFn : ScoreFn ConvertEntry K := fun args =>
  match kkc.kkcClass, args with
  | .kkc2gram, [currEntry, prevEntry] => computeConvertScore log kkc currEntry [prevEntry]
  | .kkc3gram, [currEntry, prev2Entry, prev1Entry] =>
      computeConvertScore log kkc currEntry [prev2Entry, prev1Entry]
  | _, _ => none

/-- `execute`, the method of the bigram converter, which both classes inherit. -/
def execute (pronunciation : Str) (firstBoundaryIndex : Option Nat) :
    Option (List ConvertEntry × Convert.Viterbi2gram.Node ConvertEntry K ×
      Convert.Lattice (Convert.Viterbi2gram.Node ConvertEntry K)) := do
  let beginEntry ← convertBeginEntry kkc
  let endEntry ← convertEndEntry kkc
  Convert.Funcall2gram.execute pronunciation beginEntry endEntry (convertScoreFn log kkc)
    (convertListEntriesFn kkc) firstBoundaryIndex

end Scores

/-! ## Dumping -/

/-- The dump of a kkc.  It calls methods that only a class model has. -/
def dump (order : WalkOrder) (kkc : Kkc Rat) : Option Dump.Files :=
  match kkc.ngramModel with
  | .model _ => none
  | .classModel model =>
      Dump.execute order kkc.vocabulary model kkc.unknownWordVocabulary kkc.unknownWordNgramModel

end Hachee.Kkc.Impl.Lm
