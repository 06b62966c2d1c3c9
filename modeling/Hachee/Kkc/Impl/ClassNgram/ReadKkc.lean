import Hachee.Kkc.Impl.Lm.Kkc
import Hachee.Kkc.Impl.ClassNgram.Agreement
import Hachee.Kkc.Impl.ClassNgram.Convert
import Hachee.Kkc.Impl.ClassNgram.UnkVocabulary
import Hachee.Kkc.Impl.ClassNgram.VocabularyFile

/-!
# Reading a dumped kkc

Every file of a dumped kkc is read as what was written into it, if it is read at
all.  The engine then has the vocabularies and the counts of the kkc (`Reads`).
-/

namespace Hachee.Kkc.Impl.ClassNgram

open Lisp (ClPpcre Str HashTable WalkOrder bind_inv)
open LanguageModel (Vocabulary)
open Hachee.LanguageModel.Ngram (Classifier classToken)
open Hachee.LanguageModel.Ngram.Probability (getCount)
open Lm.Build (Complete)
open Lm.Dump

variable [ClPpcre]

/-- The engine has what the kkc has. -/
structure Reads {R : Type} (kkc : Lm.Kkc Rat)
    (trained : LanguageModel.Ngram.ClassModel Rat Int Int) (read : Kkc2gram R) : Prop where
  classVocab : Decodes kkc.vocabulary trained.classifier read.classVocab
  classModel : ReadBack trained read.classModel
  unkVocab : DecodesUnk kkc.unknownWordVocabulary read.unkVocab
  unkCounts : ∀ k, countGet read.unkModel.ngramCounts k =
    (getCount kkc.unknownWordNgramModel.freq k).map Int.ofNat
  charSetSize : read.unkModel.charSetSize = 6878
  exDict : read.exDict = .empty
  weights : trained.weights = [read.w2, read.w1]

omit [ClPpcre] in
/-- Every token has a class when the vocabulary is dumped. -/
theorem classToken_of_dumpClassVocabulary {order : WalkOrder} {vocab : Vocabulary}
    {classifier : Classifier Int Int} {text : Str}
    (h : dumpClassVocabulary order vocab classifier = some text) (tok : Nat)
    (htok : tok < vocab.size) : ∃ cls, classToken classifier tok = some cls := by
  obtain ⟨toStr, -, h⟩ := bind_inv h
  obtain ⟨lines, hlines, -⟩ := bind_inv h
  obtain ⟨line, -, hline⟩ := Lisp.exists_of_mapM_eq_some hlines (List.mem_range.mpr htok)
  obtain ⟨cls, hcls, -⟩ := bind_inv hline
  exact ⟨cls, hcls⟩

/-- What is read of a dumped kkc. -/
theorem reads_of_readKkc2gram {R : Type} {order : WalkOrder} {kkc : Lm.Kkc Rat}
    {trained : LanguageModel.Ngram.ClassModel Rat Int Int} {files : Files} {read : Kkc2gram R}
    (hmodel : kkc.ngramModel = .classModel trained) (hwords : WordKeys kkc.vocabulary)
    (hcomplete : Complete kkc.vocabulary) (hchars : CharKeys kkc.unknownWordVocabulary)
    (hdump : Lm.dump order kkc = some files) (hread : readKkc2gram R files = some read) :
    Reads kkc trained read := by
  rw [Lm.dump, hmodel] at hdump
  obtain ⟨vocabText, hvocabText, hdump⟩ := bind_inv hdump
  obtain ⟨unkText, hunkText, hdump⟩ := bind_inv hdump
  rw [← Option.some.inj hdump] at hread
  obtain ⟨weights, hweights, hread⟩ := bind_inv hread
  obtain ⟨classVocab, hclassVocab, hread⟩ := bind_inv hread
  obtain ⟨classModel, hclassModel, hread⟩ := bind_inv hread
  obtain ⟨unkVocab, hunkVocab, hread⟩ := bind_inv hread
  obtain ⟨unkModel, hunkModel, hread⟩ := bind_inv hread
  -- the counts
  obtain ⟨classModel', hclassModel', hback⟩ := readClassModel_dump trained
  rw [hclassModel, Option.some.injEq] at hclassModel'
  rw [← hclassModel'] at hback
  obtain ⟨counts, hcounts, hget⟩ := readCounts_dumpNgramCounts kkc.unknownWordNgramModel.freq
  have hsize : Lisp.readRational "6878".toList = some 6878 := rfl
  rw [readUnkModel, dumpUnkModel, hcounts, hsize, Option.bind_eq_bind, Option.bind_some,
    Option.bind_eq_bind, Option.bind_some, Option.some.injEq] at hunkModel
  have hweights' : trained.weights = weights :=
    Option.some.inj ((readWeights_weightsLine trained.weights).symm.trans hweights)
  split at hread
  next w2 w1 =>
    rw [← Option.some.inj hread, ← hunkModel]
    exact
      { classVocab := decodes_of_readClassVocab hwords hcomplete
          (classToken_of_dumpClassVocabulary hvocabText) hvocabText hclassVocab
        classModel := hback
        unkVocab := decodesUnk_of_readUnkVocab hchars hunkText hunkVocab
        unkCounts := hget
        charSetSize := rfl
        exDict := rfl
        weights := hweights' }
  next => cases hread

end Hachee.Kkc.Impl.ClassNgram
