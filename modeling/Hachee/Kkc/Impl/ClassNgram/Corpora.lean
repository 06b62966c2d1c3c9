import Hachee.Kkc.Impl.Lm.Kkc
import Hachee.LanguageModel.Ngram.ClassCounts
import Hachee.Kkc.Impl.ClassNgram.UnkVocabulary
import Hachee.Kkc.Impl.ClassNgram.VocabularyFile

/-!
# What occurs in the corpora

A kkc with a class model is trained on two lists of sentences (`Training`): those
of the corpora, and the pronunciations of the unknown words.  A word of the
vocabulary occurs in the first.  The token of the characters without an id occurs in
the second if and only if the unknown words of one file only have some character
(`Training.unk_mem_iff`).
-/

namespace Hachee.Kkc.Impl.ClassNgram

open Lisp (ClPpcre Str WalkOrder bind_inv)
open LanguageModel (Vocabulary)
open Hachee.LanguageModel.Ngram (Classifier Model ClassModel.make ClassModel.addCounts
  addCorpusCounts corpusNgrams)
open Lm (unitPron BuildArgs)
open Lm.Build

variable [ClPpcre]

/-! ## Unknown words -/

/-- A word that occurs in fewer than two of the segmented files. -/
def unknownWordP (pathnamesSegmented : List Str) (unit : Str) : Bool :=
  pathnamesSegmented.countP (fun file => (fileUnits file).contains unit) < 2

/-- The characters of the pronunciations of the unknown words of a file. -/
def unknownChars (pathnamesSegmented : List Str) (file : Str) : List Char :=
  ((fileUnits file).filter (unknownWordP pathnamesSegmented)).flatMap fun unit =>
    (unitPron unit).getD []

/-- All corpora. -/
def corpora {K : Type} (args : BuildArgs K) : List Str :=
  args.pathnamesSegmented ++ args.pathnamesInaccuratelySegmented

/-- Some character occurs in the unknown words of exactly one of the files. -/
def LoneCharacter {K : Type} (args : BuildArgs K) : Prop :=
  ∃ ch, (corpora args).countP
    (fun file => decide (ch ∈ unknownChars args.pathnamesSegmented file)) = 1

section UnknownWords

variable {order : WalkOrder} {pathnamesSegmented : List Str} {vocabulary : Vocabulary}

/-- The unknown words are those that are not in the vocabulary. -/
theorem unknownUnits_eq
    (h : buildVocabularyWithUnk order pathnamesSegmented 2 = some vocabulary) (file : Str) :
    unknownUnits vocabulary file =
      (fileUnits file).filter (unknownWordP pathnamesSegmented) := by
  refine List.filter_congr fun unit hunit => ?_
  obtain ⟨form, pron, rfl, -⟩ := of_mem_fileUnits hunit
  rw [Bool.eq_iff_iff, Option.isNone_iff_eq_none, Vocabulary.toIntOrNil_eq_none, unknownWordP,
    decide_eq_true_eq]
  obtain ⟨-, h⟩ := Option.ite_none_right_eq_some.mp h
  rw [← Option.some.inj h, mem_keys_overlapVocabulary, List.countP_map, Lm.unitToKey,
    or_iff_right (makeUnit_notMem_specials form pron)]
  simp only [Function.comp_def, List.contains_eq_mem]
  omega

theorem mem_unknownChars
    (h : buildVocabularyWithUnk order pathnamesSegmented 2 = some vocabulary) {file : Str}
    {ch : Char} :
    ch ∈ unknownChars pathnamesSegmented file ↔
      ∃ unit ∈ unknownUnits vocabulary file, ∃ pron, unitPron unit = some pron ∧ ch ∈ pron := by
  rw [unknownUnits_eq h, unknownChars, List.mem_flatMap]
  refine exists_congr fun unit => and_congr_right fun _ => ?_
  cases unitPron unit with
  | none => simp
  | some pron => simp

/-- The characters in the unknown words of two files have ids. -/
theorem charUnit_mem_keys_iff
    (h : buildVocabularyWithUnk order pathnamesSegmented 2 = some vocabulary)
    {pathnames : List Str} {unknownWordVocabulary : Vocabulary}
    (hunk : buildUnknownWordVocabulary order pathnames vocabulary 2 = some unknownWordVocabulary)
    {ch : Char} (hslash : ch ≠ '/') :
    charUnit ch ∈ unknownWordVocabulary.keys ↔
      2 ≤ pathnames.countP
        (fun file => decide (ch ∈ unknownChars pathnamesSegmented file)) := by
  obtain ⟨files, hfiles, hunk⟩ := bind_inv hunk
  have hcount : files.countP (fun units => decide (charUnit ch ∈ units)) =
      pathnames.countP (fun file => decide (ch ∈ unknownChars pathnamesSegmented file)) := by
    refine Lisp.countP_of_mapM_eq_some hfiles fun file _ units hunits => ?_
    rw [decide_eq_true_eq, decide_eq_true_eq, mem_unknownPronUnits hunits, mem_unknownChars h]
    refine exists_congr fun unit => and_congr_right fun hunit => exists_congr fun pron =>
      and_congr_right fun _ => ?_
    constructor
    · intro hex
      obtain ⟨ch', hch', heq⟩ := hex
      rw [charUnit_inj hslash heq]
      exact hch'
    · intro hch
      exact ⟨ch, hch, rfl⟩
  rw [← Option.some.inj hunk, mem_keys_overlapVocabulary, hcount,
    or_iff_right (charUnit_notMem_specials ch)]
  omega

end UnknownWords

/-! ## The sentences -/

/-- The tokens of the unknown words are those of their characters. -/
theorem exists_mem_unknownSentences_iff {pathnames : List Str}
    {vocabulary unknownWordVocabulary : Vocabulary} {tss : List (List Int)}
    (h : (pathnames.flatMap (unknownUnits vocabulary)).mapM
      (unknownSentence unknownWordVocabulary) = some tss) {token : Int} :
    (∃ tokens ∈ tss, token ∈ tokens) ↔
      ∃ file ∈ pathnames, ∃ unit ∈ unknownUnits vocabulary file, ∃ pron,
        unitPron unit = some pron ∧
          ∃ ch ∈ pron, unknownWordVocabulary.toIntOrUnk (charUnit ch) = some token := by
  constructor
  · intro hex
    obtain ⟨tokens, htokens, hmem⟩ := hex
    obtain ⟨unit, hunit, hsentence⟩ := (Lisp.mem_iff_of_mapM_eq_some h).mp htokens
    obtain ⟨file, hfile, hunit⟩ := List.mem_flatMap.mp hunit
    obtain ⟨pron, hpron, hsentence⟩ := bind_inv hsentence
    exact ⟨file, hfile, unit, hunit, pron, hpron,
      (Lisp.mem_iff_of_mapM_eq_some hsentence).mp hmem⟩
  · intro hex
    obtain ⟨file, hfile, unit, hunit, pron, hpron, hch⟩ := hex
    obtain ⟨tokens, htokens, hsentence⟩ :=
      Lisp.exists_of_mapM_eq_some h (List.mem_flatMap.mpr ⟨file, hfile, hunit⟩)
    rw [unknownSentence, hpron] at hsentence
    exact ⟨tokens, htokens, (Lisp.mem_iff_of_mapM_eq_some hsentence).mpr hch⟩

/-! ## Training -/

/-- How a kkc with a class model was built: the sentences of its two models, and what
was trained on them. -/
structure Training (order : WalkOrder) (args : BuildArgs Rat) (kkc : Lm.Kkc Rat) where
  classifier : Classifier Int Int
  trained : LanguageModel.Ngram.ClassModel Rat Int Int
  sentences : List (List Int)
  unkSentences : List (List Int)
  bos : Int
  eos : Int
  unkBos : Int
  unkEos : Int
  vocabulary_eq : buildVocabularyWithUnk order args.pathnamesSegmented 2 = some kkc.vocabulary
  unknownWordVocabulary_eq : buildUnknownWordVocabulary order (corpora args) kkc.vocabulary 2 =
    some kkc.unknownWordVocabulary
  bos_eq : kkc.vocabulary.toInt Vocabulary.BOS = some bos
  eos_eq : kkc.vocabulary.toInt Vocabulary.EOS = some eos
  sentences_eq : Lm.Build.sentences (corpora args) kkc.vocabulary = some sentences
  trained_eq : ClassModel.addCounts bos eos (ClassModel.make args.weights classifier) sentences =
    some trained
  ngramModel : kkc.ngramModel = .classModel trained
  unkBos_eq : kkc.unknownWordVocabulary.toInt Vocabulary.BOS = some unkBos
  unkEos_eq : kkc.unknownWordVocabulary.toInt Vocabulary.EOS = some unkEos
  unkSentences_eq : ((corpora args).flatMap (unknownUnits kkc.vocabulary)).mapM
    (unknownSentence kkc.unknownWordVocabulary) = some unkSentences
  unkFreq_eq : kkc.unknownWordNgramModel.freq = addCorpusCounts 2 unkSentences unkBos unkEos

omit [ClPpcre] in
/-- The counts of an n-gram model that was trained on sentences. -/
theorem freq_foldl_addCounts (BOS EOS : Int) (sentences : List (List Int))
    (model : Model Rat Int) :
    (sentences.foldl (Model.addCounts BOS EOS) model).freq =
      sentences.foldl (fun freq tokens =>
        LanguageModel.Ngram.Probability.addNgramCounts freq model.n tokens BOS EOS) model.freq := by
  induction sentences generalizing model with
  | nil => rfl
  | cons tokens sentences ih => exact ih (Model.addCounts BOS EOS model tokens)

/-- With a class file, `build-kkc` trains a class model. -/
theorem exists_training {order : WalkOrder} {args : BuildArgs Rat} {kkc : Lm.Kkc Rat} {file : Str}
    (hfile : args.classTokenToWordFile = some file) (h : Lm.buildKkc order args = some kkc) :
    Nonempty (Training order args kkc) := by
  obtain ⟨vocabulary, hvocabulary, h⟩ := bind_inv h
  have hextended : Lm.extendedVocabulary args vocabulary = vocabulary := by
    rw [Lm.extendedVocabulary, hfile]
    cases args.trustedWordDictionary with
    | none => rfl
    | some trusted => rfl
  rw [hextended] at h
  obtain ⟨untrained, huntrained, h⟩ := bind_inv h
  obtain ⟨ngramModel, hngramModel, h⟩ := bind_inv h
  obtain ⟨wordDictionary, -, h⟩ := bind_inv h
  obtain ⟨unknownWordVocabulary, hunkVocabulary, h⟩ := bind_inv h
  obtain ⟨unknownWordNgramModel, hunkModel, h⟩ := bind_inv h
  obtain ⟨kkcClass, -, h⟩ := bind_inv h
  rw [hfile] at huntrained
  obtain ⟨classifier, -, huntrained⟩ := Option.map_eq_some_iff.mp huntrained
  rw [← huntrained] at hngramModel
  obtain ⟨bos, hbos, hngramModel⟩ := bind_inv hngramModel
  obtain ⟨eos, heos, hngramModel⟩ := bind_inv hngramModel
  obtain ⟨sentences, hsentences, hngramModel⟩ := bind_inv hngramModel
  obtain ⟨trained, htrained, hngramModel⟩ := bind_inv hngramModel
  obtain ⟨unkBos, hunkBos, hunkModel⟩ := bind_inv hunkModel
  obtain ⟨unkEos, hunkEos, hunkModel⟩ := bind_inv hunkModel
  obtain ⟨unkSentences, hunkSentences, hunkModel⟩ := bind_inv hunkModel
  rw [← Option.some.inj h]
  exact
    ⟨{ classifier, trained, sentences, unkSentences, bos, eos, unkBos, unkEos
       vocabulary_eq := hvocabulary
       unknownWordVocabulary_eq := hunkVocabulary
       bos_eq := hbos
       eos_eq := heos
       sentences_eq := hsentences
       trained_eq := htrained
       ngramModel := (Option.some.inj hngramModel).symm
       unkBos_eq := hunkBos
       unkEos_eq := hunkEos
       unkSentences_eq := hunkSentences
       unkFreq_eq := by
         rw [← Option.some.inj hunkModel, freq_foldl_addCounts]
         rfl }⟩

namespace Training

variable {order : WalkOrder} {args : BuildArgs Rat} {kkc : Lm.Kkc Rat}
  (t : Training order args kkc)

/-- Nobody shares the token of `UNK`, and so it occurs among the characters if and only
if one of them has no id. -/
theorem unk_mem_iff {unk : Int}
    (hunk : kkc.unknownWordVocabulary.toInt Vocabulary.UNK = some unk) :
    [unk] ∈ corpusNgrams 2 t.unkSentences t.unkBos t.unkEos ↔ LoneCharacter args := by
  have hne : ∀ {key : Str} {token : Int}, key ≠ Vocabulary.UNK →
      kkc.unknownWordVocabulary.toInt key = some token → unk ≠ token := by
    intro key token hkey htoken heq
    rw [← heq] at htoken
    exact hkey (Vocabulary.toIntOrNil_inj htoken hunk)
  have hcharUnit : ∀ ch, charUnit ch ≠ Vocabulary.UNK := fun ch heq =>
    charUnit_notMem_specials ch (heq ▸ List.mem_cons_self)
  have hcount : ∀ {ch : Char}, ch ≠ '/' →
      (kkc.unknownWordVocabulary.toIntOrUnk (charUnit ch) = some unk ↔
        (corpora args).countP
          (fun file => decide (ch ∈ unknownChars args.pathnamesSegmented file)) < 2) := by
    intro ch hslash
    rw [Vocabulary.toIntOrUnk_eq_some_iff hunk (hcharUnit ch),
      charUnit_mem_keys_iff t.vocabulary_eq t.unknownWordVocabulary_eq hslash, Nat.not_le]
  have hunits : ∀ {file unit pron : Str} {ch : Char},
      unit ∈ unknownUnits kkc.vocabulary file → unitPron unit = some pron → ch ∈ pron →
        ch ≠ '/' ∧ ch ∈ unknownChars args.pathnamesSegmented file := fun hunit hpron hch =>
    ⟨(of_mem_pron (List.mem_filter.mp hunit).1 hpron hch).1,
      (mem_unknownChars t.vocabulary_eq).mpr ⟨_, hunit, _, hpron, hch⟩⟩
  constructor
  · intro hmem
    obtain ⟨tokens, htokens, hunkMem⟩ :=
      LanguageModel.Ngram.exists_of_singleton_mem_corpusNgrams
        (hne (by decide) t.unkBos_eq) hmem
    have hin : unk ∈ tokens := by
      rw [List.mem_append, List.mem_singleton] at hunkMem
      exact hunkMem.resolve_right (hne (by decide) t.unkEos_eq)
    obtain ⟨file, hfile, unit, hunit, pron, hpron, ch, hch, htoken⟩ :=
      (exists_mem_unknownSentences_iff t.unkSentences_eq).mp ⟨tokens, htokens, hin⟩
    obtain ⟨hslash, hchars⟩ := hunits hunit hpron hch
    have hlt := (hcount hslash).mp htoken
    have hpos : 0 < (corpora args).countP
        (fun file => decide (ch ∈ unknownChars args.pathnamesSegmented file)) :=
      List.countP_pos_iff.mpr ⟨file, hfile, decide_eq_true hchars⟩
    exact ⟨ch, by omega⟩
  · intro hlone
    obtain ⟨ch, hone⟩ := hlone
    obtain ⟨file, hfile, hchars⟩ := List.countP_pos_iff.mp (hone ▸ Nat.one_pos)
    obtain ⟨unit, hunit, pron, hpron, hch⟩ :=
      (mem_unknownChars t.vocabulary_eq).mp (of_decide_eq_true hchars)
    have htoken := (hcount (hunits hunit hpron hch).1).mpr (by omega)
    obtain ⟨tokens, htokens, hin⟩ := (exists_mem_unknownSentences_iff t.unkSentences_eq).mpr
      ⟨file, hfile, unit, hunit, pron, hpron, ch, hch, htoken⟩
    exact List.mem_flatMap.mpr ⟨tokens, htokens,
      LanguageModel.Ngram.mem_eachNgramSubseq_of_mem (by omega) (List.mem_append_left _ hin)⟩

end Training

end Hachee.Kkc.Impl.ClassNgram
