import Mathlib.Analysis.SpecialFunctions.Log.Basic
import Hachee.Kkc.Convert.Best2gram
import Hachee.Kkc.Impl.Lm.Kkc
import Hachee.Kkc.Impl.Lm.Vocabularies

/-!
# What a built kkc converts

With two weights the conversion of a pronunciation is a segmentation of it, unless
the separator of the units occurs in the pronunciation (`converts_iff`).  A unit is
split at every separator, so no unit has such a pronunciation.

With three weights no pronunciation is converted (`execute_of_three_weights`).  The
score function takes three arguments, and the inherited converter calls it with two.
-/

namespace Hachee.Kkc.Impl.Lm

open Lisp (ClPpcre Str WalkOrder bind_inv)
open LanguageModel (Vocabulary)
open LanguageModel.Ngram (Model ClassModel initialWeights)
open Build (NgramModel Complete)

section

variable [ClPpcre]

/-! ## The builders -/

/-- One of the two builders has returned the kkc. -/
inductive Built {K : Type} [Field K] (order : WalkOrder) (weights : List K)
    (classTokenToWordFile : Option Str) (kkc : Kkc K) : Prop
  | simple (pathnames : List Str) (charDictionary : Option Dictionary)
      (h : buildKkcSimple order pathnames classTokenToWordFile weights charDictionary = some kkc)
  | full (args : BuildArgs K) (hweights : args.weights = weights)
      (hfile : args.classTokenToWordFile = classTokenToWordFile)
      (h : buildKkc order args = some kkc)

/-- What the conversion relies on: the keys that stand for no word have tokens, the
entries of the dictionary stand under their pronunciations, and the model of the
unknown words has no negative weight. -/
structure WellBuilt {K : Type} [Field K] [LinearOrder K] (kkc : Kkc K) : Prop where
  vocabulary : Complete kkc.vocabulary
  wordDictionary : kkc.wordDictionary.Keyed
  unknownWordVocabulary : Complete kkc.unknownWordVocabulary
  weights : ∀ w ∈ kkc.unknownWordNgramModel.weights, 0 ≤ w
  ngramModel : ∃ model, kkc.ngramModel = .model model

section Builders

variable {K : Type} [Field K] {order : WalkOrder}

omit [Field K] in
theorem complete_extendedVocabulary {args : BuildArgs K} {vocabulary : Vocabulary}
    (h : Complete vocabulary) : Complete (extendedVocabulary args vocabulary) := by
  unfold extendedVocabulary
  split
  next trusted htrusted hfile =>
    split
    next => exact h
    next => exact Build.complete_extendExistingVocabulary h trusted _
  next => exact h

theorem complete_of_buildUnknownWordVocabulary {pathnames : List Str} {vocabulary : Vocabulary}
    {overlap : Nat} {unknownWordVocabulary : Vocabulary}
    (h : Build.buildUnknownWordVocabulary order pathnames vocabulary overlap =
      some unknownWordVocabulary) : Complete unknownWordVocabulary := by
  obtain ⟨files, -, h⟩ := bind_inv h
  rw [← Option.some.inj h]
  exact Build.complete_overlapVocabulary order overlap files

omit [ClPpcre] in
omit [Field K] in
/-- Training keeps the weights. -/
theorem weights_foldl_addCounts (BOS EOS : Int) (sentences : List (List Int))
    (model : Model K Int) :
    (sentences.foldl (Model.addCounts BOS EOS) model).weights = model.weights := by
  induction sentences generalizing model with
  | nil => rfl
  | cons tokens sentences ih => exact ih (Model.addCounts BOS EOS model tokens)

theorem weights_of_buildUnknownWordNgramModel {pathnames : List Str}
    {vocabulary unknownWordVocabulary : Vocabulary} {model : Model K Int}
    (h : Build.buildUnknownWordNgramModel pathnames vocabulary unknownWordVocabulary = some model) :
    model.weights = initialWeights [] := by
  obtain ⟨BOS, -, h⟩ := bind_inv h
  obtain ⟨EOS, -, h⟩ := bind_inv h
  obtain ⟨tokens, -, h⟩ := bind_inv h
  rw [← Option.some.inj h]
  exact weights_foldl_addCounts BOS EOS tokens _

omit [Field K] in
/-- An n-gram model stays one. -/
theorem exists_model_of_trainNgramModel {model : Model K Int} {pathnames : List Str}
    {vocabulary : Vocabulary} {trained : NgramModel K}
    (h : Build.trainNgramModel (.model model) pathnames vocabulary = some trained) :
    ∃ model', trained = .model model' := by
  obtain ⟨BOS, -, h⟩ := bind_inv h
  obtain ⟨EOS, -, h⟩ := bind_inv h
  obtain ⟨tokens, -, h⟩ := bind_inv h
  exact ⟨_, (Option.some.inj h).symm⟩

/-- The number of the weights decides the class. -/
theorem Built.kkcClass {weights : List K} {file : Option Str} {kkc : Kkc K}
    (h : Built order weights file kkc) : kkcClassOf weights = some kkc.kkcClass := by
  cases h with
  | simple pathnames charDictionary h =>
      obtain ⟨untrained, -, h⟩ := bind_inv h
      obtain ⟨ngramModel, -, h⟩ := bind_inv h
      obtain ⟨kkcClass, hclass, h⟩ := bind_inv h
      rw [hclass, ← Option.some.inj h]
  | full args hweights hfile h =>
      obtain ⟨withUnk, -, h⟩ := bind_inv h
      obtain ⟨untrained, -, h⟩ := bind_inv h
      obtain ⟨ngramModel, -, h⟩ := bind_inv h
      obtain ⟨wordDictionary, -, h⟩ := bind_inv h
      obtain ⟨unknownWordVocabulary, -, h⟩ := bind_inv h
      obtain ⟨unknownWordNgramModel, -, h⟩ := bind_inv h
      obtain ⟨kkcClass, hclass, h⟩ := bind_inv h
      rw [← hweights, hclass, ← Option.some.inj h]

theorem Built.kkc2gram {weights : List K} {file : Option Str} {kkc : Kkc K}
    (h : Built order weights file kkc) (hweights : weights.length = 2) :
    kkc.kkcClass = .kkc2gram := by
  have hclass := h.kkcClass
  rw [kkcClassOf, hweights] at hclass
  exact (Option.some.inj hclass).symm

theorem Built.kkc3gram {weights : List K} {file : Option Str} {kkc : Kkc K}
    (h : Built order weights file kkc) (hweights : weights.length = 3) :
    kkc.kkcClass = .kkc3gram := by
  have hclass := h.kkcClass
  rw [kkcClassOf, hweights] at hclass
  exact (Option.some.inj hclass).symm

omit [ClPpcre] in
theorem initialWeights_nonneg [LinearOrder K] [IsStrictOrderedRing K] :
    ∀ w ∈ initialWeights ([] : List K), 0 ≤ w := by
  intro w hw
  simp only [initialWeights, List.mem_cons, List.not_mem_nil, or_false] at hw
  rcases hw with rfl | rfl
  · positivity
  · positivity

theorem Built.wellBuilt [LinearOrder K] [IsStrictOrderedRing K] {weights : List K} {kkc : Kkc K}
    (h : Built order weights none kkc) : WellBuilt kkc := by
  cases h with
  | simple pathnames charDictionary h =>
      obtain ⟨untrained, huntrained, h⟩ := bind_inv h
      obtain ⟨ngramModel, hngram, h⟩ := bind_inv h
      obtain ⟨kkcClass, -, h⟩ := bind_inv h
      rw [← Option.some.inj huntrained] at hngram
      rw [← Option.some.inj h]
      exact
        { vocabulary := Build.complete_buildVocabulary order pathnames
          wordDictionary := Build.keyed_buildWordDictionary pathnames _
          unknownWordVocabulary := Build.complete_make
          weights := initialWeights_nonneg
          ngramModel := exists_model_of_trainNgramModel hngram }
  | full args hweights hfile h =>
      obtain ⟨withUnk, hwithUnk, h⟩ := bind_inv h
      obtain ⟨untrained, huntrained, h⟩ := bind_inv h
      obtain ⟨ngramModel, hngram, h⟩ := bind_inv h
      obtain ⟨wordDictionary, hdict, h⟩ := bind_inv h
      obtain ⟨unknownWordVocabulary, hunkVocab, h⟩ := bind_inv h
      obtain ⟨unknownWordNgramModel, hunkModel, h⟩ := bind_inv h
      obtain ⟨kkcClass, -, h⟩ := bind_inv h
      rw [hfile] at huntrained
      rw [← Option.some.inj huntrained] at hngram
      rw [← Option.some.inj h]
      exact
        { vocabulary :=
            complete_extendedVocabulary (Build.complete_of_buildVocabularyWithUnk hwithUnk)
          wordDictionary := Build.keyed_addToWordDictionaryFromResources
            (Build.keyed_buildWordDictionary _ _) hdict
          unknownWordVocabulary := complete_of_buildUnknownWordVocabulary hunkVocab
          weights := by
            rw [weights_of_buildUnknownWordNgramModel hunkModel]
            exact initialWeights_nonneg
          ngramModel := exists_model_of_trainNgramModel hngram }

end Builders

/-! ## Entries -/

omit [ClPpcre] in
/-- The separator is no kana, and no kana becomes one. -/
theorem slash_notMem_hiraganaToKatakana {string : Str} (h : '/' ∉ string) :
    '/' ∉ hiraganaToKatakana string := by
  intro hmem
  obtain ⟨c, hc, heq⟩ := List.mem_map.mp hmem
  unfold Senn.Ja.htok at heq
  split at heq
  next hrange =>
    -- the code of a katakana lies above those of the hiragana
    have hvalid : (c.toNat + ('ア'.toNat - 'あ'.toNat)).isValidChar := by
      refine Or.inl (Nat.lt_of_le_of_lt (Nat.add_le_add_right hrange.2 _) (by decide))
    have hcode := congrArg Char.toNat heq
    rw [Char.ofNat, dif_pos hvalid] at hcode
    change c.toNat + ('ア'.toNat - 'あ'.toNat) = '/'.toNat at hcode
    have hge := hrange.1
    have hkana : 'ぁ'.toNat = 12353 := rfl
    have hslash : '/'.toNat = 47 := rfl
    omega
  next =>
    rw [heq] at hc
    exact h hc

/-- The entries whose score is computed without an error. -/
def Scored (entry : ConvertEntry) : Prop :=
  fromVocabularyP entry = true ∨ ∃ form, entry.form = some form

theorem scored_of_pron {entry : ConvertEntry} {pron : Str} (h : entry.pron = some pron) :
    Scored entry := by
  obtain ⟨unit, hunit, hpron⟩ := bind_inv h
  obtain ⟨form, hform⟩ := exists_unitForm hpron
  refine Or.inr ⟨form, ?_⟩
  rw [ConvertEntry.form, hunit]
  exact hform

section Listing

variable {K : Type} [Field K] [LinearOrder K] {kkc : Kkc K}

/-- The entries that the dictionary has for a string. -/
theorem exists_dictEntries (h : WellBuilt kkc) (subPron : Str) :
    ∃ entries, (kkc.wordDictionary.lookup (some subPron)).mapM (dictEntry kkc.vocabulary) =
        some entries ∧
      entries.length = (kkc.wordDictionary.lookup (some subPron)).length ∧
      ∀ e ∈ entries, e.pron = some subPron := by
  have htoken : ∀ entry : Entry, ∃ e, dictEntry kkc.vocabulary entry = some e := by
    intro entry
    obtain ⟨token, htoken⟩ := h.vocabulary.exists_toIntOrUnk (unitToKey entry.unit)
    exact ⟨{ unit := some entry.unit, token, origin := entry.origin },
      by rw [dictEntry, htoken]; rfl⟩
  obtain ⟨entries, hentries⟩ : ∃ entries,
      (kkc.wordDictionary.lookup (some subPron)).mapM (dictEntry kkc.vocabulary) = some entries :=
    Lisp.exists_mapM_eq_some fun entry _ => htoken entry
  refine ⟨entries, hentries, Lisp.length_of_mapM_eq_some hentries, ?_⟩
  intro e he
  obtain ⟨entry, hentry, heq⟩ := (Lisp.mem_iff_of_mapM_eq_some hentries).mp he
  obtain ⟨token, -, heq⟩ := bind_inv heq
  rw [← Option.some.inj heq]
  exact h.wordDictionary (some subPron) entry hentry

/-- Every string without the separator has its entries, and at least one of them if
it is short. -/
theorem exists_listEntries (h : WellBuilt kkc) {subPron : Str} (hslash : '/' ∉ subPron)
    (hne : subPron ≠ []) :
    ∃ entries, convertListEntriesFn kkc subPron = some entries ∧
      (∀ e ∈ entries, e.pron = some subPron) ∧ (subPron.length ≤ 7 → entries ≠ []) := by
  obtain ⟨entries, hentries, hlen, hpron⟩ := exists_dictEntries h subPron
  obtain ⟨token, htoken⟩ : ∃ token, kkc.vocabulary.toInt Vocabulary.UNK = some token :=
    h.vocabulary.exists_toInt (by decide)
  have hunk : unitPron (makeUnknownWordUnit subPron) = some subPron :=
    unitPron_makeUnit (slash_notMem_hiraganaToKatakana hslash) hslash hne
  simp only [convertListEntriesFn, listEntries, List.flatMap_cons, List.flatMap_nil,
    List.append_nil, hentries, htoken, List.any_cons, List.any_nil, Bool.or_false,
    Option.bind_eq_bind, Option.bind_some]
  split
  next =>
    refine ⟨_, rfl, fun e he => ?_, fun _ => List.append_ne_nil_of_right_ne_nil _ (by simp)⟩
    rcases List.mem_append.mp he with hold | hnew
    · exact hpron e hold
    · rw [List.mem_singleton.mp hnew]
      exact hunk
  next hcond =>
    refine ⟨entries, rfl, hpron, fun hshort hnil => hcond ⟨Nat.lt_succ_of_le hshort, ?_⟩⟩
    -- a dictionary that contains the unknown word has an entry for it
    rw [Bool.eq_false_iff]
    intro hcontains
    have hfound := Dictionary.lookup_ne_nil_of_containsP hcontains
    rw [hunk] at hfound
    rw [hnil, List.length_nil, eq_comm, List.length_eq_zero_iff] at hlen
    exact hfound hlen

end Listing

/-! ## Scores -/

section Scores

variable {K : Type} [Field K] [LinearOrder K] [IsStrictOrderedRing K] {log : K → Option K}
  {kkc : Kkc K}

theorem exists_unknownWordLogProbability (hlog : ∀ x, 0 < x → ∃ y, log x = some y)
    (h : WellBuilt kkc) (form : Str) :
    ∃ score, unknownWordLogProbability log kkc form = some score := by
  obtain ⟨sentence, hsentence⟩ : ∃ sentence,
      Build.pronSentence kkc.unknownWordVocabulary form = some sentence :=
    Lisp.exists_mapM_eq_some fun ch _ => h.unknownWordVocabulary.exists_toIntOrUnk _
  obtain ⟨bos, hbos⟩ : ∃ bos, kkc.unknownWordVocabulary.toInt Vocabulary.BOS = some bos :=
    h.unknownWordVocabulary.exists_toInt (by decide)
  obtain ⟨eos, heos⟩ : ∃ eos, kkc.unknownWordVocabulary.toInt Vocabulary.EOS = some eos :=
    h.unknownWordVocabulary.exists_toInt (by decide)
  obtain ⟨score, hscore⟩ := LanguageModel.Ngram.exists_sentenceLogProbability hlog h.weights
    sentence bos eos
  refine ⟨score, ?_⟩
  rw [unknownWordLogProbability, hsentence, hbos, heos]
  exact hscore

/-- The score of an entry after any other. -/
theorem exists_computeConvertScore (hlog : ∀ x, 0 < x → ∃ y, log x = some y)
    (h : WellBuilt kkc) {currEntry : ConvertEntry} (hcurr : Scored currEntry)
    (historyEntryList : List ConvertEntry) :
    ∃ score, computeConvertScore log kkc currEntry historyEntryList = some score := by
  obtain ⟨model, hmodel⟩ := h.ngramModel
  have hunk : ∃ unk, convertEntryUnkLogProbability log kkc currEntry = some unk := by
    unfold convertEntryUnkLogProbability
    cases hcurr with
    | inl hvocabulary => exact ⟨0, if_pos hvocabulary⟩
    | inr hform =>
        obtain ⟨form, hform⟩ := hform
        split
        next => exact ⟨0, rfl⟩
        next =>
          rw [hform]
          exact exists_unknownWordLogProbability hlog h form
  obtain ⟨unk, hunk⟩ := hunk
  simp only [computeConvertScore, transitionProbability, hmodel, hunk, Option.bind_eq_bind,
    Option.bind_some]
  split
  next hpos =>
    obtain ⟨logProb, hlogProb⟩ := hlog _ hpos
    exact ⟨logProb + unk, by rw [hlogProb]; rfl⟩
  next => exact ⟨_, rfl⟩

end Scores

/-! ## Two weights -/

/-- The conversion returns, and the pronunciations of its entries make up the given
one. -/
def Converts {K : Type} [Field K] [LinearOrder K] (log : K → Option K) (kkc : Kkc K)
    (pronunciation : Str) : Prop :=
  ∃ entries node lattice, execute log kkc pronunciation none = some (entries, node, lattice) ∧
    ∃ prons, entries.mapM ConvertEntry.pron = some prons ∧ prons.flatten = pronunciation

section Conversion

variable {K : Type} [Field K] [LinearOrder K] {log : K → Option K} {kkc : Kkc K}

/-- No unit has a pronunciation with the separator in it. -/
theorem Converts.slash_notMem {pronunciation : Str} (h : Converts log kkc pronunciation) :
    '/' ∉ pronunciation := by
  obtain ⟨entries, -, -, -, prons, hprons, rfl⟩ := h
  intro hmem
  obtain ⟨pron, hpron, hslash⟩ := List.mem_flatten.mp hmem
  obtain ⟨entry, -, hentry⟩ := (Lisp.mem_iff_of_mapM_eq_some hprons).mp hpron
  obtain ⟨unit, -, hunit⟩ := bind_inv hentry
  exact slash_notMem_of_unitPron hunit hslash

variable [IsStrictOrderedRing K]

/-- Without the separator every listing and every score is there, and the converter
finds its segmentation. -/
theorem WellBuilt.converts (h : WellBuilt kkc) (hclass : kkc.kkcClass = .kkc2gram)
    (hlog : ∀ x, 0 < x → ∃ y, log x = some y) {pronunciation : Str}
    (hslash : '/' ∉ pronunciation) : Converts log kkc pronunciation := by
  obtain ⟨bos, hbos⟩ : ∃ bos, kkc.vocabulary.toInt Vocabulary.BOS = some bos :=
    h.vocabulary.exists_toInt (by decide)
  obtain ⟨eos, heos⟩ : ∃ eos, kkc.vocabulary.toInt Vocabulary.EOS = some eos :=
    h.vocabulary.exists_toInt (by decide)
  let score : ConvertEntry → ConvertEntry → K := fun e p =>
    (computeConvertScore log kkc e [p]).getD 0
  let listing : Str → List ConvertEntry := fun s => (convertListEntriesFn kkc s).getD []
  have hscore : ∀ e p, Scored e → Scored p →
      convertScoreFn log kkc [e, p] = some (score e p) := by
    intro e p he _
    obtain ⟨v, hv⟩ := exists_computeConvertScore hlog h he [p]
    have hfn : convertScoreFn log kkc [e, p] = computeConvertScore log kkc e [p] := by
      simp only [convertScoreFn, hclass]
    rw [hfn, hv, Option.some.injEq]
    exact (congrArg (Option.getD · 0) hv).symm
  have hlist : ∀ s, s <:+: pronunciation → s ≠ [] →
      convertListEntriesFn kkc s = some (listing s) ∧ (∀ e ∈ listing s, e.pron = some s) ∧
        (s.length ≤ 7 → listing s ≠ []) := by
    intro s hs hne
    obtain ⟨entries, hentries, hpron, hshort⟩ :=
      exists_listEntries h (fun hmem => hslash (hs.subset hmem)) hne
    have heq : listing s = entries := congrArg (Option.getD · []) hentries
    rw [heq]
    exact ⟨hentries, hpron, hshort⟩
  have hentries : Convert.HasEntries listing pronunciation := fun s hs hpos hshort =>
    (hlist s hs (List.ne_nil_of_length_pos hpos)).2.2 hshort
  obtain ⟨entries, node, lattice, hexecute, hsegmentation, -, -⟩ :=
    Convert.Viterbi2gram.execute_best score listing
      { unit := none, token := bos, origin := .vocabulary }
      { unit := none, token := eos, origin := .vocabulary } pronunciation hentries
  refine ⟨entries, node, lattice, ?_,
    Convert.exists_prons_of_segmentation hsegmentation fun s hs hne => (hlist s hs hne).2.1⟩
  rw [← hexecute, ← Convert.Funcall2gram.execute_eq hscore
    (fun s hs hne => ⟨(hlist s hs hne).1, fun e he => scored_of_pron ((hlist s hs hne).2.1 e he)⟩)
    (Or.inl rfl) (Or.inl rfl)]
  simp only [execute, convertBeginEntry, convertEndEntry, hbos, heos, Option.bind_eq_bind,
    Option.bind_some]

/-- A kkc that was built with two weights and without a class file converts the
pronunciations in which the separator does not occur. -/
theorem converts_iff {order : WalkOrder} {weights : List K} (hweights : weights.length = 2)
    (hbuilt : Built order weights none kkc) (hlog : ∀ x, 0 < x → ∃ y, log x = some y)
    (pronunciation : Str) : Converts log kkc pronunciation ↔ '/' ∉ pronunciation := by
  constructor
  · exact Converts.slash_notMem
  · intro hslash
    exact hbuilt.wellBuilt.converts (hbuilt.kkc2gram hweights) hlog hslash

end Conversion

end

/-- `(log x)` of a positive number. -/
noncomputable def realLog (x : ℝ) : Option ℝ := if 0 < x then some (Real.log x) else none

theorem exists_realLog (x : ℝ) (h : 0 < x) : ∃ y, realLog x = some y := ⟨Real.log x, if_pos h⟩

/-- One word twice and another once. -/
theorem converts_word :
    ∃ kkc, buildKkcSimple .firstPut ["a/b a/b c/d".toList] none [(4 / 5 : ℝ), 1 / 5] none =
        some kkc ∧
      Converts realLog kkc "bd".toList := by
  obtain ⟨kkc, hkkc⟩ : ∃ kkc, buildKkcSimple .firstPut ["a/b a/b c/d".toList] none
      [(4 / 5 : ℝ), 1 / 5] none = some kkc := ⟨_, rfl⟩
  refine ⟨kkc, hkkc, (converts_iff rfl (.simple _ none hkkc) exists_realLog _).mpr ?_⟩
  decide

/-- The same words, and the separator as the pronunciation. -/
theorem not_converts_slash :
    ∃ kkc, buildKkcSimple .firstPut ["a/b a/b c/d".toList] none [(4 / 5 : ℝ), 1 / 5] none =
        some kkc ∧
      ¬Converts realLog kkc "/".toList :=
  ⟨_, rfl, fun h => h.slash_notMem (by decide)⟩

/-! ## Three weights -/

section Trigrams

variable [ClPpcre] {K : Type} [Field K] [LinearOrder K] (log : K → Option K)

/-- The score function of `kkc-3gram` takes three arguments, and the converter that it
inherits calls it with two. -/
theorem execute_kkc3gram {kkc : Kkc K} (h : kkc.kkcClass = .kkc3gram) (pronunciation : Str)
    (firstBoundaryIndex : Option Nat) :
    execute log kkc pronunciation firstBoundaryIndex = none := by
  have hscore : ∀ e p, convertScoreFn log kkc [e, p] = none := by
    intro e p
    simp only [convertScoreFn, h]
  rw [execute]
  cases convertBeginEntry kkc with
  | none => rfl
  | some beginEntry =>
      cases convertEndEntry kkc with
      | none => rfl
      | some endEntry => exact Convert.Funcall2gram.execute_eq_none hscore _ _ _ _ _

/-- A kkc that was built with three weights signals an error for every pronunciation. -/
theorem execute_of_three_weights {order : WalkOrder} {weights : List K}
    (hweights : weights.length = 3) {classTokenToWordFile : Option Str} {kkc : Kkc K}
    (hbuilt : Built order weights classTokenToWordFile kkc) (pronunciation : Str)
    (firstBoundaryIndex : Option Nat) :
    execute log kkc pronunciation firstBoundaryIndex = none ∧ ¬Converts log kkc pronunciation := by
  have hkkc := hbuilt.kkc3gram hweights
  refine ⟨execute_kkc3gram log hkkc pronunciation firstBoundaryIndex, fun h => ?_⟩
  obtain ⟨entries, node, lattice, hexecute, -⟩ := h
  rw [execute_kkc3gram log hkkc] at hexecute
  cases hexecute

end Trigrams

/-- The words of the example above, and a pronunciation of one of them. -/
theorem execute_of_three_weights_word :
    ∃ kkc, buildKkcSimple .firstPut ["a/b a/b c/d".toList] none [(1 / 2 : ℝ), 1 / 4, 1 / 4] none =
        some kkc ∧
      execute realLog kkc "b".toList none = none ∧ ¬Converts realLog kkc "b".toList := by
  obtain ⟨kkc, hkkc⟩ : ∃ kkc, buildKkcSimple .firstPut ["a/b a/b c/d".toList] none
      [(1 / 2 : ℝ), 1 / 4, 1 / 4] none = some kkc := ⟨_, rfl⟩
  exact ⟨kkc, hkkc, execute_of_three_weights realLog rfl (.simple _ none hkkc) _ none⟩

/-- The error is signalled even for the empty pronunciation. -/
theorem execute_three_weights_empty :
    ∃ kkc, buildKkcSimple .firstPut ["a/b a/b c/d".toList] none [(1 / 2 : ℝ), 1 / 4, 1 / 4] none =
        some kkc ∧
      execute realLog kkc [] none = none :=
  ⟨_, rfl, execute_kkc3gram realLog rfl [] none⟩

end Hachee.Kkc.Impl.Lm
