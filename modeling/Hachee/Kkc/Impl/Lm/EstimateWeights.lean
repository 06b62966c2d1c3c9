import Hachee.Foundation.Counting
import Hachee.Kkc.Impl.Lm.Vocabularies
import Hachee.LanguageModel.Ngram.HeldOut

/-!
# The weights of a bigram model, from corpora (`hachee.kkc.impl.lm.build`)

Each of the files is held out once, with the counts of all the others.  A token of a held-out
file has a probability if one of the other files has it too.  `EOS` is in every file that has a
line, and a word of the vocabulary is in two files.  The unknown words are all different, but
have one token, and it is in another file exactly if another file has an unknown word.

So the estimation divides by zero exactly if all the unknown words are in one of the files
(`neverZero_iff`).
-/

namespace Hachee.Kkc.Impl.Lm.Build

open Lisp (ClPpcre Str WalkOrder)
open LanguageModel (Vocabulary)
open Hachee.LanguageModel.Ngram (addCorpusCounts)
open Hachee.LanguageModel.Ngram.Probability (Freq weightedList)
open Hachee.LanguageModel.Ngram.EstimateWeights (CrossItem Admissible Reached estimate2gram
  heldOutEvents mem_heldOutEvents exists_mem_heldOutEvents sum_weightedList_pos_of_mem
  sum_weightedList_eq_zero_of_notMem exists_estimate)

section

variable [ClPpcre]

/-! ## The estimation -/

/-- `build-freq` -/
def buildFreq (pathnames : List Str) (vocabulary : Vocabulary) (n : Nat) (BOS EOS : Int) :
    Option (Freq Int) := do
  let tokens ← sentences pathnames vocabulary
  some (addCorpusCounts n tokens BOS EOS)

/-- `build-corpus` -/
def buildCorpus (p : Str) (vocabulary : Vocabulary) :
    Option (LanguageModel.Ngram.EstimateWeights.Corpus Int) := do
  let sentenceList ← sentences [p] vocabulary
  some ⟨sentenceList⟩

/-- The file at a position, with the counts of the files at all other positions. -/
def crossItem (pathnames : List Str) (vocabulary : Vocabulary) (BOS EOS : Int) (i : Nat) :
    Option (CrossItem Int) := do
  let corpusPathname ← pathnames[i]?
  let freqPathnames := pathnames.eraseIdx i
  let freq ← buildFreq freqPathnames vocabulary 2 BOS EOS
  let corpus ← buildCorpus corpusPathname vocabulary
  some ⟨freq, corpus⟩

/-- `items` -/
def crossItems (pathnames : List Str) (vocabulary : Vocabulary) (BOS EOS : Int) :
    Option (List (CrossItem Int)) :=
  (List.range pathnames.length).mapM (crossItem pathnames vocabulary BOS EOS)

/-- `estimate-2gram-weights` -/
def estimate2gramWeights {K : Type} [Field K] [LinearOrder K] (pathnames : List Str)
    (vocabulary : Vocabulary) : Option (List K) := do
  let BOS ← vocabulary.toInt Vocabulary.BOS
  let EOS ← vocabulary.toInt Vocabulary.EOS
  let items ← crossItems pathnames vocabulary BOS EOS
  estimate2gram items BOS EOS

/-- The estimation does not divide by zero.  In every iteration every event of every held-out
file has a positive probability under the counts of the other files. -/
structure NeverZero (pathnames : List Str) (vocabulary : Vocabulary) : Prop where
  returns : ∃ weights : List ℝ, estimate2gramWeights pathnames vocabulary = some weights
  positive : ∀ BOS EOS items, vocabulary.toInt Vocabulary.BOS = some BOS →
    vocabulary.toInt Vocabulary.EOS = some EOS →
    crossItems pathnames vocabulary BOS EOS = some items →
    ∀ weights : List ℝ, Reached 2 items BOS EOS [8 / 10, 2 / 10] weights →
      ∀ item ∈ items, ∀ event ∈ heldOutEvents 2 BOS EOS item,
        0 < (weightedList item.freq weights event.1 event.2).sum

/-! ## Tokens of a file -/

section Tokens

variable {vocabulary : Vocabulary} {file : Str} {token : Int}

/-- A word of the file has the token. -/
def hasToken (vocabulary : Vocabulary) (token : Int) (file : Str) : Bool :=
  (fileUnits file).any fun unit => vocabulary.toIntOrUnk unit = some token

theorem hasToken_iff : hasToken vocabulary token file = true ↔
    ∃ unit ∈ fileUnits file, vocabulary.toIntOrUnk unit = some token := by
  simp [hasToken]

/-- The sentences of files have the tokens of the files. -/
theorem exists_mem_tokens_iff {pathnames : List Str} {tss : List (List Int)}
    (h : sentences pathnames vocabulary = some tss) :
    (∃ tokens ∈ tss, token ∈ tokens) ↔ ∃ file ∈ pathnames, hasToken vocabulary token file := by
  simp only [exists_mem_sentences_iff h, hasToken_iff]

omit [ClPpcre] in
theorem makeUnit_ne_UNK (form pron : Str) : makeUnit form pron ≠ Vocabulary.UNK := fun h =>
  makeUnit_notMem_specials form pron (by rw [h]; exact List.mem_cons_self)

/-- The token of `UNK` is that of the unknown words. -/
theorem hasToken_unk_iff {unk : Int} (hunk : vocabulary.toInt Vocabulary.UNK = some unk) :
    hasToken vocabulary unk file = true ↔ unknownUnits vocabulary file ≠ [] := by
  simp only [hasToken_iff, unknownUnits, Ne, List.filter_eq_nil_iff, not_forall, not_not,
    exists_prop, Option.isNone_iff_eq_none, Vocabulary.toIntOrNil_eq_none]
  refine exists_congr fun unit => and_congr_right fun hunit => ?_
  obtain ⟨form, pron, rfl, -⟩ := of_mem_fileUnits hunit
  exact Vocabulary.toIntOrUnk_eq_some_iff hunk (makeUnit_ne_UNK form pron)

/-- The other tokens are in two files. -/
theorem two_le_countP_hasToken {order : WalkOrder} {pathnames : List Str}
    (hvocabulary : buildVocabularyWithUnk order pathnames 2 = some vocabulary) {unk : Int}
    (hunk : vocabulary.toInt Vocabulary.UNK = some unk) (htoken : token ≠ unk)
    (h : hasToken vocabulary token file = true) :
    2 ≤ pathnames.countP (hasToken vocabulary token) := by
  obtain ⟨unit, hunit, hget⟩ := hasToken_iff.mp h
  obtain ⟨form, pron, rfl, -⟩ := of_mem_fileUnits hunit
  have hspecial := makeUnit_notMem_specials form pron
  have hkey : makeUnit form pron ∈ vocabulary.keys := by
    by_contra hnot
    rw [(Vocabulary.toIntOrUnk_eq_some_iff hunk (makeUnit_ne_UNK form pron)).mpr hnot] at hget
    exact htoken (Option.some.inj hget).symm
  obtain ⟨-, hvocabulary⟩ := Option.ite_none_right_eq_some.mp hvocabulary
  rw [← Option.some.inj hvocabulary, mem_keys_overlapVocabulary, or_iff_right hspecial,
    List.countP_map] at hkey
  refine hkey.2.trans (List.countP_mono_left fun file _ hmem => ?_)
  exact hasToken_iff.mpr ⟨_, of_decide_eq_true hmem, hget⟩

end Tokens

/-! ## Held-out tokens -/

section HeldOut

variable {order : WalkOrder} {pathnames : List Str} {vocabulary : Vocabulary}
  {BOS EOS unk : Int} {i : Nat}

/-- What is held out, and what is counted. -/
theorem exists_crossItem (hcomplete : Complete vocabulary) (BOS EOS : Int)
    (hi : i < pathnames.length) :
    ∃ counted heldOut, sentences (pathnames.eraseIdx i) vocabulary = some counted ∧
      sentences [pathnames[i]] vocabulary = some heldOut ∧
      crossItem pathnames vocabulary BOS EOS i =
        some ⟨addCorpusCounts 2 counted BOS EOS, ⟨heldOut⟩⟩ := by
  obtain ⟨counted, hcounted⟩ := hcomplete.exists_sentences (pathnames.eraseIdx i)
  obtain ⟨heldOut, hheldOut⟩ := hcomplete.exists_sentences [pathnames[i]]
  refine ⟨counted, heldOut, hcounted, hheldOut, ?_⟩
  rw [crossItem, List.getElem?_eq_getElem hi]
  simp [buildFreq, buildCorpus, hcounted, hheldOut]

theorem exists_crossItems (hcomplete : Complete vocabulary) (pathnames : List Str)
    (BOS EOS : Int) :
    ∃ items, crossItems pathnames vocabulary BOS EOS = some items :=
  Lisp.exists_mapM_eq_some fun i hi => by
    obtain ⟨counted, heldOut, -, -, hitem⟩ :=
      exists_crossItem hcomplete BOS EOS (List.mem_range.mp hi)
    exact ⟨_, hitem⟩

/-- Every item holds out one of the files. -/
theorem exists_of_mem_crossItems (hcomplete : Complete vocabulary) {items : List (CrossItem Int)}
    (hitems : crossItems pathnames vocabulary BOS EOS = some items) {item : CrossItem Int}
    (hitem : item ∈ items) :
    ∃ i, ∃ hi : i < pathnames.length, ∃ counted heldOut,
      sentences (pathnames.eraseIdx i) vocabulary = some counted ∧
      sentences [pathnames[i]] vocabulary = some heldOut ∧
      item = ⟨addCorpusCounts 2 counted BOS EOS, ⟨heldOut⟩⟩ := by
  obtain ⟨i, hi, hcross⟩ := (Lisp.mem_iff_of_mapM_eq_some hitems).mp hitem
  rw [List.mem_range] at hi
  obtain ⟨counted, heldOut, hcounted, hheldOut, hcross'⟩ := exists_crossItem hcomplete BOS EOS hi
  exact ⟨i, hi, counted, heldOut, hcounted, hheldOut, Option.some.inj (hcross.symm.trans hcross')⟩

theorem crossItems_ne_nil (hpathnames : pathnames ≠ []) {items : List (CrossItem Int)}
    (hitems : crossItems pathnames vocabulary BOS EOS = some items) : items ≠ [] := by
  have hsize := Lisp.length_of_mapM_eq_some hitems
  rw [List.length_range] at hsize
  exact List.ne_nil_of_length_pos (hsize ▸ List.length_pos_iff.mpr hpathnames)

/-- A file with a line has a sentence. -/
theorem sentences_ne_nil {tss : List (List Int)} (h : sentences pathnames vocabulary = some tss)
    {file : Str} (hmem : file ∈ pathnames) (hne : file ≠ []) : tss ≠ [] := by
  obtain ⟨line, hline⟩ := List.exists_mem_of_ne_nil _ (Lisp.readLines_ne_nil hne)
  obtain ⟨tokens, htokens, -⟩ :=
    Lisp.exists_of_mapM_eq_some h (List.mem_flatMap.mpr ⟨file, hmem, hline⟩)
  exact List.ne_nil_of_mem htokens

theorem sentenceList_ne_nil (hcomplete : Complete vocabulary)
    (hfiles : ∀ file ∈ pathnames, file ≠ []) {items : List (CrossItem Int)}
    (hitems : crossItems pathnames vocabulary BOS EOS = some items) {item : CrossItem Int}
    (hitem : item ∈ items) : item.corpus.sentenceList ≠ [] := by
  obtain ⟨i, hi, counted, heldOut, -, hheldOut, rfl⟩ :=
    exists_of_mem_crossItems hcomplete hitems hitem
  exact sentences_ne_nil hheldOut (List.mem_singleton_self _) (hfiles _ (List.getElem_mem hi))

/-- Unless one file only has unknown words, every token of a file is in another file. -/
theorem exists_hasToken_eraseIdx
    (hvocabulary : buildVocabularyWithUnk order pathnames 2 = some vocabulary)
    (hunk : vocabulary.toInt Vocabulary.UNK = some unk)
    (hcount : pathnames.countP (fun file => decide (unknownUnits vocabulary file ≠ [])) ≠ 1)
    (hi : i < pathnames.length) {token : Int}
    (htoken : hasToken vocabulary token pathnames[i] = true) :
    ∃ file ∈ pathnames.eraseIdx i, hasToken vocabulary token file = true := by
  refine Foundation.exists_mem_eraseIdx ?_ hi
  by_cases heq : token = unk
  · subst heq
    have hpos : 0 < pathnames.countP (hasToken vocabulary token) :=
      List.countP_pos_iff.mpr ⟨_, List.getElem_mem hi, htoken⟩
    have hsame : pathnames.countP (hasToken vocabulary token) =
        pathnames.countP (fun file => decide (unknownUnits vocabulary file ≠ [])) :=
      List.countP_congr fun file _ => by rw [hasToken_unk_iff hunk, decide_eq_true_eq]
    omega
  · exact two_le_countP_hasToken hvocabulary hunk heq htoken

/-- Then the estimation begins with weights under which every event is possible. -/
theorem admissible_crossItems
    (hvocabulary : buildVocabularyWithUnk order pathnames 2 = some vocabulary)
    (hlength : 2 ≤ pathnames.length) (hfiles : ∀ file ∈ pathnames, file ≠ [])
    (hcount : pathnames.countP (fun file => decide (unknownUnits vocabulary file ≠ [])) ≠ 1)
    {items : List (CrossItem Int)} (hitems : crossItems pathnames vocabulary BOS EOS = some items) :
    Admissible 2 items BOS EOS [8 / 10, 2 / 10] := by
  have hcomplete := complete_of_buildVocabularyWithUnk hvocabulary
  obtain ⟨unk, hunk⟩ : ∃ unk, vocabulary.toInt Vocabulary.UNK = some unk :=
    hcomplete.exists_toInt List.mem_cons_self
  have hweights : ∀ w ∈ [(8 / 10 : ℝ), 2 / 10], 0 < w := by norm_num
  refine ⟨rfl, fun w hw => (hweights w hw).le, by norm_num, fun item hitem event hevent => ?_⟩
  obtain ⟨i, hi, counted, heldOut, hcounted, hheldOut, rfl⟩ :=
    exists_of_mem_crossItems hcomplete hitems hitem
  obtain ⟨⟨tokens, htokens, htoken⟩, hhistory⟩ := mem_heldOutEvents (Nat.le_refl 2) hevent
  suffices hother : ∃ tokens ∈ counted, event.1 ∈ tokens ++ [EOS] by
    obtain ⟨tokens', htokens', htoken'⟩ := hother
    exact sum_weightedList_pos_of_mem (by decide) htokens' htoken' hweights
      (by rw [hhistory]; decide)
  cases List.mem_append.mp htoken with
  | inl htoken =>
      obtain ⟨file, hfile, hhas⟩ := (exists_mem_tokens_iff hheldOut).mp ⟨tokens, htokens, htoken⟩
      rw [List.mem_singleton] at hfile
      subst hfile
      obtain ⟨tokens', htokens', htoken'⟩ := (exists_mem_tokens_iff hcounted).mpr
        (exists_hasToken_eraseIdx hvocabulary hunk hcount hi hhas)
      exact ⟨tokens', htokens', List.mem_append_left _ htoken'⟩
  | inr hend =>
      -- The end of a sentence is in every other file.
      have hothers : pathnames.eraseIdx i ≠ [] := by
        rw [← List.length_pos_iff, List.length_eraseIdx_of_lt hi]
        omega
      obtain ⟨file, hfile⟩ := List.exists_mem_of_ne_nil _ hothers
      have hne := hfiles file (List.mem_of_mem_eraseIdx hfile)
      obtain ⟨tokens', htokens'⟩ :=
        List.exists_mem_of_ne_nil _ (sentences_ne_nil hcounted hfile hne)
      exact ⟨tokens', htokens', List.mem_append_right _ hend⟩

theorem neverZero_of_countP_ne_one
    (hvocabulary : buildVocabularyWithUnk order pathnames 2 = some vocabulary)
    (hlength : 2 ≤ pathnames.length) (hfiles : ∀ file ∈ pathnames, file ≠ [])
    (hcount : pathnames.countP (fun file => decide (unknownUnits vocabulary file ≠ [])) ≠ 1) :
    NeverZero pathnames vocabulary := by
  have hcomplete := complete_of_buildVocabularyWithUnk hvocabulary
  have hpathnames : pathnames ≠ [] := List.ne_nil_of_length_pos (by omega)
  constructor
  · obtain ⟨BOS, hbos⟩ : ∃ BOS, vocabulary.toInt Vocabulary.BOS = some BOS :=
      hcomplete.exists_toInt (by decide)
    obtain ⟨EOS, heos⟩ : ∃ EOS, vocabulary.toInt Vocabulary.EOS = some EOS :=
      hcomplete.exists_toInt (by decide)
    obtain ⟨items, hitems⟩ := exists_crossItems hcomplete pathnames BOS EOS
    have hcorpora : ∀ item ∈ items, item.corpus.sentenceList ≠ [] :=
      fun _ => sentenceList_ne_nil hcomplete hfiles hitems
    obtain ⟨weights, hestimate, -⟩ :=
      (exists_estimate (crossItems_ne_nil hpathnames hitems) hcorpora).1
        (admissible_crossItems hvocabulary hlength hfiles hcount hitems)
    refine ⟨weights, ?_⟩
    rw [estimate2gramWeights, hbos, heos, Option.bind_eq_bind, Option.bind_some,
      Option.bind_eq_bind, Option.bind_some, hitems]
    exact hestimate
  · intro BOS EOS items _ _ hitems weights hreached
    have hcorpora : ∀ item ∈ items, item.corpus.sentenceList ≠ [] :=
      fun _ => sentenceList_ne_nil hcomplete hfiles hitems
    exact (hreached.admissible (crossItems_ne_nil hpathnames hitems) hcorpora
      (admissible_crossItems hvocabulary hlength hfiles hcount hitems)).pos

/-- The token of `UNK` has no probability in the file that has all the unknown words. -/
theorem not_neverZero_of_countP_eq_one (hcomplete : Complete vocabulary)
    (hcount : pathnames.countP (fun file => decide (unknownUnits vocabulary file ≠ [])) = 1) :
    ¬ NeverZero pathnames vocabulary := by
  intro h
  obtain ⟨unk, hunk⟩ : ∃ unk, vocabulary.toInt Vocabulary.UNK = some unk :=
    hcomplete.exists_toInt (by decide)
  obtain ⟨BOS, hbos⟩ : ∃ BOS, vocabulary.toInt Vocabulary.BOS = some BOS :=
    hcomplete.exists_toInt (by decide)
  obtain ⟨EOS, heos⟩ : ∃ EOS, vocabulary.toInt Vocabulary.EOS = some EOS :=
    hcomplete.exists_toInt (by decide)
  have hunkbos : unk ≠ BOS := fun heq =>
    absurd (Vocabulary.toIntOrNil_inj hunk (heq ▸ hbos)) (by decide)
  have hunkeos : unk ≠ EOS := fun heq =>
    absurd (Vocabulary.toIntOrNil_inj hunk (heq ▸ heos)) (by decide)
  obtain ⟨items, hitems⟩ := exists_crossItems hcomplete pathnames BOS EOS
  obtain ⟨i, hi, hfile, hothers⟩ := Foundation.exists_eraseIdx_of_countP_eq_one hcount
  obtain ⟨counted, heldOut, hcounted, hheldOut, hcross⟩ := exists_crossItem hcomplete BOS EOS hi
  -- an event with the token, in the file
  obtain ⟨tokens, htokens, htoken⟩ := (exists_mem_tokens_iff hheldOut).mpr
    ⟨_, List.mem_singleton_self _, (hasToken_unk_iff hunk).mpr (of_decide_eq_true hfile)⟩
  obtain ⟨event, hevent, heq⟩ := @exists_mem_heldOutEvents Int 2 BOS EOS
    ⟨addCorpusCounts 2 counted BOS EOS, ⟨heldOut⟩⟩ tokens unk htokens htoken
  have hpos := h.positive BOS EOS items hbos heos hitems _ .initial _
    ((Lisp.mem_iff_of_mapM_eq_some hitems).mpr ⟨i, List.mem_range.mpr hi, hcross⟩) event hevent
  rw [heq, sum_weightedList_eq_zero_of_notMem hunkbos ?_] at hpos
  · exact lt_irrefl _ hpos
  · intro tokens' htokens' hmem
    cases List.mem_append.mp hmem with
    | inl hmem =>
        obtain ⟨file, hfile', hhas⟩ := (exists_mem_tokens_iff hcounted).mp ⟨tokens', htokens', hmem⟩
        exact of_decide_eq_false (hothers file hfile') ((hasToken_unk_iff hunk).mp hhas)
    | inr hmem => exact hunkeos (List.mem_singleton.mp hmem)

end HeldOut

/-- With the vocabulary of two or more files that have lines, the estimation of the weights on
these files never divides by zero, and in every iteration every held-out event has a
probability, if and only if the number of files with unknown words is not one. -/
theorem neverZero_iff {order : WalkOrder} {pathnames : List Str} {vocabulary : Vocabulary}
    (hlength : 2 ≤ pathnames.length) (hfiles : ∀ file ∈ pathnames, file ≠ [])
    (hvocabulary : buildVocabularyWithUnk order pathnames 2 = some vocabulary) :
    NeverZero pathnames vocabulary ↔
      pathnames.countP (fun file => decide (unknownUnits vocabulary file ≠ [])) ≠ 1 := by
  constructor
  · intro h hcount
    exact not_neverZero_of_countP_eq_one (complete_of_buildVocabularyWithUnk hvocabulary) hcount h
  · exact neverZero_of_countP_ne_one hvocabulary hlength hfiles

end

/-- Both files have an unknown word. -/
theorem neverZero_iff_both : ∃ vocabulary,
    buildVocabularyWithUnk .firstPut ["x/x y/y".toList, "x/x z/z".toList] 2 = some vocabulary ∧
    NeverZero ["x/x y/y".toList, "x/x z/z".toList] vocabulary := by
  refine ⟨_, rfl, (neverZero_iff (by decide) (by decide) rfl).mpr ?_⟩
  decide

/-- The word `y` is in one file only, and is the only unknown word. -/
theorem not_neverZero : ¬ ∀ (order : WalkOrder) (pathnames : List Str) (vocabulary : Vocabulary),
    2 ≤ pathnames.length → (∀ file ∈ pathnames, file ≠ []) →
    buildVocabularyWithUnk order pathnames 2 = some vocabulary →
    NeverZero pathnames vocabulary := by
  intro h
  have hnever := h .firstPut ["x/x y/y".toList, "x/x".toList] _ (by decide) (by decide) rfl
  refine not_neverZero_of_countP_eq_one ?_ ?_ hnever
  · exact complete_overlapVocabulary _ _ _
  · decide

end Hachee.Kkc.Impl.Lm.Build
