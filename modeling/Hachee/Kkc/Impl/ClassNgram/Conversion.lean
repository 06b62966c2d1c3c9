import Mathlib.Analysis.SpecialFunctions.Log.Basic
import Hachee.Kkc.Convert.Best2gram
import Hachee.Kkc.Impl.ClassNgram.Corpora
import Hachee.Kkc.Impl.ClassNgram.Counted
import Hachee.Kkc.Impl.ClassNgram.ReadKkc

/-!
# What an engine that was read can convert

An engine whose listings and scores are no errors converts every pronunciation, and no
other segmentation of it has a higher score (`ConvertsAnything.converts`).

The engine looks up the counts of the unknown word and of the character without an
id for some pronunciation, whatever the corpora are.  These counts are there if and
only if some character occurs in the unknown words of exactly one corpus file, and
then nothing else is missing (`convertsAnything_iff`).
-/

namespace Hachee.Kkc.Impl.ClassNgram

open Foundation
open Lisp (ClPpcre Str WalkOrder Table)
open LanguageModel (Vocabulary)
open Hachee.LanguageModel.Ngram (classToken corpusNgrams initialWeights getCount_addCorpusCounts
  ClassModel.addCounts_eq_some)
open Convert.Viterbi2gram (Node endTable createNodes_cases)
open Lm (makeUnit unitPron BuildArgs)
open Lm.Build

section

variable [ClPpcre]

section Property

variable {R : Type} [AddCommGroup R] (log : Rat → R) (kkc : Kkc2gram R)

/-- In a table that the converter fills for the pronunciation, whatever the first boundary,
a node of `curr` starts where a node of `prev` ends. -/
def Adjacent (pron : Str) (curr prev : ConvertEntry R) : Prop :=
  ∃ (firstBoundaryIndex : Option Nat) (lattice : Convert.Lattice (Node (ConvertEntry R) R))
    (start middle stop : Int) (prevNode node : Nat) (p n : Node (ConvertEntry R) R),
    Convert.Funcall2gram.createNodes (fun ent => { entry := ent }) (convertListEntriesFn log kkc)
        (Convert.clipBoundaryIndex firstBoundaryIndex) pron
        (endTable (convertBeginEntry kkc) (convertEndEntry kkc) pron.length) = some lattice ∧
    lattice.Cell start middle prevNode ∧ lattice.heap[prevNode]? = some p ∧ p.entry = prev ∧
    lattice.Cell middle stop node ∧ lattice.heap[node]? = some n ∧ n.entry = curr

/-- No listing of entries and no score of adjacent entries is an error. -/
structure ConvertsAnything : Prop where
  list : ∀ pron, ∃ entries, convertListEntriesFn log kkc pron = some entries
  score : ∀ pron curr prev, Adjacent log kkc pron curr prev →
    ∃ score, convertScoreFn log kkc [curr, prev] = some score

end Property

section Entries

variable {R : Type} [AddCommGroup R] {log : Rat → R} {kkc : Kkc2gram R}

/-- The entry is listed for some string. -/
def Listed (log : Rat → R) (kkc : Kkc2gram R) (e : ConvertEntry R) : Prop :=
  ∃ pron entries, convertListEntriesFn log kkc pron = some entries ∧ e ∈ entries

omit [ClPpcre] in
/-- Before an entry of the table stands the begin or a listed entry, and an entry with
something before it is the end or listed. -/
theorem Adjacent.cases (hlist : ∀ pron, ∃ entries, convertListEntriesFn log kkc pron = some entries)
    {pron : Str} {curr prev : ConvertEntry R} (h : Adjacent log kkc pron curr prev) :
    (curr = convertEndEntry kkc ∨ Listed log kkc curr) ∧
      (prev = convertBeginEntry kkc ∨ Listed log kkc prev) := by
  obtain ⟨boundary, lattice, start, middle, stop, prevNode, node, p, n, hcreate, hprevCell, hp,
    rfl, hcell, hn, rfl⟩ := h
  choose listing hlisting using hlist
  rw [Convert.Funcall2gram.createNodes_eq fun s _ _ => hlisting s] at hcreate
  constructor
  · rcases createNodes_cases hcreate hcell with ⟨rfl, -, -⟩ | ⟨-, -, hnode⟩ |
      ⟨i, j, e, -, -, -, -, he, hnode⟩
    · -- nothing ends before the begin
      rcases createNodes_cases hcreate hprevCell with ⟨-, hstop, -⟩ | ⟨-, hstop, -⟩ |
        ⟨i, j, e, -, hstop, -⟩
      · omega
      · omega
      · omega
    · rw [hn, Option.some.injEq] at hnode
      exact Or.inl (congrArg Node.entry hnode)
    · rw [hn, Option.some.injEq] at hnode
      exact Or.inr ⟨_, _, hlisting _, by rw [hnode]; exact he⟩
  · rcases createNodes_cases hcreate hprevCell with ⟨-, -, hnode⟩ | ⟨-, rfl, -⟩ |
      ⟨i, j, e, -, -, -, -, he, hnode⟩
    · rw [hp, Option.some.injEq] at hnode
      exact Or.inl (congrArg Node.entry hnode)
    · -- nothing starts behind the end
      rcases createNodes_cases hcreate hcell with ⟨hstart, -⟩ | ⟨hstart, -⟩ |
        ⟨i, j, e, hstart, -, hij, hj, -⟩
      · omega
      · omega
      · omega
    · rw [hp, Option.some.injEq] at hnode
      exact Or.inr ⟨_, _, hlisting _, by rw [hnode]; exact he⟩

omit [ClPpcre] in
/-- The entries that are listed have the string as their pronunciation. -/
theorem pron_of_list {pron : Str} {entries : List (ConvertEntry R)}
    (h : convertListEntriesFn log kkc pron = some entries) {e : ConvertEntry R}
    (he : e ∈ entries) : e.pron = some pron := by
  have hknown : ∀ e ∈ knownEntries kkc.classVocab kkc.exDict pron, e.pron = some pron := by
    intro e he
    rcases List.mem_append.mp he with he | he
    · obtain ⟨entry, -, rfl⟩ := List.mem_map.mp he
      rfl
    · obtain ⟨entry, -, rfl⟩ := List.mem_map.mp he
      rfl
  rw [convertListEntriesFn, listConvertEntries] at h
  split at h
  next =>
    obtain ⟨logProb, -, h⟩ := Lisp.bind_inv h
    rw [← Option.some.inj h, List.mem_cons, List.mem_reverse] at he
    cases he with
    | inl he =>
        rw [he]
        rfl
    | inr he => exact hknown e he
  next =>
    rw [← Option.some.inj h, List.mem_reverse] at he
    exact hknown e he

omit [ClPpcre] in
/-- A short string has an entry, that of the unknown word. -/
theorem ne_nil_of_list {pron : Str} (hshort : pron.length ≤ 7) {entries : List (ConvertEntry R)}
    (h : convertListEntriesFn log kkc pron = some entries) : entries ≠ [] := by
  rw [convertListEntriesFn, listConvertEntries, if_pos (Nat.lt_succ_of_le hshort)] at h
  obtain ⟨logProb, -, h⟩ := Lisp.bind_inv h
  rw [← Option.some.inj h]
  exact List.cons_ne_nil _ _

omit [ClPpcre] in
/-- An engine without errors converts every pronunciation: the pronunciations of the
entries make it up, and no other segmentation has a higher score. -/
theorem ConvertsAnything.converts [LinearOrder R] [IsOrderedAddMonoid R]
    (h : ConvertsAnything log kkc) (pron : Str) :
    ∃ (score : ConvertEntry R → ConvertEntry R → R) (listing : Str → List (ConvertEntry R))
      (entries : List (ConvertEntry R)) (node : Node (ConvertEntry R) R)
      (lattice : Convert.Lattice (Node (ConvertEntry R) R)),
      (∀ curr prev, Adjacent log kkc pron curr prev →
        convertScoreFn log kkc [curr, prev] = some (score curr prev)) ∧
      (∀ s, convertListEntriesFn log kkc s = some (listing s)) ∧
      execute log kkc pron none = some (entries, node, lattice) ∧
      Segmentation listing pron entries ∧
      (∃ prons, entries.mapM ConvertEntry.pron = some prons ∧ prons.flatten = pron) ∧
      ∀ entries', Segmentation listing pron entries' →
        pathScore score (convertBeginEntry kkc) (entries' ++ [convertEndEntry kkc]) ≤
          pathScore score (convertBeginEntry kkc) (entries ++ [convertEndEntry kkc]) := by
  choose listing hlisting using h.list
  let score : ConvertEntry R → ConvertEntry R → R := fun curr prev =>
    (convertScoreFn log kkc [curr, prev]).getD 0
  have hscore : ∀ curr prev, Adjacent log kkc pron curr prev →
      convertScoreFn log kkc [curr, prev] = some (score curr prev) := by
    intro curr prev hadjacent
    obtain ⟨value, hvalue⟩ := h.score pron curr prev hadjacent
    rw [hvalue, Option.some.injEq]
    exact (congrArg (Option.getD · 0) hvalue).symm
  have hentries : Convert.HasEntries listing pron := fun s _ _ hshort =>
    ne_nil_of_list hshort (hlisting s)
  obtain ⟨entries, node, lattice, hexecute, hsegmentation, -, hbest⟩ :=
    Convert.Viterbi2gram.execute_best score listing (convertBeginEntry kkc) (convertEndEntry kkc)
      pron hentries
  refine ⟨score, listing, entries, node, lattice, hscore, hlisting, ?_, hsegmentation,
    Convert.exists_prons_of_segmentation hsegmentation fun s _ _ e he =>
      pron_of_list (hlisting s) he, hbest⟩
  rw [← hexecute, execute]
  refine Convert.Funcall2gram.execute_eq_of_adjacent (fun s _ _ => hlisting s) ?_
  intro filled hcreate start middle stop prevNode node hprevCell hcell n p hn hp
  rw [← Convert.Funcall2gram.createNodes_eq fun s _ _ => hlisting s] at hcreate
  exact hscore _ _ ⟨none, filled, start, middle, stop, prevNode, node, p, n, hcreate, hprevCell,
    hp, rfl, hcell, hn, rfl⟩

omit [ClPpcre] in
/-- Without an extended dictionary an entry is an unknown word or a word of the
vocabulary. -/
theorem Listed.word_cases (hexDict : kkc.exDict = .empty) {e : ConvertEntry R}
    (h : Listed log kkc e) : e.word = kkc.classVocab.unkWord ∨
      ∃ pron form, ⟨form, e.word⟩ ∈ kkc.classVocab.entries pron := by
  obtain ⟨pron, entries, hentries, he⟩ := h
  have hknown : ∀ e ∈ knownEntries kkc.classVocab kkc.exDict pron,
      ∃ pron form, ⟨form, e.word⟩ ∈ kkc.classVocab.entries pron := by
    intro e he
    rw [knownEntries, hexDict, Lisp.HashTable.gethash_empty, Option.getD_none, List.map_nil,
      List.append_nil] at he
    obtain ⟨entry, hentry, rfl⟩ := List.mem_map.mp he
    exact ⟨pron, entry.form, hentry⟩
  rw [convertListEntriesFn, listConvertEntries] at hentries
  split at hentries
  next =>
    obtain ⟨logProb, -, hentries⟩ := Lisp.bind_inv hentries
    rw [← Option.some.inj hentries, List.mem_cons, List.mem_reverse] at he
    cases he with
    | inl he => exact Or.inl (congrArg ConvertEntry.word he)
    | inr he => exact Or.inr (hknown e he)
  next =>
    rw [← Option.some.inj hentries, List.mem_reverse] at he
    exact Or.inr (hknown e he)

end Entries

/-! ## The words of the corpora -/

namespace Training

variable {order : WalkOrder} {args : BuildArgs Rat} {kkc : Lm.Kkc Rat} {R : Type}

/-- The counts that were read are those of the corpora, and every token of a sentence
occurs among them with its class. -/
theorem exists_counts (t : Training order args kkc) {read : Kkc2gram R}
    (hread : Reads kkc t.trained read) :
    ∃ ngrams : List (List Int), CountsOf (countGet read.classModel.ngramCounts) ngrams ∧
      CountsOf (fun tok => countGet read.classModel.wordCounts [tok])
        (t.sentences.flatMap (· ++ [t.eos])) ∧
      (∀ tokens ∈ t.sentences, ∀ tok ∈ tokens ++ [t.eos], ∀ c,
        classToken t.trained.classifier tok = some c → [c] ∈ ngrams) ∧
      (t.sentences ≠ [] → [] ∈ ngrams ∧
        ∀ c, classToken t.trained.classifier t.bos = some c → [c] ∈ ngrams) := by
  obtain ⟨cB, cE, classSentences, hcB, hcE, hmap, htrained⟩ :=
    ClassModel.addCounts_eq_some t.trained_eq
  have hclassifier : t.trained.classifier = t.classifier := by rw [htrained]
  have hfreq : t.trained.freq = LanguageModel.Ngram.addCorpusCounts
      (initialWeights args.weights).length classSentences cB cE := by rw [htrained]
  have hn : (initialWeights args.weights).length = 2 := by
    have hweights := hread.weights
    rw [htrained] at hweights
    exact congrArg List.length hweights
  rw [hn] at hfreq
  refine ⟨corpusNgrams 2 classSentences cB cE, fun k => ?_, fun tok => ?_, ?_, ?_⟩
  · rw [hread.classModel.ngram, hfreq, getCount_addCorpusCounts]
  · change countGet read.classModel.wordCounts [tok] = _
    rw [hread.classModel.word, htrained, Table.gethash_foldl_inchash_empty]
  · intro tokens htokens tok htok c hc
    rw [hclassifier] at hc
    obtain ⟨classTokens, hclassTokens, hmem⟩ :=
      LanguageModel.Ngram.ClassModel.exists_classTokens hcE hmap htokens htok hc
    exact List.mem_flatMap.mpr ⟨classTokens, hclassTokens,
      LanguageModel.Ngram.mem_eachNgramSubseq_of_mem (by omega) hmem⟩
  · intro hne
    obtain ⟨tokens, htokens⟩ := List.exists_mem_of_ne_nil _ hne
    obtain ⟨classTokens, hclassTokens, -⟩ := Lisp.exists_of_mapM_eq_some hmap htokens
    refine ⟨List.mem_flatMap.mpr ⟨classTokens, hclassTokens,
      LanguageModel.Ngram.nil_mem_eachNgramSubseq⟩, fun c hc => ?_⟩
    rw [hclassifier, hcB, Option.some.injEq] at hc
    rw [← hc]
    exact List.mem_flatMap.mpr ⟨classTokens, hclassTokens,
      LanguageModel.Ngram.singleton_BOS_mem_eachNgramSubseq le_rfl⟩

/-- A word of the vocabulary occurs in a sentence. -/
theorem exists_mem_of_wordOf (t : Training order args kkc) {form pron : Str} {word : Word}
    (h : WordOf kkc.vocabulary t.trained.classifier (makeUnit form pron) word) :
    ∃ tokens ∈ t.sentences, word.wordId ∈ tokens := by
  have hkey := Vocabulary.mem_keys_of_toIntOrNil h.token
  obtain ⟨-, hvocabulary⟩ := Option.ite_none_right_eq_some.mp t.vocabulary_eq
  rw [← Option.some.inj hvocabulary, mem_keys_overlapVocabulary,
    or_iff_right (makeUnit_notMem_specials form pron)] at hkey
  obtain ⟨units, hunits, hmem⟩ := List.countP_pos_iff.mp hkey.1
  obtain ⟨file, hfile, rfl⟩ := List.mem_map.mp hunits
  have htoken : kkc.vocabulary.toIntOrUnk (makeUnit form pron) = some word.wordId := by
    rw [Vocabulary.toIntOrUnk, h.token]
  exact (exists_mem_sentences_iff t.sentences_eq).mpr
    ⟨file, List.mem_append_left _ hfile, _, of_decide_eq_true hmem, htoken⟩

/-- The token of an unknown word occurs in a sentence if a corpus has such a word. -/
theorem exists_mem_of_unknown (t : Training order args kkc) {word : Word}
    (h : WordOf kkc.vocabulary t.trained.classifier Vocabulary.UNK word) {file unit : Str}
    (hfile : file ∈ corpora args) (hunit : unit ∈ unknownUnits kkc.vocabulary file) :
    ∃ tokens ∈ t.sentences, word.wordId ∈ tokens := by
  obtain ⟨hunit, hnone⟩ := List.mem_filter.mp hunit
  have htoken : kkc.vocabulary.toIntOrUnk unit = some word.wordId := by
    have hnil : kkc.vocabulary.toIntOrNil unit = none := Option.isNone_iff_eq_none.mp hnone
    rw [Vocabulary.toIntOrUnk, hnil]
    exact h.token
  exact (exists_mem_sentences_iff t.sentences_eq).mpr ⟨file, hfile, unit, hunit, htoken⟩

end Training

/-! ## The condition -/

section Condition

variable {order : WalkOrder} {args : BuildArgs Rat} {kkc : Lm.Kkc Rat} {R : Type}
  [AddCommGroup R] (log : Rat → R) {read : Kkc2gram R}

omit [AddCommGroup R] in
/-- The counts of the characters that were read. -/
theorem Training.unkCountsOf (t : Training order args kkc) (hread : Reads kkc t.trained read) :
    CountsOf (countGet read.unkModel.ngramCounts)
      (corpusNgrams 2 t.unkSentences t.unkBos t.unkEos) := by
  intro k
  rw [hread.unkCounts, t.unkFreq_eq, getCount_addCorpusCounts]

/-- Every pronunciation with a character without an id needs the count of the token of
all such characters, and the separator is a character without an id. -/
theorem Training.loneCharacter_of_list (t : Training order args kkc)
    (hread : Reads kkc t.trained read) {entries : List (ConvertEntry R)}
    (h : convertListEntriesFn log read ['/'] = some entries) : LoneCharacter args := by
  have hnone : read.unkVocab.strIdHash.gethash ['/'] = none := by
    rw [hread.unkVocab.char, Vocabulary.toIntOrNil_eq_none]
    exact fun hkey => (charKeys_of_build t.unknownWordVocabulary_eq).ne_slash hkey rfl
  obtain ⟨logProb, hlogProb, -⟩ := Lisp.bind_inv h
  exact (t.unk_mem_iff hread.unkVocab.unk).mp
    (mem_of_unkLogProbability (t.unkCountsOf hread) hnone hlogProb)

omit [AddCommGroup R] in
/-- The id of a character is its own, or that of all characters without one. -/
theorem Training.charId_mem (t : Training order args kkc) (hread : Reads kkc t.trained read)
    (hlone : LoneCharacter args) (ch : Char) :
    [read.unkVocab.charId ch] ∈ corpusNgrams 2 t.unkSentences t.unkBos t.unkEos := by
  rw [UnkVocab.charId, hread.unkVocab.char]
  cases hid : kkc.unknownWordVocabulary.toIntOrNil (charUnit ch) with
  | none => exact (t.unk_mem_iff hread.unkVocab.unk).mpr hlone
  | some id =>
      have hkey := Vocabulary.mem_keys_of_toIntOrNil hid
      have hslash := (charKeys_of_build t.unknownWordVocabulary_eq).ne_slash hkey
      have htwo :=
        (charUnit_mem_keys_iff t.vocabulary_eq t.unknownWordVocabulary_eq hslash).mp hkey
      obtain ⟨file, hfile, hin⟩ := List.countP_pos_iff.mp (Nat.lt_of_lt_of_le Nat.two_pos htwo)
      obtain ⟨unit, hunit, pron, hpron, hch⟩ :=
        (mem_unknownChars t.vocabulary_eq).mp (of_decide_eq_true hin)
      have htoken : kkc.unknownWordVocabulary.toIntOrUnk (charUnit ch) = some id := by
        rw [Vocabulary.toIntOrUnk, hid]
      obtain ⟨tokens, htokens, hmem⟩ := (exists_mem_unknownSentences_iff t.unkSentences_eq).mpr
        ⟨file, hfile, unit, hunit, pron, hpron, ch, hch, htoken⟩
      exact List.mem_flatMap.mpr ⟨tokens, htokens,
        LanguageModel.Ngram.mem_eachNgramSubseq_of_mem (by omega)
          (List.mem_append_left _ hmem)⟩

/-- With the token of the characters without an id, every listing is there. -/
theorem Training.exists_list (t : Training order args kkc) (hread : Reads kkc t.trained read)
    (hlone : LoneCharacter args) (pron : Str) :
    ∃ entries, convertListEntriesFn log read pron = some entries := by
  have hunk := (t.unk_mem_iff hread.unkVocab.unk).mpr hlone
  obtain ⟨tokens, htokens, -⟩ := List.mem_flatMap.mp hunk
  have hmem : ∀ {g : List Int}, g ∈ LanguageModel.Ngram.Probability.eachNgramSubseq tokens 2
      t.unkBos t.unkEos → g ∈ corpusNgrams 2 t.unkSentences t.unkBos t.unkEos := fun hg =>
    List.mem_flatMap.mpr ⟨tokens, htokens, hg⟩
  have hbos : read.unkVocab.bosId = t.unkBos :=
    Option.some.inj (hread.unkVocab.bos.symm.trans t.unkBos_eq)
  have heos : read.unkVocab.eosId = t.unkEos :=
    Option.some.inj (hread.unkVocab.eos.symm.trans t.unkEos_eq)
  have hsize : read.unkModel.charSetSize ≠ 0 := by
    rw [hread.charSetSize]
    norm_num
  obtain ⟨logProb, hlogProb⟩ : ∃ r, unkLogProbability log read.unkVocab read.unkModel pron =
      some r := by
    refine exists_unkLogProbability (t.unkCountsOf hread) hsize
      (hmem LanguageModel.Ngram.nil_mem_eachNgramSubseq) ?_ ?_ (t.charId_mem hread hlone) pron
    · rw [hbos]
      exact hmem (LanguageModel.Ngram.singleton_BOS_mem_eachNgramSubseq le_rfl)
    · rw [heos]
      exact hmem (LanguageModel.Ngram.mem_eachNgramSubseq_of_mem (by omega)
        (List.mem_append_right _ List.mem_cons_self))
  rw [convertListEntriesFn, listConvertEntries, hlogProb]
  split
  next => exact ⟨_, rfl⟩
  next => exact ⟨_, rfl⟩

omit [AddCommGroup R] in
/-- With an unknown word in a corpus, the words of all entries occur with their classes,
and the class of the begin occurs. -/
theorem Training.exists_occurring (t : Training order args kkc)
    (hread : Reads kkc t.trained read) (hlone : LoneCharacter args) :
    ∃ (ngrams : List (List Int)) (tokens : List Int),
      CountsOf (countGet read.classModel.ngramCounts) ngrams ∧
      CountsOf (fun tok => countGet read.classModel.wordCounts [tok]) tokens ∧
      [] ∈ ngrams ∧ [read.classVocab.bosWord.classId] ∈ ngrams ∧
      ∀ word, (word = read.classVocab.eosWord ∨ word = read.classVocab.unkWord ∨
        ∃ pron form, ⟨form, word⟩ ∈ read.classVocab.entries pron) →
          [word.classId] ∈ ngrams ∧ word.wordId ∈ tokens := by
  obtain ⟨ngrams, hngram, hword, hclass, hsentence⟩ := t.exists_counts hread
  obtain ⟨ch, hone⟩ := hlone
  obtain ⟨file, hfile, hchars⟩ := List.countP_pos_iff.mp (hone ▸ Nat.one_pos)
  obtain ⟨unit, hunit, -⟩ := (mem_unknownChars t.vocabulary_eq).mp (of_decide_eq_true hchars)
  obtain ⟨unkTokens, hunkTokens, hunk⟩ :=
    t.exists_mem_of_unknown hread.classVocab.unk hfile hunit
  obtain ⟨hnil, hbos⟩ := hsentence (List.ne_nil_of_mem hunkTokens)
  have hbosToken : read.classVocab.bosWord.wordId = t.bos :=
    Option.some.inj (hread.classVocab.bos.token.symm.trans t.bos_eq)
  have heosToken : read.classVocab.eosWord.wordId = t.eos :=
    Option.some.inj (hread.classVocab.eos.token.symm.trans t.eos_eq)
  refine ⟨ngrams, _, hngram, hword, hnil, hbos _ (hbosToken ▸ hread.classVocab.bos.cls), ?_⟩
  intro word hcases
  -- the token of the word stands in a sentence, or it is the end of one
  have hoccurs : (∃ tokens ∈ t.sentences, word.wordId ∈ tokens ++ [t.eos]) →
      classToken t.trained.classifier word.wordId = some word.classId →
        [word.classId] ∈ ngrams ∧ word.wordId ∈ t.sentences.flatMap (· ++ [t.eos]) := by
    intro hex hc
    obtain ⟨tokens, htokens, hmem⟩ := hex
    exact ⟨hclass tokens htokens _ hmem _ hc, List.mem_flatMap.mpr ⟨tokens, htokens, hmem⟩⟩
  rcases hcases with rfl | rfl | ⟨pron, form, hentry⟩
  · refine hoccurs ⟨unkTokens, hunkTokens, ?_⟩ hread.classVocab.eos.cls
    rw [heosToken]
    exact List.mem_append_right _ List.mem_cons_self
  · exact hoccurs ⟨unkTokens, hunkTokens, List.mem_append_left _ hunk⟩ hread.classVocab.unk.cls
  · obtain ⟨-, -, hwordOf⟩ := (hread.classVocab.entry pron form word).mp hentry
    obtain ⟨tokens, htokens, hmem⟩ := t.exists_mem_of_wordOf hwordOf
    exact hoccurs ⟨tokens, htokens, List.mem_append_left _ hmem⟩ hwordOf.cls

/-- With an unknown word in a corpus, every score is there. -/
theorem Training.exists_score (t : Training order args kkc) (hread : Reads kkc t.trained read)
    (hw₂ : 0 ≤ read.w2) (hw₁ : 0 < read.w1) (hlone : LoneCharacter args) {pron : Str}
    {curr prev : ConvertEntry R} (h : Adjacent log read pron curr prev) :
    ∃ score, convertScoreFn log read [curr, prev] = some score := by
  obtain ⟨ngrams, tokens, hngram, hword, hnil, hbos, hoccurs⟩ := t.exists_occurring hread hlone
  obtain ⟨hcurr, hprev⟩ := h.cases (t.exists_list log hread hlone)
  have hcurrWord : [curr.word.classId] ∈ ngrams ∧ curr.word.wordId ∈ tokens := by
    cases hcurr with
    | inl heq => exact hoccurs _ (Or.inl (congrArg ConvertEntry.word heq))
    | inr hlisted => exact hoccurs _ (Or.inr (hlisted.word_cases hread.exDict))
  have hprevWord : [prev.word.classId] ∈ ngrams := by
    cases hprev with
    | inl heq =>
        rw [heq]
        exact hbos
    | inr hlisted => exact (hoccurs _ (Or.inr (hlisted.word_cases hread.exDict))).1
  obtain ⟨logProb, hlogProb⟩ := exists_transitionLogProbability2gram log hngram hword hw₂ hw₁
    hcurrWord.1 hprevWord hnil hcurrWord.2
  refine ⟨logProb + curr.unkLogProbability, ?_⟩
  rw [convertScoreFn, hlogProb]
  rfl

/-- An engine that was read from the dump of a kkc with a class model converts anything
if and only if some character occurs in the unknown words of exactly one corpus file. -/
theorem convertsAnything_iff {file : Str} (hfile : args.classTokenToWordFile = some file)
    {w₂ w₁ : Rat} (hweights : args.weights = [w₂, w₁]) (hw₂ : 0 ≤ w₂) (hw₁ : 0 < w₁)
    (hbuild : Lm.buildKkc order args = some kkc) {order' : WalkOrder} {files : Lm.Dump.Files}
    (hdump : Lm.dump order' kkc = some files) (hread : readKkc2gram R files = some read) :
    ConvertsAnything log read ↔ LoneCharacter args := by
  obtain ⟨t⟩ := exists_training hfile hbuild
  have hreads := reads_of_readKkc2gram t.ngramModel (wordKeys_of_build t.vocabulary_eq)
    (complete_of_buildVocabularyWithUnk t.vocabulary_eq)
    (charKeys_of_build t.unknownWordVocabulary_eq) hdump hread
  have hw : [w₂, w₁] = [read.w2, read.w1] := by
    obtain ⟨_, _, _, -, -, -, htrained⟩ := ClassModel.addCounts_eq_some t.trained_eq
    rw [← hreads.weights, htrained, hweights]
    rfl
  rw [List.cons.injEq, List.cons.injEq] at hw
  rw [hw.1] at hw₂
  rw [hw.2.1] at hw₁
  constructor
  · intro h
    obtain ⟨entries, hentries⟩ := h.list ['/']
    exact t.loneCharacter_of_list log hreads hentries
  · intro hlone
    exact ⟨t.exists_list log hreads hlone,
      fun _ _ _ hadjacent => t.exists_score log hreads hw₂ hw₁ hlone hadjacent⟩

end Condition

/-! ## Two corpora -/

/-- A build from two corpus files, with a class for every token. -/
def twoFiles (first second : Str) : BuildArgs Rat :=
  { pathnamesSegmented := [first, second]
    pathnamesInaccuratelySegmented := []
    wordDictionaryPathnames := []
    charDictionary := none
    trustedWordDictionary := none
    classTokenToWordFile := some "1 UT\n2 BT\n3 a/b\n".toList
    weights := [4 / 5, 1 / 5] }

/-- What is dumped after a build is read back, when it is. -/
theorem exists_read (args : BuildArgs Rat)
    (h : ((Lm.buildKkc .firstPut args).bind fun kkc =>
      (Lm.dump .firstPut kkc).bind (readKkc2gram ℝ)).isSome = true) :
    ∃ kkc files read, Lm.buildKkc .firstPut args = some kkc ∧
      Lm.dump .firstPut kkc = some files ∧ readKkc2gram ℝ files = some read := by
  obtain ⟨read, h⟩ := Option.isSome_iff_exists.mp h
  obtain ⟨kkc, hkkc, h⟩ := Option.bind_eq_some_iff.mp h
  obtain ⟨files, hfiles, hread⟩ := Option.bind_eq_some_iff.mp h
  exact ⟨kkc, files, read, hkkc, hfiles, hread⟩

end

/-- A word that both files have, and a word that one of them has. -/
theorem convertsAnything_word :
    ∃ kkc files read, Lm.buildKkc .firstPut (twoFiles "a/b".toList "a/b c/d".toList) = some kkc ∧
      Lm.dump .firstPut kkc = some files ∧ readKkc2gram ℝ files = some read ∧
      ConvertsAnything (fun x => Real.log x) read := by
  obtain ⟨kkc, files, read, hkkc, hfiles, hread⟩ :=
    exists_read (twoFiles "a/b".toList "a/b c/d".toList) (by decide +kernel)
  refine ⟨kkc, files, read, hkkc, hfiles, hread, ?_⟩
  exact (convertsAnything_iff _ rfl rfl (by norm_num) (by norm_num) hkkc hfiles hread).mpr
    ⟨'d', by decide⟩

/-- Both files have the same word, and no other: nothing is counted for unknown words. -/
theorem not_convertsAnything_known :
    ∃ kkc files read, Lm.buildKkc .firstPut (twoFiles "a/b".toList "a/b".toList) = some kkc ∧
      Lm.dump .firstPut kkc = some files ∧ readKkc2gram ℝ files = some read ∧
      ¬ConvertsAnything (fun x => Real.log x) read := by
  obtain ⟨kkc, files, read, hkkc, hfiles, hread⟩ :=
    exists_read (twoFiles "a/b".toList "a/b".toList) (by decide +kernel)
  refine ⟨kkc, files, read, hkkc, hfiles, hread, fun h => ?_⟩
  obtain ⟨entries, hentries⟩ := h.list ['/']
  obtain ⟨t⟩ := exists_training rfl hkkc
  have hreads := reads_of_readKkc2gram t.ngramModel (wordKeys_of_build t.vocabulary_eq)
    (complete_of_buildVocabularyWithUnk t.vocabulary_eq)
    (charKeys_of_build t.unknownWordVocabulary_eq) hfiles hread
  obtain ⟨ch, hone⟩ := t.loneCharacter_of_list _ hreads hentries
  have hnone : ∀ file ∈ corpora (twoFiles "a/b".toList "a/b".toList),
      unknownChars ["a/b".toList, "a/b".toList] file = [] := by decide
  rw [List.countP_eq_zero.mpr fun file hfile => ?_] at hone
  · exact absurd hone (by decide)
  · change ¬decide (ch ∈ unknownChars ["a/b".toList, "a/b".toList] file) = true
    rw [hnone file hfile, decide_eq_true_eq]
    exact List.not_mem_nil

end Hachee.Kkc.Impl.ClassNgram
