import Hachee.Kkc.Impl.Lm.Vocabularies
import Hachee.Kkc.Impl.Lm.Dump
import Hachee.Kkc.Impl.ClassNgram.Read

/-!
# The vocabulary file

The language model writes its vocabulary as a text, and the class n-gram engine
reads it.  A line has three fields between tabs, and the first of them is a word,
which has two parts around a slash.

A word of a corpus can have a tab in it, and it can lack its pronunciation.  The
line of such a word is not read (`readVocabLine_vocabLine_eq_none`), and all other
lines are read as they were written.
-/

namespace Hachee.Kkc.Impl.ClassNgram

open Lisp (ClPpcre Str Table HashTable WalkOrder record split readLines writeLines princNat
  princInteger)
open LanguageModel (Vocabulary)
open LanguageModel.Ngram (Classifier classToken)
open Lm (makeUnit unitPron)
open Lm.Build
open Lm.Dump

/-! ## The text of a vocabulary -/

/-- The line of a key. -/
def vocabLine (key : Str) (tok : Nat) (cls : Int) : Str :=
  record '\t' key [princNat tok, princInteger cls]

theorem newline_notMem_vocabLine {key : Str} (hkey : '\n' ∉ key) (tok : Nat) (cls : Int) :
    '\n' ∉ vocabLine key tok cls := by
  refine Lisp.notMem_record (by decide) fun part hpart => ?_
  simp only [List.mem_cons, List.not_mem_nil, or_false] at hpart
  rcases hpart with rfl | rfl | rfl
  · exact hkey
  · exact Lisp.notMem_princNat _ (by decide)
  · exact Lisp.notMem_princInteger _ (by decide) (by decide)

/-- The fields of a line are the parts of the key, the token and the class. -/
theorem split_vocabLine [ClPpcre] (key : Str) (tok : Nat) (cls : Int) :
    split '\t' (vocabLine key tok cls) = key.splitOn '\t' ++ [princNat tok, princInteger cls] := by
  have htok : '\t' ∉ princNat tok := Lisp.notMem_princNat _ (by decide)
  have hcls : '\t' ∉ princInteger cls := Lisp.notMem_princInteger _ (by decide) (by decide)
  have hline : vocabLine key tok cls =
      (key ++ '\t' :: princNat tok) ++ '\t' :: princInteger cls := by
    simp [vocabLine, record]
  rw [hline, Lisp.split_snoc _ hcls (Lisp.princInteger_ne_nil cls), List.splitOn_append_cons_self,
    List.splitOn_eq_singleton htok, List.append_assoc, List.singleton_append]

/-- A key without a tab is one field. -/
theorem split_vocabLine_of_notMem [ClPpcre] {key : Str} (hkey : '\t' ∉ key) (tok : Nat)
    (cls : Int) :
    split '\t' (vocabLine key tok cls) = [key, princNat tok, princInteger cls] := by
  rw [split_vocabLine, List.splitOn_eq_singleton hkey, List.singleton_append]

/-- A key with a tab is more than one field. -/
theorem length_splitOn_of_mem {sep : Char} {s : Str} (h : sep ∈ s) :
    2 ≤ (s.splitOn sep).length := by
  obtain ⟨front, rest, rfl⟩ := List.append_of_mem h
  rw [List.splitOn_append_cons_self, List.length_append]
  have hfront := List.length_pos_iff.mpr (List.splitOn_ne_nil sep front)
  have hrest := List.length_pos_iff.mpr (List.splitOn_ne_nil sep rest)
  omega

/-! ## One line -/

section Line

variable [ClPpcre]

/-- What the line of a word sets. -/
theorem readVocabLine_makeUnit {form pron : Str} (hform : '/' ∉ form) (hpron : '/' ∉ pron)
    (hne : pron ≠ []) (htab : '\t' ∉ makeUnit form pron) (tok : Nat) (cls : Int) :
    readVocabLine (vocabLine (makeUnit form pron) tok cls) =
      some (.entry pron ⟨form, ⟨tok, cls⟩⟩) := by
  have hspecial : makeUnit form pron ∉ specialKeys := makeUnit_notMem_specials form pron
  simp only [readVocabLine, split_vocabLine_of_notMem htab, Lisp.parseInteger_princNat,
    Lisp.parseInteger_princInteger, Option.bind_eq_bind, Option.bind_some, if_neg hspecial,
    Lm.split_makeUnit hform hpron hne]

/-- What the line of a key that stands for no word sets. -/
theorem readVocabLine_special {key : Str} (hkey : key ∈ specialKeys) (tok : Nat) (cls : Int) :
    readVocabLine (vocabLine key tok cls) = some (.special key ⟨tok, cls⟩) := by
  have htabs : ∀ key ∈ specialKeys, '\t' ∉ key := by decide
  simp only [readVocabLine, split_vocabLine_of_notMem (htabs key hkey), Lisp.parseInteger_princNat,
    Lisp.parseInteger_princInteger, Option.bind_eq_bind, Option.bind_some, if_pos hkey]

/-- The line of a word with a tab, or without a pronunciation, is an error. -/
theorem readVocabLine_vocabLine_eq_none {form pron : Str} (hform : '/' ∉ form)
    (h : '\t' ∈ makeUnit form pron ∨ pron = []) (tok : Nat) (cls : Int) :
    readVocabLine (vocabLine (makeUnit form pron) tok cls) = none := by
  by_cases htab : '\t' ∈ makeUnit form pron
  · have hlen := length_splitOn_of_mem htab
    unfold readVocabLine
    split
    next formPron wordIdStr classIdStr hsplit =>
      have hthree := congrArg List.length hsplit
      rw [split_vocabLine, List.length_append] at hthree
      simp only [List.length_cons, List.length_nil] at hthree
      omega
    next => rfl
  · have hpron : pron = [] := h.resolve_left htab
    subst hpron
    have hspecial : makeUnit form [] ∉ specialKeys := makeUnit_notMem_specials form []
    have hlen := Lm.length_split_makeUnit_nil hform
    simp only [readVocabLine, split_vocabLine_of_notMem htab, Lisp.parseInteger_princNat,
      Lisp.parseInteger_princInteger, Option.bind_eq_bind, Option.bind_some, if_neg hspecial]
    split
    next form' pron' hsplit =>
      rw [hsplit] at hlen
      exact absurd hlen (by simp)
    next => rfl

end Line

/-! ## The whole file -/

/-- The word of a key: its token and the class of the token. -/
structure WordOf (vocab : Vocabulary) (classifier : Classifier Int Int) (key : Str) (word : Word) :
    Prop where
  token : vocab.toIntOrNil key = some word.wordId
  cls : classToken classifier word.wordId = some word.classId

/-- The engine has what the vocabulary has: the words of the three keys, and under
every pronunciation each of its words once. -/
structure Decodes (vocab : Vocabulary) (classifier : Classifier Int Int)
    (classVocab : ClassVocab) : Prop where
  unk : WordOf vocab classifier Vocabulary.UNK classVocab.unkWord
  bos : WordOf vocab classifier Vocabulary.BOS classVocab.bosWord
  eos : WordOf vocab classifier Vocabulary.EOS classVocab.eosWord
  entry : ∀ pron form word, ⟨form, word⟩ ∈ classVocab.entries pron ↔
    '/' ∉ form ∧ '/' ∉ pron ∧ WordOf vocab classifier (makeUnit form pron) word
  nodup : ∀ pron, ((classVocab.entries pron).map ClassVocabEntry.form).Nodup

/-- Every key is one of the three, or a word that was split once. -/
def WordKeys (vocab : Vocabulary) : Prop :=
  ∀ key ∈ vocab.keys, key ∈ Vocabulary.specials ∨
    ∃ form pron, key = makeUnit form pron ∧ '/' ∉ form ∧ '/' ∉ pron ∧ '\n' ∉ key

/-- The vocabularies of corpora are made of such keys. -/
theorem wordKeys_of_build [ClPpcre] {order : WalkOrder} {pathnames : List Str} {overlap : Nat}
    {vocab : Vocabulary} (h : buildVocabularyWithUnk order pathnames overlap = some vocab) :
    WordKeys vocab := by
  intro key hkey
  unfold buildVocabularyWithUnk at h
  split at h
  next =>
    rw [← Option.some.inj h, mem_keys_overlapVocabulary] at hkey
    cases hkey with
    | inl hspecial => exact Or.inl hspecial
    | inr hcount =>
        obtain ⟨units, hunits, hmem⟩ := List.countP_pos_iff.mp hcount.1
        obtain ⟨file, -, rfl⟩ := List.mem_map.mp hunits
        exact Or.inr (of_mem_fileUnits (of_decide_eq_true hmem))
  next => cases h

section File

variable {order : WalkOrder} {vocab : Vocabulary} {classifier : Classifier Int Int}

/-- The lines of the file, one for each token in order. -/
theorem dumpClassVocabulary_eq_some (order : WalkOrder)
    (hcover : ∀ tok : Nat, tok < vocab.size → ∃ cls, classToken classifier tok = some cls) :
    ∃ (key : Nat → Str) (cls : Nat → Int),
      (∀ n < vocab.size, vocab.toIntMap.gethash (key n) = some n) ∧
      (∀ n < vocab.size, classToken classifier n = some (cls n)) ∧
      dumpClassVocabulary order vocab classifier =
        some (writeLines ((List.range vocab.size).map fun n => vocabLine (key n) n (cls n))) := by
  obtain ⟨toStr, htoStr, hfind⟩ := toStrMap_eq_some order vocab
  choose! key hkey using fun n (h : n < vocab.size) => Vocabulary.exists_gethash_of_lt h
  choose! cls hcls using hcover
  refine ⟨key, cls, hkey, hcls, ?_⟩
  have hlines : (List.range vocab.size).mapM (classVocabLine toStr classifier) =
      some ((List.range vocab.size).map fun n => vocabLine (key n) n (cls n)) := by
    refine Lisp.mapM_of_forall fun n hn => ?_
    rw [List.mem_range] at hn
    simp only [classVocabLine, hcls n hn, hfind _ _ (hkey n hn), Option.getD_some, vocabLine,
      Option.bind_eq_bind, Option.bind_some]
  simp only [dumpClassVocabulary, htoStr, hlines, Option.bind_eq_bind, Option.bind_some]

theorem newline_notMem_of_wordKeys (hwords : WordKeys vocab) {key : Str} (hkey : key ∈ vocab.keys) :
    '\n' ∉ key := by
  have hspecials : ∀ key ∈ Vocabulary.specials, '\n' ∉ key := by decide
  cases hwords key hkey with
  | inl h => exact hspecials key h
  | inr h =>
      obtain ⟨_, _, _, _, _, hnewline⟩ := h
      exact hnewline

/-- The lines are found again. -/
theorem readLines_vocabLines (hwords : WordKeys vocab) {key : Nat → Str} (cls : Nat → Int)
    (hkey : ∀ n < vocab.size, vocab.toIntMap.gethash (key n) = some n) :
    readLines (writeLines ((List.range vocab.size).map fun n => vocabLine (key n) n (cls n))) =
      (List.range vocab.size).map fun n => vocabLine (key n) n (cls n) := by
  refine Lisp.readLines_writeLines fun line hline => ?_
  obtain ⟨n, hn, rfl⟩ := List.mem_map.mp hline
  have hmem := Vocabulary.key_mem_keys hkey (List.mem_range.mp hn)
  exact newline_notMem_vocabLine (newline_notMem_of_wordKeys hwords hmem) _ _

/-- What the line of a key sets. -/
def ItemOf (key : Str) (word : Word) (item : VocabItem) : Prop :=
  key ∈ specialKeys ∧ item = .special key word ∨
    ∃ form pron, key = makeUnit form pron ∧ '/' ∉ form ∧ '/' ∉ pron ∧
      item = .entry pron ⟨form, word⟩

theorem exists_itemOf [ClPpcre] (hwords : WordKeys vocab) {key : Str} (hkey : key ∈ vocab.keys)
    (hgood : key ∈ Vocabulary.specials ∨ '\t' ∉ key ∧ ∃ pron, unitPron key = some pron)
    (tok : Nat) (cls : Int) :
    ∃ item, readVocabLine (vocabLine key tok cls) = some item ∧ ItemOf key ⟨tok, cls⟩ item := by
  by_cases hspecial : key ∈ Vocabulary.specials
  · exact ⟨_, readVocabLine_special hspecial tok cls, Or.inl ⟨hspecial, rfl⟩⟩
  · obtain ⟨form, pron, rfl, hform, hpron, -⟩ := (hwords key hkey).resolve_left hspecial
    obtain ⟨htab, pron', hpron'⟩ := hgood.resolve_left hspecial
    have hne : pron ≠ [] := by
      intro hnil
      rw [hnil, Lm.unitPron_makeUnit_nil hform] at hpron'
      cases hpron'
    exact ⟨_, readVocabLine_makeUnit hform hpron hne htab tok cls,
      Or.inr ⟨form, pron, rfl, hform, hpron, rfl⟩⟩

/-! ## What the lines set -/

section Items

variable {key : Nat → Str} {cls : Nat → Int} {item : Nat → VocabItem}

theorem ItemOf.special_eq {k : Str} {word : Word} {it : VocabItem} (h : ItemOf k word it)
    {e : Str × Word} (he : it.special? = some e) : k ∈ specialKeys ∧ e = (k, word) := by
  rcases h with ⟨hk, rfl⟩ | ⟨form, pron, rfl, -, -, rfl⟩
  · exact ⟨hk, (Option.some.inj he).symm⟩
  · cases he

theorem ItemOf.entry_eq {k : Str} {word : Word} {it : VocabItem} (h : ItemOf k word it)
    {e : Str × ClassVocabEntry} (he : it.entry? = some e) :
    k = makeUnit e.2.form e.1 ∧ '/' ∉ e.2.form ∧ '/' ∉ e.1 ∧ e.2.word = word := by
  rcases h with ⟨-, rfl⟩ | ⟨form, pron, rfl, hform, hpron, rfl⟩
  · cases he
  · rw [← Option.some.inj he]
    exact ⟨rfl, hform, hpron, rfl⟩

/-- The words of the three keys are those that their lines set. -/
theorem gethash_words (hkey : ∀ n < vocab.size, vocab.toIntMap.gethash (key n) = some n)
    (hitem : ∀ n < vocab.size, ItemOf (key n) ⟨n, cls n⟩ (item n)) {k : Str} {n : Nat}
    (hspecial : k ∈ specialKeys) (hk : vocab.toIntMap.gethash k = some n) :
    (readWords ((List.range vocab.size).map item)).gethash k = some ⟨n, cls n⟩ := by
  have hlt := Vocabulary.lt_size_of_gethash hk
  have hkn : key n = k := Vocabulary.gethash_inj (hkey n hlt) hk
  have hmem : (k, (⟨n, cls n⟩ : Word)) ∈
      ((List.range vocab.size).map item).filterMap VocabItem.special? := by
    rw [List.mem_filterMap]
    refine ⟨item n, List.mem_map_of_mem (List.mem_range.mpr hlt), ?_⟩
    rcases hitem n hlt with ⟨-, heq⟩ | ⟨form, pron, hform, -⟩
    · rw [heq, hkn]
      rfl
    · rw [← hkn, hform] at hspecial
      exact absurd hspecial (makeUnit_notMem_specials form pron)
  have hnd : ((((List.range vocab.size).map item).filterMap VocabItem.special?).map
      Prod.fst).Nodup := by
    rw [List.Nodup, List.pairwise_map, List.pairwise_filterMap, List.pairwise_map]
    refine List.Pairwise.imp_of_mem (fun {a b} ha hb hne e he e' he' heq => ?_) List.nodup_range
    rw [List.mem_range] at ha hb
    have hea := ((hitem a ha).special_eq he).2
    have heb := ((hitem b hb).special_eq he').2
    rw [hea, heb] at heq
    exact hne (Vocabulary.key_inj hkey ha hb heq)
  exact HashTable.gethash_foldl_puthash_of_mem Prod.fst Prod.snd _ _ hnd hmem

/-- The entries under a pronunciation are those that the lines push there. -/
theorem getD_readEntries (items : List VocabItem) (pron : Str) :
    ((readEntries items).gethash pron).getD [] =
      (((items.filterMap VocabItem.entry?).filter fun e => e.1 = pron).map Prod.snd).reverse := by
  rw [readEntries, HashTable.getD_foldl_pushhash, HashTable.gethash_empty, Option.getD_none,
    List.append_nil]

/-- Which entries they are. -/
theorem mem_filterMap_entry_iff
    (hkey : ∀ n < vocab.size, vocab.toIntMap.gethash (key n) = some n)
    (hcls : ∀ n < vocab.size, classToken classifier n = some (cls n))
    (hitem : ∀ n < vocab.size, ItemOf (key n) ⟨n, cls n⟩ (item n)) {pron form : Str} {word : Word} :
    (pron, (⟨form, word⟩ : ClassVocabEntry)) ∈
        ((List.range vocab.size).map item).filterMap VocabItem.entry? ↔
      '/' ∉ form ∧ '/' ∉ pron ∧ WordOf vocab classifier (makeUnit form pron) word := by
  rw [List.mem_filterMap]
  constructor
  · intro h
    obtain ⟨it, hit, he⟩ := h
    obtain ⟨n, hn, rfl⟩ := List.mem_map.mp hit
    rw [List.mem_range] at hn
    obtain ⟨hk, hform, hpron, hword⟩ := (hitem n hn).entry_eq he
    have hword' : word = ⟨n, cls n⟩ := hword
    refine ⟨hform, hpron, ?_, ?_⟩
    · rw [hword', Vocabulary.toIntOrNil, ← hk, hkey n hn]
      rfl
    · rw [hword']
      exact hcls n hn
  · intro h
    obtain ⟨hform, hpron, htoken, hclass⟩ := h
    obtain ⟨n, hn, hid⟩ := Option.map_eq_some_iff.mp htoken
    have hlt := Vocabulary.lt_size_of_gethash hn
    have hkn : key n = makeUnit form pron := Vocabulary.gethash_inj (hkey n hlt) hn
    have hid' : (n : Int) = word.wordId := hid
    rw [← hid', hcls n hlt, Option.some.injEq] at hclass
    refine ⟨item n, List.mem_map_of_mem (List.mem_range.mpr hlt), ?_⟩
    rcases hitem n hlt with ⟨hspecial, -⟩ | ⟨form', pron', hunit, hform', hpron', heq⟩
    · rw [hkn] at hspecial
      exact absurd hspecial (makeUnit_notMem_specials form pron)
    · obtain ⟨hform₁, hpron₁⟩ := Lm.makeUnit_inj hform hpron (hkn.symm.trans hunit)
      rw [heq, ← hform₁, ← hpron₁, hid', hclass]
      rfl

/-- No form is pushed twice under a pronunciation. -/
theorem nodup_forms (hkey : ∀ n < vocab.size, vocab.toIntMap.gethash (key n) = some n)
    (hitem : ∀ n < vocab.size, ItemOf (key n) ⟨n, cls n⟩ (item n)) (pron : Str) :
    ((((((List.range vocab.size).map item).filterMap VocabItem.entry?).filter
      fun e => e.1 = pron).map Prod.snd).map ClassVocabEntry.form).Nodup := by
  have hpairs : (((List.range vocab.size).map item).filterMap VocabItem.entry?).Pairwise
      fun e e' => e.1 = e'.1 → e.2.form ≠ e'.2.form := by
    rw [List.pairwise_filterMap, List.pairwise_map]
    refine List.Pairwise.imp_of_mem (fun {a b} ha hb hne e he e' he' hpron hform => ?_)
      List.nodup_range
    rw [List.mem_range] at ha hb
    have hea := ((hitem a ha).entry_eq he).1
    have heb := ((hitem b hb).entry_eq he').1
    rw [hform, hpron, ← heb] at hea
    exact hne (Vocabulary.key_inj hkey ha hb hea)
  rw [List.map_map, List.Nodup, List.pairwise_map]
  refine List.Pairwise.imp_of_mem (fun {e e'} he he' h => h ?_) (hpairs.filter _)
  have hpron := (List.mem_filter.mp he).2
  have hpron' := (List.mem_filter.mp he').2
  rw [decide_eq_true_eq] at hpron hpron'
  rw [hpron, hpron']

end Items

end File

/-! ## The round trip -/

section RoundTrip

variable [ClPpcre] {vocab : Vocabulary} {classifier : Classifier Int Int}

/-- What is read has a pronunciation in every word, and no tab. -/
theorem good_of_readClassVocab {order : WalkOrder} (hwords : WordKeys vocab)
    (hcover : ∀ tok : Nat, tok < vocab.size → ∃ cls, classToken classifier tok = some cls)
    {text : Str} (htext : dumpClassVocabulary order vocab classifier = some text)
    {classVocab : ClassVocab} (hread : readClassVocab text = some classVocab) :
    ∀ key ∈ vocab.keys, key ∈ Vocabulary.specials ∨
      '\t' ∉ key ∧ ∃ pron, unitPron key = some pron := by
  intro k hk
  obtain ⟨key, cls, hkey, hcls, hdump⟩ := dumpClassVocabulary_eq_some order hcover
  have hlines := readLines_vocabLines hwords cls hkey
  rw [hdump, Option.some.injEq] at htext
  obtain ⟨items, hitems, -⟩ := Lisp.bind_inv hread
  rw [← htext, hlines] at hitems
  by_contra hbad
  rw [not_or] at hbad
  obtain ⟨form, pron, rfl, hform, hpron, -⟩ := (hwords k hk).resolve_left hbad.1
  -- the line of this word is among those that were read
  obtain ⟨n, hn⟩ := Vocabulary.mem_keys_iff.mp hk
  have hlt := Vocabulary.lt_size_of_gethash hn
  have hkn : key n = makeUnit form pron := Vocabulary.gethash_inj (hkey n hlt) hn
  have hline : vocabLine (makeUnit form pron) n (cls n) ∈
      (List.range vocab.size).map fun n => vocabLine (key n) n (cls n) :=
    List.mem_map.mpr ⟨n, List.mem_range.mpr hlt, by rw [hkn]⟩
  obtain ⟨item, -, hitem⟩ := Lisp.exists_of_mapM_eq_some hitems hline
  have hnone : '\t' ∈ makeUnit form pron ∨ pron = [] := by
    by_contra hno
    rw [not_or] at hno
    exact hbad.2 ⟨hno.1, pron, Lm.unitPron_makeUnit hform hpron hno.2⟩
  rw [readVocabLine_vocabLine_eq_none hform hnone] at hitem
  cases hitem

/-- With a pronunciation in every word, and no tab, the vocabulary is read back as it is. -/
theorem exists_decodes (order : WalkOrder) (hwords : WordKeys vocab) (hcomplete : Complete vocab)
    (hcover : ∀ tok : Nat, tok < vocab.size → ∃ cls, classToken classifier tok = some cls)
    (hgood : ∀ key ∈ vocab.keys, key ∈ Vocabulary.specials ∨
      '\t' ∉ key ∧ ∃ pron, unitPron key = some pron) :
    ∃ text classVocab, dumpClassVocabulary order vocab classifier = some text ∧
      readClassVocab text = some classVocab ∧ Decodes vocab classifier classVocab := by
  obtain ⟨key, cls, hkey, hcls, hdump⟩ := dumpClassVocabulary_eq_some order hcover
  have hlines := readLines_vocabLines hwords cls hkey
  choose! item hread hitem using fun n (hn : n < vocab.size) =>
    exists_itemOf hwords (Vocabulary.key_mem_keys hkey hn)
      (hgood _ (Vocabulary.key_mem_keys hkey hn)) n (cls n)
  have hitems : ((List.range vocab.size).map fun n => vocabLine (key n) n (cls n)).mapM
      readVocabLine = some ((List.range vocab.size).map item) :=
    Lisp.mapM_map fun n hn => hread n (List.mem_range.mp hn)
  have hspecial : ∀ k ∈ Vocabulary.specials, ∃ n, vocab.toIntMap.gethash k = some n :=
    fun k hk => Vocabulary.mem_keys_iff.mp (hcomplete k hk)
  have hwordOf : ∀ {k : Str} {n : Nat}, vocab.toIntMap.gethash k = some n →
      WordOf vocab classifier k ⟨n, cls n⟩ := fun hk =>
    ⟨by rw [Vocabulary.toIntOrNil, hk]; rfl, hcls _ (Vocabulary.lt_size_of_gethash hk)⟩
  obtain ⟨unk, hunk⟩ := hspecial Vocabulary.UNK (by decide)
  obtain ⟨bos, hbos⟩ := hspecial Vocabulary.BOS (by decide)
  obtain ⟨eos, heos⟩ := hspecial Vocabulary.EOS (by decide)
  have hunk' := gethash_words hkey hitem (by decide) hunk
  have hbos' := gethash_words hkey hitem (by decide) hbos
  have heos' := gethash_words hkey hitem (by decide) heos
  refine ⟨_, ⟨readEntries ((List.range vocab.size).map item), ⟨unk, cls unk⟩, ⟨bos, cls bos⟩,
    ⟨eos, cls eos⟩⟩, hdump, ?_, ?_⟩
  · simp only [readClassVocab, hlines, hitems, Option.bind_eq_bind, Option.bind_some]
    rw [show "<UNK>".toList = Vocabulary.UNK from rfl, hunk',
      show "<BOS>".toList = Vocabulary.BOS from rfl, hbos',
      show "<EOS>".toList = Vocabulary.EOS from rfl, heos']
    rfl
  · refine ⟨hwordOf hunk, hwordOf hbos, hwordOf heos, fun pron form word => ?_, fun pron => ?_⟩
    · rw [ClassVocab.entries, getD_readEntries, List.mem_reverse, List.mem_map,
        ← mem_filterMap_entry_iff hkey hcls hitem]
      constructor
      · intro hex
        obtain ⟨e, he, heq⟩ := hex
        obtain ⟨hmem, hpron⟩ := List.mem_filter.mp he
        rw [decide_eq_true_eq] at hpron
        rw [← heq, ← hpron]
        exact hmem
      · intro hmem
        exact ⟨_, List.mem_filter.mpr ⟨hmem, decide_eq_true rfl⟩, rfl⟩
    · rw [ClassVocab.entries, getD_readEntries, List.map_reverse, List.nodup_reverse]
      exact nodup_forms hkey hitem pron

/-- What is read is the vocabulary. -/
theorem decodes_of_readClassVocab {order : WalkOrder} (hwords : WordKeys vocab)
    (hcomplete : Complete vocab)
    (hcover : ∀ tok : Nat, tok < vocab.size → ∃ cls, classToken classifier tok = some cls)
    {text : Str} (htext : dumpClassVocabulary order vocab classifier = some text)
    {classVocab : ClassVocab} (hread : readClassVocab text = some classVocab) :
    Decodes vocab classifier classVocab := by
  obtain ⟨text', classVocab', htext', hread', hdecodes⟩ := exists_decodes order hwords hcomplete
    hcover (good_of_readClassVocab hwords hcover htext hread)
  rw [htext, Option.some.injEq] at htext'
  rw [← htext', hread, Option.some.injEq] at hread'
  rw [hread']
  exact hdecodes

end RoundTrip

/-- The vocabulary of a corpus is read back as it is, if and only if every word has a
pronunciation and no tab. -/
theorem readClassVocab_dump_iff [ClPpcre] (order order' : WalkOrder) {pathnames : List Str}
    {overlap : Nat} {vocab : Vocabulary}
    (h : buildVocabularyWithUnk order pathnames overlap = some vocab)
    {classifier : Classifier Int Int}
    (hcover : ∀ tok : Nat, tok < vocab.size → ∃ cls, classToken classifier tok = some cls) :
    (∃ text classVocab, dumpClassVocabulary order' vocab classifier = some text ∧
        readClassVocab text = some classVocab ∧ Decodes vocab classifier classVocab) ↔
      ∀ key ∈ vocab.keys, key ∈ Vocabulary.specials ∨
        '\t' ∉ key ∧ ∃ pron, unitPron key = some pron := by
  have hwords := wordKeys_of_build h
  constructor
  · intro hread
    obtain ⟨text, classVocab, htext, hread, -⟩ := hread
    exact good_of_readClassVocab hwords hcover htext hread
  · exact exists_decodes order' hwords (complete_of_buildVocabularyWithUnk h) hcover

/-- Every token is a class of its own. -/
def ownClasses : Classifier Int Int := ⟨fun tok => some tok⟩

/-- A word that stands in two files with its pronunciation. -/
theorem readClassVocab_dump_word :
    ∃ vocab text classVocab, buildVocabularyWithUnk .firstPut ["a/b".toList, "a/b c/d".toList] 2 =
        some vocab ∧
      dumpClassVocabulary .firstPut vocab ownClasses = some text ∧
      readClassVocab text = some classVocab ∧ Decodes vocab ownClasses classVocab := by
  have hsome : (buildVocabularyWithUnk .firstPut ["a/b".toList, "a/b c/d".toList] 2).isSome := rfl
  obtain ⟨vocab, hvocab⟩ := Option.isSome_iff_exists.mp hsome
  have hkeys : vocab.keys = Vocabulary.specials ++ ["a/b".toList] := by
    cases hvocab
    decide
  have hgood : ∀ key ∈ vocab.keys, key ∈ Vocabulary.specials ∨
      '\t' ∉ key ∧ ∃ pron, unitPron key = some pron := by
    intro key hkey
    rw [hkeys, List.mem_append, List.mem_singleton] at hkey
    refine hkey.imp id fun h => ?_
    rw [h]
    exact ⟨by decide, "b".toList, by decide⟩
  have hcover : ∀ tok : Nat, tok < vocab.size → ∃ cls, classToken ownClasses tok = some cls :=
    fun tok _ => ⟨tok, rfl⟩
  obtain ⟨text, classVocab, hread⟩ :=
    (readClassVocab_dump_iff .firstPut .firstPut hvocab hcover).mpr hgood
  exact ⟨vocab, text, classVocab, hvocab, hread⟩

/-- A word that stands in two files without its pronunciation. -/
theorem not_readClassVocab_missing_pron :
    ∃ vocab text, buildVocabularyWithUnk .firstPut ["a".toList, "a".toList] 2 = some vocab ∧
      (∀ tok : Nat, tok < vocab.size → ∃ cls, classToken ownClasses tok = some cls) ∧
      dumpClassVocabulary .firstPut vocab ownClasses = some text ∧
      readClassVocab text = none := by
  refine ⟨_, _, rfl, fun tok _ => ⟨tok, rfl⟩, rfl, ?_⟩
  decide

end Hachee.Kkc.Impl.ClassNgram
