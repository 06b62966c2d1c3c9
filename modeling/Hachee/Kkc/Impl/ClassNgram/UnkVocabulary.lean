import Hachee.Kkc.Impl.Lm.Vocabularies
import Hachee.Kkc.Impl.Lm.Dump
import Hachee.Kkc.Impl.ClassNgram.Read

/-!
# The file of the unknown word vocabulary

The vocabulary of the unknown words numbers characters.  A character is the unit
that has it as its form and as its pronunciation, and the dump writes the form.
The engine reads the numbers of all characters back (`DecodesUnk`), or it signals
an error.
-/

namespace Hachee.Kkc.Impl.ClassNgram

open Lisp (ClPpcre Str HashTable WalkOrder record split readLines writeLines princNat bind_inv)
open LanguageModel (Vocabulary)
open Lm (makeUnit unitForm unitPron)
open Lm.Build
open Lm.Dump

variable [ClPpcre]

/-! ## Characters of unknown words -/

/-- The unit of a character. -/
def charUnit (ch : Char) : Str := makeUnit [ch] [ch]

omit [ClPpcre] in
theorem charUnit_inj {ch ch' : Char} (hslash : ch ≠ '/') (h : charUnit ch = charUnit ch') :
    ch = ch' := by
  have hmem : '/' ∉ [ch] := by simpa using Ne.symm hslash
  exact List.head_eq_of_cons_eq (Lm.makeUnit_inj hmem hmem h).1

omit [ClPpcre] in
theorem charUnit_notMem_specials (ch : Char) : charUnit ch ∉ Vocabulary.specials :=
  makeUnit_notMem_specials [ch] [ch]

theorem unitForm_charUnit {ch : Char} (hslash : ch ≠ '/') : unitForm (charUnit ch) = some [ch] := by
  have hmem : '/' ∉ [ch] := by simpa using Ne.symm hslash
  exact Lm.unitForm_makeUnit hmem hmem (List.cons_ne_nil ch [])

/-- What the loop over the unknown words of a file collects. -/
theorem mem_unknownPronUnits {vocabulary : Vocabulary} {file : Str} {units : List Str}
    (h : unknownPronUnits vocabulary file = some units) {key : Str} :
    key ∈ units ↔ ∃ unit ∈ unknownUnits vocabulary file, ∃ pron, unitPron unit = some pron ∧
      ∃ ch ∈ pron, key = charUnit ch := by
  obtain ⟨pronUnits, hpronUnits, h⟩ := bind_inv h
  rw [← Option.some.inj h, List.mem_flatten]
  constructor
  · intro hex
    obtain ⟨l, hl, hkey⟩ := hex
    obtain ⟨unit, hunit, hprons⟩ := (Lisp.mem_iff_of_mapM_eq_some hpronUnits).mp hl
    obtain ⟨pron, hpron, hprons⟩ := bind_inv hprons
    rw [← Option.some.inj hprons] at hkey
    obtain ⟨ch, hch, rfl⟩ := List.mem_map.mp hkey
    exact ⟨unit, hunit, pron, hpron, ch, hch, rfl⟩
  · intro hex
    obtain ⟨unit, hunit, pron, hpron, ch, hch, rfl⟩ := hex
    have hprons : Lm.unitToPronUnits unit = some (pron.map charUnit) := by
      rw [Lm.unitToPronUnits, hpron]
      rfl
    exact ⟨_, (Lisp.mem_iff_of_mapM_eq_some hpronUnits).mpr ⟨unit, hunit, hprons⟩,
      List.mem_map_of_mem hch⟩

/-- A character of an unknown word is not the separator, and does not end a line. -/
theorem of_mem_pron {file unit pron : Str} (hunit : unit ∈ fileUnits file)
    (hpron : unitPron unit = some pron) {ch : Char} (hch : ch ∈ pron) : ch ≠ '/' ∧ ch ≠ '\n' := by
  obtain ⟨hslash, hsub⟩ := Lisp.of_mem_split (List.mem_of_getElem? hpron)
  obtain ⟨-, -, -, -, -, hnewline⟩ := of_mem_fileUnits hunit
  exact ⟨fun h => hslash (h ▸ hch), fun h => hnewline (h ▸ hsub hch)⟩

/-- Every key is one of the three, or the unit of a character. -/
def CharKeys (vocab : Vocabulary) : Prop :=
  ∀ key ∈ vocab.keys, key ∈ Vocabulary.specials ∨ ∃ ch, key = charUnit ch ∧ ch ≠ '/' ∧ ch ≠ '\n'

omit [ClPpcre] in
/-- The separator has no id. -/
theorem CharKeys.ne_slash {vocab : Vocabulary} (hchars : CharKeys vocab) {ch : Char}
    (h : charUnit ch ∈ vocab.keys) : ch ≠ '/' := by
  rcases hchars _ h with hspecial | ⟨ch', hch', hslash, -⟩
  · exact absurd hspecial (charUnit_notMem_specials ch)
  · rw [← charUnit_inj hslash hch'.symm]
    exact hslash

theorem charKeys_of_build {order : WalkOrder} {pathnames : List Str} {vocabulary : Vocabulary}
    {overlap : Nat} {vocab : Vocabulary}
    (h : buildUnknownWordVocabulary order pathnames vocabulary overlap = some vocab) :
    CharKeys vocab := by
  intro key hkey
  obtain ⟨files, hfiles, h⟩ := bind_inv h
  rw [← Option.some.inj h, mem_keys_overlapVocabulary] at hkey
  refine hkey.imp id fun hcount => ?_
  obtain ⟨units, hunits, hmem⟩ := List.countP_pos_iff.mp hcount.1
  obtain ⟨file, -, hfile⟩ := (Lisp.mem_iff_of_mapM_eq_some hfiles).mp hunits
  obtain ⟨unit, hunit, pron, hpron, ch, hch, rfl⟩ :=
    (mem_unknownPronUnits hfile).mp (of_decide_eq_true hmem)
  exact ⟨ch, rfl, of_mem_pron (List.mem_filter.mp hunit).1 hpron hch⟩

/-! ## The text -/

/-- What is written for a key. -/
def formText (key : Str) : Str := (unitForm key).getD "NIL".toList

theorem formText_charUnit {ch : Char} (hslash : ch ≠ '/') : formText (charUnit ch) = [ch] := by
  rw [formText, unitForm_charUnit hslash]
  rfl

theorem formText_special : ∀ key ∈ Vocabulary.specials, formText key = key := by
  intro key hkey
  have hplain : ∀ key ∈ Vocabulary.specials, '/' ∉ key ∧ key ≠ [] := by decide
  obtain ⟨hslash, hne⟩ := hplain key hkey
  rw [formText, unitForm, Lisp.split_eq_singleton hslash hne]
  rfl

/-- One of the three keys, or the unit of a character that is not the separator. -/
def UnkKey (key : Str) : Prop := key ∈ Vocabulary.specials ∨ ∃ ch, key = charUnit ch ∧ ch ≠ '/'

omit [ClPpcre] in
theorem CharKeys.unkKey {vocab : Vocabulary} (hchars : CharKeys vocab) {key : Str}
    (hkey : key ∈ vocab.keys) : UnkKey key := by
  rcases hchars key hkey with hspecial | ⟨ch, heq, hslash, -⟩
  · exact Or.inl hspecial
  · exact Or.inr ⟨ch, heq, hslash⟩

/-- The three keys are written with more than one character. -/
theorem formText_special_ne_singleton {key : Str} (hkey : key ∈ Vocabulary.specials) (ch : Char) :
    formText key ≠ [ch] := by
  have hlen : ∀ key ∈ Vocabulary.specials, key.length ≠ 1 := by decide
  rw [formText_special key hkey]
  exact fun h => hlen key hkey (congrArg List.length h)

/-- Different keys are written differently. -/
theorem UnkKey.formText_inj {key key' : Str} (hkey : UnkKey key) (hkey' : UnkKey key')
    (h : formText key = formText key') : key = key' := by
  rcases hkey with hspecial | ⟨ch, rfl, hslash⟩
  · rcases hkey' with hspecial' | ⟨ch', rfl, hslash'⟩
    · rw [formText_special key hspecial, formText_special key' hspecial'] at h
      exact h
    · rw [formText_charUnit hslash'] at h
      exact absurd h (formText_special_ne_singleton hspecial ch')
  · rcases hkey' with hspecial' | ⟨ch', rfl, hslash'⟩
    · rw [formText_charUnit hslash] at h
      exact absurd h.symm (formText_special_ne_singleton hspecial' ch)
    · rw [formText_charUnit hslash, formText_charUnit hslash'] at h
      rw [List.head_eq_of_cons_eq h]

/-- No key is written as the separator. -/
theorem UnkKey.formText_ne_slash {key : Str} (hkey : UnkKey key) : formText key ≠ ['/'] := by
  rcases hkey with hspecial | ⟨ch, rfl, hslash⟩
  · exact formText_special_ne_singleton hspecial '/'
  · rw [formText_charUnit hslash]
    exact fun h => hslash (List.head_eq_of_cons_eq h)

/-- The line of a key. -/
def unkLine (key : Str) (tok : Nat) : Str := record '\t' (princNat tok) [formText key]

theorem newline_notMem_unkLine {vocab : Vocabulary} (hchars : CharKeys vocab) {key : Str}
    (hkey : key ∈ vocab.keys) (tok : Nat) : '\n' ∉ unkLine key tok := by
  have hspecials : ∀ key ∈ Vocabulary.specials, '\n' ∉ key := by decide
  refine Lisp.notMem_record (by decide) fun part hpart => ?_
  rw [List.mem_cons, List.mem_singleton] at hpart
  rcases hpart with rfl | rfl
  · exact Lisp.notMem_princNat _ (by decide)
  · rcases hchars key hkey with hspecial | ⟨ch, rfl, hslash, hnewline⟩
    · rw [formText_special key hspecial]
      exact hspecials key hspecial
    · rw [formText_charUnit hslash]
      simpa using Ne.symm hnewline

/-- A line is read as it was written, unless the character is a tab. -/
theorem readUnkVocabLine_unkLine {vocab : Vocabulary} (hchars : CharKeys vocab) {key : Str}
    (hkey : key ∈ vocab.keys) {tok : Nat} {item : Str × Int}
    (h : readUnkVocabLine (unkLine key tok) = some item) : item = (formText key, (tok : Int)) := by
  have hspecials : ∀ key ∈ Vocabulary.specials, '\t' ∉ key ∧ key ≠ [] := by decide
  have htok : '\t' ∉ princNat tok := Lisp.notMem_princNat _ (by decide)
  have hfields : '\t' ∉ formText key ∧ formText key ≠ [] := by
    rcases hchars key hkey with hspecial | ⟨ch, rfl, hslash, -⟩
    · rw [formText_special key hspecial]
      exact hspecials key hspecial
    · rw [formText_charUnit hslash]
      refine ⟨fun htab => ?_, List.cons_ne_nil ch []⟩
      -- two tabs at the end of the line leave one field only
      have hsplit : split '\t' (unkLine (charUnit ch) tok) = [princNat tok] := by
        rw [unkLine, formText_charUnit hslash, ← List.mem_singleton.mp htab]
        have hline : record '\t' (princNat tok) [['\t']] = (princNat tok ++ ['\t']) ++ ['\t'] := by
          simp [record]
        rw [hline, Lisp.split_eq, List.splitOn_append_cons_self, List.splitOn_append_cons_self,
          List.splitOn_eq_singleton htok]
        simp [List.rdropWhile, Lisp.princNat_ne_nil]
      rw [readUnkVocabLine, hsplit] at h
      cases h
  have hsplit : split '\t' (unkLine key tok) = [princNat tok, formText key] :=
    Lisp.split_record '\t' fun part hpart => by
      rw [List.mem_cons, List.mem_singleton] at hpart
      rcases hpart with rfl | rfl
      · exact ⟨htok, Lisp.princNat_ne_nil tok⟩
      · exact hfields
  rw [readUnkVocabLine, hsplit] at h
  simp only [Lisp.parseInteger_princNat, Option.bind_eq_bind, Option.bind_some,
    Option.some.injEq] at h
  exact h.symm

/-! ## The whole file -/

/-- The engine has the ids of the three keys and of the characters. -/
structure DecodesUnk (vocab : Vocabulary) (unkVocab : UnkVocab) : Prop where
  unk : vocab.toIntOrNil Vocabulary.UNK = some unkVocab.unkId
  bos : vocab.toIntOrNil Vocabulary.BOS = some unkVocab.bosId
  eos : vocab.toIntOrNil Vocabulary.EOS = some unkVocab.eosId
  char : ∀ ch, unkVocab.strIdHash.gethash [ch] = vocab.toIntOrNil (charUnit ch)

section File

variable {order : WalkOrder} {vocab : Vocabulary}

/-- The lines of the file, one for each token in order. -/
theorem dumpUnkVocabulary_eq_some {text : Str} (h : dumpUnkVocabulary order vocab = some text) :
    ∃ key : Nat → Str, (∀ n < vocab.size, vocab.toIntMap.gethash (key n) = some n) ∧
      text = writeLines ((List.range vocab.size).map fun n => unkLine (key n) n) := by
  obtain ⟨toStr, htoStr, hfind⟩ := toStrMap_eq_some order vocab
  choose! key hkey using fun n (h : n < vocab.size) => Vocabulary.exists_gethash_of_lt h
  refine ⟨key, hkey, ?_⟩
  have hlines : (List.range vocab.size).mapM (unkVocabLine toStr) =
      some ((List.range vocab.size).map fun n => unkLine (key n) n) := by
    refine Lisp.mapM_of_forall fun n hn => ?_
    rw [List.mem_range] at hn
    simp only [unkVocabLine, hfind _ _ (hkey n hn), Option.bind_eq_bind, Option.bind_some]
    rfl
  simp only [dumpUnkVocabulary, htoStr, hlines, Option.bind_eq_bind, Option.bind_some,
    Option.some.injEq] at h
  exact h.symm

/-- The strings of the file with their ids. -/
def unkItems (key : Nat → Str) (size : Nat) : List (Str × Int) :=
  (List.range size).map fun n => (formText (key n), (n : Int))

theorem mem_unkItems {key : Nat → Str} (hchars : CharKeys vocab)
    (hkey : ∀ n < vocab.size, vocab.toIntMap.gethash (key n) = some n) {k : Str}
    (hk : UnkKey k) {id : Int} :
    (formText k, id) ∈ unkItems key vocab.size ↔ vocab.toIntOrNil k = some id := by
  rw [unkItems, List.mem_map, Vocabulary.toIntOrNil, Option.map_eq_some_iff]
  constructor
  · intro hex
    obtain ⟨n, hn, heq⟩ := hex
    rw [List.mem_range] at hn
    rw [Prod.mk.injEq] at heq
    have hkn : key n = k := (hchars.unkKey (Vocabulary.key_mem_keys hkey hn)).formText_inj hk heq.1
    exact ⟨n, hkn ▸ hkey n hn, heq.2⟩
  · intro hex
    obtain ⟨n, hn, heq⟩ := hex
    have hlt := Vocabulary.lt_size_of_gethash hn
    refine ⟨n, List.mem_range.mpr hlt, ?_⟩
    rw [Vocabulary.gethash_inj (hkey n hlt) hn, ← heq]
    rfl

/-- No string is there twice. -/
theorem nodup_unkItems {key : Nat → Str} (hchars : CharKeys vocab)
    (hkey : ∀ n < vocab.size, vocab.toIntMap.gethash (key n) = some n) :
    ((unkItems key vocab.size).map Prod.fst).Nodup := by
  rw [unkItems, List.map_map]
  refine List.Nodup.map_on (fun n hn m hm h => ?_) List.nodup_range
  rw [List.mem_range] at hn hm
  have hkeys := (hchars.unkKey (Vocabulary.key_mem_keys hkey hn)).formText_inj
    (hchars.unkKey (Vocabulary.key_mem_keys hkey hm)) h
  exact Vocabulary.key_inj hkey hn hm hkeys

/-- When every line was read, the items are the strings with their ids. -/
theorem items_eq_unkItems {key : Nat → Str} (hchars : CharKeys vocab)
    (hkey : ∀ n < vocab.size, vocab.toIntMap.gethash (key n) = some n) {items : List (Str × Int)}
    (hitems : (readLines (writeLines ((List.range vocab.size).map fun n =>
      unkLine (key n) n))).mapM readUnkVocabLine = some items) :
    items = unkItems key vocab.size := by
  have hlines : readLines (writeLines ((List.range vocab.size).map fun n => unkLine (key n) n)) =
      (List.range vocab.size).map fun n => unkLine (key n) n :=
    Lisp.readLines_writeLines fun line hline => by
      obtain ⟨n, hn, rfl⟩ := List.mem_map.mp hline
      exact newline_notMem_unkLine hchars (Vocabulary.key_mem_keys hkey (List.mem_range.mp hn)) n
  rw [hlines] at hitems
  refine Option.some.inj (hitems.symm.trans (Lisp.mapM_map fun n hn => ?_))
  rw [List.mem_range] at hn
  obtain ⟨item, -, hitem⟩ := Lisp.exists_of_mapM_eq_some hitems
    (List.mem_map.mpr ⟨n, List.mem_range.mpr hn, rfl⟩)
  rw [hitem, readUnkVocabLine_unkLine hchars (Vocabulary.key_mem_keys hkey hn) hitem]

/-- The ids of the characters. -/
theorem gethash_readIds_iff {key : Nat → Str} (hchars : CharKeys vocab)
    (hkey : ∀ n < vocab.size, vocab.toIntMap.gethash (key n) = some n) {ch : Char} {id : Int} :
    (readIds ((unkItems key vocab.size).filter fun e => e.1 ∉ specialKeys)).gethash [ch] =
      some id ↔ ([ch], id) ∈ unkItems key vocab.size := by
  have hlen : ∀ key ∈ specialKeys, key.length ≠ 1 := by decide
  have hnd : (((unkItems key vocab.size).filter fun e => e.1 ∉ specialKeys).map Prod.fst).Nodup :=
    (List.filter_sublist.map Prod.fst).nodup (nodup_unkItems hchars hkey)
  rw [readIds, HashTable.gethash_foldl_puthash_iff hnd, List.mem_filter, and_iff_left_iff_imp]
  intro _
  rw [decide_eq_true_eq]
  exact fun h => hlen _ h rfl

/-- What is read is the vocabulary. -/
theorem decodesUnk_of_readUnkVocab (hchars : CharKeys vocab) {text : Str}
    (htext : dumpUnkVocabulary order vocab = some text) {unkVocab : UnkVocab}
    (hread : readUnkVocab text = some unkVocab) : DecodesUnk vocab unkVocab := by
  obtain ⟨key, hkey, rfl⟩ := dumpUnkVocabulary_eq_some htext
  obtain ⟨items, hitems, hread⟩ := bind_inv hread
  obtain ⟨unkId, hunk, hread⟩ := bind_inv hread
  obtain ⟨bosId, hbos, hread⟩ := bind_inv hread
  obtain ⟨eosId, heos, hread⟩ := bind_inv hread
  rw [items_eq_unkItems hchars hkey hitems] at hunk hbos heos hread
  have hspecial : ∀ k ∈ Vocabulary.specials, ∀ {id : Int},
      (readIds (unkItems key vocab.size)).gethash k = some id → vocab.toIntOrNil k = some id := by
    intro k hk id hid
    rw [readIds, HashTable.gethash_foldl_puthash_iff (nodup_unkItems hchars hkey),
      ← formText_special k hk] at hid
    exact (mem_unkItems hchars hkey (Or.inl hk)).mp hid
  rw [← Option.some.inj hread]
  refine ⟨hspecial _ (by decide) hunk, hspecial _ (by decide) hbos, hspecial _ (by decide) heos,
    fun ch => Option.ext fun id => ?_⟩
  rw [gethash_readIds_iff hchars hkey]
  by_cases hslash : ch = '/'
  · -- the separator is no character of an unknown word
    rw [hslash]
    constructor
    · intro h
      obtain ⟨n, hn, heq⟩ := List.mem_map.mp h
      rw [List.mem_range] at hn
      exact absurd (congrArg Prod.fst heq)
        (hchars.unkKey (Vocabulary.key_mem_keys hkey hn)).formText_ne_slash
    · intro h
      exact absurd rfl (hchars.ne_slash (Vocabulary.mem_keys_of_toIntOrNil h))
  · rw [← formText_charUnit hslash]
    exact mem_unkItems hchars hkey (Or.inr ⟨ch, rfl, hslash⟩)

end File

end Hachee.Kkc.Impl.ClassNgram
