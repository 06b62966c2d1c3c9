import Hachee.Lisp.Text
import Hachee.Kkc.Impl.ClassNgram.Score

/-!
# Reading a dumped model (`hachee.kkc.impl.class-ngram`)

The readers take the files that the dump of the language model writes.  A line
that has not the expected number of fields, or a field that is no number, is an
error.
-/

namespace Hachee.Kkc.Impl.ClassNgram

open Lisp

variable [ClPpcre]

/-! ## The vocabulary -/

/-- `class-vocab-entry`. -/
structure ClassVocabEntry where
  form : Str
  word : Word
deriving DecidableEq

/-- `class-vocab`. -/
structure ClassVocab where
  strEntryHash : HashTable Str (List ClassVocabEntry)
  unkWord : Word
  bosWord : Word
  eosWord : Word

/-- `(gethash pron str-entry-hash)`. -/
def ClassVocab.entries (classVocab : ClassVocab) (pron : Str) : List ClassVocabEntry :=
  (classVocab.strEntryHash.gethash pron).getD []

/-- What a line of the vocabulary file sets: the word of one of the three keys that
stand for no word, or an entry under its pronunciation. -/
inductive VocabItem where
  | special (key : Str) (word : Word)
  | entry (pron : Str) (entry : ClassVocabEntry)
deriving Inhabited

/-- `+UNK+`, `+BOS+` and `+EOS+`. -/
def specialKeys : List Str := ["<UNK>".toList, "<BOS>".toList, "<EOS>".toList]

/-- One line of `read-class-vocab`. -/
def readVocabLine (line : Str) : Option VocabItem :=
  match split '\t' line with
  | [formPron, wordIdStr, classIdStr] => do
      let wordId ← parseInteger wordIdStr
      let classId ← parseInteger classIdStr
      if formPron ∈ specialKeys then some (.special formPron ⟨wordId, classId⟩)
      else
        match split '/' formPron with
        | [form, pron] => some (.entry pron ⟨form, ⟨wordId, classId⟩⟩)
        | _ => none
  | _ => none

/-- The words that a line sets. -/
def VocabItem.special? : VocabItem → Option (Str × Word)
  | .special key word => some (key, word)
  | .entry _ _ => none

/-- The entry that a line pushes. -/
def VocabItem.entry? : VocabItem → Option (Str × ClassVocabEntry)
  | .special _ _ => none
  | .entry pron e => some (pron, e)

/-- The variables `unk-word`, `bos-word` and `eos-word`, as a table. -/
def readWords (items : List VocabItem) : HashTable Str Word :=
  (items.filterMap VocabItem.special?).foldl (fun words e => words.puthash e.1 e.2) HashTable.empty

/-- The table of the entries. -/
def readEntries (items : List VocabItem) : HashTable Str (List ClassVocabEntry) :=
  (items.filterMap VocabItem.entry?).foldl (fun hash e => hash.pushhash e.1 e.2) HashTable.empty

/-- `read-class-vocab`. -/
def readClassVocab (text : Str) : Option ClassVocab := do
  let items ← (readLines text).mapM readVocabLine
  let unkWord ← (readWords items).gethash "<UNK>".toList
  let bosWord ← (readWords items).gethash "<BOS>".toList
  let eosWord ← (readWords items).gethash "<EOS>".toList
  some { strEntryHash := readEntries items, unkWord, bosWord, eosWord }

/-! ## Weights and counts -/

/-- `read-weights`. -/
def readWeights (classWeights : Str) : Option (List Rat) := do
  let line ← (readLines classWeights).head?
  (split '\t' line).mapM readRational

/-- One line of `read-counts`: an n-gram and its count. -/
def readCountLine (line : Str) : Option (List Int × Int) :=
  match split ',' line with
  | [] => none
  | countStr :: strList => do
      let count ← parseInteger countStr
      let ngram ← strList.mapM parseInteger
      some (ngram, count)

/-- `read-counts`. -/
def readCounts (text : Str) : Option Counts := do
  let entries ← (readLines text).mapM readCountLine
  some (entries.foldl (fun counts e => counts.puthash e.1 e.2) .empty)

/-- `read-class-model`. -/
def readClassModel (classNgramCounts classWordCounts : Str) : Option ClassModel := do
  let ngramCounts ← readCounts classNgramCounts
  let wordCounts ← readCounts classWordCounts
  some { ngramCounts, wordCounts }

/-! ## The model of the unknown words -/

/-- `unk-vocab`. -/
structure UnkVocab where
  strIdHash : HashTable Str Int
  bosId : Int
  eosId : Int
  unkId : Int

/-- One line of `read-unk-vocab`: a string and its id. -/
def readUnkVocabLine (line : Str) : Option (Str × Int) :=
  match split '\t' line with
  | [idStr, str] => do
      let id ← parseInteger idStr
      some (str, id)
  | _ => none

/-- The ids of all strings of the file. -/
def readIds (items : List (Str × Int)) : HashTable Str Int :=
  items.foldl (fun hash e => hash.puthash e.1 e.2) HashTable.empty

/-- `read-unk-vocab`. -/
def readUnkVocab (text : Str) : Option UnkVocab := do
  let items ← (readLines text).mapM readUnkVocabLine
  let unkId ← (readIds items).gethash "<UNK>".toList
  let bosId ← (readIds items).gethash "<BOS>".toList
  let eosId ← (readIds items).gethash "<EOS>".toList
  some
    { strIdHash := readIds (items.filter fun e => e.1 ∉ specialKeys)
      unkId
      bosId
      eosId }

/-- `unk-model`. -/
structure UnkModel where
  ngramCounts : Counts
  charSetSize : Rat

/-- `read-unk-model`. -/
def readUnkModel (unkNgramCounts charSetSize : Str) : Option UnkModel := do
  let ngramCounts ← readCounts unkNgramCounts
  let charSetSize ← readRational charSetSize
  some { ngramCounts, charSetSize }

end Hachee.Kkc.Impl.ClassNgram
