import Hachee.Lisp.Text
import Hachee.LanguageModel.Vocabulary
import Hachee.LanguageModel.Ngram.Model
import Hachee.Kkc.Impl.Lm.Dictionary

/-!
# Dumping a model (`hachee.kkc.impl.lm.dump`)

A trained kkc is written to text files, one record a line.  The tables are
written in the order of their sorted keys.
-/

namespace Hachee.Kkc.Impl.Lm.Dump

open Lisp (ClPpcre Str Table HashTable WalkOrder record writeLines princInteger princNat
  princRational)
open LanguageModel (Vocabulary)
open Hachee.LanguageModel.Ngram
open Hachee.LanguageModel.Ngram.Probability

/-! ## The vocabulary -/

/-- `to-str-map`: the key of every token.  Two keys of one token are an error. -/
def toStrMap (order : WalkOrder) (vocab : Vocabulary) : Option (HashTable Nat Str) :=
  (order.walk vocab.toIntMap.entries).foldlM
    (fun (toStr : HashTable Nat Str) e =>
      if (toStr.gethash e.2).isNone then some (toStr.puthash e.2 e.1) else none)
    HashTable.empty

/-- One line of `dump-class-vocabulary`. -/
def classVocabLine (toStr : HashTable Nat Str) (classifier : Classifier Int Int) (tok : Nat) :
    Option Str := do
  let cls ← classToken classifier tok
  let str := (toStr.gethash tok).getD "NIL".toList
  some (record '\t' str [princNat tok, princInteger cls])

/-- `dump-class-vocabulary`. -/
def dumpClassVocabulary (order : WalkOrder) (vocab : Vocabulary)
    (classifier : Classifier Int Int) : Option Str := do
  let toStr ← toStrMap order vocab
  let lines ← (List.range vocab.size).mapM (classVocabLine toStr classifier)
  some (writeLines lines)

/-! ## Counts -/

/-- The loop in the order of `do-ngram-counts`: the first tokens that differ decide. -/
def firstLess : List Int → List Int → Bool
  | t₁ :: tokens₁, t₂ :: tokens₂ =>
      if t₁ < t₂ then true else if t₂ < t₁ then false else firstLess tokens₁ tokens₂
  | _, _ => false

/-- The order in which `do-ngram-counts` meets the n-grams. -/
def ngramLess (tokens₁ tokens₂ : List Int) : Bool :=
  if tokens₁.length ≠ tokens₂.length then tokens₁.length < tokens₂.length
  else firstLess tokens₁ tokens₂

/-- `do-ngram-counts`. -/
def doNgramCounts (freq : Freq Int) : List (List Int × Nat) := freq.sortedEntries ngramLess

/-- `do-class-model-token-count`. -/
def doClassModelTokenCount (tokenFreq : Table Int Nat) : List (Int × Nat) :=
  tokenFreq.sortedEntries fun t₁ t₂ => t₁ < t₂

/-- `(format out "~A~{,~A~}~%" count tokens)`, without the newline. -/
def countLine (tokens : List Int) (count : Nat) : Str :=
  record ',' (princNat count) (tokens.map princInteger)

/-- The text of the n-gram counts, of a class model and of `dump-unk-model`. -/
def dumpNgramCounts (freq : Freq Int) : Str :=
  writeLines ((doNgramCounts freq).map fun e => countLine e.1 e.2)

/-- The text of the word counts. -/
def dumpWordCounts (tokenFreq : Table Int Nat) : Str :=
  writeLines ((doClassModelTokenCount tokenFreq).map fun e => countLine [e.1] e.2)

/-! ## The class model -/

/-- The line of the weights. -/
def weightsLine : List Rat → Str
  | [] => []
  | w :: weights => record '\t' (princRational w) (weights.map princRational)

/-- The files of a class model. -/
structure ClassModelFiles where
  classWeights : Str
  classNgramCounts : Str
  classWordCounts : Str

/-- `dump-class-model`. -/
def dumpClassModel (classModel : ClassModel Rat Int Int) : ClassModelFiles where
  classWeights := writeLines [weightsLine classModel.weights]
  classWordCounts := dumpWordCounts classModel.tokenFreq
  classNgramCounts := dumpNgramCounts classModel.freq

/-! ## The model of the unknown words -/

section Unknown

variable [ClPpcre]

/-- One line of `dump-unk-vocabulary`. -/
def unkVocabLine (toStr : HashTable Nat Str) (tok : Nat) : Option Str := do
  let key ← toStr.gethash tok
  let str := (unitForm key).getD "NIL".toList
  some (record '\t' (princNat tok) [str])

/-- `dump-unk-vocabulary`. -/
def dumpUnkVocabulary (order : WalkOrder) (vocab : Vocabulary) : Option Str := do
  let toStr ← toStrMap order vocab
  let lines ← (List.range vocab.size).mapM (unkVocabLine toStr)
  some (writeLines lines)

/-- `dump-unk-model`. -/
def dumpUnkModel (model : Model Rat Int) : Str := dumpNgramCounts model.freq

/-! ## The files -/

/-- The files that `execute` writes. -/
structure Files where
  classVocab : Str
  classModel : ClassModelFiles
  unkVocab : Str
  unkNgramCounts : Str
  charSetSize : Str

/-- `execute`, of what the four generic functions return for a kkc. -/
def execute (order : WalkOrder) (classVocabulary : Vocabulary)
    (classModel : ClassModel Rat Int Int) (unkVocabulary : Vocabulary)
    (unkModel : Model Rat Int) : Option Files := do
  let classVocab ← dumpClassVocabulary order classVocabulary classModel.classifier
  let unkVocab ← dumpUnkVocabulary order unkVocabulary
  some
    { classVocab
      classModel := dumpClassModel classModel
      unkVocab
      unkNgramCounts := dumpUnkModel unkModel
      charSetSize := "6878".toList }

end Unknown

/-! ## The keys of the tokens -/

theorem foldlM_putNew : ∀ {entries : List (Str × Nat)} {toStr : HashTable Nat Str},
    (entries.map Prod.snd).Nodup → (∀ e ∈ entries, toStr.gethash e.2 = none) →
      entries.foldlM (fun (toStr : HashTable Nat Str) e =>
          if (toStr.gethash e.2).isNone then some (toStr.puthash e.2 e.1) else none) toStr =
        some (entries.foldl (fun toStr e => toStr.puthash e.2 e.1) toStr)
  | [], toStr, _, _ => rfl
  | e :: entries, toStr, hnd, hnone => by
      rw [List.map_cons, List.nodup_cons] at hnd
      rw [List.foldlM_cons, hnone e List.mem_cons_self, List.foldl_cons, Option.isNone_none,
        if_pos rfl, Option.bind_eq_bind, Option.bind_some]
      refine foldlM_putNew hnd.2 fun e' he' => ?_
      have hne : e'.2 ≠ e.2 := fun h => hnd.1 (h ▸ List.mem_map_of_mem he')
      rw [HashTable.gethash_puthash_ne _ _ hne]
      exact hnone e' (List.mem_cons_of_mem _ he')

/-- No two keys have one token, and every token finds its key. -/
theorem toStrMap_eq_some (order : WalkOrder) (vocab : Vocabulary) :
    ∃ toStr, toStrMap order vocab = some toStr ∧
      ∀ key n, vocab.toIntMap.gethash key = some n → toStr.gethash n = some key := by
  have hperm := order.perm vocab.toIntMap.entries
  have hnd : ((order.walk vocab.toIntMap.entries).map Prod.snd).Nodup := by
    rw [(hperm.map Prod.snd).nodup_iff, vocab.numbered.nodup_iff]
    exact List.nodup_range
  refine ⟨_, foldlM_putNew hnd fun _ _ => rfl, fun key n h => ?_⟩
  have hmem : (key, n) ∈ order.walk vocab.toIntMap.entries :=
    hperm.mem_iff.mpr (Table.gethash_eq_some_iff.mp h)
  exact HashTable.gethash_foldl_puthash_of_mem Prod.snd Prod.fst _ _ hnd hmem

/-! ## What stands in a line -/

/-- No character but a digit, a sign and the comma occurs in a line of counts. -/
theorem notMem_countPart (tokens : List Int) (count : Nat) {c : Char} (hsign : c ≠ '-')
    (hdigit : c.isDigit = false) :
    ∀ part ∈ princNat count :: tokens.map princInteger, c ∉ part := by
  intro part hpart
  cases List.mem_cons.mp hpart with
  | inl h =>
      rw [h]
      exact Lisp.notMem_princNat _ hdigit
  | inr h =>
      obtain ⟨t, -, ht⟩ := List.mem_map.mp h
      rw [← ht]
      exact Lisp.notMem_princInteger _ hsign hdigit

theorem countPart_ne_nil {tokens : List Int} {count : Nat} :
    ∀ part ∈ princNat count :: tokens.map princInteger, part ≠ [] := by
  intro part hpart
  cases List.mem_cons.mp hpart with
  | inl h =>
      rw [h]
      exact Lisp.princNat_ne_nil _
  | inr h =>
      obtain ⟨t, -, ht⟩ := List.mem_map.mp h
      rw [← ht]
      exact Lisp.princInteger_ne_nil _

theorem newline_notMem_countLine (tokens : List Int) (count : Nat) :
    '\n' ∉ countLine tokens count :=
  Lisp.notMem_record (by decide) (notMem_countPart tokens count (by decide) (by decide))

theorem notMem_weightPart (weights : List Rat) {c : Char} (hsign : c ≠ '-') (hslash : c ≠ '/')
    (hdigit : c.isDigit = false) : ∀ part ∈ weights.map princRational, c ∉ part := by
  intro part hpart
  obtain ⟨w, -, hw⟩ := List.mem_map.mp hpart
  rw [← hw]
  exact Lisp.notMem_princRational _ hsign hslash hdigit

theorem newline_notMem_weightsLine (weights : List Rat) : '\n' ∉ weightsLine weights := by
  cases weights with
  | nil => exact List.not_mem_nil
  | cons w weights =>
      exact Lisp.notMem_record (by decide)
        (notMem_weightPart (w :: weights) (by decide) (by decide) (by decide))

end Hachee.Kkc.Impl.Lm.Dump
