import Hachee.Lisp.Text
import Hachee.Lisp.Table

/-!
# Vocabularies (`hachee.language-model.vocabulary`)

A vocabulary numbers the keys in the order in which they were added, and begins
with the three keys that stand for no word.  That the numbers are those below the size,
each of them once, is part of the structure.  The table may be in any order.
-/

namespace Hachee.LanguageModel

open Lisp (Str Table)

namespace Vocabulary

/-- `+UNK+`. -/
def UNK : Str := "<UNK>".toList

/-- `+BOS+`. -/
def BOS : Str := "<BOS>".toList

/-- `+EOS+`. -/
def EOS : Str := "<EOS>".toList

/-- The keys that stand for no word. -/
def specials : List Str := [UNK, BOS, EOS]

end Vocabulary

/-- `vocabulary`. -/
structure Vocabulary where
  size : Nat
  toIntMap : Table Str Nat
  numbered : (toIntMap.entries.map Prod.snd).Perm (List.range size)

namespace Vocabulary

/-- An empty vocabulary. -/
def empty : Vocabulary := ⟨0, Table.empty, List.Perm.nil⟩

/-- `to-int-or-nil`. -/
def toIntOrNil (vocab : Vocabulary) (key : Str) : Option Int :=
  (vocab.toIntMap.gethash key).map Int.ofNat

/-- `to-int`, which signals an error when the key is missing. -/
def toInt (vocab : Vocabulary) (key : Str) : Option Int := vocab.toIntOrNil key

/-- `to-int-or-unk`. -/
def toIntOrUnk (vocab : Vocabulary) (key : Str) : Option Int :=
  match vocab.toIntOrNil key with
  | some int => some int
  | none => vocab.toInt UNK

/-- `add-new`. -/
def addNew (vocab : Vocabulary) (key : Str) : Vocabulary :=
  match h : vocab.toIntMap.gethash key with
  | some _ => vocab
  | none =>
      { size := vocab.size + 1
        toIntMap := vocab.toIntMap.puthash key vocab.size
        numbered := by
          rw [Table.entries_puthash_of_notMem _ (Table.gethash_eq_none_iff.mp h), List.map_append,
            List.range_succ]
          exact vocab.numbered.append_right _ }

theorem addNew_of_some {vocab : Vocabulary} {key : Str} {n : Nat}
    (h : vocab.toIntMap.gethash key = some n) : vocab.addNew key = vocab := by
  unfold addNew
  split
  next => rfl
  next hnone => simp [h] at hnone

theorem addNew_of_none {vocab : Vocabulary} {key : Str}
    (h : vocab.toIntMap.gethash key = none) : (vocab.addNew key).size = vocab.size + 1 ∧
      (vocab.addNew key).toIntMap = vocab.toIntMap.puthash key vocab.size := by
  unfold addNew
  split
  next hsome => simp [h] at hsome
  next => exact ⟨rfl, rfl⟩

/-- `make-vocabulary`. -/
def make : Vocabulary := ((empty.addNew UNK).addNew BOS).addNew EOS

/-! ## Keys -/

/-- The keys of a vocabulary. -/
def keys (vocab : Vocabulary) : List Str := vocab.toIntMap.keys

theorem mem_keys_iff {vocab : Vocabulary} {key : Str} :
    key ∈ vocab.keys ↔ ∃ n, vocab.toIntMap.gethash key = some n := Table.mem_keys_iff

@[simp] theorem mem_keys_addNew {vocab : Vocabulary} {key key' : Str} :
    key' ∈ (vocab.addNew key).keys ↔ key' = key ∨ key' ∈ vocab.keys := by
  unfold addNew
  split
  next n h =>
    constructor
    · exact Or.inr
    · intro hor
      cases hor with
      | inl heq =>
          rw [heq]
          exact Table.mem_keys_iff.mpr ⟨n, h⟩
      | inr hmem => exact hmem
  next => exact Table.mem_keys_puthash

theorem mem_keys_make {key : Str} : key ∈ make.keys ↔ key ∈ specials := by
  have hempty : key ∉ empty.keys := List.not_mem_nil
  simp only [make, mem_keys_addNew, specials, List.mem_cons, List.not_mem_nil, or_false, hempty]
  rw [or_comm, or_assoc, or_left_comm]

/-! ## Numbers -/

theorem toIntOrNil_eq_none {vocab : Vocabulary} {key : Str} :
    vocab.toIntOrNil key = none ↔ key ∉ vocab.keys := by
  rw [toIntOrNil, Option.map_eq_none_iff]
  exact Table.gethash_eq_none_iff

theorem mem_keys_of_toIntOrNil {vocab : Vocabulary} {key : Str} {token : Int}
    (h : vocab.toIntOrNil key = some token) : key ∈ vocab.keys := by
  by_contra hnot
  rw [toIntOrNil_eq_none.mpr hnot] at h
  cases h

theorem exists_toIntOrNil {vocab : Vocabulary} {key : Str} (h : key ∈ vocab.keys) :
    ∃ token, vocab.toIntOrNil key = some token := by
  obtain ⟨n, hn⟩ := mem_keys_iff.mp h
  exact ⟨n, by rw [toIntOrNil, hn]; rfl⟩

/-- With `UNK` among the keys every key has a token. -/
theorem exists_toIntOrUnk {vocab : Vocabulary} (hunk : UNK ∈ vocab.keys) (key : Str) :
    ∃ token, vocab.toIntOrUnk key = some token := by
  unfold toIntOrUnk
  split
  next token h => exact ⟨token, rfl⟩
  next h => exact exists_toIntOrNil hunk

theorem length_entries (vocab : Vocabulary) : vocab.toIntMap.entries.length = vocab.size := by
  have h := vocab.numbered.length_eq
  rwa [List.length_map, List.length_range] at h

theorem lt_size_of_gethash {vocab : Vocabulary} {key : Str} {n : Nat}
    (h : vocab.toIntMap.gethash key = some n) : n < vocab.size := by
  have hmem := List.mem_map_of_mem (f := Prod.snd) (Table.gethash_eq_some_iff.mp h)
  exact List.mem_range.mp (vocab.numbered.mem_iff.mp hmem)

/-- Every number below the size is that of a key. -/
theorem exists_gethash_of_lt {vocab : Vocabulary} {n : Nat} (h : n < vocab.size) :
    ∃ key, vocab.toIntMap.gethash key = some n := by
  obtain ⟨⟨key, _⟩, hmem, rfl⟩ :=
    List.mem_map.mp (vocab.numbered.mem_iff.mpr (List.mem_range.mpr h))
  exact ⟨key, Table.gethash_eq_some_iff.mpr hmem⟩

/-- No two keys have one number. -/
theorem gethash_inj {vocab : Vocabulary} {key key' : Str} {n : Nat}
    (h : vocab.toIntMap.gethash key = some n) (h' : vocab.toIntMap.gethash key' = some n) :
    key = key' := by
  have hnodup := vocab.numbered.nodup_iff.mpr List.nodup_range
  have heq := List.inj_on_of_nodup_map hnodup (Table.gethash_eq_some_iff.mp h)
    (Table.gethash_eq_some_iff.mp h') rfl
  exact congrArg Prod.fst heq

section Keys

variable {vocab : Vocabulary} {key : Nat → Str}

/-- The keys by their numbers are keys. -/
theorem key_mem_keys (hkey : ∀ n < vocab.size, vocab.toIntMap.gethash (key n) = some n) {n : Nat}
    (hn : n < vocab.size) : key n ∈ vocab.keys := mem_keys_iff.mpr ⟨n, hkey n hn⟩

/-- Different numbers have different keys. -/
theorem key_inj (hkey : ∀ n < vocab.size, vocab.toIntMap.gethash (key n) = some n) {n m : Nat}
    (hn : n < vocab.size) (hm : m < vocab.size) (h : key n = key m) : n = m := by
  have hkeyn := hkey n hn
  rw [h, hkey m hm, Option.some.injEq] at hkeyn
  exact hkeyn.symm

end Keys

/-- No two keys have one token. -/
theorem toIntOrNil_inj {vocab : Vocabulary} {key key' : Str} {token : Int}
    (h : vocab.toIntOrNil key = some token) (h' : vocab.toIntOrNil key' = some token) :
    key = key' := by
  obtain ⟨n, hn, hnt⟩ := Option.map_eq_some_iff.mp h
  obtain ⟨n', hn', hnt'⟩ := Option.map_eq_some_iff.mp h'
  rw [Int.ofNat_inj.mp (hnt.trans hnt'.symm)] at hn
  exact gethash_inj hn hn'

/-- Only a key that is missing has the token of `UNK`. -/
theorem toIntOrUnk_eq_some_iff {vocab : Vocabulary} {unk : Int} (hunk : vocab.toInt UNK = some unk)
    {key : Str} (hkey : key ≠ UNK) : vocab.toIntOrUnk key = some unk ↔ key ∉ vocab.keys := by
  rw [← toIntOrNil_eq_none, toIntOrUnk]
  cases h : vocab.toIntOrNil key with
  | none => simp [hunk]
  | some token =>
      simp only [Option.some.injEq, reduceCtorEq, iff_false]
      intro heq
      rw [heq] at h
      exact hkey (toIntOrNil_inj h hunk)

end Vocabulary

end Hachee.LanguageModel
