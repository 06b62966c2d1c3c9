import Hachee.Foundation.FirstOccurrence
import Hachee.LanguageModel.Vocabulary

/-!
# Vocabularies in files (`save-vocabulary`, `load-vocabulary`)

A file has the keys with their numbers, in the order of a walk over the table.  The counter is
not in it, and the loader takes the number of keys for it.  That this is right for what was
saved is part of the type of the files (`SavedMap`).  A loaded table is in another order than
the one that was saved.

What a vocabulary does is given by a list of different keys: the number of a key is its index
in the list, and the counter is the length of the list (`Numbers`).  Adding a key that is not in
the list appends it, and saving and loading changes nothing (`Numbers.addNew`,
`Numbers.roundTrip`).  After any history these are the keys in the order of their first
occurrences (`run_numbers`), wherever the vocabulary was saved and loaded in between.
-/

namespace Hachee.LanguageModel.SavedVocabulary

open Lisp (Str Table Alexandria WalkOrder)
open Vocabulary (UNK BOS EOS specials)
open Foundation.FirstOccurrence (firstBy firstBy_concat firstBy_sublist nodup_keys
  exists_mem_firstBy)

/-! ## Files -/

/-- The list under `:to-int-map` of a file, as it is read back from the text that was printed. -/
structure SavedMap where
  toIntMap : List (Str × Nat)
  nodup : (toIntMap.map Prod.fst).Nodup
  numbered : (toIntMap.map Prod.snd).Perm (List.range toIntMap.length)

theorem nodup_hashTableAlist (alexandria : Alexandria) (vocab : Vocabulary) :
    ((alexandria.hashTableAlist vocab.toIntMap).map Prod.fst).Nodup :=
  ((alexandria.perm_hashTableAlist _).map Prod.fst).nodup_iff.mpr vocab.toIntMap.nodup

theorem numbered_hashTableAlist (alexandria : Alexandria) (vocab : Vocabulary) :
    ((alexandria.hashTableAlist vocab.toIntMap).map Prod.snd).Perm
      (List.range (alexandria.hashTableAlist vocab.toIntMap).length) := by
  have hperm := alexandria.perm_hashTableAlist vocab.toIntMap
  rw [hperm.length_eq, Vocabulary.length_entries]
  exact (hperm.map Prod.snd).trans vocab.numbered

/-- `save-vocabulary` -/
def saveVocabulary (alexandria : Alexandria) (vocab : Vocabulary) : SavedMap where
  toIntMap := alexandria.hashTableAlist vocab.toIntMap
  nodup := nodup_hashTableAlist alexandria vocab
  numbered := numbered_hashTableAlist alexandria vocab

theorem numbered_alistHashTable (alexandria : Alexandria) (file : SavedMap) :
    ((alexandria.alistHashTable file.toIntMap).entries.map Prod.snd).Perm
      (List.range (alexandria.alistHashTable file.toIntMap).entries.length) := by
  have hperm := alexandria.perm_alistHashTable file.toIntMap file.nodup
  rw [hperm.length_eq]
  exact (hperm.map Prod.snd).trans file.numbered

/-- `load-vocabulary` -/
def loadVocabulary (alexandria : Alexandria) (file : SavedMap) : Vocabulary where
  size := (alexandria.alistHashTable file.toIntMap).entries.length
  toIntMap := alexandria.alistHashTable file.toIntMap
  numbered := numbered_alistHashTable alexandria file

/-! ## Histories -/

/-- What happens to a vocabulary. -/
inductive Op where
  | addNew (key : Str)
  | roundTrip (alexandria : Alexandria)

/-- The vocabulary after it. -/
def Op.apply (vocab : Vocabulary) : Op → Vocabulary
  | .addNew key => vocab.addNew key
  | .roundTrip alexandria => loadVocabulary alexandria (saveVocabulary alexandria vocab)

/-- The key that it adds. -/
def Op.added : Op → Option Str
  | .addNew key => some key
  | .roundTrip _ => none

/-- A history that starts from `make-vocabulary`. -/
def run (ops : List Op) : Vocabulary := ops.foldl Op.apply Vocabulary.make

/-- The keys of a history, each at its first occurrence. -/
def keysOf (ops : List Op) : List Str := firstBy id (specials ++ ops.filterMap Op.added)

/-! ## The numbers of the keys -/

/-- The keys have their indices in the list for numbers. -/
structure Numbers (vocab : Vocabulary) (keys : List Str) : Prop where
  nodup : keys.Nodup
  size : vocab.size = keys.length
  gethash : ∀ key n, vocab.toIntMap.gethash key = some n ↔ keys[n]? = some key

namespace Numbers

variable {vocab vocab' : Vocabulary} {keys : List Str} {key : Str}

theorem gethash_eq_none_iff (h : Numbers vocab keys) :
    vocab.toIntMap.gethash key = none ↔ key ∉ keys := by
  rw [List.mem_iff_getElem?, not_exists, Option.eq_none_iff_forall_not_mem]
  exact forall_congr' fun n => not_congr (h.gethash key n)

theorem toIntOrNil_eq_some_iff (h : Numbers vocab keys) {int : Int} :
    vocab.toIntOrNil key = some int ↔ ∃ n : Nat, keys[n]? = some key ∧ (n : Int) = int := by
  rw [Vocabulary.toIntOrNil, Option.map_eq_some_iff]
  exact exists_congr fun n => and_congr_left' (h.gethash key n)

/-- Two vocabularies with the same keys answer alike. -/
theorem toIntOrNil_eq (h : Numbers vocab keys) (h' : Numbers vocab' keys) (key : Str) :
    vocab.toIntOrNil key = vocab'.toIntOrNil key :=
  Option.ext fun _ => h.toIntOrNil_eq_some_iff.trans h'.toIntOrNil_eq_some_iff.symm

theorem toIntOrUnk_eq (h : Numbers vocab keys) (h' : Numbers vocab' keys) (key : Str) :
    vocab.toIntOrUnk key = vocab'.toIntOrUnk key := by
  simp only [Vocabulary.toIntOrUnk, Vocabulary.toInt, h.toIntOrNil_eq h']

theorem getElem?_concat_eq_some {key' : Str} {n : Nat} :
    (keys ++ [key])[n]? = some key' ↔ keys[n]? = some key' ∨ n = keys.length ∧ key = key' := by
  rw [List.getElem?_append]
  split
  next hn => simp [Nat.ne_of_lt hn]
  next hn =>
    rw [List.getElem?_eq_none (Nat.le_of_not_lt hn), List.getElem?_singleton]
    split
    next hlast =>
      have heq : n = keys.length := by omega
      simp [heq]
    next hlast =>
      have hne : n ≠ keys.length := by omega
      simp [hne]

/-- A key that is not in the list is appended. -/
theorem addNew (h : Numbers vocab keys) (key : Str) :
    Numbers (vocab.addNew key) (if key ∈ keys then keys else keys ++ [key]) := by
  cases hget : vocab.toIntMap.gethash key with
  | some n =>
      rw [Vocabulary.addNew_of_some hget, if_pos (List.mem_of_getElem? ((h.gethash key n).mp hget))]
      exact h
  | none =>
      have hnew : key ∉ keys := h.gethash_eq_none_iff.mp hget
      obtain ⟨hsize, hmap⟩ := Vocabulary.addNew_of_none hget
      rw [if_neg hnew]
      refine ⟨List.nodup_append.mpr ⟨h.nodup, List.nodup_singleton key, ?_⟩, ?_, fun key' n => ?_⟩
      · rintro a ha b hb rfl
        exact hnew (List.mem_singleton.mp hb ▸ ha)
      · rw [hsize, List.length_append, h.size, List.length_singleton]
      · rw [hmap, Table.gethash_puthash, h.size, getElem?_concat_eq_some]
        split
        next hkey =>
          subst hkey
          have hold : keys[n]? ≠ some key' := fun heq => hnew (List.mem_of_getElem? heq)
          rw [Option.some_inj, or_iff_right hold, and_iff_left rfl, eq_comm]
        next hkey => simp [h.gethash, Ne.symm hkey]

/-- What is loaded has the entries that were saved. -/
theorem roundTrip (h : Numbers vocab keys) (alexandria : Alexandria) :
    Numbers (loadVocabulary alexandria (saveVocabulary alexandria vocab)) keys := by
  have hsaved := alexandria.perm_hashTableAlist vocab.toIntMap
  have hloaded := alexandria.perm_alistHashTable _ (nodup_hashTableAlist alexandria vocab)
  have hperm := hloaded.trans hsaved
  constructor
  · exact h.nodup
  · exact (hperm.length_eq.trans vocab.length_entries).trans h.size
  · intro key n
    rw [← h.gethash, Table.gethash_eq_some_iff, Table.gethash_eq_some_iff]
    exact hperm.mem_iff

end Numbers

/-! ## All histories -/

theorem mem_keysOf {ops : List Op} {key : Str} :
    key ∈ keysOf ops ↔ key ∈ specials ++ ops.filterMap Op.added := by
  constructor
  · exact fun h => (firstBy_sublist _).subset h
  · intro h
    obtain ⟨key', hmem, hkey⟩ := @exists_mem_firstBy _ _ _ id _ _ h
    rw [id_eq, id_eq] at hkey
    exact hkey ▸ hmem

theorem keysOf_addNew (ops : List Op) (key : Str) :
    keysOf (ops ++ [.addNew key]) =
      if key ∈ keysOf ops then keysOf ops else keysOf ops ++ [key] := by
  have hconcat := @firstBy_concat _ _ _ id key (specials ++ ops.filterMap Op.added)
  have hmem : (∃ y ∈ specials ++ ops.filterMap Op.added, id y = id key) ↔ key ∈ keysOf ops := by
    rw [mem_keysOf]
    exact exists_eq_right
  rw [List.append_assoc] at hconcat
  rw [keysOf, List.filterMap_append]
  exact hconcat.trans (if_congr hmem rfl rfl)

theorem keysOf_roundTrip (ops : List Op) (alexandria : Alexandria) :
    keysOf (ops ++ [.roundTrip alexandria]) = keysOf ops := by
  rw [keysOf, List.filterMap_append, List.filterMap_cons_none rfl, List.filterMap_nil,
    List.append_nil, keysOf]

theorem numbers_make : Numbers Vocabulary.make specials where
  nodup := by decide
  size := rfl
  gethash key n := by
    have hempty : Numbers Vocabulary.empty [] :=
      ⟨List.nodup_nil, rfl, by simp [Vocabulary.empty]⟩
    exact (((hempty.addNew UNK).addNew BOS).addNew EOS).gethash key n

/-- After a history the keys are numbered in the order of their first occurrences. -/
theorem run_numbers (ops : List Op) : Numbers (run ops) (keysOf ops) := by
  induction ops using List.reverseRecOn with
  | nil => exact numbers_make
  | append_singleton ops op ih =>
      rw [run, List.foldl_append]
      cases op with
      | addNew key =>
          rw [keysOf_addNew]
          exact ih.addNew key
      | roundTrip alexandria =>
          rw [keysOf_roundTrip]
          exact ih.roundTrip alexandria

/-- More keys come after those that are there. -/
theorem keysOf_prefix (ops later : List Op) : keysOf ops <+: keysOf (ops ++ later) := by
  induction later using List.reverseRecOn with
  | nil => simp
  | append_singleton later op ih =>
      rw [← List.append_assoc]
      cases op with
      | addNew key =>
          rw [keysOf_addNew]
          split
          next => exact ih
          next => exact ih.trans (List.prefix_append _ _)
      | roundTrip alexandria => rwa [keysOf_roundTrip]

/-- The keys with numbers are those of `make-vocabulary` and those that were added. -/
theorem exists_number_iff (ops : List Op) (key : Str) :
    (∃ int, (run ops).toIntOrNil key = some int) ↔
      key ∈ specials ∨ ∃ op ∈ ops, op.added = some key := by
  rw [← List.mem_filterMap, ← List.mem_append, ← mem_keysOf, List.mem_iff_getElem?]
  simp only [(run_numbers ops).toIntOrNil_eq_some_iff]
  constructor
  · rintro ⟨_, n, hn, -⟩
    exact ⟨n, hn⟩
  · rintro ⟨n, hn⟩
    exact ⟨n, n, hn, rfl⟩

/-- A key that is added gets the next number, unless it has one. -/
theorem run_addNew (ops : List Op) (key : Str) :
    (key ∈ keysOf ops → (run (ops ++ [.addNew key])).size = (run ops).size) ∧
    (key ∉ keysOf ops → (run (ops ++ [.addNew key])).size = (run ops).size + 1 ∧
      (run (ops ++ [.addNew key])).toIntOrNil key = some ((run ops).size : Int)) := by
  have h := run_numbers ops
  have hadded := run_numbers (ops ++ [.addNew key])
  rw [keysOf_addNew] at hadded
  constructor
  · intro hmem
    rw [if_pos hmem] at hadded
    rw [hadded.size, h.size]
  · intro hmem
    rw [if_neg hmem] at hadded
    rw [hadded.size, h.size, List.length_append]
    refine ⟨rfl, hadded.toIntOrNil_eq_some_iff.mpr ⟨_, ?_, rfl⟩⟩
    exact List.getElem?_concat_length

/-- After every history the keys with numbers are those of `make-vocabulary` and those that were
added, and their numbers are those below the size, each the number of one key.  Adding a key
without a number gives it the size for a number, and the size grows by one.  A key keeps its
number whatever happens later.  A history in which the vocabulary is once more saved and loaded
leaves a vocabulary that answers every lookup as the one without. -/
theorem history_numbers (ops : List Op) :
    (∀ key, (∃ int, (run ops).toIntOrNil key = some int) ↔
      key ∈ specials ∨ ∃ op ∈ ops, op.added = some key) ∧
    (∀ key int, (run ops).toIntOrNil key = some int → 0 ≤ int ∧ int < (run ops).size) ∧
    (∀ n < (run ops).size, ∃! key, (run ops).toIntOrNil key = some (n : Int)) ∧
    (∀ key, (run ops).toIntOrNil key = none →
      (run (ops ++ [.addNew key])).size = (run ops).size + 1 ∧
      (run (ops ++ [.addNew key])).toIntOrNil key = some ((run ops).size : Int)) ∧
    (∀ key, (run ops).toIntOrNil key ≠ none →
      (run (ops ++ [.addNew key])).size = (run ops).size) ∧
    (∀ later key int, (run ops).toIntOrNil key = some int →
      (run (ops ++ later)).toIntOrNil key = some int) ∧
    ∀ alexandria later,
      (run (ops ++ .roundTrip alexandria :: later)).size = (run (ops ++ later)).size ∧
      ∀ key,
        (run (ops ++ .roundTrip alexandria :: later)).toIntOrNil key =
          (run (ops ++ later)).toIntOrNil key ∧
        (run (ops ++ .roundTrip alexandria :: later)).toInt key =
          (run (ops ++ later)).toInt key ∧
        (run (ops ++ .roundTrip alexandria :: later)).toIntOrUnk key =
          (run (ops ++ later)).toIntOrUnk key := by
  have h := run_numbers ops
  have hnone : ∀ key, (run ops).toIntOrNil key = none ↔ key ∉ keysOf ops := fun key => by
    rw [Vocabulary.toIntOrNil, Option.map_eq_none_iff, h.gethash_eq_none_iff]
  refine ⟨exists_number_iff ops, fun key int hget => ?_, fun n hn => ?_, fun key hget => ?_,
    fun key hget => ?_, fun later key int hget => ?_, fun alexandria later => ?_⟩
  · obtain ⟨n, hn, rfl⟩ := h.toIntOrNil_eq_some_iff.mp hget
    have hlt := (List.getElem?_eq_some_iff.mp hn).1
    rw [h.size]
    omega
  · rw [h.size] at hn
    have hkey : (keysOf ops)[n]? = some (keysOf ops)[n] := List.getElem?_eq_getElem hn
    refine ⟨_, h.toIntOrNil_eq_some_iff.mpr ⟨n, hkey, rfl⟩, fun key hget => ?_⟩
    obtain ⟨m, hm, hmn⟩ := h.toIntOrNil_eq_some_iff.mp hget
    obtain rfl : m = n := Int.ofNat_inj.mp hmn
    exact Option.some.inj (hm.symm.trans hkey)
  · exact (run_addNew ops key).2 ((hnone key).mp hget)
  · exact (run_addNew ops key).1 (not_not.mp fun hmem => hget ((hnone key).mpr hmem))
  · obtain ⟨n, hold, rfl⟩ := h.toIntOrNil_eq_some_iff.mp hget
    obtain ⟨more, hmore⟩ := keysOf_prefix ops later
    refine (run_numbers _).toIntOrNil_eq_some_iff.mpr ⟨n, ?_, rfl⟩
    rw [← hmore, List.getElem?_append_left (List.getElem?_eq_some_iff.mp hold).1, hold]
  · have hkeys : keysOf (ops ++ .roundTrip alexandria :: later) = keysOf (ops ++ later) := by
      rw [keysOf, keysOf, List.filterMap_append, List.filterMap_cons_none rfl,
        List.filterMap_append]
    have hwith := run_numbers (ops ++ .roundTrip alexandria :: later)
    have hwithout := run_numbers (ops ++ later)
    rw [hkeys] at hwith
    exact ⟨hwith.size.trans hwithout.size.symm, fun key => ⟨hwith.toIntOrNil_eq hwithout key,
      hwith.toIntOrNil_eq hwithout key, hwith.toIntOrUnk_eq hwithout key⟩⟩

/-- One key is added before a round trip, and another one and the first again after it. -/
def twoKeys : List Op :=
  [.addNew ['a'], .roundTrip (.pushing .firstPut), .addNew ['b'], .addNew ['a']]

theorem history_numbers_twoKeys :
    (run twoKeys).size = 5 ∧ (run twoKeys).toIntOrNil ['a'] = some 3 ∧
      (run twoKeys).toIntOrNil ['b'] = some 4 ∧
      (∃! key, (run twoKeys).toIntOrNil key = some ((4 : Nat) : Int)) ∧
      (∃ int, (run twoKeys).toIntOrNil UNK = some int) ∧
      (run (twoKeys ++ [.addNew ['c']])).toIntOrNil ['c'] =
        some (((run twoKeys).size : Nat) : Int) ∧
      (run (twoKeys ++ [.addNew ['c']])).toIntOrNil ['a'] = some 3 := by
  obtain ⟨hkeys, -, hone, hnew, -, hlater, -⟩ := history_numbers twoKeys
  have ha : (run twoKeys).toIntOrNil ['a'] = some 3 := by decide
  exact ⟨by decide, ha, by decide, hone 4 (by decide), (hkeys UNK).mpr (Or.inl (by decide)),
    (hnew ['c'] (by decide)).2, hlater _ _ _ ha⟩

end Hachee.LanguageModel.SavedVocabulary
