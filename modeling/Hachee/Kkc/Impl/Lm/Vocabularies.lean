import Hachee.Kkc.Impl.Lm.Build

/-!
# The words of the vocabularies

The walk over the words of one file counts each of them once, so after all files
a word was counted in as many files as have it (`Counted`).  The vocabulary holds
the words that were counted in enough files, whatever the order of the walks
(`mem_keys_overlapVocabulary`).
-/

namespace Hachee.Kkc.Impl.Lm.Build

open Lisp (ClPpcre Str Table WalkOrder readLines)
open LanguageModel (Vocabulary)

/-! ## Units of a file -/

/-- A unit of a corpus file has one separator, and no end of a line. -/
theorem of_mem_fileUnits [ClPpcre] {file unit : Str} (h : unit ∈ fileUnits file) :
    ∃ form pron, unit = makeUnit form pron ∧ '/' ∉ form ∧ '/' ∉ pron ∧ '\n' ∉ unit := by
  obtain ⟨line, hline, hunit⟩ := List.mem_flatMap.mp h
  obtain ⟨form, pron, rfl, hc⟩ := Corpus.mem_lineUnits hunit
  have hnewline := Lisp.notMem_of_mem_readLines hline
  refine ⟨form, pron, rfl, fun h => (hc _ (Or.inl h)).2.1 rfl, fun h => (hc _ (Or.inr h)).2.1 rfl,
    ?_⟩
  rw [makeUnit, List.mem_append, List.mem_cons, not_or, not_or]
  exact ⟨fun h => hnewline (hc _ (Or.inl h)).1, by decide, fun h => hnewline (hc _ (Or.inr h)).1⟩

/-- A word is not one of the keys that stand for no word. -/
theorem makeUnit_notMem_specials (form pron : Str) :
    makeUnit form pron ∉ Vocabulary.specials := by
  intro h
  have hslash : '/' ∈ makeUnit form pron := List.mem_append_right _ List.mem_cons_self
  have hspecials : ∀ key ∈ Vocabulary.specials, '/' ∉ key := by decide
  exact hspecials _ h hslash

/-! ## The words of one file -/

theorem gethash_currWords (units : List Str) (key : Str) :
    (currWords units).gethash key = if key ∈ units then some key else none := by
  suffices hfold : ∀ (words : Table Str Str),
      (units.foldl (fun words unit => words.puthash (unitToKey unit) unit) words).gethash key =
        if key ∈ units then some key else words.gethash key from hfold Table.empty
  induction units with
  | nil => intro words; rfl
  | cons unit units ih =>
      intro words
      rw [List.foldl_cons, ih, Table.gethash_puthash, unitToKey]
      by_cases hmem : key ∈ units
      · rw [if_pos hmem, if_pos (List.mem_cons_of_mem _ hmem)]
      · by_cases heq : key = unit
        · rw [if_neg hmem, if_pos heq, if_pos (by rw [heq]; exact List.mem_cons_self), heq]
        · rw [if_neg hmem, if_neg heq, if_neg]
          rw [List.mem_cons, not_or]
          exact ⟨heq, hmem⟩

theorem mem_entries_currWords {units : List Str} {e : Str × Str} :
    e ∈ (currWords units).entries ↔ e.1 ∈ units ∧ e.2 = e.1 := by
  have hget := Table.gethash_eq_some_iff (t := currWords units) (k := e.1) (v := e.2)
  rw [gethash_currWords] at hget
  constructor
  · intro h
    have hsome := hget.mpr h
    split at hsome
    next hmem => exact ⟨hmem, (Option.some.inj hsome).symm⟩
    next => cases hsome
  · intro h
    refine hget.mp ?_
    rw [if_pos h.1, h.2]

/-! ## Counting files -/

/-- The words are counted as `m` says, and those that were counted often enough are
in the vocabulary. -/
structure Counted (overlap : Nat) (state : Vocabulary × Table Str Nat) (m : Str → Nat) : Prop where
  freq : ∀ key, state.2.gethash key = Table.tally (m key)
  keys : ∀ key, key ∈ state.1.keys ↔ key ∈ Vocabulary.specials ∨ 1 ≤ m key ∧ overlap ≤ m key

theorem Counted.countWord {overlap : Nat} {state : Vocabulary × Table Str Nat} {m : Str → Nat}
    (h : Counted overlap state m) (word : Str) :
    Counted overlap (Build.countWord overlap state word word)
      fun key => m key + if key = word then 1 else 0 := by
  have hfreq : ∀ key, (state.2.inchash word).gethash key =
      Table.tally (m key + if key = word then 1 else 0) := by
    intro key
    have hcount := Table.gethash_foldl_inchash key [word] state.2 (h.freq key)
    rw [List.foldl_cons, List.foldl_nil, List.count_singleton] at hcount
    rw [hcount]
    congr 2
    by_cases heq : key = word
    · rw [if_pos heq, heq, if_pos (beq_self_eq_true word)]
    · rw [if_neg heq, if_neg (by simpa using Ne.symm heq)]
  have hword : ((state.2.inchash word).gethash word).getD 0 = m word + 1 := by
    rw [hfreq, if_pos rfl, Table.getD_tally]
  unfold Build.countWord
  rw [hword]
  by_cases hle : overlap ≤ m word + 1
  · rw [if_pos hle]
    refine ⟨hfreq, fun key => ?_⟩
    rw [Vocabulary.mem_keys_addNew, h.keys key, unitToKey]
    by_cases heq : key = word
    · subst heq
      rw [if_pos rfl]
      constructor
      · intro _
        exact Or.inr ⟨Nat.le_add_left 1 _, hle⟩
      · intro _
        exact Or.inl rfl
    · rw [if_neg heq, Nat.add_zero, or_iff_right heq]
  · rw [if_neg hle]
    refine ⟨hfreq, fun key => ?_⟩
    rw [h.keys key]
    by_cases heq : key = word
    · subst heq
      rw [if_pos rfl]
      have hno : ¬(1 ≤ m key ∧ overlap ≤ m key) := fun h' => hle (by omega)
      have hno' : ¬(1 ≤ m key + 1 ∧ overlap ≤ m key + 1) := fun h' => hle h'.2
      rw [or_iff_left hno, or_iff_left hno']
    · rw [if_neg heq, Nat.add_zero]

/-- The walk over different words counts each of them. -/
theorem Counted.foldl {overlap : Nat} : ∀ (words : List Str)
    {state : Vocabulary × Table Str Nat} {m : Str → Nat}, Counted overlap state m →
    Counted overlap (words.foldl (fun s word => Build.countWord overlap s word word) state)
      fun key => m key + words.count key
  | [], state, m, h => h
  | word :: words, state, m, h => by
      have ih := Counted.foldl words (h.countWord word)
      have hm : (fun key => m key + (if key = word then 1 else 0) + words.count key) =
          fun key => m key + (word :: words).count key := by
        funext key
        rw [List.count_cons, Nat.add_assoc, Nat.add_comm (words.count key)]
        by_cases heq : key = word
        · rw [if_pos heq, heq, if_pos (beq_self_eq_true word)]
        · rw [if_neg heq, if_neg (by simpa using Ne.symm heq)]
      rw [← hm]
      exact ih

/-- After the walk over the words of a file, its words are counted once more. -/
theorem Counted.addOverlapping (order : WalkOrder) {overlap : Nat}
    {state : Vocabulary × Table Str Nat} {m : Str → Nat} (h : Counted overlap state m)
    (units : List Str) :
    Counted overlap (Build.addOverlapping order overlap state units)
      fun key => m key + if key ∈ units then 1 else 0 := by
  have hperm := order.perm (currWords units).entries
  -- the walk is one over the keys, since every word is its own key
  have hwalk : Build.addOverlapping order overlap state units =
      ((order.walk (currWords units).entries).map Prod.fst).foldl
        (fun s word => Build.countWord overlap s word word) state := by
    rw [List.foldl_map]
    refine List.foldl_ext _ _ _ fun s e he => ?_
    have hword := (mem_entries_currWords.mp (hperm.mem_iff.mp he)).2
    rw [hword]
  have hnd : ((order.walk (currWords units).entries).map Prod.fst).Nodup :=
    (hperm.map Prod.fst).nodup_iff.mpr (currWords units).nodup
  have hmem : ∀ key, key ∈ (order.walk (currWords units).entries).map Prod.fst ↔ key ∈ units := by
    intro key
    rw [(hperm.map Prod.fst).mem_iff, List.mem_map]
    constructor
    · intro hex
      obtain ⟨e, he, rfl⟩ := hex
      exact (mem_entries_currWords.mp he).1
    · intro hkey
      exact ⟨(key, key), mem_entries_currWords.mpr ⟨hkey, rfl⟩, rfl⟩
  have hm : (fun key => m key + ((order.walk (currWords units).entries).map Prod.fst).count key) =
      fun key => m key + if key ∈ units then 1 else 0 := by
    funext key
    rw [hnd.count]
    simp only [hmem]
  rw [hwalk, ← hm]
  exact h.foldl _

/-- After all files the words are counted in the files that have them. -/
theorem Counted.foldl_files (order : WalkOrder) {overlap : Nat} : ∀ (files : List (List Str))
    {state : Vocabulary × Table Str Nat} {m : Str → Nat}, Counted overlap state m →
    Counted overlap (files.foldl (Build.addOverlapping order overlap) state)
      fun key => m key + files.countP (fun units => decide (key ∈ units))
  | [], state, m, h => h
  | units :: files, state, m, h => by
      have ih := Counted.foldl_files order files (h.addOverlapping order units)
      have hm : (fun key => m key + (if key ∈ units then 1 else 0) +
          files.countP (fun units => decide (key ∈ units))) =
          fun key => m key + (units :: files).countP (fun units => decide (key ∈ units)) := by
        funext key
        rw [List.countP_cons, Nat.add_assoc, Nat.add_comm (files.countP _)]
        simp only [decide_eq_true_eq]
      rw [← hm]
      exact ih

theorem counted_make (overlap : Nat) :
    Counted overlap (Vocabulary.make, Table.empty) fun _ => 0 := by
  refine ⟨fun key => rfl, fun key => ?_⟩
  rw [Vocabulary.mem_keys_make]
  constructor
  · exact Or.inl
  · intro h
    cases h with
    | inl h => exact h
    | inr h => exact absurd h.1 (Nat.not_succ_le_zero 0)

/-- The vocabulary holds the words that occur in enough files. -/
theorem mem_keys_overlapVocabulary {order : WalkOrder} {overlap : Nat} {files : List (List Str)}
    {key : Str} : key ∈ (overlapVocabulary order overlap files).keys ↔
      key ∈ Vocabulary.specials ∨
        1 ≤ files.countP (fun units => decide (key ∈ units)) ∧
          overlap ≤ files.countP (fun units => decide (key ∈ units)) := by
  have h := ((counted_make overlap).foldl_files order files).keys key
  simp only [Nat.zero_add] at h
  exact h

/-! ## The keys that stand for no word -/

/-- The keys that stand for no word are in the vocabulary. -/
def Complete (vocabulary : Vocabulary) : Prop := ∀ key ∈ Vocabulary.specials, key ∈ vocabulary.keys

theorem Complete.addNew {vocabulary : Vocabulary} (h : Complete vocabulary) (key : Str) :
    Complete (vocabulary.addNew key) := fun key' hkey' =>
  Vocabulary.mem_keys_addNew.mpr (Or.inr (h key' hkey'))

theorem complete_make : Complete Vocabulary.make := fun _ hkey =>
  Vocabulary.mem_keys_make.mpr hkey

theorem complete_buildVocabulary [ClPpcre] (order : WalkOrder) (pathnames : List Str) :
    Complete (buildVocabulary order pathnames) := by
  refine Table.maphash_induction (fun state : Vocabulary × Bool => Complete state.1) complete_make
    fun state key count _ h => ?_
  split
  next => exact h.addNew key
  next => exact h

theorem complete_overlapVocabulary (order : WalkOrder) (overlap : Nat) (files : List (List Str)) :
    Complete (overlapVocabulary order overlap files) := fun _ hkey =>
  mem_keys_overlapVocabulary.mpr (Or.inl hkey)

theorem complete_of_buildVocabularyWithUnk [ClPpcre] {order : WalkOrder} {pathnames : List Str}
    {overlap : Nat} {vocabulary : Vocabulary}
    (h : buildVocabularyWithUnk order pathnames overlap = some vocabulary) :
    Complete vocabulary := by
  unfold buildVocabularyWithUnk at h
  split at h
  next =>
    rw [← Option.some.inj h]
    exact complete_overlapVocabulary order overlap _
  next => cases h

theorem complete_extendExistingVocabulary [ClPpcre] {vocabulary : Vocabulary}
    (h : Complete vocabulary) (trustedWordDictionary : Dictionary) (pathnames : List Str) :
    Complete (extendExistingVocabulary vocabulary trustedWordDictionary pathnames) := by
  refine List.foldlRecOn _ _ h fun vocabulary h unit _ => ?_
  split
  next => exact h.addNew _
  next => exact h

theorem Complete.exists_toInt {vocabulary : Vocabulary} (h : Complete vocabulary) {key : Str}
    (hkey : key ∈ Vocabulary.specials) : ∃ token, vocabulary.toInt key = some token :=
  Vocabulary.exists_toIntOrNil (h key hkey)

theorem Complete.exists_toIntOrUnk {vocabulary : Vocabulary} (h : Complete vocabulary)
    (key : Str) : ∃ token, vocabulary.toIntOrUnk key = some token :=
  Vocabulary.exists_toIntOrUnk (h _ List.mem_cons_self) key

variable [ClPpcre]

/-! ## The sentences -/

theorem Complete.exists_sentences {vocabulary : Vocabulary} (h : Complete vocabulary)
    (pathnames : List Str) : ∃ tss, sentences pathnames vocabulary = some tss :=
  Lisp.exists_mapM_eq_some fun _ _ =>
    Lisp.exists_mapM_eq_some fun u _ => h.exists_toIntOrUnk (unitToKey u)

/-- The tokens of the sentences are those of the words. -/
theorem exists_mem_sentences_iff {pathnames : List Str} {vocabulary : Vocabulary}
    {tss : List (List Int)} (h : sentences pathnames vocabulary = some tss) {token : Int} :
    (∃ tokens ∈ tss, token ∈ tokens) ↔
      ∃ file ∈ pathnames, ∃ unit ∈ fileUnits file, vocabulary.toIntOrUnk unit = some token := by
  constructor
  · intro hex
    obtain ⟨tokens, htokens, htoken⟩ := hex
    obtain ⟨line, hline, hsentence⟩ := (Lisp.mem_iff_of_mapM_eq_some h).mp htokens
    obtain ⟨file, hfile, hline⟩ := List.mem_flatMap.mp hline
    obtain ⟨unit, hunit, htoken⟩ := (Lisp.mem_iff_of_mapM_eq_some hsentence).mp htoken
    exact ⟨file, hfile, unit, List.mem_flatMap.mpr ⟨line, hline, hunit⟩, htoken⟩
  · intro hex
    obtain ⟨file, hfile, unit, hunit, htoken⟩ := hex
    obtain ⟨line, hline, hunit⟩ := List.mem_flatMap.mp hunit
    obtain ⟨tokens, htokens, hsentence⟩ :=
      Lisp.exists_of_mapM_eq_some h (List.mem_flatMap.mpr ⟨file, hfile, hline⟩)
    exact ⟨tokens, htokens, (Lisp.mem_iff_of_mapM_eq_some hsentence).mpr ⟨unit, hunit, htoken⟩⟩

/-! ## The word dictionary -/

theorem keyed_buildWordDictionary (pathnames : List Str) (vocabulary : Vocabulary) :
    (buildWordDictionary pathnames vocabulary).Keyed := by
  refine List.foldlRecOn _ _ Dictionary.keyed_make fun dict h unit _ => ?_
  split
  next => exact h.addEntry unit .vocabulary
  next => exact h.addEntry unit .corpus

theorem keyed_addToWordDictionaryFromResources {dict dict' : Dictionary} (h : dict.Keyed)
    {pathnames : List Str} (hdict : addToWordDictionaryFromResources dict pathnames = some dict') :
    dict'.Keyed := by
  unfold addToWordDictionaryFromResources at hdict
  generalize pathnames.flatMap readLines = lines at hdict
  induction lines generalizing dict with
  | nil =>
      cases hdict
      exact h
  | cons line lines ih =>
      rw [List.foldlM_cons] at hdict
      obtain ⟨dict₁, hline, hrest⟩ := Lisp.bind_inv hdict
      refine ih ?_ hrest
      split at hline
      next form _ pron _ =>
        rw [← Option.some.inj hline]
        exact h.addEntry _ .resource
      next => cases hline

end Hachee.Kkc.Impl.Lm.Build
