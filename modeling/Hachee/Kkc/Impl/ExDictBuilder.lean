import Mathlib.Algebra.Order.Field.Basic
import Mathlib.Data.List.Induction
import Hachee.Lisp.Sequence
import Hachee.Lisp.Table

/-!
# Builders of an extended dictionary

Two engines have a builder of an extended dictionary each, with the same computation
(`hachee.kkc.impl.class-ngram.ex-dict-builder`, `hachee.kkc.impl.mirror.ex-dict-builder`).  The
items that are not in the vocabulary get entries.  The probability of an entry is that of its
characters, and an equal share of what the words of the vocabulary have as strings of
characters.

What differs is how an engine stores a probability, and where it looks for an item.  These are
the fields of `Engine`.  `Engine.builds_iff` is about any engine that stores positive
probabilities without loss (`Lawful`): its builder makes the entries exactly if an item is left.
With no item left, the share is a quotient by zero.
-/

namespace Hachee.Kkc.Impl.ExDictBuilder

open Lisp

/-- An item, by its `item-pron` and its `item-form`. -/
structure Item where
  pron : Str
  form : Str
deriving DecidableEq, Repr

/-- The entries that a loop over the values of a hash table meets. -/
structure Walk {κ ν : Type} [DecidableEq κ] (hash : HashTable κ ν) where
  table : Table κ ν
  gethash_eq : ∀ k, table.gethash k = hash.gethash k

/-- What the builder asks of an engine. -/
structure Engine (R E : Type) where
  /-- `kkc-contains-p` -/
  containsP : Item → Bool
  /-- `kkc-probability` -/
  probability : Str → Option R
  /-- `kkc-vocabulary-probability` -/
  vocabularyProbability : Option R
  /-- `make-entry`, for a form and its probability. -/
  makeEntry : Str → R → Option E
  /-- `entry-form` -/
  entryForm : E → Str
  /-- The probability that is stored in an entry. -/
  entryProbability : E → R

section Sum

variable {R E : Type} [Zero R] [Add R]

/-- The loop of `kkc-vocabulary-probability`. -/
def sumProbability (probability : Str → Option R) (entryForm : E → Str)
    (values : List (List E)) : Option R :=
  values.foldlM (fun sum entries =>
    entries.foldlM (fun sum entry => do
      let prob ← probability (entryForm entry)
      some (sum + prob)) sum) 0

end Sum

namespace Engine

variable {R E : Type} [Field R]

/-- The items that are not in the vocabulary. -/
def newItems (engine : Engine R E) (listItems : List Item) : List Item :=
  listItems.filter fun item => !engine.containsP item

/-- `each-added-probability` -/
def eachAddedProbability (engine : Engine R E) (items : List Item) : Option R := do
  let total ← engine.vocabularyProbability
  if items.length = 0 then none else some (total / items.length)

/-- A turn of the loop of `build`. -/
def pushItem (engine : Engine R E) (each : R) (hash : HashTable Str (List E)) (item : Item) :
    Option (HashTable Str (List E)) := do
  let prob ← engine.probability item.form
  let entry ← engine.makeEntry item.form (prob + each)
  some (hash.pushhash item.pron entry)

/-- `build` -/
def build (engine : Engine R E) (listItems : List Item) : Option (HashTable Str (List E)) := do
  let items := engine.newItems listItems
  let each ← engine.eachAddedProbability items
  items.foldlM (engine.pushItem each) .empty

/-- With no item left, the share is a quotient by zero. -/
theorem build_eq_none (engine : Engine R E) {listItems : List Item}
    (h : ∀ item ∈ listItems, engine.containsP item = true) : engine.build listItems = none := by
  have hnil : engine.newItems listItems = [] :=
    List.filter_eq_nil_iff.mpr fun item hitem => by rw [h item hitem]; decide
  rw [build, hnil, eachAddedProbability]
  cases engine.vocabularyProbability with
  | none => rfl
  | some total => rfl

/-! ## What is built -/

/-- An entry for an item. -/
def EntryOf (engine : Engine R E) (share : R) (item : Item) (entry : E) : Prop :=
  engine.entryForm entry = item.form ∧
    ∃ prob, engine.probability item.form = some prob ∧
      engine.entryProbability entry = prob + share

/-- A dictionary with exactly the new items under each pronunciation, the last one first, and
with the share that an item gets. -/
structure Extends (engine : Engine R E) (listItems : List Item) (share : R)
    (exDict : HashTable Str (List E)) : Prop where
  entries : ∀ pron, List.Forall₂ (engine.EntryOf share)
    ((engine.newItems listItems).filter fun item => item.pron = pron)
    ((exDict.gethash pron).getD []).reverse
  shares : engine.newItems listItems ≠ [] →
    engine.vocabularyProbability = some ((engine.newItems listItems).length * share)

/-- The builder signals no error, and what it makes is an extension of the vocabulary. -/
def Builds (engine : Engine R E) (listItems : List Item) : Prop :=
  ∃ exDict share, engine.build listItems = some exDict ∧
    engine.Extends listItems share exDict

/-- Every string has a positive probability, and a positive probability is stored as it is. -/
structure Lawful [LinearOrder R] (engine : Engine R E) : Prop where
  probability : ∀ string, ∃ prob, engine.probability string = some prob ∧ 0 < prob
  vocabularyProbability : ∃ total, engine.vocabularyProbability = some total ∧ 0 ≤ total
  makeEntry : ∀ form prob, 0 < prob →
    ∃ entry, engine.makeEntry form prob = some entry ∧ engine.entryForm entry = form ∧
      engine.entryProbability entry = prob

section Lawful

variable {engine : Engine R E} {share : R}

/-- The loop pushes the entries in the order of the items. -/
theorem exists_foldlM_pushItem
    (h : ∀ item : Item, ∃ prob entry, engine.probability item.form = some prob ∧
      engine.makeEntry item.form (prob + share) = some entry ∧
      engine.entryForm entry = item.form ∧ engine.entryProbability entry = prob + share)
    (items : List Item) :
    ∃ exDict, items.foldlM (engine.pushItem share) .empty = some exDict ∧
      ∀ pron, List.Forall₂ (engine.EntryOf share) (items.filter fun item => item.pron = pron)
        ((exDict.gethash pron).getD []).reverse := by
  induction items using List.reverseRecOn with
  | nil => exact ⟨.empty, rfl, fun pron => List.Forall₂.nil⟩
  | append_singleton items item ih =>
      obtain ⟨exDict, hloop, hentries⟩ := ih
      obtain ⟨prob, entry, hprob, hentry, hform, hstored⟩ := h item
      have hpush : engine.pushItem share exDict item =
          some (exDict.pushhash item.pron entry) := by
        rw [pushItem, hprob, Option.bind_eq_bind, Option.bind_some, hentry]
        rfl
      refine ⟨exDict.pushhash item.pron entry, ?_, fun pron => ?_⟩
      · rw [List.foldlM_append, hloop, Option.bind_eq_bind, Option.bind_some, List.foldlM_cons,
          hpush]
        rfl
      · rw [List.filter_append, HashTable.pushhash, HashTable.gethash_puthash]
        by_cases hpron : pron = item.pron
        · rw [if_pos hpron, Option.getD_some, List.reverse_cons,
            List.filter_cons_of_pos (by simpa using hpron.symm), List.filter_nil, ← hpron]
          exact List.rel_append (hentries pron) (.cons ⟨hform, prob, hprob, hstored⟩ .nil)
        · rw [if_neg hpron, List.filter_cons_of_neg (by simpa using Ne.symm hpron),
            List.filter_nil, List.append_nil]
          exact hentries pron

variable [LinearOrder R] [IsStrictOrderedRing R]

/-- The builder makes its dictionary exactly if an item is left. -/
theorem builds_iff (h : engine.Lawful) (listItems : List Item) :
    engine.Builds listItems ↔ ∃ item ∈ listItems, engine.containsP item = false := by
  obtain ⟨total, htotal, hnonneg⟩ := h.vocabularyProbability
  constructor
  · intro hbuilds
    obtain ⟨exDict, share, hbuild, -⟩ := hbuilds
    by_contra hknown
    rw [build_eq_none engine fun item hitem => by simpa using fun h => hknown ⟨item, hitem, h⟩]
      at hbuild
    cases hbuild
  · intro hnew
    have hne : engine.newItems listItems ≠ [] := by simpa [newItems] using hnew
    have hlength : ((engine.newItems listItems).length : R) ≠ 0 :=
      Nat.cast_ne_zero.mpr (List.length_eq_zero_iff.not.mpr hne)
    have heach : engine.eachAddedProbability (engine.newItems listItems) =
        some (total / (engine.newItems listItems).length) := by
      rw [eachAddedProbability, htotal, Option.bind_eq_bind, Option.bind_some,
        if_neg (List.length_eq_zero_iff.not.mpr hne)]
    -- A share is not negative, so that every new probability is positive.
    have hshare : 0 ≤ total / ((engine.newItems listItems).length : R) :=
      div_nonneg hnonneg (Nat.cast_nonneg _)
    have hitem : ∀ item : Item, ∃ prob entry, engine.probability item.form = some prob ∧
        engine.makeEntry item.form (prob + total / (engine.newItems listItems).length) =
          some entry ∧ engine.entryForm entry = item.form ∧
        engine.entryProbability entry = prob + total / (engine.newItems listItems).length := by
      intro item
      obtain ⟨prob, hprob, hpos⟩ := h.probability item.form
      obtain ⟨entry, hentry⟩ := h.makeEntry item.form _ (add_pos_of_pos_of_nonneg hpos hshare)
      exact ⟨prob, entry, hprob, hentry⟩
    obtain ⟨exDict, hloop, hentries⟩ := exists_foldlM_pushItem hitem (engine.newItems listItems)
    refine ⟨exDict, total / (engine.newItems listItems).length, ?_, hentries, fun _ => ?_⟩
    · rw [build, heach]
      exact hloop
    · rw [htotal, mul_div_cancel₀ total hlength]

end Lawful

end Engine

section Sum

variable {R E : Type} [Field R] [LinearOrder R] [IsStrictOrderedRing R]
  {probability : Str → Option R} {entryForm : E → Str}

/-- A sum of probabilities is not negative. -/
theorem exists_sumProbability
    (h : ∀ string, ∃ prob, probability string = some prob ∧ 0 < prob) (values : List (List E)) :
    ∃ total, sumProbability probability entryForm values = some total ∧ 0 ≤ total := by
  have hentries : ∀ (entries : List E) (sum : R), 0 ≤ sum →
      ∃ total, entries.foldlM (fun sum entry => do
        let prob ← probability (entryForm entry)
        some (sum + prob)) sum = some total ∧ 0 ≤ total := by
    intro entries
    induction entries with
    | nil => exact fun sum hsum => ⟨sum, rfl, hsum⟩
    | cons entry entries ih =>
        intro sum hsum
        obtain ⟨prob, hprob, hpos⟩ := h (entryForm entry)
        obtain ⟨total, htotal, hnonneg⟩ := ih (sum + prob) (add_nonneg hsum hpos.le)
        exact ⟨total, by rw [List.foldlM_cons, hprob]; exact htotal, hnonneg⟩
  suffices hvalues : ∀ sum : R, 0 ≤ sum → ∃ total, values.foldlM (fun sum entries =>
      entries.foldlM (fun sum entry => do
        let prob ← probability (entryForm entry)
        some (sum + prob)) sum) sum = some total ∧ 0 ≤ total from hvalues 0 le_rfl
  induction values with
  | nil => exact fun sum hsum => ⟨sum, rfl, hsum⟩
  | cons entries values ih =>
      intro sum hsum
      obtain ⟨sum', hsum', hnonneg'⟩ := hentries entries sum hsum
      obtain ⟨total, htotal, hnonneg⟩ := ih sum' hnonneg'
      exact ⟨total, by rw [List.foldlM_cons, hsum']; exact htotal, hnonneg⟩

end Sum

end Hachee.Kkc.Impl.ExDictBuilder
