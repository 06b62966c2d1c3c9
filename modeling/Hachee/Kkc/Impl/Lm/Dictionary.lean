import Hachee.Lisp.Text

/-!
# Units and dictionaries (`hachee.kkc.impl.lm.unit`, `hachee.kkc.impl.lm.dictionary`)

A word is one string, its form and its pronunciation with a separator between
them.  It is split again whenever one of the two is needed, and the pronunciation
is `nil` when nothing stands behind the separator.

A dictionary keeps its entries under their pronunciations.
-/

namespace Hachee.Kkc

open Lisp

/-- `hachee.kkc.origin`. -/
inductive Origin where
  | vocabulary
  | extendedDictionary
  | corpus
  | resource
  | outOfDictionary
  | tankan
  | runtimeNone
deriving DecidableEq

namespace Impl.Lm

variable [ClPpcre]

/-! ## Units -/

/-- `make-unit`. -/
def makeUnit (form pron : Str) : Str := form ++ '/' :: pron

/-- `unit-form`. -/
def unitForm (unit : Str) : Option Str := (split '/' unit).head?

/-- `unit-pron`. -/
def unitPron (unit : Str) : Option Str := (split '/' unit)[1]?

/-- `unit->key`. -/
def unitToKey (unit : Str) : Str := unit

/-- `unit->pron-units`.  A missing pronunciation is no sequence. -/
def unitToPronUnits (unit : Str) : Option (List Str) := do
  let pron ← unitPron unit
  some (pron.map fun ch => makeUnit [ch] [ch])

section Units

variable {unit form pron : Str}

omit [ClPpcre] in
theorem makeUnit_inj {form' pron' : Str} (hform : '/' ∉ form) (hpron : '/' ∉ pron)
    (h : makeUnit form pron = makeUnit form' pron') : form = form' ∧ pron = pron' := by
  have hinj := (List.append_cons_inj_of_notMem hform hpron).mp h
  exact ⟨hinj.1, hinj.2.2⟩

theorem split_makeUnit (hform : '/' ∉ form) (hpron : '/' ∉ pron) (hne : pron ≠ []) :
    split '/' (makeUnit form pron) = [form, pron] := split_pair hform hpron hne

@[simp] theorem unitForm_makeUnit (hform : '/' ∉ form) (hpron : '/' ∉ pron) (hne : pron ≠ []) :
    unitForm (makeUnit form pron) = some form := by
  rw [unitForm, split_makeUnit hform hpron hne, List.head?_cons]

@[simp] theorem unitPron_makeUnit (hform : '/' ∉ form) (hpron : '/' ∉ pron) (hne : pron ≠ []) :
    unitPron (makeUnit form pron) = some pron := by
  rw [unitPron, split_makeUnit hform hpron hne]
  rfl

/-- Without a pronunciation nothing is found behind the separator. -/
theorem length_split_makeUnit_nil (hform : '/' ∉ form) :
    (split '/' (makeUnit form [])).length ≤ 1 := by
  rw [makeUnit, split_trailing hform]
  by_cases hne : form = []
  · rw [hne, split_nil]
    exact Nat.zero_le 1
  · rw [split_eq_singleton hform hne]
    exact Nat.le_refl 1

theorem unitPron_makeUnit_nil (hform : '/' ∉ form) : unitPron (makeUnit form []) = none :=
  List.getElem?_eq_none (length_split_makeUnit_nil hform)

/-- The separator occurs in no pronunciation that is read from a unit. -/
theorem slash_notMem_of_unitPron (h : unitPron unit = some pron) : '/' ∉ pron :=
  notMem_of_mem_split (List.mem_of_getElem? h)

/-- What has a pronunciation has a form. -/
theorem exists_unitForm (h : unitPron unit = some pron) : ∃ form, unitForm unit = some form := by
  unfold unitPron at h
  unfold unitForm
  cases hsplit : split '/' unit with
  | nil =>
      rw [hsplit] at h
      cases h
  | cons form rest => exact ⟨form, rfl⟩

end Units

/-! ## Dictionaries -/

/-- `entry`. -/
structure Entry where
  unit : Str
  origin : Origin
deriving DecidableEq

/-- `dictionary`. -/
structure Dictionary where
  entryHash : HashTable (Option Str) (List Entry)

namespace Dictionary

/-- `make-dictionary`. -/
def make : Dictionary := ⟨HashTable.empty⟩

/-- `lookup`. -/
def lookup (dictionary : Dictionary) (pron : Option Str) : List Entry :=
  (dictionary.entryHash.gethash pron).getD []

/-- `add-entry`.  An entry of the same unit is not added again. -/
def addEntry (dict : Dictionary) (unit : Str) (origin : Origin) : Dictionary :=
  let entries := dict.lookup (unitPron unit)
  ⟨dict.entryHash.puthash (unitPron unit)
    (if entries.any (·.unit = unit) then entries else { unit, origin } :: entries)⟩

/-- `contains-p`. -/
def containsP (dictionary : Dictionary) (unit : Str) : Bool :=
  (dictionary.lookup (unitPron unit)).any (·.unit = unit)

/-- Every entry stands under its pronunciation. -/
def Keyed (dictionary : Dictionary) : Prop :=
  ∀ pron, ∀ e ∈ dictionary.lookup pron, unitPron e.unit = pron

theorem keyed_make : make.Keyed := fun _ _ h => absurd h List.not_mem_nil

theorem lookup_addEntry (dict : Dictionary) (unit : Str) (origin : Origin) (pron : Option Str) :
    (dict.addEntry unit origin).lookup pron =
      if pron = unitPron unit then
        (if (dict.lookup pron).any (·.unit = unit) then dict.lookup pron
          else { unit, origin } :: dict.lookup pron)
      else dict.lookup pron := by
  simp only [lookup, addEntry, HashTable.gethash_puthash]
  by_cases h : pron = unitPron unit
  · rw [if_pos h, if_pos h, h]
    rfl
  · rw [if_neg h, if_neg h]

theorem Keyed.addEntry {dict : Dictionary} (h : dict.Keyed) (unit : Str) (origin : Origin) :
    (dict.addEntry unit origin).Keyed := by
  intro pron e he
  rw [lookup_addEntry] at he
  split at he
  next hpron =>
    split at he
    next => exact h pron e he
    next =>
      cases List.mem_cons.mp he with
      | inl heq => rw [heq, hpron]
      | inr hmem => exact h pron e hmem
  next => exact h pron e he

/-- What a dictionary contains is found under its pronunciation. -/
theorem lookup_ne_nil_of_containsP {dictionary : Dictionary} {unit : Str}
    (h : dictionary.containsP unit = true) : dictionary.lookup (unitPron unit) ≠ [] := by
  intro hnil
  rw [containsP, hnil] at h
  cases h

end Dictionary

end Impl.Lm

end Hachee.Kkc
