import Hachee.Senn.KkcEngine.UserDict

/-!
# The entries that the library loads

A line lists a pair if it is not empty, is no comment and has two words (`listedPair`).
`user_dict_load` keeps its entries and its set of forms in step (`Loads`): the entries are the
pairs of the lines so far without the later ones of a form, and the set has the forms of these
pairs.

So a file keeps all its different pairs exactly if no form is listed with two pronunciations
(`userDictLoad_eq`).
-/

namespace Hachee.Senn.KkcEngine.UserDict

open Foundation
open Ipc.Socket (Bytes isspace newline)

/-- The pair that a line lists. -/
def listedPair (line : Bytes) : Option (Bytes × Bytes) :=
  if line = [] ∨ line.head? = some 35 then none
  else
    match Fields.words isspace line with
    | form :: pron :: _ => some (form, pron)
    | _ => none

/-- What a turn of the loop does with a pair. -/
def Loaded.insert (loaded : Loaded) (pair : Bytes × Bytes) : Loaded :=
  if loaded.addedForms.contains pair.1 then loaded
  else ⟨loaded.entries ++ [pair], pair.1 :: loaded.addedForms⟩

/-- A turn of the loop reads the first two words of a line. -/
theorem loadLine_eq (loaded : Loaded) (line : Bytes) :
    loadLine loaded line = (listedPair line).elim loaded loaded.insert := by
  rw [loadLine, listedPair]
  by_cases hnil : line = []
  · rw [if_pos hnil, if_pos (.inl hnil)]
    rfl
  by_cases hcomment : line.head? = some 35
  · rw [if_neg hnil, if_pos hcomment, if_pos (.inr hcomment)]
    rfl
  rw [if_neg hnil, if_neg hcomment, if_neg (not_or.mpr ⟨hnil, hcomment⟩), Fields.words_eq]
  by_cases hform : (Fields.extract isspace line).1 = []
  · simp [hform]
  rw [if_neg hform, Fields.words_eq]
  by_cases hpron : (Fields.extract isspace (Fields.extract isspace line).2).1 = []
  · simp [hpron]
  · simp [hform, hpron, Loaded.insert]

/-- What the loop has after lines with these pairs. -/
structure Loads (pairs : List (Bytes × Bytes)) (loaded : Loaded) : Prop where
  entries : loaded.entries = FirstOccurrence.firstBy Prod.fst pairs
  addedForms : ∀ form, form ∈ loaded.addedForms ↔ ∃ pair ∈ pairs, pair.1 = form

section Lines

variable {pairs : List (Bytes × Bytes)} {loaded : Loaded}

theorem Loads.insert (h : Loads pairs loaded) (pair : Bytes × Bytes) :
    Loads (pairs ++ [pair]) (loaded.insert pair) where
  entries := by
    rw [FirstOccurrence.firstBy_concat, Loaded.insert]
    split
    next hin =>
      rw [if_pos ((h.addedForms pair.1).mp (List.contains_iff_mem.mp hin)), h.entries]
    next hnot =>
      rw [if_neg fun hex => hnot (List.contains_iff_mem.mpr ((h.addedForms pair.1).mpr hex)),
        ← h.entries]
  addedForms := by
    intro form
    have hold := h.addedForms form
    rw [Loaded.insert]
    simp only [List.mem_append, List.mem_singleton, or_and_right, exists_or, exists_eq_left]
    split
    next hin =>
      rw [hold]
      refine ⟨.inl, fun hform => ?_⟩
      cases hform with
      | inl hform => exact hform
      | inr hform => exact (h.addedForms form).mp (hform ▸ List.contains_iff_mem.mp hin)
    next => rw [List.mem_cons, hold, or_comm, eq_comm (a := form)]

theorem Loads.loadLine (h : Loads pairs loaded) (line : Bytes) :
    Loads (pairs ++ (listedPair line).toList) (UserDict.loadLine loaded line) := by
  rw [loadLine_eq]
  cases listedPair line with
  | none => rwa [Option.toList_none, List.append_nil]
  | some pair => exact h.insert pair

theorem Loads.foldl (h : Loads pairs loaded) (lines : List Bytes) :
    Loads (pairs ++ lines.filterMap listedPair) (lines.foldl UserDict.loadLine loaded) := by
  induction lines generalizing pairs loaded with
  | nil => rwa [List.filterMap_nil, List.append_nil]
  | cons line lines ih =>
      have hrest := ih (h.loadLine line)
      rw [List.append_assoc] at hrest
      rw [List.foldl_cons]
      cases hpair : listedPair line with
      | none => rwa [List.filterMap_cons_none hpair, ← List.nil_append (List.filterMap _ _),
          ← Option.toList_none, ← hpair]
      | some pair => rwa [List.filterMap_cons_some hpair, ← List.singleton_append,
          ← Option.toList_some, ← hpair]

end Lines

/-- The library loads the pairs that the lines list, without those of a form that an earlier
line has listed.  These are all different pairs, in the order of their first occurrences,
exactly if no form is listed with two pronunciations. -/
theorem userDictLoad_eq (content : Bytes) :
    let pairs := (getlines content).filterMap listedPair
    userDictLoad content = FirstOccurrence.firstBy Prod.fst pairs ∧
      (userDictLoad content = FirstOccurrence.firstBy id pairs ↔
        ∀ x ∈ pairs, ∀ y ∈ pairs, x.1 = y.1 → x = y) := by
  intro pairs
  have hstart : Loads [] ⟨[], []⟩ := ⟨rfl, by simp⟩
  have hload : userDictLoad content = FirstOccurrence.firstBy Prod.fst pairs :=
    (hstart.foldl (getlines content)).entries
  refine ⟨hload, ?_⟩
  rw [hload]
  exact FirstOccurrence.firstBy_eq_firstBy_id_iff pairs

/-- The second pronunciation of a form is left out. -/
theorem not_userDictLoad : ¬ ∀ content : Bytes,
    userDictLoad content =
      FirstOccurrence.firstBy id ((getlines content).filterMap listedPair) := by
  intro h
  have htwo := h (Lisp.utf8Octets "a b\na c\n".toList)
  revert htwo
  decide

end Hachee.Senn.KkcEngine.UserDict
