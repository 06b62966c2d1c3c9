import Hachee.Lisp.Text

/-!
# Corpora (`hachee.corpus`)

A line of a corpus file is a sequence of words between blanks.  A word is written
as `A/a-B/b`, which is the word `AB` that is read as `ab`.
-/

namespace Hachee.Corpus

open Lisp

section Units

variable [ClPpcre]

/-- The form and the pronunciation of a part of a word.  What is missing is empty. -/
def formPronPart (formPronPartStr : Str) : Str × Str :=
  ((split '/' formPronPartStr).head?.getD [], (split '/' formPronPartStr)[1]?.getD [])

/-- `string-to-units`. -/
def stringToUnits {U : Type} (string : Str) (makeUnit : Str → Str → U) : List U :=
  (split ' ' string).map fun formPronStr =>
    let formPronList := (split '-' formPronStr).map formPronPart
    makeUnit (formPronList.map Prod.fst).flatten (formPronList.map Prod.snd).flatten

/-- `line-units`. -/
def lineUnits {U : Type} (line : Str) (makeUnit : Str → Str → U) : List U :=
  stringToUnits line makeUnit

/-- Both strings of a part are made of its characters, without the separator. -/
theorem of_mem_formPronPart {s : Str} {c : Char}
    (h : c ∈ (formPronPart s).1 ∨ c ∈ (formPronPart s).2) : c ∈ s ∧ c ≠ '/' := by
  suffices hpart : ∃ part ∈ split '/' s, c ∈ part by
    obtain ⟨part, hpart, hc⟩ := hpart
    obtain ⟨hsep, hsub⟩ := of_mem_split hpart
    exact ⟨hsub hc, fun h => hsep (h ▸ hc)⟩
  simp only [formPronPart] at h
  cases hsplit : split '/' s with
  | nil =>
      rw [hsplit] at h
      simp at h
  | cons form rest =>
      rw [hsplit] at h
      cases rest with
      | nil =>
          simp only [List.head?_cons, Option.getD_some, List.getElem?_cons_succ,
            List.getElem?_nil, Option.getD_none, List.not_mem_nil, or_false] at h
          exact ⟨form, List.mem_cons_self, h⟩
      | cons pron rest =>
          simp only [List.head?_cons, Option.getD_some, List.getElem?_cons_succ,
            List.getElem?_cons_zero] at h
          cases h with
          | inl h => exact ⟨form, List.mem_cons_self, h⟩
          | inr h => exact ⟨pron, List.mem_cons_of_mem _ List.mem_cons_self, h⟩

/-- The form and the pronunciation of a word of a line are made of the characters of
the line, and no separator is among them. -/
theorem mem_lineUnits {U : Type} {line : Str} {makeUnit : Str → Str → U} {unit : U}
    (h : unit ∈ lineUnits line makeUnit) :
    ∃ form pron, unit = makeUnit form pron ∧
      ∀ c, c ∈ form ∨ c ∈ pron → c ∈ line ∧ c ≠ '/' ∧ c ≠ '-' ∧ c ≠ ' ' := by
  obtain ⟨formPronStr, hword, hunit⟩ := List.mem_map.mp h
  refine ⟨_, _, hunit.symm, fun c hc => ?_⟩
  have hpart : ∃ part ∈ split '-' formPronStr,
      c ∈ (formPronPart part).1 ∨ c ∈ (formPronPart part).2 := by
    cases hc with
    | inl hc =>
        obtain ⟨form, hform, hc⟩ := List.mem_flatten.mp hc
        obtain ⟨e, he, rfl⟩ := List.mem_map.mp hform
        obtain ⟨part, hpart, rfl⟩ := List.mem_map.mp he
        exact ⟨part, hpart, Or.inl hc⟩
    | inr hc =>
        obtain ⟨pron, hpron, hc⟩ := List.mem_flatten.mp hc
        obtain ⟨e, he, rfl⟩ := List.mem_map.mp hpron
        obtain ⟨part, hpart, rfl⟩ := List.mem_map.mp he
        exact ⟨part, hpart, Or.inr hc⟩
  obtain ⟨part, hpart, hc⟩ := hpart
  obtain ⟨hmem, hslash⟩ := of_mem_formPronPart hc
  obtain ⟨hhyphen, hsub⟩ := of_mem_split hpart
  obtain ⟨hblank, hsub'⟩ := of_mem_split hword
  exact ⟨hsub' (hsub hmem), hslash, fun h => hhyphen (h ▸ hmem), fun h => hblank (h ▸ hsub hmem)⟩

end Units

example : lineUnits "A/a-B/b C".toList (fun f p => (f, p)) =
    [("AB".toList, "ab".toList), ("C".toList, [])] := by decide

end Hachee.Corpus
