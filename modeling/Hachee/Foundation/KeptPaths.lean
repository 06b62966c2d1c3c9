import Mathlib.Data.List.Induction
import Hachee.Foundation.Segmentation

/-!
# Searches that keep one path to each entry

A search over the segmentations of a string scores an entry with respect to the
two before it, but keeps, for an entry between two positions, only a path that
is best among the kept paths with one more entry (`KeptPaths`).

The path such a search ends with need not be the best one.  It is if a following
entry never reverses the order of two paths that end in the same entry
(`NeverReversed`).  Then every path has a kept one that is as good whatever
follows, by induction on the path.
-/

namespace Hachee.Foundation

variable {α ε G : Type*}

section Kept

variable [AddMonoid G] [LE G] (score : ε → ε → ε → G) (lookup : List α → List ε) (first last : ε)
  (string : List α)

/-- The path to the position `i` is a kept one and its entry, or it is empty and
`i` is the begin of the string. -/
def Extension (Kept : Nat → Nat → ε → List ε → Prop) (i : Nat) (path : List ε) : Prop :=
  i = 0 ∧ path = [] ∨
    ∃ i' entry path', i' < i ∧ Kept i' i entry path' ∧ path = path' ++ [entry]

/-- `Kept i j entry path` says that `path` is kept for the entry between `i` and
`j`, without the entry itself. -/
structure KeptPaths (Kept : Nat → Nat → ε → List ε → Prop) : Prop where
  exists_kept : ∀ {i j entry}, i < j → j ≤ string.length →
    entry ∈ lookup ((string.take j).drop i) → ∃ path, Kept i j entry path
  listed : ∀ {i j entry path}, Kept i j entry path →
    i < j ∧ j ≤ string.length ∧ entry ∈ lookup ((string.take j).drop i)
  extend : ∀ {i j entry path}, Kept i j entry path → Extension Kept i path
  best : ∀ {i j entry path}, Kept i j entry path → ∀ path', Extension Kept i path' →
    pathScore₂ score first first (path' ++ [entry]) ≤ pathScore₂ score first first (path ++ [entry])

/-- The entries that may follow at the position `i`. -/
def Follows (i : Nat) (next : ε) : Prop :=
  (∃ j, i < j ∧ j ≤ string.length ∧ next ∈ lookup ((string.take j).drop i)) ∨
    i = string.length ∧ next = last

/-- Of two paths to an entry the better one stays the better one. -/
def NeverReversed : Prop :=
  ∀ {i j entry path path' next}, i < j → j ≤ string.length →
    entry ∈ lookup ((string.take j).drop i) → Segmentation lookup (string.take i) path →
      Segmentation lookup (string.take i) path' →
        pathScore₂ score first first (path ++ [entry]) ≤
          pathScore₂ score first first (path' ++ [entry]) →
            Follows lookup last string j next →
              pathScore₂ score first first (path ++ [entry] ++ [next]) ≤
                pathScore₂ score first first (path' ++ [entry] ++ [next])

end Kept

section Maximal

variable [AddMonoid G] [Preorder G] {score : ε → ε → ε → G} {lookup : List α → List ε}
  {first last : ε} {string : List α} {Kept : Nat → Nat → ε → List ε → Prop}

/-- What a search keeps are segmentations.  The induction is on the position. -/
theorem KeptPaths.segmentation (h : KeptPaths score lookup first string Kept) (i : Nat) :
    ∀ {path : List ε}, i ≤ string.length → Extension Kept i path →
      Segmentation lookup (string.take i) path := by
  induction i using Nat.strongRecOn with
  | ind i ih =>
      intro path hi hext
      cases hext with
      | inl hzero =>
          obtain ⟨rfl, rfl⟩ := hzero
          exact Segmentation.nil
      | inr hkept =>
          obtain ⟨i', entry, path', hlt, hkept, rfl⟩ := hkept
          obtain ⟨-, -, hentry⟩ := h.listed hkept
          exact (ih i' hlt (by omega) (h.extend hkept)).take_snoc hlt hi hentry

/-- Every path has a kept one that is as good whatever follows. -/
theorem KeptPaths.exists_dominating (h : KeptPaths score lookup first string Kept)
    (hnever : NeverReversed score lookup first last string) (path : List ε) :
    ∀ {i : Nat}, i ≤ string.length → Segmentation lookup (string.take i) path →
      ∃ kept, Extension Kept i kept ∧ ∀ next, Follows lookup last string i next →
        pathScore₂ score first first (path ++ [next]) ≤
          pathScore₂ score first first (kept ++ [next]) := by
  induction path using List.reverseRecOn with
  | nil =>
      intro i hi hseg
      have hlength := congrArg List.length hseg.eq_nil
      rw [List.length_take, Nat.min_eq_left hi, List.length_nil] at hlength
      exact ⟨[], Or.inl ⟨hlength, rfl⟩, fun _ _ => le_refl _⟩
  | append_singleton path entry ih =>
      intro j hj hseg
      obtain ⟨i, hlt, hfront, hentry⟩ := hseg.of_take_snoc hj
      obtain ⟨kept, hext, hle⟩ := ih (by omega) hfront
      obtain ⟨path', hkept⟩ := h.exists_kept hlt hj hentry
      have hbest := (hle entry (Or.inl ⟨j, hlt, hj, hentry⟩)).trans (h.best hkept kept hext)
      refine ⟨path' ++ [entry], Or.inr ⟨i, entry, path', hlt, hkept, rfl⟩, fun next hnext => ?_⟩
      exact hnever hlt hj hentry hfront
        (h.segmentation i (by omega) (h.extend hkept)) hbest hnext

/-- The path that the search ends with is the best one. -/
theorem KeptPaths.maximal (h : KeptPaths score lookup first string Kept)
    (hnever : NeverReversed score lookup first last string) {result : List ε}
    (hbest : ∀ path, Extension Kept string.length path →
      pathScore₂ score first first (path ++ [last]) ≤
        pathScore₂ score first first (result ++ [last]))
    {path : List ε} (hseg : Segmentation lookup string path) :
    pathScore₂ score first first (path ++ [last]) ≤
      pathScore₂ score first first (result ++ [last]) := by
  rw [← List.take_length (l := string)] at hseg
  obtain ⟨kept, hext, hle⟩ := h.exists_dominating hnever path (Nat.le_refl _) hseg
  exact (hle last (Or.inr ⟨rfl, rfl⟩)).trans (hbest kept hext)

end Maximal

end Hachee.Foundation
