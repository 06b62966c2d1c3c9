import Mathlib.Data.List.Nodup
import Mathlib.Tactic.Common

/-!
# First occurrences in a list

`firstBy key xs` keeps of the elements with one key the first one.  With the identity for a
key, it keeps the first occurrence of each element.

A loop that appends an element unless it has met the key before builds this list
(`firstBy_concat`).
-/

namespace Hachee.Foundation.FirstOccurrence

variable {α κ : Type*} [DecidableEq κ] {key : α → κ}

/-- The elements without those that come after another one with the same key. -/
def firstBy (key : α → κ) : List α → List α
  | [] => []
  | x :: xs => x :: (firstBy key xs).filter fun y => key y ≠ key x

theorem firstBy_sublist (xs : List α) : (firstBy key xs).Sublist xs := by
  induction xs with
  | nil => exact List.Sublist.slnil
  | cons x xs ih => exact (List.filter_sublist.trans ih).cons_cons x

/-- The keys of the kept elements are different. -/
theorem nodup_keys (xs : List α) : ((firstBy key xs).map key).Nodup := by
  induction xs with
  | nil => exact List.nodup_nil
  | cons x xs ih =>
      rw [firstBy, List.map_cons, List.nodup_cons]
      constructor
      · intro hmem
        obtain ⟨y, hy, hkey⟩ := List.mem_map.mp hmem
        have hne := (List.mem_filter.mp hy).2
        simp [hkey] at hne
      · exact ih.sublist (List.filter_sublist.map key)

theorem firstBy_concat (x : α) (xs : List α) :
    firstBy key (xs ++ [x]) =
      if ∃ y ∈ xs, key y = key x then firstBy key xs else firstBy key xs ++ [x] := by
  induction xs with
  | nil => simp [firstBy]
  | cons d xs ih =>
      rw [List.cons_append, firstBy, ih, firstBy]
      by_cases hmem : ∃ y ∈ xs, key y = key x
      · rw [if_pos hmem, if_pos]
        obtain ⟨y, hy, hkey⟩ := hmem
        exact ⟨y, List.mem_cons_of_mem d hy, hkey⟩
      · rw [if_neg hmem, List.filter_append]
        by_cases hd : key d = key x
        · rw [if_pos ⟨d, List.mem_cons_self .., hd⟩]
          simp [hd]
        · rw [if_neg]
          · simp [Ne.symm hd]
          · intro h
            obtain ⟨y, hy, hkey⟩ := h
            cases List.mem_cons.mp hy with
            | inl heq => exact hd (heq ▸ hkey)
            | inr hy => exact hmem ⟨y, hy, hkey⟩

/-- Nothing is left out if the keys are different. -/
theorem firstBy_eq_self_iff (xs : List α) : firstBy key xs = xs ↔ (xs.map key).Nodup := by
  constructor
  · intro h
    rw [← h]
    exact nodup_keys xs
  · intro h
    induction xs with
    | nil => rfl
    | cons x xs ih =>
        rw [List.map_cons, List.nodup_cons] at h
        rw [firstBy, ih h.2, List.filter_eq_self.mpr]
        intro y hy
        have hne : key y ≠ key x := fun heq => h.1 (heq ▸ List.mem_map_of_mem hy)
        simpa using hne

/-- Every key is one of a kept element. -/
theorem exists_mem_firstBy {xs : List α} {x : α} (hx : x ∈ xs) :
    ∃ y ∈ firstBy key xs, key y = key x := by
  induction xs with
  | nil => cases hx
  | cons d xs ih =>
      by_cases hd : key x = key d
      · exact ⟨d, List.mem_cons_self, hd.symm⟩
      · obtain ⟨y, hy, hkey⟩ := ih ((List.mem_cons.mp hx).resolve_left fun h => hd (h ▸ rfl))
        refine ⟨y, List.mem_cons_of_mem _ (List.mem_filter.mpr ⟨hy, ?_⟩), hkey⟩
        simpa [hkey] using hd

/-- Keeping one element of each key keeps every element exactly if different elements have
different keys. -/
theorem firstBy_eq_firstBy_id_iff [DecidableEq α] (xs : List α) :
    firstBy key xs = firstBy id xs ↔ ∀ x ∈ xs, ∀ y ∈ xs, key x = key y → x = y := by
  constructor
  · intro h x hx y hy hkey
    have mem : ∀ z ∈ xs, z ∈ firstBy key xs := by
      intro z hz
      obtain ⟨z', hz', rfl⟩ := @exists_mem_firstBy α α _ id xs z hz
      rwa [h]
    exact List.inj_on_of_nodup_map (nodup_keys xs) (mem x hx) (mem y hy) hkey
  · intro h
    induction xs with
    | nil => rfl
    | cons x xs ih =>
        have hrest := ih fun y hy z hz =>
          h y (List.mem_cons_of_mem _ hy) z (List.mem_cons_of_mem _ hz)
        rw [firstBy, firstBy, hrest]
        congr 1
        refine List.filter_congr fun y hy => ?_
        have hmem := List.mem_cons_of_mem x ((firstBy_sublist xs).subset hy)
        have hiff : key y = key x ↔ id y = id x :=
          ⟨h y hmem x List.mem_cons_self, fun heq => congrArg key heq⟩
        rw [decide_not, decide_not, decide_eq_decide.mpr hiff]

end Hachee.Foundation.FirstOccurrence
