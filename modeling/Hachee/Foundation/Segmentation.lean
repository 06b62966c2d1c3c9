import Mathlib.Algebra.Order.Group.Defs
import Mathlib.Data.List.Forall2
import Mathlib.Data.List.Induction
import Mathlib.Tactic.Common

/-!
# Segmentations and the scores of paths

A string is cut into consecutive segments, none of them empty, and an entry is
chosen for each of them.  `Segmentation lookup string entries` says that
`entries` are the choices of such a cut.

A list of entries is scored as a path: every entry with respect to the one before
it (`pathScore`), or to the two before it (`pathScore₂`).  Segmentations and
scores are both taken apart at the last entry, which is how a table over the
prefixes of a string uses them.  For such a table a segmentation is a way from
position to position, and which substrings it may use need not be said by the
substrings alone (`Steps`).
-/

namespace Hachee.Foundation

variable {α ε G : Type*}

/-- The entries are chosen, in order, for consecutive segments of the string. -/
def Segmentation (lookup : List α → List ε) (string : List α) (entries : List ε) : Prop :=
  ∃ segments : List (List α), segments.flatten = string ∧ (∀ segment ∈ segments, segment ≠ []) ∧
    List.Forall₂ (fun segment entry => entry ∈ lookup segment) segments entries

namespace Segmentation

variable {lookup : List α → List ε} {string : List α}

theorem nil : Segmentation lookup [] [] := ⟨[], rfl, fun _ h => (List.not_mem_nil h).elim, .nil⟩

/-- Only the empty string is cut into no segment. -/
theorem eq_nil (h : Segmentation lookup string []) : string = [] := by
  obtain ⟨segments, hflatten, -, hentries⟩ := h
  cases hentries
  exact hflatten.symm

/-- One more segment. -/
theorem snoc {entries : List ε} (h : Segmentation lookup string entries) {segment : List α}
    (hsegment : segment ≠ []) {entry : ε} (hentry : entry ∈ lookup segment) :
    Segmentation lookup (string ++ segment) (entries ++ [entry]) := by
  obtain ⟨segments, hflatten, hne, hentries⟩ := h
  refine ⟨segments ++ [segment], by simp [hflatten], ?_, ?_⟩
  · intro s hs
    cases List.mem_append.mp hs with
    | inl hold => exact hne s hold
    | inr hlast => exact List.mem_singleton.mp hlast ▸ hsegment
  · exact List.rel_append hentries (.cons hentry .nil)

/-- The last segment and what is before it. -/
theorem of_snoc {entries : List ε} {entry : ε}
    (h : Segmentation lookup string (entries ++ [entry])) :
    ∃ front segment, string = front ++ segment ∧ segment ≠ [] ∧ entry ∈ lookup segment ∧
      Segmentation lookup front entries := by
  obtain ⟨segments, rfl, hne, hentries⟩ := h
  have hfront := List.forall₂_take_append _ _ _ hentries
  have hlast := List.forall₂_drop_append _ _ _ hentries
  obtain ⟨segment, rest, hentry, hrest, hdrop⟩ := List.forall₂_cons_right_iff.mp hlast
  cases hrest
  refine ⟨(segments.take entries.length).flatten, segment, ?_, ?_, hentry, _, rfl, ?_, hfront⟩
  · have hsplit : segments = segments.take entries.length ++ [segment] := by
      rw [← hdrop, List.take_append_drop]
    calc segments.flatten = (segments.take entries.length ++ [segment]).flatten :=
          congrArg List.flatten hsplit
      _ = (segments.take entries.length).flatten ++ segment := by simp
  · exact hne segment (List.mem_of_mem_drop (hdrop ▸ List.mem_singleton_self segment))
  · exact fun s hs => hne s (List.mem_of_mem_take hs)

end Segmentation

section Prefix

variable {s : List α} {i j : Nat}

theorem length_drop_take (h : j ≤ s.length) : ((s.take j).drop i).length = j - i := by
  rw [List.length_drop, List.length_take, Nat.min_eq_left h]

/-- A prefix is cut into a shorter prefix and a substring. -/
theorem take_eq_append_iff {front segment : List α} (hj : j ≤ s.length)
    (h : s.take j = front ++ segment) (hne : segment ≠ []) :
    front.length < j ∧ front = s.take front.length ∧ segment = (s.take j).drop front.length := by
  have hlength : j = front.length + segment.length := by
    rw [← List.length_append, ← h, List.length_take, Nat.min_eq_left hj]
  have hpos : 0 < segment.length := List.length_pos_iff.mpr hne
  refine ⟨by omega, ?_, by rw [h, List.drop_left]⟩
  calc front = (s.take j).take front.length := by rw [h, List.take_left]
    _ = s.take front.length := by rw [List.take_take, Nat.min_eq_left (by omega)]

namespace Segmentation

/-- A prefix that is segmented is cut before its last segment. -/
theorem of_take_snoc {lookup : List α → List ε} {entries : List ε} {entry : ε} (hj : j ≤ s.length)
    (h : Segmentation lookup (s.take j) (entries ++ [entry])) :
    ∃ i < j, Segmentation lookup (s.take i) entries ∧ entry ∈ lookup ((s.take j).drop i) := by
  obtain ⟨front, segment, heq, hne, hentry, hfront⟩ := h.of_snoc
  obtain ⟨hlt, hfront', hsegment⟩ := take_eq_append_iff hj heq hne
  exact ⟨front.length, hlt, hfront' ▸ hfront, hsegment ▸ hentry⟩

/-- A segmentation of a prefix and one more segment. -/
theorem take_snoc {lookup : List α → List ε} {entries : List ε} {entry : ε} (hij : i < j)
    (hj : j ≤ s.length) (h : Segmentation lookup (s.take i) entries)
    (hentry : entry ∈ lookup ((s.take j).drop i)) :
    Segmentation lookup (s.take j) (entries ++ [entry]) := by
  have hcut : s.take j = s.take i ++ (s.take j).drop i := by
    calc s.take j = (s.take j).take i ++ (s.take j).drop i := (List.take_append_drop i _).symm
      _ = s.take i ++ (s.take j).drop i := by rw [List.take_take, Nat.min_eq_left (by omega)]
  rw [hcut]
  refine h.snoc (fun hnil => ?_) hentry
  have hlength := congrArg List.length hnil
  rw [length_drop_take hj, List.length_nil] at hlength
  omega

end Segmentation

end Prefix

/-! ## Steps from position to position -/

/-- The entries are chosen for the steps of a way from the begin to the position. -/
inductive Steps (step : Nat → Nat → ε → Prop) : Nat → List ε → Prop
  | nil : Steps step 0 []
  | snoc {i j : Nat} {entries : List ε} {entry : ε} :
      Steps step i entries → step i j entry → Steps step j (entries ++ [entry])

/-- The entries of the substrings of a string. -/
def substringStep (lookup : List α → List ε) (s : List α) (i j : Nat) (entry : ε) : Prop :=
  i < j ∧ j ≤ s.length ∧ entry ∈ lookup ((s.take j).drop i)

namespace Segmentation

variable {lookup : List α → List ε} {s : List α}

/-- The steps over all substrings of a prefix are its segmentations. -/
theorem steps_iff {j : Nat} (hj : j ≤ s.length) {entries : List ε} :
    Steps (substringStep lookup s) j entries ↔ Segmentation lookup (s.take j) entries := by
  constructor
  · intro h
    clear hj
    induction h with
    | nil => exact nil
    | snoc _ hstep ih => exact ih.take_snoc hstep.1 hstep.2.1 hstep.2.2
  · intro h
    induction entries using List.reverseRecOn generalizing j with
    | nil =>
        have hzero : j = 0 := by
          have hlength := congrArg List.length h.eq_nil
          rwa [List.length_take, Nat.min_eq_left hj] at hlength
        subst hzero
        exact .nil
    | append_singleton entries entry ih =>
        obtain ⟨i, hlt, hfront, hentry⟩ := h.of_take_snoc hj
        exact .snoc (ih (by omega) hfront) ⟨hlt, hj, hentry⟩

/-- A segmentation of the whole string. -/
theorem steps_length_iff {entries : List ε} :
    Steps (substringStep lookup s) s.length entries ↔ Segmentation lookup s entries := by
  rw [steps_iff le_rfl, List.take_length]

end Segmentation

section Score

variable [AddMonoid G]

/-- The sum of the scores of each entry after the previous one. -/
def pathScore (score : ε → ε → G) : ε → List ε → G
  | _, [] => 0
  | prev, entry :: entries => score entry prev + pathScore score entry entries

theorem pathScore_snoc (score : ε → ε → G) (entry : ε) : ∀ (prev : ε) (entries : List ε),
    pathScore score prev (entries ++ [entry]) =
      pathScore score prev entries + score entry (entries.getLastD prev)
  | prev, [] => by simp [pathScore]
  | prev, e :: entries => by
      rw [List.cons_append, pathScore, pathScore_snoc score entry e entries, pathScore, add_assoc,
        List.getLastD_cons]

/-- The sum of the scores of each entry after the previous two. -/
def pathScore₂ (score : ε → ε → ε → G) : ε → ε → List ε → G
  | _, _, [] => 0
  | prev₂, prev₁, entry :: entries => score entry prev₂ prev₁ + pathScore₂ score prev₁ entry entries

theorem pathScore₂_snoc (score : ε → ε → ε → G) (entry : ε) :
    ∀ (prev₂ prev₁ : ε) (entries : List ε), pathScore₂ score prev₂ prev₁ (entries ++ [entry]) =
      pathScore₂ score prev₂ prev₁ entries +
        score entry ((prev₁ :: entries).dropLast.getLastD prev₂) (entries.getLastD prev₁)
  | prev₂, prev₁, [] => by simp [pathScore₂]
  | prev₂, prev₁, e :: entries => by
      rw [List.cons_append, pathScore₂, pathScore₂_snoc score entry prev₁ e entries, pathScore₂,
        add_assoc, List.getLastD_cons, List.dropLast_cons_cons, List.getLastD_cons]

end Score

end Hachee.Foundation
