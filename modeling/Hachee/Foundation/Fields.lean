import Mathlib.Data.List.DropRight
import Mathlib.Tactic.Common

/-!
# Fields between blanks

Two ways to take a line apart at its blanks.  `split` cuts it at each blank, so that a field
between two neighbouring blanks is empty, and drops the empty fields at the end.  `extract`
passes over the blanks, and takes what is before the next one.

A line with exactly two fields has a blank between them, and nothing but blanks behind the
second one (`split_eq_pair`).  What `extract` takes again and again are the fields that are
not empty, the `words` of the line (`words_eq`).
-/

namespace Hachee.Foundation.Fields

variable {α : Type*} (p : α → Bool)

/-- The fields between single blanks. -/
def split (s : List α) : List (List α) := (s.splitOnP p).rdropWhile List.isEmpty

/-- The next word, and what is behind it. -/
def extract (s : List α) : List α × List α :=
  ((s.dropWhile p).takeWhile (!p ·), (s.dropWhile p).dropWhile (!p ·))

/-- The fields that are not empty. -/
def words (s : List α) : List (List α) := (s.splitOnP p).filter fun field => !field.isEmpty

variable {p}

/-! ## Words -/

/-- A word between blanks. -/
theorem extract_append {before word after : List α} (hbefore : ∀ x ∈ before, p x = true)
    (hword : ∀ x ∈ word, p x = false) (hne : word ≠ [])
    (hafter : ∀ x ∈ after.head?, p x = true) :
    extract p (before ++ word ++ after) = (word, after) := by
  have hdrop : (before ++ word ++ after).dropWhile p = word ++ after := by
    obtain ⟨x, word', rfl⟩ := List.exists_cons_of_ne_nil hne
    rw [List.append_assoc, List.dropWhile_append_of_pos hbefore, List.cons_append,
      List.dropWhile_cons_of_neg (by simp [hword x (List.mem_cons_self ..)])]
  have hword' : ∀ x ∈ word, (!p x) = true := fun x hx => by rw [hword x hx]; rfl
  rw [extract, hdrop, List.takeWhile_append_of_pos hword', List.dropWhile_append_of_pos hword']
  cases after with
  | nil => simp
  | cons x after =>
      have hx : p x = true := hafter x rfl
      simp [hx]

theorem extract_blanks {s : List α} (h : ∀ x ∈ s, p x = true) : extract p s = ([], []) := by
  have hdrop : s.dropWhile p = [] := List.dropWhile_eq_nil_iff.mpr h
  rw [extract, hdrop]
  rfl

theorem words_cons_blank {x : α} (hx : p x = true) (s : List α) :
    words p (x :: s) = words p s := by
  rw [words, List.splitOnP_cons_eq_if_modifyHead, if_pos hx]
  rfl

theorem words_dropWhile (s : List α) : words p (s.dropWhile p) = words p s := by
  induction s with
  | nil => rfl
  | cons x s ih =>
      cases hx : p x with
      | true => rw [List.dropWhile_cons_of_pos hx, ih, words_cons_blank hx]
      | false => rw [List.dropWhile_cons_of_neg (by simp [hx])]

/-- A word and what is behind it. -/
theorem words_append {word after : List α} (hword : ∀ x ∈ word, p x = false) (hne : word ≠ [])
    (hafter : ∀ x ∈ after.head?, p x = true) :
    words p (word ++ after) = word :: words p after := by
  cases after with
  | nil =>
      rw [List.append_nil, words, List.splitOnP_eq_singleton hword]
      simp [words, hne]
  | cons c after =>
      have hc : p c = true := hafter c rfl
      rw [words_cons_blank hc, words, List.splitOnP_append_cons_of_forall_mem hword c hc]
      simp [words, hne]

/-- `extract` takes the next word. -/
theorem words_eq (s : List α) :
    words p s = if (extract p s).1 = [] then []
      else (extract p s).1 :: words p (extract p s).2 := by
  have hsplit := List.takeWhile_append_dropWhile (p := (!p ·)) (l := s.dropWhile p)
  have hword : ∀ x ∈ (s.dropWhile p).takeWhile (!p ·), p x = false := fun x hx => by
    simpa using List.mem_takeWhile_imp hx
  have hafter : ∀ x ∈ ((s.dropWhile p).dropWhile (!p ·)).head?, p x = true := by
    intro x hx
    have hhead := List.head?_dropWhile_not (!p ·) (s.dropWhile p)
    rw [hx] at hhead
    simpa using hhead
  rw [← words_dropWhile]
  split
  next hnil =>
    -- Nothing is taken only where nothing is left.
    have hrest : s.dropWhile p = [] := by
      cases hdrop : s.dropWhile p with
      | nil => rfl
      | cons x rest =>
          have hhead := List.head?_dropWhile_not p s
          rw [hdrop] at hhead
          rw [extract, hdrop, List.takeWhile_cons_of_pos (by simpa using hhead)] at hnil
          cases hnil
    rw [hrest]
    rfl
  next hne =>
    conv_lhs => rw [← hsplit]
    exact words_append hword hne hafter

/-! ## Fields -/

/-- The first field, and the blank behind it. -/
theorem splitOnP_eq_cons {s first : List α} {rest : List (List α)}
    (h : s.splitOnP p = first :: rest) : (∀ x ∈ first, p x = false) ∧
      ((s = first ∧ rest = []) ∨
        ∃ c s', p c = true ∧ s = first ++ c :: s' ∧ s'.splitOnP p = rest) := by
  have hfront : ∀ x ∈ s.takeWhile (!p ·), p x = false := fun x hx => by
    simpa using List.mem_takeWhile_imp hx
  have hs := List.takeWhile_append_dropWhile (p := (!p ·)) (l := s)
  cases hdrop : s.dropWhile (!p ·) with
  | nil =>
      rw [hdrop, List.append_nil] at hs
      rw [hs] at hfront
      rw [List.splitOnP_eq_singleton hfront, List.cons_eq_cons] at h
      obtain ⟨rfl, rfl⟩ := h
      exact ⟨hfront, .inl ⟨rfl, rfl⟩⟩
  | cons c s' =>
      have hc : p c = true := by
        have hhead := List.head?_dropWhile_not (!p ·) s
        rw [hdrop] at hhead
        simpa using hhead
      rw [hdrop] at hs
      rw [← hs, List.splitOnP_append_cons_of_forall_mem hfront c hc, List.cons_eq_cons] at h
      obtain ⟨rfl, rfl⟩ := h
      exact ⟨hfront, .inr ⟨c, s', hc, hs.symm, rfl⟩⟩

/-- Only blanks have nothing but empty fields. -/
theorem blanks_of_splitOnP {s : List α} (h : ∀ field ∈ s.splitOnP p, field = []) :
    ∀ x ∈ s, p x = true := by
  induction s with
  | nil => exact fun _ hx => by cases hx
  | cons x s ih =>
      obtain ⟨first, rest, hsplit⟩ := List.exists_cons_of_ne_nil (List.splitOnP_ne_nil p (x :: s))
      rw [hsplit] at h
      have hfirst := h first (List.mem_cons_self ..)
      subst hfirst
      obtain ⟨-, hnil | ⟨c, s', hc, heq, hrest⟩⟩ := splitOnP_eq_cons hsplit
      · cases hnil.1
      · rw [List.nil_append, List.cons_eq_cons] at heq
        obtain ⟨rfl, rfl⟩ := heq
        intro y hy
        cases List.mem_cons.mp hy with
        | inl hy => exact hy ▸ hc
        | inr hy =>
            refine ih (fun field hfield => h field (List.mem_cons_of_mem _ ?_)) y hy
            rwa [← hrest]

/-- A line with two fields. -/
theorem split_eq_pair {s first second : List α} (h : split p s = [first, second]) :
    second ≠ [] ∧ (∀ x ∈ first, p x = false) ∧ (∀ x ∈ second, p x = false) ∧
      ∃ c blanks, p c = true ∧ (∀ x ∈ blanks, p x = true) ∧
        s = first ++ c :: (second ++ blanks) := by
  have hsecond : second ≠ [] := by
    have hlast := List.rdropWhile_eq_self_iff.mp
      (List.rdropWhile_idempotent List.isEmpty (s.splitOnP p))
    rw [← split, h] at hlast
    simpa using hlast (List.cons_ne_nil _ _)
  obtain ⟨empties, hempties, hfields⟩ : ∃ empties : List (List α),
      (∀ field ∈ empties, field = []) ∧ s.splitOnP p = first :: second :: empties := by
    have happend : split p s ++ _ = _ :=
      List.rdropWhile_append_rtakeWhile (p := List.isEmpty) (l := s.splitOnP p)
    rw [h] at happend
    refine ⟨_, fun field hfield => ?_, happend.symm⟩
    simpa using List.mem_rtakeWhile_imp hfield
  obtain ⟨hfirst, ⟨-, hnil⟩ | ⟨c, s', hc, rfl, hrest⟩⟩ := splitOnP_eq_cons hfields
  · cases hnil
  · obtain ⟨hword, ⟨rfl, hnil⟩ | ⟨c', s'', hc', rfl, hrest'⟩⟩ := splitOnP_eq_cons hrest
    · exact ⟨hsecond, hfirst, hword, c, [], hc, by simp, by simp⟩
    · refine ⟨hsecond, hfirst, hword, c, c' :: s'', hc, ?_, rfl⟩
      rw [List.forall_mem_cons]
      exact ⟨hc', blanks_of_splitOnP (hrest' ▸ hempties)⟩

end Hachee.Foundation.Fields
