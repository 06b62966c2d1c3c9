import Hachee.Senn.Im.Buffer

/-!
# Edits of a buffer

An edit is one of the four functions of `senn.im.buffer` that change a buffer.
Each of them keeps the cursor within the string, and what it does to the text
happens just before the cursor.  `insert-char` looks at four characters at most
and the others at one at most, so everything further to the left stays, as does
the text to the right (`apply_local`).
-/

namespace Hachee.Senn.Im

open Lisp Senn.Ja

namespace Buffer

/-- The functions that change a buffer. -/
inductive Edit where
  | insertChar (char : Char)
  | insertCharDirect (char : Char)
  | deleteChar
  | moveCursorPos (diff : Int)
deriving DecidableEq, Repr

/-- The buffer after an edit. -/
def Edit.apply (edit : Edit) (buffer : Buffer) : Option Buffer :=
  match edit with
  | .insertChar char => buffer.insertChar char
  | .insertCharDirect char => buffer.insertCharDirect char
  | .deleteChar => buffer.deleteChar
  | .moveCursorPos diff => some (buffer.moveCursorPos diff)

/-- The edit inserts or deletes. -/
def Edit.ChangesText : Edit → Prop
  | .moveCursorPos _ => False
  | _ => True

/-- The buffer after a sequence of edits. -/
def applyAll (edits : List Edit) (buffer : Buffer) : Option Buffer :=
  edits.foldlM (fun buffer edit => edit.apply buffer) buffer

/-- The text to the right of the cursor stays, and so does the text to the left but for
the last four characters. -/
def Near (before after : Buffer) : Prop :=
  after.right = before.right ∧
    before.left.take (before.cursorPos - min 4 before.cursorPos) <+: after.left

/-- Texts before the cursor that agree up to there. -/
theorem near_ofSplit {left left' : Str} (right : Str)
    (h : left.take (left.length - min 4 left.length) <+: left') :
    Near (ofSplit left right) (ofSplit left' right) := by
  refine ⟨by rw [right_ofSplit, right_ofSplit], ?_⟩
  rw [left_ofSplit, left_ofSplit]
  exact h

/-- `insert-char` replaces four characters at most. -/
theorem take_prefix_typeChar (left : Str) (char : Char) :
    left.take (left.length - min 4 left.length) <+: typeChar left char := by
  rcases typeFrom_cases left char _ (Nat.succ_le_succ (Nat.min_le_left _ 4)) with
    ⟨htype, -⟩ | ⟨pre, mid, hiragana, hsplit, hmid, -, htype, -⟩
  · rw [typeChar, htype]
    rcases List.eq_nil_or_concat left with rfl | ⟨q, x, rfl⟩
    · exact List.nil_prefix
    · -- Only the last character may be replaced.
      have hq : q <+: replaceNAtEnd (q ++ [x]) := by
        unfold replaceNAtEnd
        split
        next => simp
        next => exact List.prefix_append q [x]
      rw [List.concat_eq_append, List.take_append_of_le_length
        (by rw [List.length_append, List.length_singleton]; omega)]
      exact (List.take_prefix _ _).trans (hq.trans (List.prefix_append _ _))
  · rw [typeChar, htype]
    have hlength : left.length - min 4 left.length ≤ pre.length := by
      rw [hsplit, List.length_append] at hmid ⊢
      omega
    rw [hsplit, List.take_append_of_le_length (by rwa [← hsplit])]
    exact (List.take_prefix _ _).trans (List.prefix_append _ _)

/-- An edit of a valid buffer succeeds, keeps it valid and changes it near the cursor. -/
theorem Edit.apply_spec {before : Buffer} (h : before.Valid) (edit : Edit) :
    ∃ after, edit.apply before = some after ∧ after.Valid ∧
      (edit.ChangesText → Near before after) := by
  obtain ⟨left, right, rfl⟩ : ∃ left right, before = ofSplit left right := ⟨_, _, h.eq_ofSplit⟩
  cases edit with
  | insertChar char =>
      refine ⟨_, insertChar_ofSplit left right char, valid_ofSplit .., fun _ => ?_⟩
      exact near_ofSplit right (take_prefix_typeChar left char)
  | insertCharDirect char =>
      refine ⟨_, insertCharDirect_ofSplit left right char, valid_ofSplit .., fun _ => ?_⟩
      exact near_ofSplit right ((List.take_prefix _ _).trans (List.prefix_append _ _))
  | deleteChar =>
      refine ⟨_, deleteChar_ofSplit left right, valid_ofSplit .., fun _ => ?_⟩
      refine near_ofSplit right ?_
      rw [List.dropLast_eq_take]
      exact List.take_prefix_take_left (by omega)
  | moveCursorPos diff => exact ⟨_, rfl, h.moveCursorPos diff, fun h => h.elim⟩

/-- A sequence of edits of a valid buffer succeeds and keeps it valid. -/
theorem applyAll_valid {buffer : Buffer} (h : buffer.Valid) (edits : List Edit) :
    ∃ after, applyAll edits buffer = some after ∧ after.Valid := by
  induction edits generalizing buffer with
  | nil => exact ⟨buffer, rfl, h⟩
  | cons edit edits ih =>
      obtain ⟨next, hedit, hnext, -⟩ := edit.apply_spec h
      obtain ⟨after, hedits, hafter⟩ := ih hnext
      refine ⟨after, ?_, hafter⟩
      rw [applyAll, List.foldlM_cons, hedit]
      exact hedits

/-- After any edits, one more edit leaves the cursor within the string.  If it inserts or
deletes, then it leaves the text to the right of the cursor, and the text to the left but
for its last four characters. -/
theorem apply_local {buffer : Buffer} (h : buffer.Valid) (edits : List Edit) (edit : Edit) :
    ∃ before after, applyAll edits buffer = some before ∧ edit.apply before = some after ∧
      before.Valid ∧ after.Valid ∧ (edit.ChangesText → Near before after) := by
  obtain ⟨before, hedits, hbefore⟩ := applyAll_valid h edits
  obtain ⟨after, hedit, hafter, hnear⟩ := edit.apply_spec hbefore
  exact ⟨before, after, hedits, hedit, hbefore, hafter, hnear⟩

/-- Typing `a` between `k` and `r`. -/
theorem apply_local_ka :
    ∃ before after, applyAll [.insertChar 'k'] ⟨['r'], 0⟩ = some before ∧
      (Edit.insertChar 'a').apply before = some after ∧ before.Valid ∧ after.Valid ∧
        ((Edit.insertChar 'a').ChangesText → Near before after) :=
  @apply_local ⟨['r'], 0⟩ (Nat.zero_le 1) [.insertChar 'k'] (.insertChar 'a')

end Buffer

end Hachee.Senn.Im
