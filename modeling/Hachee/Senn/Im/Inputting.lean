import Hachee.Senn.Im.Buffer
import Hachee.Senn.Im.Ime

/-!
# Typing a string (`senn.im.inputting`)

An inputting state is a buffer and the predictions for its string.  The source
changes the state in place, the model returns the new state.  `insert-char!` and
`delete-char!` renew the predictions when they are given an input method, which
every caller modelled here does.

Each function has one lemma that says what it does to a buffer whose cursor lies
within the string.
-/

namespace Hachee.Senn.Im.Inputting

open Lisp

/-- `(defstruct state buffer predictions)`. -/
structure State where
  buffer : Buffer := {}
  predictions : List Str := []
deriving DecidableEq, Repr

namespace State

/-- `state-buffer-string`. -/
def bufferString (state : State) : Str := state.buffer.string

/-- `state-buffer-empty-p`. -/
def bufferEmptyP (state : State) : Bool := state.bufferString.isEmpty

@[simp] theorem bufferEmptyP_iff {state : State} :
    state.bufferEmptyP = true ↔ state.bufferString = [] := List.isEmpty_iff

/-- `state-buffer-get-pron`.  The last element of an empty string is an error. -/
def bufferGetPron (state : State) : Option Str := do
  let last ← state.bufferString.getLast?
  if last = 'n' then
    let buffer ← state.buffer.insertChar 'n'
    return buffer.string
  else return state.bufferString

/-- `state-predictions-update!`. -/
def predictionsUpdate (state : State) (ime : Ime) : State :=
  { state with predictions := ime.listPredictions state.bufferString }

/-- `state-buffer-cursor-pos-move!`. -/
def bufferCursorPosMove (state : State) (diff : Int) : State :=
  { state with buffer := state.buffer.moveCursorPos diff }

/-- `insert-char!`. -/
def insertChar (state : State) (char : Char) (ime : Ime) : Option State := do
  let buffer ← state.buffer.insertChar char
  return { state with buffer }.predictionsUpdate ime

/-- `insert-char-direct!`. -/
def insertCharDirect (state : State) (char : Char) (ime : Ime) : Option State := do
  let buffer ← state.buffer.insertCharDirect char
  return { state with buffer }.predictionsUpdate ime

/-- `delete-char!`.  The answer is the changed state when the source answers `t`,
and nothing when it answers `nil`. -/
def deleteChar (state : State) (ime : Ime) : Option (Option State) :=
  if state.bufferEmptyP then some none
  else do
    let buffer ← state.buffer.deleteChar
    return some ({ state with buffer }.predictionsUpdate ime)

/-! ## What the functions do -/

/-- A valid buffer takes any character. -/
theorem insertChar_spec {state : State} (h : state.buffer.Valid) (char : Char) (ime : Ime) :
    ∃ state', state.insertChar char ime = some state' ∧
      state'.buffer = .ofSplit (Buffer.typeChar state.buffer.left char) state.buffer.right ∧
      state'.predictions = ime.listPredictions state'.bufferString := by
  have hins := Buffer.insertChar_ofSplit state.buffer.left state.buffer.right char
  rw [← h.eq_ofSplit] at hins
  refine ⟨{ state with
    buffer := .ofSplit (Buffer.typeChar state.buffer.left char) state.buffer.right
    }.predictionsUpdate ime, ?_, rfl, rfl⟩
  rw [insertChar, hins]
  rfl

theorem insertCharDirect_spec {state : State} (h : state.buffer.Valid) (char : Char) (ime : Ime) :
    ∃ state', state.insertCharDirect char ime = some state' ∧
      state'.buffer = .ofSplit (state.buffer.left ++ [char]) state.buffer.right ∧
      state'.predictions = ime.listPredictions state'.bufferString := by
  have hins := Buffer.insertCharDirect_ofSplit state.buffer.left state.buffer.right char
  rw [← h.eq_ofSplit] at hins
  refine ⟨{ state with
    buffer := .ofSplit (state.buffer.left ++ [char]) state.buffer.right
    }.predictionsUpdate ime, ?_, rfl, rfl⟩
  rw [insertCharDirect, hins]
  rfl

/-- A valid buffer that is not empty loses the character before the cursor, if
there is one. -/
theorem deleteChar_spec {state : State} (h : state.buffer.Valid) (hne : state.bufferString ≠ [])
    (ime : Ime) :
    ∃ state', state.deleteChar ime = some (some state') ∧
      state'.buffer = .ofSplit state.buffer.left.dropLast state.buffer.right ∧
      state'.predictions = ime.listPredictions state'.bufferString := by
  have hdel := Buffer.deleteChar_ofSplit state.buffer.left state.buffer.right
  rw [← h.eq_ofSplit] at hdel
  refine ⟨{ state with
    buffer := .ofSplit state.buffer.left.dropLast state.buffer.right
    }.predictionsUpdate ime, ?_, rfl, rfl⟩
  rw [deleteChar, if_neg (by simpa using hne), hdel]
  rfl

theorem deleteChar_returns {state : State} (h : state.buffer.Valid) (ime : Ime) :
    Returns (state.deleteChar ime) := by
  by_cases hempty : state.bufferString = []
  · exact ⟨none, if_pos (by simpa using hempty)⟩
  · obtain ⟨state', hstate', -⟩ := deleteChar_spec h hempty ime
    exact ⟨some state', hstate'⟩

/-- A character is deleted from a buffer that is not empty. -/
theorem bufferString_ne_nil_of_deleteChar {state state' : State} {ime : Ime}
    (h : state.deleteChar ime = some (some state')) : state.bufferString ≠ [] := by
  intro hnil
  rw [deleteChar, if_pos (by simpa using hnil)] at h
  cases h

/-- Typing and deleting leave the cursor within the string. -/
theorem valid_of_insertChar {state state' : State} (h : state.buffer.Valid) {char : Char}
    {ime : Ime} (hins : state.insertChar char ime = some state') : state'.buffer.Valid := by
  obtain ⟨state'', hspec, hbuffer, -⟩ := insertChar_spec h char ime
  cases hins.symm.trans hspec
  exact hbuffer ▸ Buffer.valid_ofSplit ..

theorem valid_of_insertCharDirect {state state' : State} (h : state.buffer.Valid) {char : Char}
    {ime : Ime} (hins : state.insertCharDirect char ime = some state') : state'.buffer.Valid := by
  obtain ⟨state'', hspec, hbuffer, -⟩ := insertCharDirect_spec h char ime
  cases hins.symm.trans hspec
  exact hbuffer ▸ Buffer.valid_ofSplit ..

theorem valid_of_deleteChar {state state' : State} (h : state.buffer.Valid) {ime : Ime}
    (hdel : state.deleteChar ime = some (some state')) : state'.buffer.Valid := by
  obtain ⟨state'', hspec, hbuffer, -⟩ :=
    deleteChar_spec h (bufferString_ne_nil_of_deleteChar hdel) ime
  cases hdel.symm.trans hspec
  exact hbuffer ▸ Buffer.valid_ofSplit ..

/-- A valid buffer that is not empty has a pronunciation. -/
theorem bufferGetPron_spec {state : State} (h : state.buffer.Valid)
    (hne : state.bufferString ≠ []) : ∃ pron, state.bufferGetPron = some pron := by
  have hins := Buffer.insertChar_ofSplit state.buffer.left state.buffer.right 'n'
  rw [← h.eq_ofSplit] at hins
  unfold bufferGetPron
  rw [List.getLast?_eq_some_getLast hne, hins]
  by_cases hn : state.bufferString.getLast hne = 'n'
  · exact ⟨_, by simp only [hn, Option.bind_eq_bind, Option.bind_some, ↓reduceIte]; rfl⟩
  · exact ⟨_, by simp only [hn, Option.bind_eq_bind, Option.bind_some, ↓reduceIte]; rfl⟩

end State

end Hachee.Senn.Im.Inputting
