import Mathlib.Data.Int.Bitwise
import Hachee.Senn.Im.Inputting
import Hachee.Senn.Im.Converting

/-!
# Keys, views and states of the fcitx input method (`senn.fcitx`)

A key is a symbol and a bit set of modifiers, both integers.  The state of the
input method is of one of four kinds.  A view is what a request answers with.
The source writes it as JSON behind the word `EDITING` or `CONVERTING`, the model
keeps the fields: an empty JSON array stands for `NIL`, so a list of the source
and a list of the model agree.

Some views cannot be computed, because an index is out of range or the cursor is
outside the string.  They are options for that reason.
-/

namespace Hachee.Senn.Fcitx

open Lisp Senn.Im

/-! ## Keys -/

/-- `(defstruct key sym state)`. -/
structure Key where
  sym : Int
  state : Int
deriving DecidableEq, Repr

namespace Key

/-- `defkey`: the keys with a given symbol. -/
def symP (sym : Int) (key : Key) : Bool := key.sym = sym

def spaceP : Key → Bool := symP 32
def backspaceP : Key → Bool := symP 65288
def enterP : Key → Bool := symP 65293
def leftP : Key → Bool := symP 65361
def upP : Key → Bool := symP 65362
def rightP : Key → Bool := symP 65363
def downP : Key → Bool := symP 65364
def f7P : Key → Bool := symP 65476
def tabP : Key → Bool := symP 65289

/-- `char-p`: the printable characters of ASCII. -/
def charP (key : Key) : Bool := '!'.toNat ≤ key.sym ∧ key.sym ≤ '~'.toNat

/-- `(code-char (key-sym key))`. -/
def char (key : Key) : Char := Char.ofNat key.sym.toNat

end Key

/-! ## Views -/

/-- `length-utf8`. -/
def lengthUtf8 (string : Str) : Nat := (string.map Char.utf8Size).sum

/-- The answer to a request. -/
inductive View where
  | editing (cursorPos : Nat) (input : Str) (predictions : List Str) (predictionIndex : Int)
      (committedInput : Str)
  | converting (forms : List Str) (cursorFormIndex : Nat) (candidates : List Str)
      (candidateIndex : Int)
deriving DecidableEq, Repr

namespace View

/-- `editing-by-string`. -/
def editingByString (string : Str) (predictions : List Str) (predictionIndex : Option Nat) : View :=
  .editing (lengthUtf8 string) string predictions ((predictionIndex.map Int.ofNat).getD (-1)) []

/-- `editing-by-buffer`. -/
def editingByBuffer (buffer : Buffer) (predictions : List Str) (predictionIndex : Option Nat)
    (committedString : Str) : Option View := do
  let before ← subseq buffer.string 0 buffer.cursorPos
  return .editing (lengthUtf8 before) buffer.string predictions
    ((predictionIndex.map Int.ofNat).getD (-1)) committedString

end View

/-! ## States -/

/-- The state in which a prediction is selected. -/
structure SelectingFromPredictions where
  predictions : List Str
  currentIndex : Nat
deriving DecidableEq, Repr

namespace SelectingFromPredictions

/-- `state-current-input`.  `nth` answers `NIL` behind the end of the list. -/
def currentInput (state : SelectingFromPredictions) : Option Str :=
  state.predictions[state.currentIndex]?

/-- `state-move!`. -/
def move (state : SelectingFromPredictions) (diff : Int) : SelectingFromPredictions :=
  let newIndex := state.currentIndex + diff
  if 0 ≤ newIndex ∧ newIndex ≤ (state.predictions.length : Int) - 1 then
    { state with currentIndex := newIndex.toNat }
  else state

/-- `editing-view`.  There is no UTF-8 length of `NIL`. -/
def editingView (state : SelectingFromPredictions) : Option View := do
  let input ← state.currentInput
  return .editingByString input state.predictions (some state.currentIndex)

end SelectingFromPredictions

/-- The state that displays the input as katakana. -/
structure Katakana where
  input : Str
deriving DecidableEq, Repr

namespace Katakana

/-- `make-state`. -/
def make (input : Str) : Katakana := ⟨Ja.hiraganaToKatakana input⟩

/-- `editing-view`. -/
def editingView (state : Katakana) : View := .editingByString state.input [] none

end Katakana

/-- `editing-view` of an inputting state. -/
def editingView (state : Inputting.State) (committedString : Option Str := none) : Option View :=
  View.editingByBuffer state.buffer state.predictions none (committedString.getD [])

/-- `converting-view`. -/
def convertingView (state : Converting.State) : Option View := do
  let forms ← state.cursorPosForms
  let segment ← state.currentSegment
  if segment.showsKatakanaP then
    return .converting forms state.currentSegmentIndex [] (-1)
  else
    return .converting forms state.currentSegmentIndex
      (if segment.hasMoreCandidatesP then [] else segment.forms) segment.currentIndex

/-- The state of the input method. -/
inductive State where
  | inputting (state : Inputting.State)
  | converting (state : Converting.State)
  | katakana (state : Katakana)
  | selectingFromPredictions (state : SelectingFromPredictions)
deriving DecidableEq, Repr

/-- `make-initial-state`. -/
def makeInitialState : State := .inputting {}

/-! ## Well-formed states -/

/-- Every index of the state is in range. -/
def State.WellFormed : State → Prop
  | .inputting s => s.buffer.Valid
  | .converting s => s.WellFormed
  | .katakana _ => True
  | .selectingFromPredictions s => s.currentIndex < s.predictions.length

theorem makeInitialState_wellFormed : makeInitialState.WellFormed := Nat.le_refl 0

theorem editingView_spec {state : Inputting.State} (h : state.buffer.Valid)
    (committedString : Option Str) :
    ∃ view, editingView state committedString = some view := by
  rw [editingView, View.editingByBuffer, subseq_zero h]
  exact ⟨_, rfl⟩

theorem editingView_empty (committedString : Option Str) :
    editingView {} committedString = some (.editing 0 [] [] (-1) (committedString.getD [])) := rfl

theorem convertingView_spec {state : Converting.State} (h : state.WellFormed) :
    ∃ view, convertingView state = some view := by
  obtain ⟨forms, hforms⟩ := h.cursorPosForms
  obtain ⟨segment, hsegment, -⟩ := h.currentSegment
  rw [convertingView, hforms, hsegment]
  simp only [Option.bind_eq_bind, Option.bind_some]
  split <;> exact ⟨_, rfl⟩

/-- A conversion that has a view is well formed. -/
theorem convert_wellFormed_of_view {ime : Ime} {pron : Str} {view : View}
    (h : convertingView (Converting.convert ime pron) = some view) :
    (Converting.convert ime pron).WellFormed := by
  simp only [convertingView, Option.bind_eq_bind, Option.bind_eq_some_iff] at h
  obtain ⟨forms, hforms, segment, hsegment, -⟩ := h
  have hlt : (Converting.convert ime pron).currentSegmentIndex <
      (Converting.convert ime pron).segments.length := (List.getElem?_eq_some_iff.mp hsegment).1
  refine ⟨List.ne_nil_of_length_pos (Nat.zero_lt_of_lt hlt), hlt, fun s hs => ?_⟩
  -- A fresh segment displays its first candidate, so it has one.
  obtain ⟨form, -, hform⟩ := exists_of_mapM_eq_some hforms hs
  obtain ⟨kkcSegment, hmem, rfl⟩ := List.mem_map.mp hs
  cases hcand : kkcSegment.candidates with
  | nil => simp [Converting.Segment.cursorPosForm, Converting.ofKkcSegment, hcand] at hform
  | cons c cs => simp [Converting.Segment.WellFormed, Converting.ofKkcSegment, hcand]

end Hachee.Senn.Fcitx
