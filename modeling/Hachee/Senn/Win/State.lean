import Hachee.Senn.Im.Inputting
import Hachee.Senn.Im.Converting

/-!
# Keys, views and states of the Windows input method (`senn.win`)

A key is a virtual key code and a shift flag.  The input method has an input mode
and an input state.  The input state is `:direct-state`, or text that is typed,
or a conversion.

The mode and the input state are not independent, since `:direct-state` belongs
to the direct mode.  But the mode can be toggled while text is typed, so all four
other combinations occur.

The application state also has a history, which maps the pronunciation of each
committed segment to the form that was committed last.
-/

namespace Hachee.Senn.Win

open Lisp Senn.Im

/-! ## Keys -/

/-- `(defstruct key code shift-p)`. -/
structure Key where
  code : Int
  shiftP : Bool
deriving DecidableEq, Repr

namespace Key

/-- `defkey`: the keys with a given code. -/
def codeP (code : Int) (key : Key) : Bool := key.code = code

def backspaceP : Key → Bool := codeP 8
def enterP : Key → Bool := codeP 13
def spaceP : Key → Bool := codeP 32
def leftP : Key → Bool := codeP 37
def upP : Key → Bool := codeP 38
def rightP : Key → Bool := codeP 39
def downP : Key → Bool := codeP 40
def oem3P : Key → Bool := codeP 0xC0
def oem1P : Key → Bool := codeP 0xBA
def oemPlusP : Key → Bool := codeP 0xBB
def oemCommaP : Key → Bool := codeP 0xBC
def oemMinusP : Key → Bool := codeP 0xBD
def oemPeriodP : Key → Bool := codeP 0xBE
def oem2P : Key → Bool := codeP 0xBF
def oem4P : Key → Bool := codeP 0xDB
def oem5P : Key → Bool := codeP 0xDC
def oem6P : Key → Bool := codeP 0xDD
def oem7P : Key → Bool := codeP 0xDE
def oem102P : Key → Bool := codeP 0xE2

/-- `alphabet-p`. -/
def alphabetP (key : Key) : Bool := 'A'.toNat ≤ key.code ∧ key.code ≤ 'Z'.toNat

/-- `number-p`. -/
def numberP (key : Key) : Bool := '0'.toNat ≤ key.code ∧ key.code ≤ '9'.toNat

end Key

/-! ## Input modes -/

/-- `senn.win.im.input-mode`. -/
inductive InputMode where
  | hiragana
  | direct
deriving DecidableEq, Repr

/-- `mode-case`. -/
def InputMode.case {α : Type*} (mode : InputMode) (hiragana direct : α) : α :=
  match mode with
  | .hiragana => hiragana
  | .direct => direct

/-! ## Views -/

/-- The answer to a key. -/
inductive View where
  | editing (input : Str) (predictions : List Str)
  | converting (forms : List Str) (cursorFormIndex : Nat) (candidates : List Str)
      (candidateIndex : Nat)
  | committed (input : Str)
deriving DecidableEq, Repr

/-- `+crlf+`. -/
def crlf : Str := ['\r', '\n']

/-- `editing-view`. -/
def editingView (state : Inputting.State) : View :=
  .editing state.bufferString state.predictions

/-- `converting-view`. -/
def convertingView (state : Converting.State) : Option View := do
  let forms ← state.cursorPosForms
  let segment ← state.currentSegment
  return .converting forms state.currentSegmentIndex
    (if segment.hasMoreCandidatesP then [] else segment.forms) segment.currentIndex

theorem convertingView_returns {state : Converting.State} (h : state.WellFormed) :
    Returns (convertingView state) := by
  obtain ⟨segment, hsegment, -⟩ := h.currentSegment
  exact .bind h.cursorPosForms fun _ _ => .bind ⟨segment, hsegment⟩ fun _ _ => .pure _

/-! ## States -/

/-- The input state. -/
inductive InputState where
  | directState
  | inputting (state : Inputting.State)
  | converting (state : Converting.State)
deriving DecidableEq, Repr

/-- The history: from pronunciations to committed forms. -/
abbrev History := HashTable Str Str

namespace History

/-- `history-put`. -/
def put (history : History) (pron form : Str) : History := history.puthash pron form

/-- `history-get-form`. -/
def getForm (history : History) (pron : Str) : Option Str := history.gethash pron

/-- `history-apply`: the form of the history comes first. -/
def apply (history : History) (segs : List Kkc.Segment) : List Kkc.Segment :=
  segs.map fun seg =>
    match history.getForm seg.pron with
    | none => seg
    | some historyForm =>
        ⟨seg.pron, ⟨historyForm⟩ :: seg.candidates.filter fun c => c.form ≠ historyForm⟩

end History

/-- The application state. -/
structure State where
  inputMode : InputMode
  inputState : InputState
  history : History

/-- `make-initial-state`. -/
def makeInitialState : State := ⟨.direct, .directState, .empty⟩

/-- An input method as `make-ime` makes it.  Its converter may read the history
of the application state, which is what `history-overwrite-mixin` is for. -/
structure StatefulIme where
  ime : Ime
  historyOverwriteP : Bool

/-- The input method that answers every string with the string. -/
def StatefulIme.echo : StatefulIme := ⟨.echo, true⟩

theorem StatefulIme.echo_nonempty : StatefulIme.echo.ime.kkc.Nonempty := fun pron =>
  ⟨List.cons_ne_nil _ _, by simp [StatefulIme.echo, Ime.echo]⟩

/-- The input method with the converter that the history overwrites. -/
def StatefulIme.withHistory (stateful : StatefulIme) (history : History) : Ime :=
  if stateful.historyOverwriteP then
    { stateful.ime with
      kkc.convert := fun pron => history.apply (stateful.ime.kkc.convert pron) }
  else stateful.ime

/-- The history takes no segment and no last candidate away. -/
theorem StatefulIme.withHistory_nonempty {stateful : StatefulIme}
    (h : stateful.ime.kkc.Nonempty) (history : History) :
    (stateful.withHistory history).kkc.Nonempty := by
  unfold StatefulIme.withHistory
  split
  next =>
    intro pron
    refine ⟨by simpa [History.apply] using (h pron).1, fun segment hsegment => ?_⟩
    obtain ⟨seg, hseg, rfl⟩ := List.mem_map.mp hsegment
    cases history.getForm seg.pron with
    | none => exact (h pron).2 seg hseg
    | some historyForm => exact List.cons_ne_nil _ _
  next => exact h

/-! ## Well-formed states -/

/-- The typed text has its cursor inside, and the indices of a conversion are in
range. -/
def InputState.WellFormed : InputState → Prop
  | .directState => True
  | .inputting s => s.buffer.Valid
  | .converting s => s.WellFormed

/-- The input state is well formed, and `:direct-state` is one of the direct mode. -/
structure State.WellFormed (s : State) : Prop where
  inputState : s.inputState.WellFormed
  inputMode : s.inputState = .directState → s.inputMode = .direct

theorem makeInitialState_wellFormed : makeInitialState.WellFormed := ⟨trivial, fun _ => rfl⟩

end Hachee.Senn.Win
