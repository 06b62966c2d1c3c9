import Hachee.Senn.Fcitx.ProcessInput

/-!
# The ibus input method (`senn.ibus.stateful-ime`)

The ibus input method is the fcitx input method behind an input mode.  In the
hiragana mode it has a state of the fcitx input method and answers a key and a
selected candidate as that does.  In the direct mode it has none and answers with
no view.

It has no predictor, and it asks its converter for at most 15 candidates.
-/

namespace Hachee.Senn.Ibus

open Lisp Senn.Im Foundation

/-- The input modes. -/
inductive InputMode where
  | hiragana
  | direct
deriving DecidableEq, Repr

/-- The text of an input mode, as `format` prints it. -/
def InputMode.name : InputMode → Str
  | .hiragana => "HIRAGANA".toList
  | .direct => "DIRECT".toList

/-- `(defstruct state input-mode fcitx-state)`. -/
structure State where
  inputMode : InputMode
  fcitxState : Option Fcitx.State
deriving DecidableEq, Repr

/-- `make-initial-state`. -/
def makeInitialState : State := ⟨.direct, none⟩

/-- The bound of `ime-max-candidate-count`.  From 16 candidates on ibus has an error. -/
def maxCandidateCount : Nat := 15

/-- `make-ime`, as the mixins see it. -/
def makeIme (kkc : Kkc) : Ime := ⟨kkc, fun _ => [], some maxCandidateCount⟩

/-- A request of the server. -/
inductive Request where
  | toggleInputMode
  | processInput (key : Fcitx.Key)
  | selectCandidate (index : Int)
  | resetIm
deriving DecidableEq, Repr

/-- The answer to a request. -/
inductive Output where
  | mode (name : Str)
  | output (output : Fcitx.Output)
  | noValues
deriving DecidableEq, Repr

/-- The answer to a request.  There is no method of the fcitx input method for an
absent state. -/
def handle : Handler (Kkc × Request) State Output
  | (_, .toggleInputMode), s =>
      match s.inputMode with
      | .hiragana => some (.mode InputMode.direct.name, ⟨.direct, none⟩)
      | .direct => some (.mode InputMode.hiragana.name, ⟨.hiragana, some Fcitx.makeInitialState⟩)
  | (kkc, .processInput key), s =>
      match s.inputMode with
      | .hiragana => do
          let fcitxState ← s.fcitxState
          let (output, state) ← Fcitx.execute fcitxState key (makeIme kkc)
          return (.output output, { s with fcitxState := some (state.getD fcitxState) })
      | .direct => some (.output (Fcitx.viewToOutput none), s)
  | (_, .selectCandidate index), s =>
      match s.inputMode with
      | .hiragana => do
          let fcitxState ← s.fcitxState
          let (output, state) ← Fcitx.selectCandidate fcitxState index
          return (.output output, { s with fcitxState := some (state.getD fcitxState) })
      | .direct => some (.output (Fcitx.viewToOutput none), s)
  | (_, .resetIm), _ => some (.noValues, makeInitialState)

/-- A step of the ibus input method. -/
abbrev Step := Handler.Step (Kkc × Request) State Output

/-- The candidates that an answer shows. -/
def Output.candidates : Output → List Str
  | .output ⟨_, some (.converting _ _ candidates _)⟩ => candidates
  | _ => []

end Hachee.Senn.Ibus
