import Hachee.Foundation.Handler
import Hachee.Senn.Win.State

/-!
# Requests to the Windows input method (`senn.win.im`, `senn.win.stateful-ime`)

`execute` is the generic function `process-input:execute`, one definition for
each kind of input state.  `handle` is the stateful input method as a handler of
the requests that change the application state.  `canProcess` is the request by
which the system asks in advance, and changes nothing.

An input state that is absent from a result leaves the old one in place.
-/

namespace Hachee.Senn.Win

open Lisp Senn.Im Foundation

/-! ## Process-input -/

/-- `(list can-process view :state state :committed-segments committed-segments)`. -/
structure Result where
  canProcess : Bool
  view : Option View
  state : Option InputState
  committedSegments : List Converting.Segment
deriving DecidableEq, Repr

/-- `result`. -/
def result (canProcess : Bool) (view : Option View) (state : Option InputState := none)
    (committedSegments : List Converting.Segment := []) : Result :=
  ⟨canProcess, view, state, committedSegments⟩

/-- `execute` on `:direct-state`. -/
def executeDirectState (mode : InputMode) : Option Result :=
  if mode = .direct then some (result false none) else none

/-- `execute` on a converting state. -/
def executeConverting (s : Converting.State) (ime : Ime) (key : Key) (mode : InputMode) :
    Option Result :=
  if key.enterP then do
    let input ← s.currentInput
    return result true (some (.committed input)) (mode.case (some (.inputting {})) none)
      s.segments
  else if key.spaceP || key.downP then do
    let s' ← s.currentSegmentCandidatesMove 1 ime
    let view ← convertingView s'
    return result true (some view) (some (.converting s'))
  else if key.upP then do
    let s' ← s.currentSegmentCandidatesMove (-1) ime
    let view ← convertingView s'
    return result true (some view) (some (.converting s'))
  else if key.leftP then do
    let view ← convertingView (s.currentSegmentMove (-1))
    return result true (some view) (some (.converting (s.currentSegmentMove (-1))))
  else if key.rightP then do
    let view ← convertingView (s.currentSegmentMove 1)
    return result true (some view) (some (.converting (s.currentSegmentMove 1)))
  else some (result false none)

/-- `oem-key->char`. -/
def oemKeyToChar (mode : InputMode) (key : Key) : Option Char :=
  let shift (shifted char : Char) : Char := if key.shiftP then shifted else char
  mode.case
    (cond [
      (key.oemMinusP, shift '＝' 'ー'),
      (key.oem7P, shift '〜' '＾'),
      (key.oem5P, shift '｜' '￥'),
      (key.oem3P, shift '｀' '＠'),
      (key.oem4P, shift '｛' '「'),
      (key.oemPlusP, shift '＋' '；'),
      (key.oem1P, shift '＊' '：'),
      (key.oem6P, shift '｝' '」'),
      (key.oemCommaP, shift '＜' '、'),
      (key.oemPeriodP, shift '＞' '。'),
      (key.oem2P, shift '？' '・'),
      (key.oem102P, shift '＿' '￥')])
    (cond [
      (key.oemMinusP, shift '=' '-'),
      (key.oem7P, shift '~' '^'),
      (key.oem5P, shift '|' '\\'),
      (key.oem3P, shift '`' '@'),
      (key.oem4P, shift '{' '['),
      (key.oemPlusP, shift '+' ';'),
      (key.oem1P, shift '*' ':'),
      (key.oem6P, shift '}' ']'),
      (key.oemCommaP, shift '<' ','),
      (key.oemPeriodP, shift '>' '.'),
      (key.oem2P, shift '?' '/'),
      (key.oem102P, shift '_' '\\')])

/-- `number-key->char`. -/
def numberKeyToChar (mode : InputMode) (key : Key) : Option Char :=
  let digit (char : Char) : Bool := key.code = char.toNat
  let fullWidth : Char := Char.ofNat (0xFEE0 + key.code.toNat)
  let char : Char := Char.ofNat key.code.toNat
  if key.numberP then
    some (mode.case
      (if key.shiftP then
        (cond [(digit '0', '〜'), (digit '1', '！'), (digit '2', '”'), (digit '3', '＃'),
          (digit '4', '＄'), (digit '5', '％'), (digit '6', '＆'), (digit '7', '’'),
          (digit '8', '（'), (digit '9', '）')]).getD fullWidth
      else fullWidth)
      (if key.shiftP then
        (cond [(digit '0', '~'), (digit '1', '!'), (digit '2', '"'), (digit '3', '#'),
          (digit '4', '$'), (digit '5', '%'), (digit '6', '&'), (digit '7', '\''),
          (digit '8', '('), (digit '9', ')')]).getD char
      else char))
  else none

/-- `alphabet-key->char`.  Adding `0x20` makes the letter lower case. -/
def alphabetKeyToChar (key : Key) : Option Char :=
  if key.alphabetP then some (Char.ofNat (0x20 + key.code.toNat)) else none

/-- The character a key types: the first of the three that there is. -/
def keyToChar (mode : InputMode) (key : Key) : Option Char :=
  (oemKeyToChar mode key).or ((numberKeyToChar mode key).or (alphabetKeyToChar key))

/-- `execute` on an inputting state. -/
def executeInputting (s : Inputting.State) (ime : Ime) (key : Key) (mode : InputMode) :
    Option Result :=
  match keyToChar mode key with
  | some char => do
      let s' ← mode.case (s.insertChar char ime) (s.insertCharDirect char ime)
      return result true (some (editingView s')) (some (.inputting s'))
  | none =>
      if key.backspaceP then do
        match ← s.deleteChar ime with
        | some s' => return result true (some (editingView s')) (some (.inputting s'))
        | none => return result false none
      else if key.spaceP then
        if s.bufferEmptyP then some (result false none)
        else do
          let pron ← s.bufferGetPron
          let newState := Converting.convert ime pron
          let view ← convertingView newState
          return result true (some view) (some (.converting newState))
      else if key.enterP then
        some (result true
          (some (.committed (if s.bufferEmptyP then crlf else s.bufferString)))
          (some (mode.case (.inputting {}) .directState)))
      else some (result false none)

/-- `execute` of `process-input`. -/
def execute (s : InputState) (ime : Ime) (key : Key) (mode : InputMode) : Option Result :=
  match s with
  | .directState => executeDirectState mode
  | .converting s => executeConverting s ime key mode
  | .inputting s => executeInputting s ime key mode

/-! ## Toggle-input-mode -/

/-- `execute` of `toggle-input-mode`. -/
def toggleInputMode (s : InputState) (mode : InputMode) : Option (InputState × InputMode) :=
  match s with
  | .directState => if mode = .direct then some (.inputting {}, .hiragana) else none
  | .inputting s =>
      mode.case
        (some (if s.bufferEmptyP then .directState else .inputting s, .direct))
        (some (.inputting s, .hiragana))
  | .converting s => some (.converting s, mode)

/-! ## Can-process -/

/-- `execute` of `can-process`.  There is no method for `:direct-state` in the
hiragana mode. -/
def canProcess (s : InputState) (key : Key) (mode : InputMode) : Option Bool :=
  match mode, s with
  | .direct, .inputting _ => some true
  | .direct, .converting _ => some true
  | .direct, .directState => some false
  | .hiragana, .converting _ =>
      some ((cond [
        (key.enterP, true),
        (key.spaceP || key.downP, true),
        (key.upP, true),
        (key.leftP, true),
        (key.rightP, true)]).getD false)
  | .hiragana, .inputting s =>
      some ((cond [
        (key.oemMinusP, true),
        (key.oem7P, true),
        (key.oem5P, true),
        (key.oem3P, true),
        (key.oem4P, true),
        (key.oemPlusP, true),
        (key.oem1P, true),
        (key.oem6P, true),
        (key.oemCommaP, true),
        (key.oemPeriodP, true),
        (key.oem2P, true),
        (key.oem102P, true),
        (key.numberP, true),
        (key.alphabetP, true),
        (key.backspaceP, !s.bufferEmptyP),
        (key.spaceP, !s.bufferEmptyP),
        (key.enterP, true)]).getD false)
  | .hiragana, .directState => none

/-! ## The stateful input method -/

/-- A request that changes the application state. -/
inductive Request where
  | toggleInputMode
  | processInput (key : Key)
deriving DecidableEq, Repr

/-- The answer to a request. -/
inductive Output where
  | ok
  /-- The number `1` if the key was processed, and the view. -/
  | processed (one : Bool) (view : Option View)
deriving DecidableEq, Repr

/-- The history after the segments of a commit were put in it. -/
def putCommittedSegments (history : History) (segments : List Converting.Segment) :
    Option History :=
  segments.foldlM
    (fun history seg => do
      let form ← seg.cursorPosForm
      return history.put seg.pron form)
    history

/-- The answer to a request in the application state. -/
def handle : Handler (StatefulIme × Request) State Output
  | (_, .toggleInputMode), s => do
      let (inputState, inputMode) ← toggleInputMode s.inputState s.inputMode
      return (.ok, { s with inputState, inputMode })
  | (stateful, .processInput key), s => do
      let result ← execute s.inputState (stateful.withHistory s.history) key s.inputMode
      let history ← putCommittedSegments s.history result.committedSegments
      return (.processed (result.canProcess && result.view.isSome) result.view,
        { s with inputState := result.state.getD s.inputState, history })

end Hachee.Senn.Win
