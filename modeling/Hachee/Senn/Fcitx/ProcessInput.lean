import Hachee.Foundation.Handler
import Hachee.Senn.Fcitx.State

/-!
# Requests to the fcitx input method (`senn.fcitx.im.immutable`, `senn.fcitx.im.mutable`)

`execute` is the generic function `process-input:execute`, one definition for
each kind of state.  It answers with an output and with the new state, where no
new state means that the old one stays.  The branches that change a state in
place all answer with the changed state, so the model returns it.

`handle` is the mutable input method as a handler.  A request comes with the
input method it is addressed to.  The state does not mention the converter or the
predictor, so a converter that learns is a different one at each request.

`Move` lists what one request can do to the state and which text it commits.
`handle_move` is the inversion of `handle`: every answered request is a move.
What holds of every move holds of every request.
-/

namespace Hachee.Senn.Fcitx

open Lisp Senn.Im Foundation

/-! ## Process-input -/

/-- A consumed flag and a view, as `view->output` pairs them. -/
structure Output where
  consumedP : Bool
  view : Option View
deriving DecidableEq, Repr

/-- `view->output`. -/
def viewToOutput (view : Option View) : Output := ⟨view.isSome, view⟩

/-- `resp`. -/
def resp (view : Option View) (state : Option State := none) : Output × Option State :=
  (viewToOutput view, state)

/-- `execute` on a katakana state. -/
def executeKatakana (s : Katakana) (key : Key) : Option (Output × Option State) :=
  if key.enterP then do
    let view ← editingView {} (some s.input)
    return resp (some view) (some (.inputting {}))
  else return resp (some s.editingView)

/-- `execute` on a state that selects from predictions. -/
def executeSelectingFromPredictions (s : SelectingFromPredictions) (key : Key) :
    Option (Output × Option State) :=
  if key.enterP then do
    let view ← editingView {} s.currentInput
    return resp (some view) (some (.inputting {}))
  else if key.tabP || key.downP then do
    let view ← (s.move 1).editingView
    return resp (some view) (some (.selectingFromPredictions (s.move 1)))
  else if key.upP then do
    let view ← (s.move (-1)).editingView
    return resp (some view) (some (.selectingFromPredictions (s.move (-1))))
  else do
    let view ← s.editingView
    return resp (some view)

/-- `execute` on a converting state. -/
def executeConverting (s : Converting.State) (key : Key) (ime : Ime) :
    Option (Output × Option State) :=
  if key.leftP then do
    let view ← convertingView (s.currentSegmentMove (-1))
    return resp (some view) (some (.converting (s.currentSegmentMove (-1))))
  else if key.rightP then do
    let view ← convertingView (s.currentSegmentMove 1)
    return resp (some view) (some (.converting (s.currentSegmentMove 1)))
  else if key.spaceP || key.downP then do
    let s' ← s.currentSegmentCandidatesMove 1 ime
    let view ← convertingView s'
    return resp (some view) (some (.converting s'))
  else if key.upP then do
    let s' ← s.currentSegmentCandidatesMove (-1) ime
    let view ← convertingView s'
    return resp (some view) (some (.converting s'))
  else if key.f7P then do
    let s' ← s.currentSegmentKatakana
    let view ← convertingView s'
    return resp (some view) (some (.converting s'))
  else if key.backspaceP then do
    let newState : Inputting.State := { buffer := ⟨s.pronunciation, s.pronunciation.length⟩ }
    let view ← editingView newState
    return resp (some view) (some (.inputting newState))
  else if key.charP then do
    let buffer ← ({} : Buffer).insertChar key.char
    let committedString ← s.currentInput
    let view ← editingView { buffer } (some committedString)
    return resp (some view) (some (.inputting { buffer }))
  else do
    let committedString ← s.currentInput
    let view ← editingView {} (some committedString)
    return resp (some view) (some (.inputting {}))

/-- `execute` on an inputting state. -/
def executeInputting (s : Inputting.State) (key : Key) (ime : Ime) :
    Option (Output × Option State) :=
  if Int.land key.state 0b1000000 ≠ 0 then
    -- The super key is down.
    return resp none
  else if Int.land key.state 0b100 ≠ 0 then
    -- The control key is down.  The system gets the key if nothing is typed.
    if s.bufferEmptyP then return resp none
    else do
      let view ← editingView s
      return resp (some view)
  else if key.tabP then
    if s.predictions.isEmpty then return resp none
    else do
      let newState : SelectingFromPredictions := ⟨s.predictions, 0⟩
      let view ← newState.editingView
      return resp (some view) (some (.selectingFromPredictions newState))
  else if key.charP then do
    let s' ← s.insertChar key.char ime
    let view ← editingView s'
    return resp (some view) (some (.inputting s'))
  else if key.f7P && !s.bufferEmptyP then
    let newState := Katakana.make s.bufferString
    return resp (some newState.editingView) (some (.katakana newState))
  else if key.spaceP then
    if s.bufferEmptyP then do
      let view ← editingView {} (some ['　'])
      return resp (some view) (some (.inputting {}))
    else do
      let pron ← s.bufferGetPron
      let newState := Converting.convert ime pron
      let view ← convertingView newState
      return resp (some view) (some (.converting newState))
  else if key.enterP then
    if s.bufferString = [] then return resp none
    else do
      let view ← editingView {} (some s.bufferString)
      return resp (some view) (some (.inputting {}))
  else if key.backspaceP then do
    match ← s.deleteChar ime with
    | some s' => do
        let view ← editingView s'
        return resp (some view) (some (.inputting s'))
    | none => return resp none
  else if key.leftP && !s.bufferEmptyP then do
    let view ← editingView (s.bufferCursorPosMove (-1))
    return resp (some view) (some (.inputting (s.bufferCursorPosMove (-1))))
  else if key.rightP && !s.bufferEmptyP then do
    let view ← editingView (s.bufferCursorPosMove 1)
    return resp (some view) (some (.inputting (s.bufferCursorPosMove 1)))
  else return resp none

/-- `execute` of `process-input`. -/
def execute (s : State) (key : Key) (ime : Ime) : Option (Output × Option State) :=
  match s with
  | .katakana s => executeKatakana s key
  | .selectingFromPredictions s => executeSelectingFromPredictions s key
  | .converting s => executeConverting s key ime
  | .inputting s => executeInputting s key ime

/-- `execute` of `select-candidate`. -/
def selectCandidate (s : State) (index : Int) : Option (Output × Option State) :=
  match s with
  | .converting s => do
      let s' ← s.currentSegmentCandidatesSet index
      let view ← convertingView s'
      return resp (some view) (some (.converting s'))
  | .inputting s =>
      if -1 < index ∧ index < s.predictions.length then do
        let newState : SelectingFromPredictions := ⟨s.predictions, index.toNat⟩
        let view ← newState.editingView
        return resp (some view) (some (.selectingFromPredictions newState))
      else return resp none
  | _ => return resp none

/-! ## The mutable input method -/

/-- A request of the server. -/
inductive Request where
  | processInput (key : Key)
  | selectCandidate (index : Int)
  | resetIm
deriving DecidableEq, Repr

/-- The answer to a request, in the state of the mutable input method.  Resetting
answers with no values. -/
def handle : Handler (Ime × Request) State (Option Output)
  | (ime, .processInput key), s => do
      let (output, state) ← execute s key ime
      return (some output, state.getD s)
  | (_, .selectCandidate index), s => do
      let (output, state) ← Fcitx.selectCandidate s index
      return (some output, state.getD s)
  | (_, .resetIm), _ => return (none, makeInitialState)

/-- The committed input of an answer.  Only an editing view has one. -/
def committedInput : Option Output → Str
  | some ⟨_, some (.editing _ _ _ _ committedInput)⟩ => committedInput
  | _ => []

/-! ## What a request can do -/

/-- The request is the backspace key. -/
def Request.IsBackspace : Request → Prop
  | .processInput key => key.backspaceP = true
  | _ => False

/-- The moves of the input method: the state before, the committed text and the
state after. -/
inductive Move (ime : Ime) (request : Request) : State → Str → State → Prop
  | stay {s} : Move ime request s [] s
  | reset {s} : request = .resetIm → Move ime request s [] makeInitialState
  | type {s s' : Inputting.State} {char} :
      s.insertChar char ime = some s' → Move ime request (.inputting s) [] (.inputting s')
  | delete {s s' : Inputting.State} :
      request.IsBackspace → s.deleteChar ime = some (some s') →
      Move ime request (.inputting s) [] (.inputting s')
  | moveCursor {s : Inputting.State} (diff) :
      Move ime request (.inputting s) [] (.inputting (s.bufferCursorPosMove diff))
  | selectPrediction {s : Inputting.State} {index} :
      index < s.predictions.length →
      Move ime request (.inputting s) [] (.selectingFromPredictions ⟨s.predictions, index⟩)
  | katakana {s : Inputting.State} :
      Move ime request (.inputting s) [] (.katakana (.make s.bufferString))
  | convert {s : Inputting.State} {pron view} :
      convertingView (Converting.convert ime pron) = some view →
      Move ime request (.inputting s) [] (.converting (Converting.convert ime pron))
  | commitSpace {s : Inputting.State} :
      s.bufferString = [] → Move ime request (.inputting s) ['　'] (.inputting {})
  | commitInput {s : Inputting.State} :
      Move ime request (.inputting s) s.bufferString (.inputting {})
  | movePrediction {s : SelectingFromPredictions} (diff) :
      Move ime request (.selectingFromPredictions s) [] (.selectingFromPredictions (s.move diff))
  | commitPrediction {s : SelectingFromPredictions} :
      Move ime request (.selectingFromPredictions s) (s.currentInput.getD []) (.inputting {})
  | commitKatakana {s : Katakana} : Move ime request (.katakana s) s.input (.inputting {})
  | moveSegment {s : Converting.State} (diff) :
      Move ime request (.converting s) [] (.converting (s.currentSegmentMove diff))
  | moveCandidate {s s' : Converting.State} {diff} :
      s.currentSegmentCandidatesMove diff ime = some s' →
      Move ime request (.converting s) [] (.converting s')
  | setCandidate {s s' : Converting.State} {index} :
      s.currentSegmentCandidatesSet index = some s' →
      Move ime request (.converting s) [] (.converting s')
  | segmentKatakana {s s' : Converting.State} :
      s.currentSegmentKatakana = some s' → Move ime request (.converting s) [] (.converting s')
  | inputAgain {s : Converting.State} :
      request.IsBackspace →
      Move ime request (.converting s) []
        (.inputting { buffer := ⟨s.pronunciation, s.pronunciation.length⟩ })
  | commitAndType {s : Converting.State} {input char buffer} :
      s.currentInput = some input → ({} : Buffer).insertChar char = some buffer →
      Move ime request (.converting s) input (.inputting { buffer })
  | commit {s : Converting.State} {input} :
      s.currentInput = some input → Move ime request (.converting s) input (.inputting {})

/-! ## Every answer is a move -/

/-- An answer that needs a view has one. -/
theorem resp_inv {v : Option View} {newState state : Option State} {output : Output}
    (h : (do let view ← v; return resp (some view) newState) = some (output, state)) :
    ∃ view, v = some view ∧ output = viewToOutput (some view) ∧ state = newState := by
  cases v with
  | none => cases h
  | some view =>
      cases h
      exact ⟨view, rfl, rfl, rfl⟩

theorem committedInput_editingView {s : Inputting.State} {committedString : Option Str}
    {view : View} (h : editingView s committedString = some view) :
    committedInput (some (viewToOutput (some view))) = committedString.getD [] := by
  obtain ⟨before, -, hview⟩ := bind_inv h
  cases hview
  rfl

theorem committedInput_convertingView {s : Converting.State} {view : View}
    (h : convertingView s = some view) : committedInput (some (viewToOutput (some view))) = [] := by
  obtain ⟨forms, -, h⟩ := bind_inv h
  obtain ⟨segment, -, h⟩ := bind_inv h
  split at h <;> cases h <;> rfl

theorem committedInput_selecting {s : SelectingFromPredictions} {view : View}
    (h : s.editingView = some view) : committedInput (some (viewToOutput (some view))) = [] := by
  obtain ⟨input, -, hview⟩ := bind_inv h
  cases hview
  rfl

section Moves

variable {key : Key} {ime : Ime} {output : Output} {state : Option State}

section

variable {request : Request} {s : State} {newState : Option State}

/-- An answer with a view of the text that is typed. -/
theorem Move.of_editing {s' : Inputting.State} {committedString : Option Str}
    (h : (do let view ← editingView s' committedString; return resp (some view) newState) =
      some (output, state))
    (hmove : Move ime request s (committedString.getD []) (newState.getD s)) :
    Move ime request s (committedInput (some output)) (state.getD s) := by
  obtain ⟨view, hview, rfl, rfl⟩ := resp_inv h
  rw [committedInput_editingView hview]
  exact hmove

/-- An answer with a view of the conversion. -/
theorem Move.of_converting {s' : Converting.State}
    (h : (do let view ← convertingView s'; return resp (some view) newState) =
      some (output, state))
    (hmove : ∀ view, convertingView s' = some view → Move ime request s [] (newState.getD s)) :
    Move ime request s (committedInput (some output)) (state.getD s) := by
  obtain ⟨view, hview, rfl, rfl⟩ := resp_inv h
  rw [committedInput_convertingView hview]
  exact hmove view hview

/-- An answer with a view of the predictions. -/
theorem Move.of_selecting {s' : SelectingFromPredictions}
    (h : (do let view ← s'.editingView; return resp (some view) newState) =
      some (output, state))
    (hmove : Move ime request s [] (newState.getD s)) :
    Move ime request s (committedInput (some output)) (state.getD s) := by
  obtain ⟨view, hview, rfl, rfl⟩ := resp_inv h
  rw [committedInput_selecting hview]
  exact hmove

end

theorem executeKatakana_move {s : Katakana} (h : executeKatakana s key = some (output, state)) :
    Move ime (.processInput key) (.katakana s) (committedInput (some output))
      (state.getD (.katakana s)) := by
  rcases ite_inv h with ⟨-, h⟩ | ⟨-, h⟩
  · exact .of_editing h .commitKatakana
  · cases h
    exact .stay

theorem executeSelectingFromPredictions_move {s : SelectingFromPredictions}
    (h : executeSelectingFromPredictions s key = some (output, state)) :
    Move ime (.processInput key) (.selectingFromPredictions s) (committedInput (some output))
      (state.getD (.selectingFromPredictions s)) := by
  rcases ite_inv h with ⟨-, h⟩ | ⟨-, h⟩
  · exact .of_editing h .commitPrediction
  rcases ite_inv h with ⟨-, h⟩ | ⟨-, h⟩
  · exact .of_selecting h (.movePrediction 1)
  rcases ite_inv h with ⟨-, h⟩ | ⟨-, h⟩
  · exact .of_selecting h (.movePrediction (-1))
  · exact .of_selecting h .stay

theorem executeConverting_move {s : Converting.State}
    (h : executeConverting s key ime = some (output, state)) :
    Move ime (.processInput key) (.converting s) (committedInput (some output))
      (state.getD (.converting s)) := by
  rcases ite_inv h with ⟨-, h⟩ | ⟨-, h⟩
  · exact .of_converting h fun _ _ => .moveSegment (-1)
  rcases ite_inv h with ⟨-, h⟩ | ⟨-, h⟩
  · exact .of_converting h fun _ _ => .moveSegment 1
  rcases ite_inv h with ⟨-, h⟩ | ⟨-, h⟩
  · obtain ⟨s', hs', h⟩ := bind_inv h
    exact .of_converting h fun _ _ => .moveCandidate hs'
  rcases ite_inv h with ⟨-, h⟩ | ⟨-, h⟩
  · obtain ⟨s', hs', h⟩ := bind_inv h
    exact .of_converting h fun _ _ => .moveCandidate hs'
  rcases ite_inv h with ⟨-, h⟩ | ⟨-, h⟩
  · obtain ⟨s', hs', h⟩ := bind_inv h
    exact .of_converting h fun _ _ => .segmentKatakana hs'
  rcases ite_inv h with ⟨hkey, h⟩ | ⟨-, h⟩
  · exact .of_editing h (.inputAgain hkey)
  rcases ite_inv h with ⟨-, h⟩ | ⟨-, h⟩
  · obtain ⟨buffer, hbuffer, h⟩ := bind_inv h
    obtain ⟨input, hinput, h⟩ := bind_inv h
    exact .of_editing h (.commitAndType hinput hbuffer)
  · obtain ⟨input, hinput, h⟩ := bind_inv h
    exact .of_editing h (.commit hinput)

/-- The keys with a modifier and the keys that are passed on change nothing.  The
other branches are one move each. -/
theorem executeInputting_move {s : Inputting.State}
    (h : executeInputting s key ime = some (output, state)) :
    Move ime (.processInput key) (.inputting s) (committedInput (some output))
      (state.getD (.inputting s)) := by
  rcases ite_inv h with ⟨-, h⟩ | ⟨-, h⟩
  · cases h
    exact .stay
  -- The control key.
  rcases ite_inv h with ⟨-, h⟩ | ⟨-, h⟩
  · rcases ite_inv h with ⟨-, h⟩ | ⟨-, h⟩
    · cases h
      exact .stay
    · exact .of_editing h .stay
  -- Tab.
  rcases ite_inv h with ⟨-, h⟩ | ⟨-, h⟩
  · rcases ite_inv h with ⟨-, h⟩ | ⟨hpredictions, h⟩
    · cases h
      exact .stay
    · have hne : s.predictions ≠ [] := by simpa using hpredictions
      exact .of_selecting h (.selectPrediction (List.length_pos_iff.mpr hne))
  -- A character.
  rcases ite_inv h with ⟨-, h⟩ | ⟨-, h⟩
  · obtain ⟨s', hs', h⟩ := bind_inv h
    exact .of_editing h (.type hs')
  -- F7.
  rcases ite_inv h with ⟨-, h⟩ | ⟨-, h⟩
  · cases h
    exact .katakana
  -- Space.
  rcases ite_inv h with ⟨-, h⟩ | ⟨-, h⟩
  · rcases ite_inv h with ⟨hempty, h⟩ | ⟨-, h⟩
    · exact .of_editing h (.commitSpace (by simpa using hempty))
    · obtain ⟨pron, hpron, h⟩ := bind_inv h
      exact .of_converting h fun _ hview => .convert hview
  -- Enter.
  rcases ite_inv h with ⟨-, h⟩ | ⟨-, h⟩
  · rcases ite_inv h with ⟨-, h⟩ | ⟨-, h⟩
    · cases h
      exact .stay
    · exact .of_editing h .commitInput
  -- Backspace.
  rcases ite_inv h with ⟨hkey, h⟩ | ⟨-, h⟩
  · obtain ⟨deleted, hdeleted, h⟩ := bind_inv h
    cases deleted with
    | none =>
        cases h
        exact .stay
    | some s' =>
        exact .of_editing h (.delete hkey hdeleted)
  -- Left and right.
  rcases ite_inv h with ⟨-, h⟩ | ⟨-, h⟩
  · exact .of_editing h (.moveCursor (-1))
  rcases ite_inv h with ⟨-, h⟩ | ⟨-, h⟩
  · exact .of_editing h (.moveCursor 1)
  · cases h
    exact .stay

theorem execute_move {s : State} (h : execute s key ime = some (output, state)) :
    Move ime (.processInput key) s (committedInput (some output)) (state.getD s) := by
  cases s with
  | inputting s => exact executeInputting_move h
  | converting s => exact executeConverting_move h
  | katakana s => exact executeKatakana_move h
  | selectingFromPredictions s => exact executeSelectingFromPredictions_move h

theorem selectCandidate_move {s : State} {index : Int}
    (h : selectCandidate s index = some (output, state)) :
    Move ime (.selectCandidate index) s (committedInput (some output)) (state.getD s) := by
  cases s with
  | inputting s =>
      rcases ite_inv h with ⟨hindex, h⟩ | ⟨-, h⟩
      · exact .of_selecting h (.selectPrediction (by omega))
      · cases h
        exact .stay
  | converting s =>
      obtain ⟨s', hs', h⟩ := bind_inv h
      exact .of_converting h fun _ _ => .setCandidate hs'
  | katakana s =>
      cases h
      exact .stay
  | selectingFromPredictions s =>
      cases h
      exact .stay

end Moves

/-- Every answered request is a move. -/
theorem handle_move {ime : Ime} {request : Request} {s s' : State} {output : Option Output}
    (h : handle (ime, request) s = some (output, s')) :
    Move ime request s (committedInput output) s' := by
  cases request with
  | processInput key =>
      obtain ⟨⟨out, state⟩, hexecute, h⟩ := bind_inv h
      cases h
      exact execute_move hexecute
  | selectCandidate index =>
      obtain ⟨⟨out, state⟩, hselect, h⟩ := bind_inv h
      cases h
      exact selectCandidate_move hselect
  | resetIm =>
      cases h
      exact .reset rfl

end Hachee.Senn.Fcitx
