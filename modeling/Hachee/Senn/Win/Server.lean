import Hachee.Senn.Win.Answer

/-!
# The requests of the Windows server (`senn.win.server`)

The server takes four kinds of requests.  Two of them change the application
state, and `handle` answers these.  The other two read it: `get-input-mode` always
can, and `can-process` has no method for `:direct-state` in the hiragana mode.

The mode and the input state stay consistent in every run, so no request fails
(`handleRequest_run`).
-/

namespace Hachee.Senn.Win

open Lisp Senn.Im Foundation

/-- The text of an input mode, as `format` prints it. -/
def InputMode.name (mode : InputMode) : Str :=
  mode.case "HIRAGANA".toList "DIRECT".toList

/-- A request to the server. -/
inductive ServerRequest where
  | getInputMode
  | toggleInputMode
  | canProcess (key : Key)
  | processInput (key : Key)
deriving DecidableEq, Repr

/-- The answer of the server. -/
inductive ServerResponse where
  | inputMode (name : Str)
  /-- The number `1` if the key can be processed. -/
  | canProcess (one : Bool)
  | changed (output : Output)
deriving DecidableEq, Repr

/-- `handle-request`. -/
def handleRequest : Handler (StatefulIme × ServerRequest) State ServerResponse
  | (_, .getInputMode), s => some (.inputMode s.inputMode.name, s)
  | (stateful, .toggleInputMode), s => do
      let (output, s') ← handle (stateful, .toggleInputMode) s
      return (.changed output, s')
  | (_, .canProcess key), s => do
      let one ← canProcess s.inputState key s.inputMode
      return (.canProcess one, s)
  | (stateful, .processInput key), s => do
      let (output, s') ← handle (stateful, .processInput key) s
      return (.changed output, s')

/-- `can-process` has a method for every well-formed state. -/
theorem canProcess_returns {s : State} (hs : s.WellFormed) (key : Key) :
    Returns (canProcess s.inputState key s.inputMode) := by
  obtain ⟨mode, inputState, history⟩ := s
  cases mode with
  | direct => cases inputState <;> exact .pure _
  | hiragana =>
      cases inputState with
      | directState => cases hs.inputMode rfl
      | inputting state => exact .pure _
      | converting state => exact .pure _

theorem handleRequest_answers :
    handleRequest.Answers (fun x => x.1.ime.kkc.Nonempty) State.WellFormed := by
  rintro ⟨stateful, request⟩ s hkkc hs
  have changed : ∀ change : Request, ∃ o s',
      ((handle (stateful, change) s).bind fun x => pure (ServerResponse.changed x.1, x.2)) =
        some (o, s') := by
    intro change
    obtain ⟨output, s', h⟩ := handle_answers (stateful, change) s hkkc hs
    exact ⟨.changed output, s', by rw [h]; rfl⟩
  cases request with
  | getInputMode => exact ⟨_, s, rfl⟩
  | toggleInputMode => exact changed .toggleInputMode
  | canProcess key =>
      obtain ⟨one, hone⟩ := canProcess_returns hs key
      exact ⟨.canProcess one, s, by simp only [handleRequest, hone]; rfl⟩
  | processInput key => exact changed (.processInput key)

/-- Two requests change nothing, and the other two are those of `handle`. -/
theorem handleRequest_preserves_wellFormed :
    handleRequest.Preserves (fun x => x.1.ime.kkc.Nonempty) State.WellFormed := by
  rintro ⟨stateful, request⟩ s o s' hkkc hs h
  cases request with
  | getInputMode =>
      cases h
      exact hs
  | toggleInputMode =>
      obtain ⟨⟨output, t⟩, hchange, h⟩ := bind_inv h
      cases h
      exact handle_preserves_wellFormed _ s output _ hkkc hs hchange
  | canProcess key =>
      obtain ⟨one, -, h⟩ := bind_inv h
      cases h
      exact hs
  | processInput key =>
      obtain ⟨⟨output, t⟩, hchange, h⟩ := bind_inv h
      cases h
      exact handle_preserves_wellFormed _ s output _ hkkc hs hchange

/-- Every sequence of requests is answered.  In the state it leads to, every index
is in range and `:direct-state` is one of the direct mode. -/
theorem handleRequest_run (requests : List (StatefulIme × ServerRequest))
    (hkkc : ∀ x ∈ requests, x.1.ime.kkc.Nonempty) :
    ∃ responses s, handleRequest.run requests makeInitialState = some (responses, s) ∧
      s.WellFormed :=
  Handler.run_total handleRequest_preserves_wellFormed handleRequest_answers requests hkkc
    makeInitialState_wellFormed

/-- The mode is toggled while text is typed and while it is converted. -/
theorem handleRequest_run_toggles :
    ∃ responses s, handleRequest.run
      [(.echo, .getInputMode), (.echo, .toggleInputMode), (.echo, .processInput ⟨65, false⟩),
        (.echo, .toggleInputMode), (.echo, .canProcess ⟨32, false⟩),
        (.echo, .processInput ⟨32, false⟩), (.echo, .toggleInputMode),
        (.echo, .processInput ⟨-1, true⟩)] makeInitialState = some (responses, s) ∧
      s.WellFormed :=
  handleRequest_run _ (by simp [StatefulIme.echo_nonempty])

end Hachee.Senn.Win
