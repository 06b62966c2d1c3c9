import Hachee.Senn.Win.Answer

/-!
# Asking in advance which keys are processed

The system asks `can-process` before it sends a key to `process-input`.  It is
told of every key that is processed (`canProcess_of_run`).  In the hiragana mode,
and when no text is typed or converted, it is told of no other key.

In the direct mode `can-process` claims every key while text is typed or
converted.  `process-input` does not answer 1 to all of them
(`not_canProcess_eq`).
-/

namespace Hachee.Senn.Win

open Lisp Senn.Im Foundation

/-- In the hiragana mode `can-process` tells the keys that are processed. -/
theorem canProcess_hiragana {s : InputState} (h : s ≠ .directState) (key : Key) :
    canProcess s key .hiragana = some (s.processes key) := by
  cases s with
  | directState => exact absurd rfl h
  | converting s =>
      simp only [canProcess, cond_merge, InputState.processes]
      rw [Lisp.cond]
      split
      next htest => rw [htest]; rfl
      next htest => rw [Bool.eq_false_iff.mpr htest]; rfl
  | inputting s =>
      simp only [canProcess, cond_merge, InputState.processes]
      simp only [Lisp.cond]
      rw [← Key.typesP]
      split
      next => rfl
      next => cases key.backspaceP <;> cases key.spaceP <;> cases key.enterP <;> rfl

/-- In every reachable state `can-process` answers 1 to the keys that `process-input`
would answer 1 to.  It answers 1 to another key only in the direct mode, while
text is typed or converted, and there it answers 1 to every key. -/
theorem canProcess_of_run {requests : List (StatefulIme × Request)} {outputs : List Output}
    {s : State} {stateful : StatefulIme}
    (hrequests : ∀ x ∈ requests, x.1.ime.kkc.Nonempty) (hkkc : stateful.ime.kkc.Nonempty)
    (hrun : handle.run requests makeInitialState = some (outputs, s)) (code : Int)
    (shiftP : Bool) :
    ∃ one view s' can,
      handle (stateful, .processInput ⟨code, shiftP⟩) s = some (.processed one view, s') ∧
      canProcess s.inputState ⟨code, false⟩ s.inputMode = some can ∧
      (one = true → can = true) ∧
      (s.inputMode = .hiragana ∨ s.inputState = .directState → can = one) ∧
      (s.inputMode = .direct → s.inputState ≠ .directState → can = true) := by
  have hs : s.WellFormed :=
    Handler.run_invariant handle_preserves_wellFormed requests hrequests
      makeInitialState_wellFormed hrun
  obtain ⟨view, s', hprocess⟩ := processInput_spec hkkc hs ⟨code, shiftP⟩
  obtain ⟨mode, inputState, history⟩ := s
  cases mode with
  | hiragana =>
      have hne : inputState ≠ .directState := by
        intro h
        cases hs.inputMode h
      refine ⟨_, view, s', _, hprocess, canProcess_hiragana hne _, id, fun _ => ?_, ?_⟩
      · cases inputState <;> rfl
      · exact fun h => by cases h
  | direct =>
      cases inputState with
      | directState =>
          refine ⟨_, view, s', false, hprocess, rfl, ?_, fun _ => rfl, fun _ h => absurd rfl h⟩
          exact fun h => by cases h
      | inputting st =>
          refine ⟨_, view, s', true, hprocess, rfl, fun _ => rfl, ?_, fun _ _ => rfl⟩
          rintro (h | h) <;> cases h
      | converting st =>
          refine ⟨_, view, s', true, hprocess, rfl, fun _ => rfl, ?_, fun _ _ => rfl⟩
          rintro (h | h) <;> cases h

/-- Type `a` in the hiragana mode and go back to the direct mode. -/
def typeAndToggle : List (StatefulIme × Request) :=
  [(.echo, .toggleInputMode), (.echo, .processInput ⟨65, false⟩), (.echo, .toggleInputMode)]

set_option maxRecDepth 4096 in
/-- The typed text is still there. -/
theorem processInput_type :
    handle (.echo, .processInput ⟨65, false⟩) ⟨.hiragana, .inputting {}, .empty⟩ =
      some (.processed true (some (.editing ['あ'] [['あ']])),
        ⟨.hiragana, .inputting ⟨⟨['あ'], 1⟩, [['あ']]⟩, .empty⟩) := by
  have hexecute : execute (.inputting {}) (StatefulIme.echo.withHistory .empty) ⟨65, false⟩
      .hiragana = some (result true (some (.editing ['あ'] [['あ']]))
        (some (.inputting ⟨⟨['あ'], 1⟩, [['あ']]⟩))) := by decide
  exact @handle_processInput .echo ⟨65, false⟩ ⟨.hiragana, .inputting {}, .empty⟩ _ _ hexecute rfl

theorem run_typeAndToggle :
    handle.run typeAndToggle makeInitialState =
      some ([.ok, .processed true (some (.editing ['あ'] [['あ']])), .ok],
        ⟨.direct, .inputting ⟨⟨['あ'], 1⟩, [['あ']]⟩, .empty⟩) := by
  have htoggle : handle.run [(.echo, .toggleInputMode)]
      ⟨.hiragana, .inputting ⟨⟨['あ'], 1⟩, [['あ']]⟩, .empty⟩ =
      some ([.ok], ⟨.direct, .inputting ⟨⟨['あ'], 1⟩, [['あ']]⟩, .empty⟩) := rfl
  have htype := Handler.run_cons_eq_some.mpr ⟨_, _, _, processInput_type, htoggle, rfl⟩
  exact Handler.run_cons_eq_some.mpr ⟨.ok, _, _, rfl, htype, rfl⟩

/-- The left key while the text is typed in the direct mode. -/
theorem canProcess_of_run_typeAndToggle :
    ∃ one view s' can,
      handle (.echo, .processInput ⟨37, false⟩)
          ⟨.direct, .inputting ⟨⟨['あ'], 1⟩, [['あ']]⟩, .empty⟩ = some (.processed one view, s') ∧
      canProcess (.inputting ⟨⟨['あ'], 1⟩, [['あ']]⟩) ⟨37, false⟩ .direct = some can ∧
      (one = true → can = true) ∧
      (InputMode.direct = .hiragana ∨
        InputState.inputting ⟨⟨['あ'], 1⟩, [['あ']]⟩ = .directState → can = one) ∧
      (InputMode.direct = .direct →
        InputState.inputting ⟨⟨['あ'], 1⟩, [['あ']]⟩ ≠ .directState → can = true) :=
  canProcess_of_run (by simp [typeAndToggle, StatefulIme.echo_nonempty]) StatefulIme.echo_nonempty
    run_typeAndToggle 37 false

/-- While text is typed in the direct mode, `can-process` answers 1 to the left
key, and `process-input` answers 0 to it. -/
theorem not_canProcess_eq :
    ∃ outputs s s', (∀ x ∈ typeAndToggle, x.1.ime.kkc.Nonempty) ∧
      handle.run typeAndToggle makeInitialState = some (outputs, s) ∧
      handle (.echo, .processInput ⟨37, false⟩) s = some (.processed false none, s') ∧
      canProcess s.inputState ⟨37, false⟩ s.inputMode = some true := by
  refine ⟨_, _, _, ?_, run_typeAndToggle, rfl, rfl⟩
  simp [typeAndToggle, StatefulIme.echo_nonempty]

end Hachee.Senn.Win
