import Hachee.Senn.Win.ProcessInput

/-!
# What a key does to the Windows input method

`InputState.processes` are the keys that `process-input` answers 1 to.  `Answer`
is the inversion of `execute`.  It lists the results of `execute` with the
condition on the key and with what becomes of the state (`execute_answer`).

No request fails in a well-formed state (`handle_answers`), and every state that
is reached is well formed (`handle_preserves_wellFormed`).
-/

namespace Hachee.Senn.Win

open Lisp Senn.Im

/-! ## Keys that type -/

/-- The keys that type a character. -/
def Key.typesP (key : Key) : Bool :=
  key.oemMinusP || key.oem7P || key.oem5P || key.oem3P || key.oem4P || key.oemPlusP ||
    key.oem1P || key.oem6P || key.oemCommaP || key.oemPeriodP || key.oem2P || key.oem102P ||
    key.numberP || key.alphabetP

theorem isSome_alphabetKeyToChar (key : Key) :
    (alphabetKeyToChar key).isSome = key.alphabetP := by
  cases h : key.alphabetP with
  | true => rw [alphabetKeyToChar, if_pos h]; rfl
  | false => rw [alphabetKeyToChar, if_neg (by simp [h])]; rfl

theorem isSome_numberKeyToChar (mode : InputMode) (key : Key) :
    (numberKeyToChar mode key).isSome = key.numberP := by
  cases h : key.numberP with
  | true => rw [numberKeyToChar, if_pos h]; rfl
  | false => rw [numberKeyToChar, if_neg (by simp [h])]; rfl

/-- Neither the mode nor the shift key matters. -/
theorem isSome_keyToChar (mode : InputMode) (key : Key) :
    (keyToChar mode key).isSome = key.typesP := by
  rw [keyToChar, Option.isSome_or, Option.isSome_or, isSome_numberKeyToChar,
    isSome_alphabetKeyToChar]
  cases mode with
  | hiragana => simp [oemKeyToChar, InputMode.case, Key.typesP, Bool.or_assoc]
  | direct => simp [oemKeyToChar, InputMode.case, Key.typesP, Bool.or_assoc]

/-- The keys that `process-input` answers 1 to. -/
def InputState.processes (s : InputState) (key : Key) : Bool :=
  match s with
  | .directState => false
  | .converting _ =>
      key.enterP || (key.spaceP || key.downP) || key.upP || key.leftP || key.rightP
  | .inputting s =>
      if key.typesP then true
      else if key.backspaceP || key.spaceP then !s.bufferEmptyP
      else key.enterP

/-! ## What a key can do -/

/-- The results of `execute`. -/
inductive Answer (ime : Ime) (key : Key) (mode : InputMode) : InputState → Result → Prop
  | pass {s : InputState} :
      s.processes key = false → Answer ime key mode s (result false none)
  | type {s s' : Inputting.State} {char : Char} :
      (InputState.inputting s).processes key = true →
      mode.case (s.insertChar char ime) (s.insertCharDirect char ime) = some s' →
      Answer ime key mode (.inputting s)
        (result true (some (editingView s')) (some (.inputting s')))
  | delete {s s' : Inputting.State} :
      (InputState.inputting s).processes key = true → s.deleteChar ime = some (some s') →
      Answer ime key mode (.inputting s)
        (result true (some (editingView s')) (some (.inputting s')))
  | convert {s : Inputting.State} {pron : Str} {view : View} :
      (InputState.inputting s).processes key = true →
      convertingView (Converting.convert ime pron) = some view →
      Answer ime key mode (.inputting s)
        (result true (some view) (some (.converting (Converting.convert ime pron))))
  | commitInput {s : Inputting.State} :
      (InputState.inputting s).processes key = true → key.enterP →
      Answer ime key mode (.inputting s)
        (result true (some (.committed (if s.bufferEmptyP then crlf else s.bufferString)))
          (some (mode.case (.inputting {}) .directState)))
  | moveCandidate {s s' : Converting.State} {diff : Int} {view : View} :
      (InputState.converting s).processes key = true → ¬key.enterP →
      s.currentSegmentCandidatesMove diff ime = some s' → convertingView s' = some view →
      Answer ime key mode (.converting s) (result true (some view) (some (.converting s')))
  | moveSegment {s : Converting.State} {diff : Int} {view : View} :
      (InputState.converting s).processes key = true → ¬key.enterP →
      convertingView (s.currentSegmentMove diff) = some view →
      Answer ime key mode (.converting s)
        (result true (some view) (some (.converting (s.currentSegmentMove diff))))
  | commitConversion {s : Converting.State} {input : Str} :
      (InputState.converting s).processes key = true → key.enterP →
      s.currentInput = some input →
      Answer ime key mode (.converting s)
        (result true (some (.committed input)) (mode.case (some (.inputting {})) none) s.segments)

section

variable {ime : Ime} {key : Key} {mode : InputMode} {r : Result}

theorem executeConverting_answer {s : Converting.State}
    (h : executeConverting s ime key mode = some r) :
    Answer ime key mode (.converting s) r := by
  rcases ite_inv h with ⟨henter, h⟩ | ⟨henter, h⟩
  · obtain ⟨input, hinput, h⟩ := bind_inv h
    cases h
    exact .commitConversion (by simp [InputState.processes, henter]) henter hinput
  rcases ite_inv h with ⟨hspace, h⟩ | ⟨hspace, h⟩
  · obtain ⟨s', hs', h⟩ := bind_inv h
    obtain ⟨view, hview, h⟩ := bind_inv h
    cases h
    exact .moveCandidate (by simp [InputState.processes, hspace]) henter hs' hview
  rcases ite_inv h with ⟨hup, h⟩ | ⟨hup, h⟩
  · obtain ⟨s', hs', h⟩ := bind_inv h
    obtain ⟨view, hview, h⟩ := bind_inv h
    cases h
    exact .moveCandidate (by simp [InputState.processes, hup]) henter hs' hview
  rcases ite_inv h with ⟨hleft, h⟩ | ⟨hleft, h⟩
  · obtain ⟨view, hview, h⟩ := bind_inv h
    cases h
    exact .moveSegment (by simp [InputState.processes, hleft]) henter hview
  rcases ite_inv h with ⟨hright, h⟩ | ⟨hright, h⟩
  · obtain ⟨view, hview, h⟩ := bind_inv h
    cases h
    exact .moveSegment (by simp [InputState.processes, hright]) henter hview
  · cases h
    exact .pass (by simp [InputState.processes, henter, hspace, hup, hleft, hright])

theorem executeInputting_answer {s : Inputting.State}
    (h : executeInputting s ime key mode = some r) : Answer ime key mode (.inputting s) r := by
  unfold executeInputting at h
  have htypes := isSome_keyToChar mode key
  cases hchar : keyToChar mode key with
  | some char =>
      rw [hchar] at h htypes
      obtain ⟨s', hs', h⟩ := bind_inv h
      cases h
      exact .type (by simp [InputState.processes, ← htypes]) hs'
  | none =>
      rw [hchar] at h htypes
      rcases ite_inv h with ⟨hbackspace, h⟩ | ⟨hbackspace, h⟩
      · obtain ⟨deleted, hdeleted, h⟩ := bind_inv h
        -- The buffer is empty exactly if nothing was deleted.
        rcases ite_inv hdeleted with ⟨hempty, hnone⟩ | ⟨hempty, hsome⟩
        · cases hnone
          cases h
          exact .pass (by simp [InputState.processes, ← htypes, hbackspace, hempty])
        · obtain ⟨buffer, hbuffer, hsome⟩ := bind_inv hsome
          cases hsome
          cases h
          exact .delete (by simp [InputState.processes, ← htypes, hbackspace, hempty]) hdeleted
      rcases ite_inv h with ⟨hspace, h⟩ | ⟨hspace, h⟩
      · rcases ite_inv h with ⟨hempty, h⟩ | ⟨hempty, h⟩
        · cases h
          exact .pass (by simp [InputState.processes, ← htypes, hspace, hempty])
        · obtain ⟨pron, hpron, h⟩ := bind_inv h
          obtain ⟨view, hview, h⟩ := bind_inv h
          cases h
          exact .convert (by simp [InputState.processes, ← htypes, hspace, hempty]) hview
      rcases ite_inv h with ⟨henter, h⟩ | ⟨henter, h⟩
      · cases h
        refine .commitInput ?_ henter
        simp [InputState.processes, ← htypes, hbackspace, hspace, henter]
      · cases h
        exact .pass (by simp [InputState.processes, ← htypes, hbackspace, hspace, henter])

/-- Every result is an answer. -/
theorem execute_answer {s : InputState} (h : execute s ime key mode = some r) :
    Answer ime key mode s r := by
  cases s with
  | directState =>
      rcases ite_inv h with ⟨-, h⟩ | ⟨-, h⟩
      · cases h
        exact .pass rfl
      · cases h
  | inputting s => exact executeInputting_answer h
  | converting s => exact executeConverting_answer h

end

/-- The answer is 1 to the keys that the state processes. -/
theorem Answer.canProcess_eq {ime : Ime} {key : Key} {mode : InputMode} {s : InputState}
    {r : Result} (h : Answer ime key mode s r) :
    (r.canProcess && r.view.isSome) = s.processes key := by
  cases h with
  | pass hkey => exact hkey.symm
  | type hkey => exact hkey.symm
  | delete hkey => exact hkey.symm
  | convert hkey => exact hkey.symm
  | commitInput hkey => exact hkey.symm
  | moveCandidate hkey => exact hkey.symm
  | moveSegment hkey => exact hkey.symm
  | commitConversion hkey => exact hkey.symm

/-! ## Well-formed states are answered -/

section

variable {ime : Ime} {key : Key} {mode : InputMode}

theorem executeConverting_returns {s : Converting.State} (h : s.WellFormed) :
    Returns (executeConverting s ime key mode) := by
  -- A changed state that is well formed has a view.
  have changed : ∀ {x : Option Converting.State}, (∃ s', x = some s' ∧ s'.WellFormed) →
      Returns (do
        let s' ← x
        let view ← convertingView s'
        return result true (some view) (some (.converting s'))) := by
    rintro x ⟨s', hx, hs'⟩
    refine .bind ⟨s', hx⟩ fun s'' hs'' => ?_
    cases hx.symm.trans hs''
    exact .bind (convertingView_returns hs') fun _ _ => .pure _
  have moved : ∀ diff, Returns (convertingView (s.currentSegmentMove diff)) := fun diff =>
    convertingView_returns (h.currentSegmentMove diff)
  refine .ite (fun _ => .bind h.currentInput fun _ _ => .pure _) fun _ => ?_
  refine .ite (fun _ => changed (h.currentSegmentCandidatesMove 1 ime)) fun _ => ?_
  refine .ite (fun _ => changed (h.currentSegmentCandidatesMove (-1) ime)) fun _ => ?_
  refine .ite (fun _ => .bind (moved (-1)) fun _ _ => .pure _) fun _ => ?_
  exact .ite (fun _ => .bind (moved 1) fun _ _ => .pure _) fun _ => .pure _

theorem executeInputting_returns {s : Inputting.State} (h : s.buffer.Valid)
    (hkkc : ime.kkc.Nonempty) : Returns (executeInputting s ime key mode) := by
  unfold executeInputting
  cases keyToChar mode key with
  | some char =>
      refine .bind ?_ fun _ _ => .pure _
      cases mode with
      | hiragana =>
          obtain ⟨s', hs', -⟩ := Inputting.State.insertChar_spec h char ime
          exact ⟨s', hs'⟩
      | direct =>
          obtain ⟨s', hs', -⟩ := Inputting.State.insertCharDirect_spec h char ime
          exact ⟨s', hs'⟩
  | none =>
      refine .ite (fun _ => .bind ?_ fun deleted _ => ?_) fun _ => ?_
      · exact Inputting.State.deleteChar_returns h ime
      · cases deleted with
        | none => exact .pure _
        | some s' => exact .pure _
      refine .ite (fun _ => .ite (fun _ => .pure _) fun hempty => ?_) fun _ => ?_
      · have hne : s.bufferString ≠ [] := by simpa using hempty
        refine .bind (Inputting.State.bufferGetPron_spec h hne) fun pron _ => ?_
        refine .bind (convertingView_returns ?_) fun _ _ => .pure _
        exact Converting.convert_wellFormed hkkc pron
      exact .ite (fun _ => .pure _) fun _ => .pure _

theorem execute_returns {s : InputState} (h : s.WellFormed)
    (hmode : s = .directState → mode = .direct) (hkkc : ime.kkc.Nonempty) :
    Returns (execute s ime key mode) := by
  cases s with
  | directState => exact ⟨_, if_pos (hmode rfl)⟩
  | inputting s => exact executeInputting_returns h hkkc
  | converting s => exact executeConverting_returns h

end

/-- The state of a result is well formed and not `:direct-state` in the hiragana
mode. -/
theorem Answer.wellFormed {ime : Ime} {key : Key} {mode : InputMode} {s s' : InputState}
    {r : Result} (h : Answer ime key mode s r) (hs : s.WellFormed) (hkkc : ime.kkc.Nonempty)
    (hs' : r.state = some s') : s'.WellFormed ∧ (s' = .directState → mode = .direct) := by
  cases h with
  | pass => cases hs'
  | type _ hins =>
      cases hs'
      refine ⟨?_, InputState.noConfusion⟩
      cases mode with
      | hiragana => exact Inputting.State.valid_of_insertChar hs hins
      | direct => exact Inputting.State.valid_of_insertCharDirect hs hins
  | delete _ hdel =>
      cases hs'
      exact ⟨Inputting.State.valid_of_deleteChar hs hdel, InputState.noConfusion⟩
  | convert =>
      cases hs'
      exact ⟨Converting.convert_wellFormed hkkc _, InputState.noConfusion⟩
  | commitInput =>
      cases hs'
      cases mode with
      | hiragana => exact ⟨Nat.le_refl 0, InputState.noConfusion⟩
      | direct => exact ⟨trivial, fun _ => rfl⟩
  | moveCandidate _ _ hmove =>
      cases hs'
      obtain ⟨s'', hs'', hwf⟩ := Converting.State.WellFormed.currentSegmentCandidatesMove hs _ ime
      cases hmove.symm.trans hs''
      exact ⟨hwf, InputState.noConfusion⟩
  | moveSegment =>
      cases hs'
      exact ⟨Converting.State.WellFormed.currentSegmentMove hs _, InputState.noConfusion⟩
  | commitConversion =>
      cases mode with
      | hiragana =>
          cases hs'
          exact ⟨Nat.le_refl 0, InputState.noConfusion⟩
      | direct => cases hs'

theorem putCommittedSegments_returns : ∀ (segments : List Converting.Segment) (history : History),
    (∀ segment ∈ segments, segment.WellFormed) → Returns (putCommittedSegments history segments)
  | [], history, _ => .pure history
  | segment :: segments, history, h => by
      obtain ⟨form, hform⟩ := (h segment (List.mem_cons_self ..)).cursorPosForm
      obtain ⟨history', hhistory'⟩ := putCommittedSegments_returns segments
        (history.put segment.pron form) fun s hs => h s (List.mem_cons_of_mem _ hs)
      refine ⟨history', ?_⟩
      rw [putCommittedSegments, List.foldlM_cons, hform]
      exact hhistory'

/-- The segments that are committed display a form. -/
theorem Answer.committedSegments_wellFormed {ime : Ime} {key : Key} {mode : InputMode}
    {s : InputState} {r : Result} (h : Answer ime key mode s r) (hs : s.WellFormed) :
    ∀ segment ∈ r.committedSegments, segment.WellFormed := by
  cases h with
  | commitConversion => exact hs.segment_wellFormed
  | pass => exact fun _ hmem => by cases hmem
  | type => exact fun _ hmem => by cases hmem
  | delete => exact fun _ hmem => by cases hmem
  | convert => exact fun _ hmem => by cases hmem
  | commitInput => exact fun _ hmem => by cases hmem
  | moveCandidate => exact fun _ hmem => by cases hmem
  | moveSegment => exact fun _ hmem => by cases hmem

/-! ## Steps -/

/-- Toggling keeps the text.  The mode changes, unless the text is converted. -/
theorem toggleInputMode_inv {s t : InputState} {mode mode' : InputMode}
    (h : toggleInputMode s mode = some (t, mode')) :
    (s = .directState ∧ t = .inputting {} ∧ mode' = .hiragana) ∨
      (∃ state, s = .converting state ∧ t = .converting state ∧ mode' = mode) ∨
      ∃ state, s = .inputting state ∧
        (mode = .direct ∧ t = .inputting state ∧ mode' = .hiragana ∨
          mode = .hiragana ∧ mode' = .direct ∧
            (t = .directState ∨ state.bufferString ≠ [] ∧ t = .inputting state)) := by
  cases s with
  | directState =>
      rcases ite_inv h with ⟨-, h⟩ | ⟨-, h⟩
      · cases h
        exact Or.inl ⟨rfl, rfl, rfl⟩
      · cases h
  | converting state =>
      cases h
      exact Or.inr (Or.inl ⟨state, rfl, rfl, rfl⟩)
  | inputting state =>
      refine Or.inr (Or.inr ⟨state, rfl, ?_⟩)
      cases mode with
      | direct =>
          cases h
          exact Or.inl ⟨rfl, rfl, rfl⟩
      | hiragana =>
          cases h
          refine Or.inr ⟨rfl, rfl, ?_⟩
          by_cases hempty : state.bufferString = []
          · exact Or.inl (if_pos (Inputting.State.bufferEmptyP_iff.mpr hempty))
          · exact Or.inr ⟨hempty, if_neg (mt Inputting.State.bufferEmptyP_iff.mp hempty)⟩

/-- Toggling changes only the mode and the input state. -/
theorem handle_toggleInputMode_inv {stateful : StatefulIme} {s s' : State} {output : Output}
    (h : handle (stateful, .toggleInputMode) s = some (output, s')) :
    output = .ok ∧ ∃ inputState inputMode,
      toggleInputMode s.inputState s.inputMode = some (inputState, inputMode) ∧
        s' = ⟨inputMode, inputState, s.history⟩ := by
  obtain ⟨⟨inputState, inputMode⟩, htoggle, h⟩ := bind_inv h
  cases h
  exact ⟨rfl, inputState, inputMode, htoggle, rfl⟩

/-- A key changes the input state and the history, as its result says. -/
theorem handle_processInput_eq {stateful : StatefulIme} {key : Key} {s s' : State}
    {output : Output} (h : handle (stateful, .processInput key) s = some (output, s')) :
    ∃ r history, execute s.inputState (stateful.withHistory s.history) key s.inputMode = some r ∧
      putCommittedSegments s.history r.committedSegments = some history ∧
      output = .processed (r.canProcess && r.view.isSome) r.view ∧
      s' = ⟨s.inputMode, r.state.getD s.inputState, history⟩ := by
  obtain ⟨r, hr, h⟩ := bind_inv h
  obtain ⟨history, hhistory, h⟩ := bind_inv h
  cases h
  exact ⟨r, history, hr, hhistory, rfl, rfl⟩

/-! ## Runs -/

/-- The mode can be toggled, and a state that was toggled is well formed. -/
theorem toggleInputMode_spec {s : State} (hs : s.WellFormed) :
    ∃ inputState inputMode, toggleInputMode s.inputState s.inputMode =
      some (inputState, inputMode) ∧ (State.mk inputMode inputState s.history).WellFormed := by
  obtain ⟨mode, inputState, history⟩ := s
  cases inputState with
  | directState =>
      refine ⟨_, _, if_pos (hs.inputMode rfl), Nat.le_refl 0, InputState.noConfusion⟩
  | converting s => exact ⟨_, _, rfl, hs.inputState, InputState.noConfusion⟩
  | inputting s =>
      cases mode with
      | direct => exact ⟨_, _, rfl, hs.inputState, InputState.noConfusion⟩
      | hiragana =>
          refine ⟨_, _, rfl, ?_, fun _ => rfl⟩
          dsimp only
          split
          next => trivial
          next => exact hs.inputState

theorem handle_processInput {stateful : StatefulIme} {key : Key} {s : State} {r : Result}
    {history : History}
    (hr : execute s.inputState (stateful.withHistory s.history) key s.inputMode = some r)
    (hhistory : putCommittedSegments s.history r.committedSegments = some history) :
    handle (stateful, .processInput key) s =
      some (.processed (r.canProcess && r.view.isSome) r.view,
        { s with inputState := r.state.getD s.inputState, history }) := by
  simp only [handle, hr, Option.bind_eq_bind, Option.bind_some, hhistory, Option.pure_def]

/-- In a well-formed state a key is answered with 1 if the state processes it. -/
theorem processInput_spec {stateful : StatefulIme} (hkkc : stateful.ime.kkc.Nonempty) {s : State}
    (hs : s.WellFormed) (key : Key) :
    ∃ view s', handle (stateful, .processInput key) s =
      some (.processed (s.inputState.processes key) view, s') := by
  have hkkc' := StatefulIme.withHistory_nonempty hkkc s.history
  obtain ⟨r, hr⟩ : Returns (execute s.inputState (stateful.withHistory s.history) key
    s.inputMode) := execute_returns hs.inputState hs.inputMode hkkc'
  have hanswer := execute_answer hr
  obtain ⟨history, hhistory⟩ := putCommittedSegments_returns r.committedSegments s.history
    (hanswer.committedSegments_wellFormed hs.inputState)
  exact ⟨_, _, hanswer.canProcess_eq ▸ handle_processInput hr hhistory⟩

theorem handle_answers : handle.Answers (fun x => x.1.ime.kkc.Nonempty) State.WellFormed := by
  rintro ⟨stateful, request⟩ s hkkc hs
  cases request with
  | toggleInputMode =>
      obtain ⟨inputState, inputMode, h, -⟩ := toggleInputMode_spec hs
      exact ⟨.ok, _, by simp only [handle, h]; rfl⟩
  | processInput key =>
      obtain ⟨view, s', h⟩ := processInput_spec hkkc hs key
      exact ⟨_, s', h⟩

theorem handle_preserves_wellFormed :
    handle.Preserves (fun x => x.1.ime.kkc.Nonempty) State.WellFormed := by
  rintro ⟨stateful, request⟩ s o s' hkkc hs h
  cases request with
  | toggleInputMode =>
      obtain ⟨inputState, inputMode, htoggle, hwf⟩ := toggleInputMode_spec hs
      simp only [handle, htoggle] at h
      cases h
      exact hwf
  | processInput key =>
      obtain ⟨r, history, hr, hhistory, -, rfl⟩ := handle_processInput_eq h
      have hanswer := execute_answer hr
      cases hstate : r.state with
      | none => exact ⟨hs.inputState, hs.inputMode⟩
      | some inputState =>
          have hkkc' := StatefulIme.withHistory_nonempty hkkc s.history
          obtain ⟨hwf, hmode⟩ := hanswer.wellFormed hs.inputState hkkc' hstate
          exact ⟨hwf, hmode⟩

end Hachee.Senn.Win
