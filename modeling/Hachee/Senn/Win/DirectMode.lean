import Hachee.Senn.Win.Commit

/-!
# Text that is typed before the mode is toggled

The mode can be toggled while text is typed, and then the text stays there in the
direct mode.  A toggle without text leads to `:direct-state` instead, so the
buffer is not empty in the direct mode.  The enter key commits the text and goes
to `:direct-state` as well.

The backspace key does not.  If it deletes the only character, an empty buffer is
left in the direct mode, and `can-process` goes on to claim every key.  No other
key does this (`releases_iff_of_path`).  A text that is converted is not released
either when it is committed, for the reason given with `settles_iff_of_path`.
-/

namespace Hachee.Senn.Win

open Lisp Senn.Im

/-- In the direct mode a buffer is not empty. -/
def State.DirectModeHoldsText (s : State) : Prop :=
  s.inputMode = .direct → ∀ state, s.inputState = .inputting state → state.bufferString ≠ []

/-- The input method is back in `:direct-state` and claims no key. -/
def State.Released (s : State) : Prop :=
  s.inputState = .directState ∧ ∀ key, canProcess s.inputState key s.inputMode = some false

namespace Step

/-- The step is the backspace key in the direct mode after a single character. -/
def DeletesOnlyChar (x : Step) : Prop :=
  ∃ stateful key state, x.request = (stateful, .processInput key) ∧ key.backspaceP = true ∧
    x.state.inputMode = .direct ∧ x.state.inputState = .inputting state ∧
    state.bufferString.length = 1

/-- The step commits or deletes the last of a text in the direct mode. -/
def EndsDirectComposition (x : Step) : Prop :=
  x.state.inputMode = .direct ∧ ¬x.state.inputState.HoldsNoText ∧
    (x.Commits ∨ x.next.inputState.HoldsNoText)

/-- If the step ends a composition in the direct mode, it releases the keys. -/
def Releases (x : Step) : Prop := x.EndsDirectComposition → x.next.Released

end Step

/-! ## The cursor stays at the end -/

/-- The cursor is at the end of the text, since no key moves it. -/
def InputState.CursorAtEnd : InputState → Prop
  | .inputting s => s.buffer.cursorPos = s.bufferString.length
  | .directState => True
  | .converting _ => True

theorem cursorAtEnd_ofSplit {s : Inputting.State} {left : Str} (h : s.buffer = .ofSplit left []) :
    (InputState.inputting s).CursorAtEnd := by
  simp [InputState.CursorAtEnd, Inputting.State.bufferString, h, Buffer.ofSplit]

theorem InputState.CursorAtEnd.valid {s : Inputting.State}
    (h : (InputState.inputting s).CursorAtEnd) : s.buffer.Valid := Nat.le_of_eq h

theorem InputState.CursorAtEnd.right_eq_nil {s : Inputting.State}
    (h : (InputState.inputting s).CursorAtEnd) : s.buffer.right = [] :=
  List.drop_eq_nil_iff.mpr (Nat.le_of_eq h.symm)

/-- All of the text is before the cursor. -/
theorem InputState.CursorAtEnd.left_eq {s : Inputting.State}
    (h : (InputState.inputting s).CursorAtEnd) : s.buffer.left = s.bufferString :=
  List.take_of_length_le (Nat.le_of_eq h.symm)

theorem Answer.cursorAtEnd {ime : Ime} {key : Key} {mode : InputMode} {s : InputState} {r : Result}
    (h : Answer ime key mode s r) (hs : s.CursorAtEnd) : (r.state.getD s).CursorAtEnd := by
  cases h with
  | pass => exact hs
  | @type s s' char _ hins =>
      cases mode with
      | hiragana =>
          obtain ⟨t, ht, hbuffer, -⟩ := Inputting.State.insertChar_spec hs.valid char ime
          cases hins.symm.trans ht
          exact cursorAtEnd_ofSplit (hs.right_eq_nil ▸ hbuffer)
      | direct =>
          obtain ⟨t, ht, hbuffer, -⟩ := Inputting.State.insertCharDirect_spec hs.valid char ime
          cases hins.symm.trans ht
          exact cursorAtEnd_ofSplit (hs.right_eq_nil ▸ hbuffer)
  | delete _ hdel =>
      obtain ⟨t, ht, hbuffer, -⟩ := Inputting.State.deleteChar_spec hs.valid
        (Inputting.State.bufferString_ne_nil_of_deleteChar hdel) ime
      cases hdel.symm.trans ht
      exact cursorAtEnd_ofSplit (hs.right_eq_nil ▸ hbuffer)
  | convert => trivial
  | commitInput => cases mode <;> trivial
  | moveCandidate => trivial
  | moveSegment => trivial
  | commitConversion => cases mode <;> trivial

/-! ## Keys in the direct mode -/

section

variable {ime : Ime} {key : Key} {r : Result}

theorem keyToChar_backspace (mode : InputMode) (hkey : key.backspaceP = true) :
    keyToChar mode key = none := by
  have hcode : key.code = 8 := by simpa [Key.backspaceP, Key.codeP] using hkey
  have htypes : key.typesP = false := by
    simp [Key.typesP, Key.oemMinusP, Key.oem7P, Key.oem5P, Key.oem3P, Key.oem4P, Key.oemPlusP,
      Key.oem1P, Key.oem6P, Key.oemCommaP, Key.oemPeriodP, Key.oem2P, Key.oem102P, Key.codeP,
      Key.numberP, Key.alphabetP, hcode]
  exact Option.isNone_iff_eq_none.mp (by simp [← Option.not_isSome, isSome_keyToChar, htypes])

/-- The backspace key deletes the last character. -/
theorem executeInputting_backspace (ime : Ime) {s : Inputting.State} (mode : InputMode)
    (hs : (InputState.inputting s).CursorAtEnd) (hne : s.bufferString ≠ [])
    (hkey : key.backspaceP = true) :
    ∃ s', executeInputting s ime key mode =
        some (result true (some (editingView s')) (some (.inputting s'))) ∧
      s'.bufferString = s.bufferString.dropLast := by
  obtain ⟨s', hdel, hbuffer, -⟩ := Inputting.State.deleteChar_spec hs.valid hne ime
  refine ⟨s', ?_, ?_⟩
  · simp only [executeInputting, keyToChar_backspace mode hkey, hkey, if_true, hdel,
      Option.bind_eq_bind, Option.bind_some]
    rfl
  · rw [Inputting.State.bufferString, hbuffer, hs.right_eq_nil, hs.left_eq]
    simp

/-- No other key takes the text away. -/
theorem executeInputting_holdsText {s s' : Inputting.State}
    (hs : (InputState.inputting s).CursorAtEnd) (hne : s.bufferString ≠ [])
    (hkey : key.backspaceP = false) (h : executeInputting s ime key .direct = some r)
    (hs' : r.state.getD (.inputting s) = .inputting s') : s'.bufferString ≠ [] := by
  unfold executeInputting at h
  cases hchar : keyToChar .direct key with
  | some char =>
      rw [hchar] at h
      obtain ⟨t, ht, h⟩ := bind_inv h
      cases h
      cases hs'
      obtain ⟨t', ht', hbuffer, -⟩ := Inputting.State.insertCharDirect_spec hs.valid char ime
      cases ht.symm.trans ht'
      simp [Inputting.State.bufferString, hbuffer]
  | none =>
      rw [hchar] at h
      simp only [hkey, Bool.false_eq_true, if_false] at h
      rcases ite_inv h with ⟨-, h⟩ | ⟨-, h⟩
      · rcases ite_inv h with ⟨-, h⟩ | ⟨-, h⟩
        · cases h
          cases hs'
          exact hne
        · obtain ⟨pron, -, h⟩ := bind_inv h
          obtain ⟨view, -, h⟩ := bind_inv h
          cases h
          cases hs'
      rcases ite_inv h with ⟨-, h⟩ | ⟨-, h⟩
      · cases h
        cases hs'
      · cases h
        cases hs'
        exact hne

end

/-! ## Steps -/

/-- A buffer that is toggled into the direct mode is not empty. -/
theorem toggleInputMode_holdsText {s t : InputState} {mode mode' : InputMode}
    (h : toggleInputMode s mode = some (t, mode')) (hs : s.CursorAtEnd) :
    t.CursorAtEnd ∧ (mode' = .direct → ∀ state, t = .inputting state → state.bufferString ≠ []) ∧
      (mode = .direct → ¬s.HoldsNoText → ¬t.HoldsNoText) := by
  rcases toggleInputMode_inv h with
    ⟨rfl, rfl, rfl⟩ | ⟨state, rfl, rfl, -⟩ |
      ⟨state, rfl, ⟨-, rfl, rfl⟩ | ⟨rfl, -, rfl | ⟨hempty, rfl⟩⟩⟩
  · exact ⟨rfl, InputMode.noConfusion, fun _ hno => absurd trivial hno⟩
  · exact ⟨trivial, fun _ _ hstate => InputState.noConfusion hstate, fun _ => id⟩
  · exact ⟨hs, InputMode.noConfusion, fun _ => id⟩
  · exact ⟨trivial, fun _ _ hstate => InputState.noConfusion hstate, InputMode.noConfusion⟩
  · refine ⟨hs, fun _ state' hstate => ?_, InputMode.noConfusion⟩
    cases hstate
    exact hempty

section

variable {x : Step}

theorem Step.cursorAtEnd (h : handle x.request x.state = some (x.output, x.next))
    (hs : x.state.inputState.CursorAtEnd) : x.next.inputState.CursorAtEnd := by
  obtain ⟨s, ⟨stateful, request⟩, output, s'⟩ := x
  replace h : handle (stateful, request) s = some (output, s') := h
  cases request with
  | toggleInputMode =>
      obtain ⟨-, inputState, inputMode, htoggle, rfl⟩ := handle_toggleInputMode_inv h
      exact (toggleInputMode_holdsText htoggle hs).1
  | processInput key =>
      obtain ⟨r, hanswer, -, -, hstate⟩ := handle_processInput_inv h
      simp only [hstate]
      exact hanswer.cursorAtEnd hs

/-- The backspace key after a single character leaves an empty buffer. -/
theorem Step.DeletesOnlyChar.next (h : handle x.request x.state = some (x.output, x.next))
    (hs : x.state.inputState.CursorAtEnd) (hx : x.DeletesOnlyChar) :
    x.next.inputMode = .direct ∧
      ∃ state, x.next.inputState = .inputting state ∧ state.bufferString = [] := by
  obtain ⟨s, request, output, s'⟩ := x
  obtain ⟨stateful, key, state, rfl, hkey, hmode, hstate, hlength⟩ := hx
  simp only at h hs hmode hstate ⊢
  rw [hstate] at hs
  have hne : state.bufferString ≠ [] := by
    intro hnil
    simp [hnil] at hlength
  obtain ⟨r, history, hr, -, -, rfl⟩ := handle_processInput_eq h
  obtain ⟨state', hexecute, hstring⟩ := executeInputting_backspace
    (stateful.withHistory s.history) s.inputMode hs hne hkey
  rw [hstate] at hr
  cases hexecute.symm.trans hr
  refine ⟨hmode, state', rfl, ?_⟩
  rw [hstring]
  exact List.eq_nil_of_length_eq_zero (by simp [hlength])

/-- Any other step keeps text in the direct mode. -/
theorem Step.directModeHoldsText (h : handle x.request x.state = some (x.output, x.next))
    (hs : x.state.inputState.CursorAtEnd) (htext : x.state.DirectModeHoldsText)
    (hx : ¬x.DeletesOnlyChar) : x.next.DirectModeHoldsText := by
  obtain ⟨s, ⟨stateful, request⟩, output, s'⟩ := x
  replace h : handle (stateful, request) s = some (output, s') := h
  cases request with
  | toggleInputMode =>
      obtain ⟨-, inputState, inputMode, htoggle, rfl⟩ := handle_toggleInputMode_inv h
      exact (toggleInputMode_holdsText htoggle hs).2.1
  | processInput key =>
      intro hmode state' hstate'
      obtain ⟨r, history, hr, -, -, rfl⟩ := handle_processInput_eq h
      simp only at hs hr hmode hstate'
      rw [hmode] at hr
      cases hstate : s.inputState with
      | directState =>
          rw [hstate] at hr hstate'
          cases hr
          cases hstate'
      | converting state =>
          rw [hstate] at hr hstate'
          cases executeConverting_answer hr with
          | pass => cases hstate'
          | moveCandidate => cases hstate'
          | moveSegment => cases hstate'
          | commitConversion => cases hstate'
      | inputting state =>
          rw [hstate] at hr hstate' hs
          have hne : state.bufferString ≠ [] := htext hmode state hstate
          cases hkey : key.backspaceP with
          | false => exact executeInputting_holdsText hs hne hkey hr hstate'
          | true =>
              obtain ⟨state'', hexecute, hstring⟩ := executeInputting_backspace
                (stateful.withHistory s.history) .direct hs hne hkey
              cases hexecute.symm.trans hr
              cases hstate'
              intro hnil
              refine hx ⟨stateful, key, state, rfl, hkey, hmode, hstate, ?_⟩
              have hpos : 0 < state.bufferString.length := List.length_pos_iff.mpr hne
              have hlength := congrArg List.length (hstring.symm.trans hnil)
              simp only [List.length_dropLast, List.length_nil] at hlength
              omega

/-- Toggling ends no composition, and a key keeps the mode. -/
theorem Step.EndsDirectComposition.inputMode
    (h : handle x.request x.state = some (x.output, x.next))
    (hs : x.state.inputState.CursorAtEnd) (hx : x.EndsDirectComposition) :
    x.next.inputMode = .direct := by
  obtain ⟨s, ⟨stateful, request⟩, output, s'⟩ := x
  replace h : handle (stateful, request) s = some (output, s') := h
  obtain ⟨hmode, htext, hends⟩ := hx
  cases request with
  | processInput key =>
      obtain ⟨r, -, -, hmode', -⟩ := handle_processInput_inv h
      exact hmode'.trans hmode
  | toggleInputMode =>
      obtain ⟨houtput, inputState, inputMode, htoggle, rfl⟩ := handle_toggleInputMode_inv h
      rcases hends with ⟨one, text, hcommits⟩ | hempty
      · cases houtput.symm.trans hcommits
      · exact absurd hempty ((toggleInputMode_holdsText htoggle hs).2.2 hmode htext)

/-- A step that ends a composition in the direct mode releases the keys, unless it
is one of the two kinds that leave something behind. -/
theorem Step.releases_iff (h : handle x.request x.state = some (x.output, x.next))
    (hs : x.state.inputState.CursorAtEnd) :
    x.Releases ↔ ¬x.DeletesOnlyChar ∧ ¬x.EntersInDirectConversion := by
  constructor
  · intro hreleases
    refine ⟨fun hx => ?_, fun hx => ?_⟩
    · obtain ⟨-, state', hstate', hempty⟩ := hx.next h hs
      obtain ⟨-, -, state, -, -, hmode, hstate, hlength⟩ := hx
      have hno : ¬x.state.inputState.HoldsNoText := by
        rw [hstate]
        intro hnil
        rw [InputState.HoldsNoText] at hnil
        simp [hnil] at hlength
      obtain ⟨hdirect, -⟩ := hreleases ⟨hmode, hno, Or.inr (by rw [hstate']; exact hempty)⟩
      rw [hstate'] at hdirect
      cases hdirect
    · refine absurd hx ((Step.settles_iff h).mp fun hcommits => ?_)
      obtain ⟨-, -, state, -, -, hmode, hstate⟩ := hx
      have hno : ¬x.state.inputState.HoldsNoText := by
        rw [hstate]
        exact id
      obtain ⟨hdirect, hkeys⟩ := hreleases ⟨hmode, hno, Or.inl hcommits⟩
      have hkey := hkeys ⟨0, false⟩
      rw [hdirect] at hkey ⊢
      cases hnext : x.next.inputMode with
      | direct => exact rfl
      | hiragana =>
          rw [hnext] at hkey
          cases hkey
  · rintro ⟨hdelete, henter⟩ hx
    have hmode' : x.next.inputMode = .direct := hx.inputMode h hs
    obtain ⟨-, htext, hends⟩ := hx
    suffices hdirect : x.next.inputState = .directState by
      refine ⟨hdirect, fun key => ?_⟩
      rw [hdirect, hmode']
      rfl
    rcases hends with hcommits | hempty
    · have hsettled := (Step.settles_iff h).mpr henter hcommits
      rw [hmode'] at hsettled
      exact hsettled
    · have hholds : x.state.DirectModeHoldsText := by
        intro _ state hstate hnil
        exact htext (by rw [hstate]; exact hnil)
      cases hnext : x.next.inputState with
      | directState => rfl
      | converting state =>
          rw [hnext] at hempty
          exact absurd hempty id
      | inputting state =>
          rw [hnext] at hempty
          exact absurd hempty
            (Step.directModeHoldsText h hs hholds hdelete hmode' state hnext)

end

/-! ## Runs -/

/-- In a run a buffer of the direct mode is emptied by exactly the backspace key
after a single character.  With the enter key in a converting state in the direct
mode it is all that keeps the input method from being released. -/
theorem releases_iff_of_path {steps : List Step} (hpath : handle.Path makeInitialState steps) :
    ((∀ x ∈ steps, x.next.DirectModeHoldsText) ↔ ∀ x ∈ steps, ¬x.DeletesOnlyChar) ∧
      ((∀ x ∈ steps, x.Releases) ↔
        ∀ x ∈ steps, ¬x.DeletesOnlyChar ∧ ¬x.EntersInDirectConversion) := by
  have hcursor : ∀ x ∈ steps, x.state.inputState.CursorAtEnd := fun x hx =>
    (hpath.invariant (fun s => s.inputState.CursorAtEnd) trivial
      (fun y hy hs => Step.cursorAtEnd (hpath.answer hy) hs) x hx).1
  refine ⟨⟨fun h x hx hdelete => ?_, fun h x hx => ?_⟩, ?_⟩
  · obtain ⟨hmode, state, hstate, hempty⟩ := hdelete.next (hpath.answer hx) (hcursor x hx)
    exact h x hx hmode state hstate hempty
  · have hinitial : makeInitialState.DirectModeHoldsText := by
      intro _ _ hstate
      cases hstate
    exact (hpath.invariant State.DirectModeHoldsText hinitial (fun y hy hs =>
      Step.directModeHoldsText (hpath.answer hy) (hcursor y hy) hs (h y hy)) x hx).2
  · exact forall₂_congr fun x hx => Step.releases_iff (hpath.answer hx) (hcursor x hx)

/-- Type `a`, go back to the direct mode, and commit the text. -/
theorem releases_iff_of_path_commit :
    ∃ steps : List Step, handle.Path makeInitialState steps ∧ steps ≠ [] ∧
      ((∀ x ∈ steps, x.next.DirectModeHoldsText) ↔ ∀ x ∈ steps, ¬x.DeletesOnlyChar) ∧
      ((∀ x ∈ steps, x.Releases) ↔
        ∀ x ∈ steps, ¬x.DeletesOnlyChar ∧ ¬x.EntersInDirectConversion) := by
  have hpath : handle.Path makeInitialState
      [⟨_, (.echo, .toggleInputMode), .ok, ⟨.hiragana, .inputting {}, .empty⟩⟩,
        ⟨_, (.echo, .processInput ⟨65, false⟩),
          .processed true (some (.editing ['あ'] [['あ']])),
          ⟨.hiragana, .inputting ⟨⟨['あ'], 1⟩, [['あ']]⟩, .empty⟩⟩,
        ⟨_, (.echo, .toggleInputMode), .ok,
          ⟨.direct, .inputting ⟨⟨['あ'], 1⟩, [['あ']]⟩, .empty⟩⟩,
        ⟨_, (.echo, .processInput ⟨13, false⟩), .processed true (some (.committed ['あ'])),
          ⟨.direct, .directState, .empty⟩⟩] :=
    .cons rfl (.cons processInput_type (.cons rfl (.cons rfl .nil)))
  exact ⟨_, hpath, List.cons_ne_nil _ _, releases_iff_of_path hpath⟩

/-- Type `a`, go back to the direct mode, and delete the character. -/
def deleteInDirectMode : List Step :=
  let typed : Inputting.State := ⟨⟨['あ'], 1⟩, [['あ']]⟩
  [⟨makeInitialState, (.echo, .toggleInputMode), .ok, ⟨.hiragana, .inputting {}, .empty⟩⟩,
    ⟨⟨.hiragana, .inputting {}, .empty⟩, (.echo, .processInput ⟨65, false⟩),
      .processed true (some (.editing ['あ'] [['あ']])), ⟨.hiragana, .inputting typed, .empty⟩⟩,
    ⟨⟨.hiragana, .inputting typed, .empty⟩, (.echo, .toggleInputMode), .ok,
      ⟨.direct, .inputting typed, .empty⟩⟩,
    ⟨⟨.direct, .inputting typed, .empty⟩, (.echo, .processInput ⟨8, false⟩),
      .processed true (some (.editing [] [])), ⟨.direct, .inputting {}, .empty⟩⟩]

/-- An empty buffer is left in the direct mode, and every key is claimed. -/
theorem not_directModeHoldsText_of_path :
    handle.Path makeInitialState deleteInDirectMode ∧
      ¬(∀ x ∈ deleteInDirectMode, x.next.DirectModeHoldsText) ∧
      ∀ key, canProcess (.inputting {}) key .direct = some true := by
  refine ⟨.cons rfl (.cons processInput_type (.cons rfl (.cons rfl .nil))), fun h => ?_,
    fun _ => rfl⟩
  have hmem : deleteInDirectMode[3] ∈ deleteInDirectMode := List.getElem_mem _
  exact h _ hmem rfl {} rfl rfl

end Hachee.Senn.Win
