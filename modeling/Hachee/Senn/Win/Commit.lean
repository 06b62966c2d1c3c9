import Hachee.Senn.Win.CanProcess

/-!
# The Windows input method commits a composition once

After a commit the input state should hold no text: an empty buffer in the
hiragana mode, and `:direct-state` in the direct mode.  The only commit that
leaves its text behind is the enter key in a converting state in the direct mode.
There `process-input` answers without a new input state, so the caller keeps the
conversion (`settles_iff_of_path`).

In a run without such a key no composition is committed twice.  Between two
commits of text something is typed or converted.
-/

namespace Hachee.Senn.Win

open Lisp Senn.Im Foundation

/-- The input state after a commit in the given mode. -/
def InputState.Settled (s : InputState) (mode : InputMode) : Prop :=
  mode.case (∃ state : Inputting.State, s = .inputting state ∧ state.bufferString = [])
    (s = .directState)

/-- The input state holds no text that could be committed. -/
def InputState.HoldsNoText : InputState → Prop
  | .directState => True
  | .inputting s => s.bufferString = []
  | .converting _ => False

theorem InputState.Settled.holdsNoText {s : InputState} {mode : InputMode}
    (h : s.Settled mode) : s.HoldsNoText := by
  cases mode with
  | hiragana =>
      obtain ⟨state, rfl, hempty⟩ := h
      exact hempty
  | direct =>
      cases h
      trivial

/-! ## Steps -/

/-- A step of the application. -/
abbrev Step := Handler.Step (StatefulIme × Request) State Output

namespace Step

/-- The step commits a text. -/
def Commits (x : Step) : Prop := ∃ one text, x.output = .processed one (some (.committed text))

/-- The step types or converts. -/
def Edits (x : Step) : Prop :=
  (∃ one input predictions, x.output = .processed one (some (.editing input predictions))) ∨
    ∃ one forms index candidates candidate,
      x.output = .processed one (some (.converting forms index candidates candidate))

/-- If the step commits a text, it leaves none behind. -/
def Settles (x : Step) : Prop := x.Commits → x.next.inputState.Settled x.next.inputMode

/-- The step is the enter key in a converting state in the direct mode. -/
def EntersInDirectConversion (x : Step) : Prop :=
  ∃ stateful key s, x.request = (stateful, .processInput key) ∧ key.enterP = true ∧
    x.state.inputMode = .direct ∧ x.state.inputState = .converting s

end Step

/-- Between two commits of a run something is typed or converted, unless the second
one finds no text and commits a line break. -/
def CommitsOnce (steps : List Step) : Prop :=
  ∀ {before between after : List Step} {first second : Step},
    steps = before ++ first :: (between ++ second :: after) → first.Commits → second.Commits →
      second.state.inputState.HoldsNoText ∨ ∃ x ∈ between, x.Edits

/-! ## What a step leaves behind -/

/-- A key that is answered with a view, or with none. -/
theorem handle_processInput_inv {stateful : StatefulIme} {key : Key} {s s' : State}
    {output : Output} (h : handle (stateful, .processInput key) s = some (output, s')) :
    ∃ r, Answer (stateful.withHistory s.history) key s.inputMode s.inputState r ∧
      output = .processed (r.canProcess && r.view.isSome) r.view ∧
      s'.inputMode = s.inputMode ∧ s'.inputState = r.state.getD s.inputState := by
  obtain ⟨r, history, hr, -, houtput, rfl⟩ := handle_processInput_eq h
  exact ⟨r, execute_answer hr, houtput, rfl, rfl⟩

theorem convertingView_ne_committed {s : Converting.State} {view : View}
    (h : convertingView s = some view) (text : Str) : view ≠ .committed text := by
  obtain ⟨forms, -, h⟩ := bind_inv h
  obtain ⟨segment, -, h⟩ := bind_inv h
  cases h
  exact View.noConfusion

section

variable {ime : Ime} {key : Key} {mode : InputMode} {r : Result}

/-- The enter key commits a conversion.  Its text is left behind in the direct mode. -/
theorem Answer.enter {s : Converting.State} (h : Answer ime key mode (.converting s) r)
    (henter : key.enterP = true) :
    (∃ text, r.view = some (.committed text)) ∧
      (mode = .direct → r.state.getD (.converting s) = .converting s) := by
  cases h with
  | pass hkey => simp [InputState.processes, henter] at hkey
  | moveCandidate _ hne => exact absurd henter hne
  | moveSegment _ hne => exact absurd henter hne
  | @commitConversion _ input =>
      refine ⟨⟨input, rfl⟩, fun hmode => ?_⟩
      rw [hmode]
      rfl

/-- Any other commit leaves none behind. -/
theorem Answer.settled {s : InputState} (h : Answer ime key mode s r) {text : Str}
    (htext : r.view = some (.committed text))
    (hne : ¬(key.enterP = true ∧ mode = .direct ∧ ∃ state, s = .converting state)) :
    (r.state.getD s).Settled mode := by
  cases h with
  | pass => cases htext
  | type => cases htext
  | delete => cases htext
  | convert _ hview => exact absurd (Option.some.inj htext) (convertingView_ne_committed hview text)
  | moveCandidate _ _ _ hview =>
      exact absurd (Option.some.inj htext) (convertingView_ne_committed hview text)
  | moveSegment _ _ hview =>
      exact absurd (Option.some.inj htext) (convertingView_ne_committed hview text)
  | commitInput =>
      cases mode with
      | hiragana => exact ⟨{}, rfl, rfl⟩
      | direct => exact rfl
  | commitConversion _ henter =>
      cases mode with
      | hiragana => exact ⟨{}, rfl, rfl⟩
      | direct => exact absurd ⟨henter, rfl, _, rfl⟩ hne

/-- A key that neither types nor converts keeps an input state without text. -/
theorem Answer.holdsNoText {s : InputState} (h : Answer ime key mode s r)
    (hs : s.HoldsNoText) :
    (r.state.getD s).HoldsNoText ∨
      (∃ input predictions, r.view = some (.editing input predictions)) ∨
      ∃ forms index candidates candidate,
        r.view = some (.converting forms index candidates candidate) := by
  cases h with
  | pass => exact Or.inl hs
  | type => exact Or.inr (Or.inl ⟨_, _, rfl⟩)
  | delete => exact Or.inr (Or.inl ⟨_, _, rfl⟩)
  | convert _ hview =>
      obtain ⟨forms, -, hview⟩ := bind_inv hview
      obtain ⟨segment, -, hview⟩ := bind_inv hview
      cases hview
      exact Or.inr (Or.inr ⟨_, _, _, _, rfl⟩)
  | commitInput => cases mode <;> exact Or.inl (by trivial)
  | moveCandidate => exact absurd hs id
  | moveSegment => exact absurd hs id
  | commitConversion => exact absurd hs id

end

/-- The steps that settle are all but one kind. -/
theorem Step.settles_iff {x : Step} (h : handle x.request x.state = some (x.output, x.next)) :
    x.Settles ↔ ¬x.EntersInDirectConversion := by
  obtain ⟨s, ⟨stateful, request⟩, output, s'⟩ := x
  replace h : handle (stateful, request) s = some (output, s') := h
  constructor
  · rintro hsettles ⟨_, key, state, ⟨⟩, henter, hmode, hstate⟩
    obtain ⟨r, hanswer, houtput, hmode', hstate'⟩ := handle_processInput_inv h
    simp only at hmode hstate houtput hmode' hstate'
    rw [hstate] at hanswer hstate'
    obtain ⟨⟨text, htext⟩, hleft⟩ := hanswer.enter henter
    have hsettled := hsettles ⟨_, text, houtput.trans (congrArg _ htext)⟩
    simp only [hmode', hstate', hmode, hleft hmode] at hsettled
    cases hsettled
  · rintro hne ⟨one, text, htext⟩
    cases request with
    | toggleInputMode =>
        obtain ⟨rfl, -⟩ := handle_toggleInputMode_inv h
        cases htext
    | processInput key =>
        obtain ⟨r, hanswer, houtput, hmode', hstate'⟩ := handle_processInput_inv h
        simp only at htext houtput hmode' hstate'
        rw [houtput] at htext
        simp only [hmode', hstate']
        refine hanswer.settled (Output.processed.inj htext).2 ?_
        rintro ⟨henter, hmode, state, hstate⟩
        exact hne ⟨stateful, key, state, rfl, henter, hmode, hstate⟩

/-- A step that neither types nor converts keeps an input state without text. -/
theorem Step.holdsNoText {x : Step} (h : handle x.request x.state = some (x.output, x.next))
    (hs : x.state.inputState.HoldsNoText) (hx : ¬x.Edits) : x.next.inputState.HoldsNoText := by
  obtain ⟨s, ⟨stateful, request⟩, output, s'⟩ := x
  replace h : handle (stateful, request) s = some (output, s') := h
  cases request with
  | toggleInputMode =>
      obtain ⟨-, inputState, inputMode, htoggle, rfl⟩ := handle_toggleInputMode_inv h
      simp only at hs ⊢
      rcases toggleInputMode_inv htoggle with
        ⟨-, rfl, -⟩ | ⟨state, heq, -⟩ | ⟨state, heq, ⟨-, rfl, -⟩ | ⟨-, -, rfl | ⟨-, rfl⟩⟩⟩
      · rfl
      · rw [heq] at hs
        exact absurd hs id
      · exact heq ▸ hs
      · trivial
      · exact heq ▸ hs
  | processInput key =>
      obtain ⟨r, hanswer, houtput, -, hstate'⟩ := handle_processInput_inv h
      simp only at hs houtput hstate'
      simp only [hstate']
      rcases hanswer.holdsNoText hs with hno | ⟨input, predictions, hview⟩ | ⟨a, b, c, d, hview⟩
      · exact hno
      · exact absurd (Or.inl ⟨_, input, predictions, houtput.trans (congrArg _ hview)⟩) hx
      · exact absurd (Or.inr ⟨_, a, b, c, d, houtput.trans (congrArg _ hview)⟩) hx

/-- In a run exactly the enter key in a converting state in the direct mode commits
a text and leaves it behind.  Without it no composition is committed twice. -/
theorem settles_iff_of_path {steps : List Step} (hpath : handle.Path makeInitialState steps) :
    (∀ x ∈ steps, x.Settles ↔ ¬x.EntersInDirectConversion) ∧
      ((∀ x ∈ steps, ¬x.EntersInDirectConversion) → CommitsOnce steps) := by
  have hsettles : ∀ x ∈ steps, x.Settles ↔ ¬x.EntersInDirectConversion := fun x hx =>
    Step.settles_iff (hpath.answer hx)
  refine ⟨hsettles, ?_⟩
  intro hne before between after first second hsteps hfirst _
  subst hsteps
  by_cases hedits : ∃ x ∈ between, x.Edits
  · exact Or.inr hedits
  refine Or.inl ?_
  have hmem : first ∈ before ++ first :: (between ++ second :: after) := by simp
  have hsettled := (hsettles first hmem).mpr (hne first hmem) hfirst
  have hno : first.next.inputState.HoldsNoText := hsettled.holdsNoText
  refine hpath.suffix.invariant_between (fun s => s.inputState.HoldsNoText) hno fun x hx hs => ?_
  have hx' : x ∈ before ++ first :: (between ++ second :: after) := by simp [hx]
  exact Step.holdsNoText (hpath.answer hx') hs fun h => hedits ⟨x, hx, h⟩

/-- Type `a` and commit it, type `a` again, go back to the direct mode, and commit it. -/
def commitTwice : List Step :=
  let typed : Inputting.State := ⟨⟨['あ'], 1⟩, [['あ']]⟩
  [⟨makeInitialState, (.echo, .toggleInputMode), .ok, ⟨.hiragana, .inputting {}, .empty⟩⟩,
    ⟨⟨.hiragana, .inputting {}, .empty⟩, (.echo, .processInput ⟨65, false⟩),
      .processed true (some (.editing ['あ'] [['あ']])), ⟨.hiragana, .inputting typed, .empty⟩⟩,
    ⟨⟨.hiragana, .inputting typed, .empty⟩, (.echo, .processInput ⟨13, false⟩),
      .processed true (some (.committed ['あ'])), ⟨.hiragana, .inputting {}, .empty⟩⟩,
    ⟨⟨.hiragana, .inputting {}, .empty⟩, (.echo, .processInput ⟨65, false⟩),
      .processed true (some (.editing ['あ'] [['あ']])), ⟨.hiragana, .inputting typed, .empty⟩⟩,
    ⟨⟨.hiragana, .inputting typed, .empty⟩, (.echo, .toggleInputMode), .ok,
      ⟨.direct, .inputting typed, .empty⟩⟩,
    ⟨⟨.direct, .inputting typed, .empty⟩, (.echo, .processInput ⟨13, false⟩),
      .processed true (some (.committed ['あ'])), ⟨.direct, .directState, .empty⟩⟩]

/-- Both commits leave no text behind. -/
theorem settles_iff_of_path_commitTwice :
    handle.Path makeInitialState commitTwice ∧
      (∀ x ∈ commitTwice, x.Settles ↔ ¬x.EntersInDirectConversion) ∧
      ((∀ x ∈ commitTwice, ¬x.EntersInDirectConversion) → CommitsOnce commitTwice) := by
  have hpath : handle.Path makeInitialState commitTwice :=
    .cons rfl (.cons processInput_type (.cons rfl (.cons processInput_type
      (.cons rfl (.cons rfl .nil)))))
  exact ⟨hpath, settles_iff_of_path hpath⟩

/-- Type `a`, go back to the direct mode, convert, and press the enter key twice. -/
def enterTwice : List Step :=
  let typed : Inputting.State := ⟨⟨['あ'], 1⟩, [['あ']]⟩
  let converted : State := ⟨.direct, .converting (Converting.convert .echo ['あ']), .empty⟩
  let committed : State := { converted with history := converted.history.put ['あ'] ['あ'] }
  let committed' : State := { committed with history := committed.history.put ['あ'] ['あ'] }
  [⟨makeInitialState, (.echo, .toggleInputMode), .ok, ⟨.hiragana, .inputting {}, .empty⟩⟩,
    ⟨⟨.hiragana, .inputting {}, .empty⟩, (.echo, .processInput ⟨65, false⟩),
      .processed true (some (.editing ['あ'] [['あ']])), ⟨.hiragana, .inputting typed, .empty⟩⟩,
    ⟨⟨.hiragana, .inputting typed, .empty⟩, (.echo, .toggleInputMode), .ok,
      ⟨.direct, .inputting typed, .empty⟩⟩,
    ⟨⟨.direct, .inputting typed, .empty⟩, (.echo, .processInput ⟨32, false⟩),
      .processed true (some (.converting [['あ']] 0 [] 0)), converted⟩,
    ⟨converted, (.echo, .processInput ⟨13, false⟩),
      .processed true (some (.committed ['あ'])), committed⟩,
    ⟨committed, (.echo, .processInput ⟨13, false⟩),
      .processed true (some (.committed ['あ'])), committed'⟩]

/-- The composition is committed twice. -/
theorem not_settles_of_path :
    (∀ x ∈ enterTwice, x.request.1.ime.kkc.Nonempty) ∧
      handle.Path makeInitialState enterTwice ∧ ¬(∀ x ∈ enterTwice, x.Settles) ∧
      ¬CommitsOnce enterTwice := by
  refine ⟨?_, ?_, fun h => ?_, fun h => ?_⟩
  · simp [enterTwice, StatefulIme.echo_nonempty]
  · exact .cons rfl (.cons processInput_type
      (.cons rfl (.cons rfl (.cons rfl (.cons rfl .nil)))))
  · have hmem : enterTwice[4] ∈ enterTwice := List.getElem_mem _
    have hsettled := h _ hmem ⟨true, ['あ'], rfl⟩
    cases hsettled
  · have honce := @h (enterTwice.take 4) [] [] enterTwice[4] enterTwice[5] rfl ⟨true, ['あ'], rfl⟩
      ⟨true, ['あ'], rfl⟩
    rcases honce with hno | ⟨x, hx, -⟩
    · exact hno
    · cases hx

end Hachee.Senn.Win
