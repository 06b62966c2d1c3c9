import Hachee.Senn.Fcitx.WellFormed

/-!
# The fcitx input method commits what it shows

`State.shown` is the text a state shows: the string of the buffer, the katakana,
the selected prediction, or the displayed forms of the segments one after the
other.

Text is committed as it was shown, and it vanishes from the display only when it
is committed or taken back with the backspace key (`commitsShown_of_run`).  The
converter and the predictor must not answer with empty forms.  The converter must
not answer with a segment of an empty pronunciation either.  The F7 key displays
the katakana of the pronunciation, so it would make the form of such a segment
vanish without a commit (`not_commitsShown_of_run`).
-/

/-! ## Answers that are not empty -/

namespace Hachee.Senn.Im

open Lisp

/-- The converter and the predictor answer with forms that are not empty. -/
structure Ime.NonemptyForms (ime : Ime) : Prop where
  convert : ∀ pron, ∀ segment ∈ ime.kkc.convert pron, ∀ c ∈ segment.candidates, c.form ≠ []
  listCandidates : ∀ pron, ∀ c ∈ ime.kkc.listCandidates pron, c.form ≠ []
  predictor : ∀ string, ∀ form ∈ ime.predictor string, form ≠ []

/-- The converter answers with pronunciations that are not empty. -/
def Kkc.NonemptyProns (kkc : Kkc) : Prop :=
  ∀ pron, ∀ segment ∈ kkc.convert pron, segment.pron ≠ []

theorem Ime.NonemptyForms.listPredictions {ime : Ime} (h : ime.NonemptyForms) {string form : Str}
    (hform : form ∈ ime.listPredictions string) : form ≠ [] := by
  unfold Ime.listPredictions at hform
  split at hform
  next => cases hform
  next => exact h.predictor string form (Ime.mem_of_mem_takeMax hform)

namespace Converting

/-- Whatever candidate the segment displays, it displays something. -/
structure Segment.Displays (segment : Segment) : Prop where
  pron_ne_nil : segment.pron ≠ []
  form_ne_nil : ∀ c ∈ segment.candidates, c.form ≠ []

theorem Segment.Displays.cursorPosForm {segment : Segment} (h : segment.Displays) {form : Str}
    (hform : segment.cursorPosForm = some form) : form ≠ [] := by
  unfold Segment.cursorPosForm at hform
  split at hform
  next =>
    cases hform
    exact fun hnil => h.pron_ne_nil (Ja.hiraganaToKatakana_eq_nil.mp hnil)
  next =>
    obtain ⟨c, hc, rfl⟩ := Option.map_eq_some_iff.mp hform
    exact h.form_ne_nil c (List.mem_of_getElem? hc)

theorem Segment.Displays.ensureCandidatesAppended {segment : Segment} (h : segment.Displays)
    {candidates : List Kkc.Candidate} (hcandidates : ∀ c ∈ candidates, c.form ≠ []) :
    (segment.ensureCandidatesAppended candidates).Displays := by
  unfold Segment.ensureCandidatesAppended
  split
  next =>
    refine ⟨h.pron_ne_nil, fun c hc => ?_⟩
    cases List.mem_append.mp hc with
    | inl hold => exact h.form_ne_nil c hold
    | inr hnew => exact hcandidates c (List.mem_filter.mp hnew).1
  next => exact h

theorem Segment.Displays.cursorPosMove {segment segment' : Segment} (h : segment.Displays)
    {diff : Int} (hmove : segment.cursorPosMove diff = some segment') : segment'.Displays := by
  unfold Segment.cursorPosMove at hmove
  split at hmove
  next => cases hmove
  next =>
    cases hmove
    exact ⟨h.pron_ne_nil, h.form_ne_nil⟩

theorem Segment.Displays.cursorPosSet {segment : Segment} (h : segment.Displays) (index : Int) :
    (segment.cursorPosSet index).Displays := by
  unfold Segment.cursorPosSet
  split
  next => exact ⟨h.pron_ne_nil, h.form_ne_nil⟩
  next => exact h

namespace State

/-- Every segment displays something. -/
def Displays (state : State) : Prop := ∀ segment ∈ state.segments, segment.Displays

theorem Displays.currentSegment {state : State} (h : state.Displays) {segment : Segment}
    (hsegment : state.currentSegment = some segment) : segment.Displays :=
  h segment (List.mem_of_getElem? hsegment)

theorem Displays.setCurrentSegment {state : State} (h : state.Displays) {segment : Segment}
    (hsegment : segment.Displays) : (state.setCurrentSegment segment).Displays :=
  forall_setCurrentSegment h hsegment

theorem Displays.currentSegmentMove {state : State} (h : state.Displays) (diff : Int) :
    (state.currentSegmentMove diff).Displays := by
  rwa [State.Displays, segments_currentSegmentMove]

theorem Displays.currentSegmentCandidatesMove {state state' : State} (h : state.Displays)
    {diff : Int} {ime : Ime} (hime : ime.NonemptyForms)
    (hmove : state.currentSegmentCandidatesMove diff ime = some state') : state'.Displays := by
  obtain ⟨segment, hsegment, hmove⟩ := Option.bind_eq_some_iff.mp hmove
  obtain ⟨segment', hsegment', hmove⟩ := Option.bind_eq_some_iff.mp hmove
  cases hmove
  have hmore : ∀ c ∈ ime.listCandidates segment.pron, c.form ≠ [] := fun c hc =>
    hime.listCandidates _ c (Ime.mem_of_mem_takeMax hc)
  have hsegment'' : segment'.Displays :=
    ((h.currentSegment hsegment).ensureCandidatesAppended hmore).cursorPosMove hsegment'
  exact h.setCurrentSegment ⟨hsegment''.pron_ne_nil, hsegment''.form_ne_nil⟩

theorem Displays.currentSegmentCandidatesSet {state state' : State} (h : state.Displays)
    {index : Int} (hset : state.currentSegmentCandidatesSet index = some state') :
    state'.Displays := by
  obtain ⟨segment, hsegment, hset⟩ := Option.bind_eq_some_iff.mp hset
  cases hset
  exact h.setCurrentSegment ((h.currentSegment hsegment).cursorPosSet index)

theorem Displays.currentSegmentKatakana {state state' : State} (h : state.Displays)
    (hkatakana : state.currentSegmentKatakana = some state') : state'.Displays := by
  obtain ⟨segment, hsegment, hkatakana⟩ := Option.bind_eq_some_iff.mp hkatakana
  cases hkatakana
  have hdisplays : segment.Displays := h.currentSegment hsegment
  exact h.setCurrentSegment ⟨hdisplays.pron_ne_nil, hdisplays.form_ne_nil⟩

/-- There is a segment and it displays something, so the state does. -/
theorem Displays.currentInput {state : State} (h : state.Displays) (hwf : state.WellFormed)
    {input : Str} (hinput : state.currentInput = some input) : input ≠ [] := by
  obtain ⟨forms, hforms, rfl⟩ := Option.map_eq_some_iff.mp hinput
  obtain ⟨segment, hsegment⟩ := List.exists_mem_of_ne_nil _ hwf.segments_ne_nil
  obtain ⟨form, hmem, hform⟩ := exists_of_mapM_eq_some hforms hsegment
  intro hnil
  exact (h segment hsegment).cursorPosForm hform (List.flatten_eq_nil_iff.mp hnil form hmem)

end State

theorem convert_displays {ime : Ime} (hforms : ime.NonemptyForms) (hprons : ime.kkc.NonemptyProns)
    (pron : Str) : (convert ime pron).Displays := by
  intro segment hsegment
  obtain ⟨kkcSegment, hmem, rfl⟩ := List.mem_map.mp hsegment
  exact ⟨hprons pron kkcSegment hmem, hforms.convert pron kkcSegment hmem⟩

end Converting

end Hachee.Senn.Im

namespace Hachee.Senn.Fcitx

open Lisp Senn.Im Foundation

/-! ## What a state shows -/

/-- The text a state shows. -/
def State.shown : State → Str
  | .inputting s => s.bufferString
  | .converting s => s.currentInput.getD []
  | .katakana s => s.input
  | .selectingFromPredictions s => s.currentInput.getD []

/-- What the state was given by the converter and the predictor is not empty. -/
def State.Displays : State → Prop
  | .inputting s => ∀ form ∈ s.predictions, form ≠ []
  | .converting s => s.Displays
  | .katakana _ => True
  | .selectingFromPredictions s => ∀ form ∈ s.predictions, form ≠ []

theorem makeInitialState_displays : makeInitialState.Displays := fun _ h => by cases h

theorem shown_converting_ne_nil {s : Converting.State} (hwf : s.WellFormed) (h : s.Displays) :
    (State.converting s).shown ≠ [] := by
  obtain ⟨input, hinput⟩ := hwf.currentInput
  rw [State.shown, hinput]
  exact h.currentInput hwf hinput

theorem shown_selecting_ne_nil {s : SelectingFromPredictions}
    (hwf : s.currentIndex < s.predictions.length) (h : ∀ form ∈ s.predictions, form ≠ []) :
    (State.selectingFromPredictions s).shown ≠ [] := by
  rw [State.shown, SelectingFromPredictions.currentInput, List.getElem?_eq_getElem hwf]
  exact h _ (List.getElem_mem hwf)

/-- A move keeps what the state displays from being empty. -/
theorem Move.displays {ime : Ime} {request : Request} {s s' : State} {text : Str}
    (h : Move ime request s text s') (hwf : s.WellFormed) (hs : s.Displays)
    (hforms : ime.NonemptyForms) (hprons : ime.kkc.NonemptyProns) : s'.Displays := by
  cases h with
  | stay => exact hs
  | reset => exact makeInitialState_displays
  | type hins =>
      obtain ⟨s'', hs'', -, hpredictions⟩ := Inputting.State.insertChar_spec hwf _ ime
      cases hins.symm.trans hs''
      rw [State.Displays, hpredictions]
      exact fun form hform => hforms.listPredictions hform
  | delete _ hdel =>
      obtain ⟨s'', hs'', -, hpredictions⟩ := Inputting.State.deleteChar_spec hwf
        (Inputting.State.bufferString_ne_nil_of_deleteChar hdel) ime
      cases hdel.symm.trans hs''
      rw [State.Displays, hpredictions]
      exact fun form hform => hforms.listPredictions hform
  | moveCursor diff => exact hs
  | selectPrediction hindex => exact hs
  | katakana => trivial
  | convert hview => exact Converting.convert_displays hforms hprons _
  | commitSpace => exact makeInitialState_displays
  | commitInput => exact makeInitialState_displays
  | @movePrediction s diff =>
      rw [State.Displays, SelectingFromPredictions.move_predictions]
      exact hs
  | commitPrediction => exact makeInitialState_displays
  | commitKatakana => exact makeInitialState_displays
  | moveSegment diff => exact Converting.State.Displays.currentSegmentMove hs diff
  | moveCandidate hmove =>
      exact Converting.State.Displays.currentSegmentCandidatesMove hs hforms hmove
  | setCandidate hset => exact Converting.State.Displays.currentSegmentCandidatesSet hs hset
  | segmentKatakana hkatakana =>
      exact Converting.State.Displays.currentSegmentKatakana hs hkatakana
  | inputAgain => exact makeInitialState_displays
  | commitAndType => exact makeInitialState_displays
  | commit => exact makeInitialState_displays

/-! ## Committing what is shown -/

/-- A committed text is the shown one, or the full-width space if nothing is
shown.  When nothing is shown any more, the text was committed or the key was
backspace. -/
structure CommitsShown (s : State) (request : Request) (text : Str) (s' : State) : Prop where
  committed : text ≠ [] → text = s.shown ∨ s.shown = [] ∧ text = ['　']
  vanished : s.shown ≠ [] → s'.shown = [] → text = s.shown ∨ request.IsBackspace

namespace CommitsShown

variable {s s' : State} {request : Request} {text : Str}

/-- What is shown is committed. -/
theorem of_shown (h : text = s.shown) : CommitsShown s request text s' :=
  ⟨fun _ => Or.inl h, fun _ _ => Or.inl h⟩

/-- Nothing is committed and something is shown after as before. -/
theorem of_ne_nil (h : s.shown ≠ [] → s'.shown ≠ []) : CommitsShown s request [] s' :=
  ⟨fun hnil => absurd rfl hnil, fun hs hs' => absurd hs' (h hs)⟩

/-- Nothing is committed and the key was backspace. -/
theorem of_backspace (h : request.IsBackspace) : CommitsShown s request [] s' :=
  ⟨fun hnil => absurd rfl hnil, fun _ _ => Or.inr h⟩

end CommitsShown

/-- Every move between states that display something commits what is shown. -/
theorem Move.commitsShown {ime : Ime} {request : Request} {s s' : State} {text : Str}
    (h : Move ime request s text s') (hreset : request ≠ .resetIm) (hwf : s.WellFormed)
    (hwf' : s'.WellFormed) (hs' : s'.Displays) : CommitsShown s request text s' := by
  cases h with
  | stay => exact .of_ne_nil id
  | reset hrequest => exact absurd hrequest hreset
  | type hins =>
      obtain ⟨s'', hs'', hbuffer, -⟩ := Inputting.State.insertChar_spec hwf _ ime
      cases hins.symm.trans hs''
      refine .of_ne_nil fun _ => ?_
      rw [State.shown, Inputting.State.bufferString, hbuffer, Buffer.string_ofSplit]
      exact List.append_ne_nil_of_left_ne_nil (Buffer.typeChar_ne_nil _ _) _
  | delete hkey => exact .of_backspace hkey
  | @moveCursor s diff =>
      refine .of_ne_nil fun hne => ?_
      rw [State.shown, Inputting.State.bufferString, Inputting.State.bufferCursorPosMove,
        Buffer.string_moveCursorPos]
      exact hne
  | selectPrediction hindex => exact .of_ne_nil fun _ => shown_selecting_ne_nil hwf' hs'
  | katakana => exact .of_ne_nil fun hne hnil => hne (Ja.hiraganaToKatakana_eq_nil.mp hnil)
  | convert hview => exact .of_ne_nil fun _ => shown_converting_ne_nil hwf' hs'
  | commitSpace hnil => exact ⟨fun _ => Or.inr ⟨hnil, rfl⟩, fun hne => absurd hnil hne⟩
  | commitInput => exact .of_shown rfl
  | movePrediction diff => exact .of_ne_nil fun _ => shown_selecting_ne_nil hwf' hs'
  | commitPrediction => exact .of_shown rfl
  | commitKatakana => exact .of_shown rfl
  | moveSegment diff => exact .of_ne_nil fun _ => shown_converting_ne_nil hwf' hs'
  | moveCandidate => exact .of_ne_nil fun _ => shown_converting_ne_nil hwf' hs'
  | setCandidate => exact .of_ne_nil fun _ => shown_converting_ne_nil hwf' hs'
  | segmentKatakana => exact .of_ne_nil fun _ => shown_converting_ne_nil hwf' hs'
  | inputAgain hkey => exact .of_backspace hkey
  | commitAndType hinput => exact .of_shown (by rw [State.shown, hinput]; rfl)
  | commit hinput => exact .of_shown (by rw [State.shown, hinput]; rfl)

/-- What is assumed of a request and of the input method it is addressed to. -/
structure NonemptyAnswers (x : Ime × Request) : Prop where
  forms : x.1.NonemptyForms
  prons : x.1.kkc.NonemptyProns
  not_reset : x.2 ≠ .resetIm

theorem handle_preserves_displays :
    handle.Preserves NonemptyAnswers fun s => s.WellFormed ∧ s.Displays := by
  rintro ⟨ime, request⟩ s o s' hok ⟨hwf, hs⟩ h
  have hmove := handle_move h
  exact ⟨hmove.wellFormed hwf, hmove.displays hwf hs hok.forms hok.prons⟩

/-- Every step of a run commits what is shown, if the converter and the predictor
never answer with an empty form or an empty pronunciation. -/
theorem commitsShown_of_run {requests : List (Ime × Request)} {x : Ime × Request}
    {outputs : List (Option Output)} {output : Option Output} {s s' : State}
    (hrequests : ∀ r ∈ requests, NonemptyAnswers r) (hx : NonemptyAnswers x)
    (hrun : handle.run requests makeInitialState = some (outputs, s))
    (hstep : handle x s = some (output, s')) :
    CommitsShown s x.2 (committedInput output) s' := by
  have hs : s.WellFormed ∧ s.Displays :=
    Handler.run_invariant handle_preserves_displays requests hrequests
      ⟨makeInitialState_wellFormed, makeInitialState_displays⟩ hrun
  have hs' : s'.WellFormed ∧ s'.Displays := handle_preserves_displays x s output s' hx hs hstep
  exact (handle_move hstep).commitsShown hx.not_reset hs.1 hs'.1 hs'.2

/-- An input method that reads everything as a segment with one form. -/
def fixed (pron : Str) : Ime where
  kkc := ⟨fun _ => [⟨pron, [⟨['亜']⟩]⟩], fun _ => []⟩
  predictor := fun _ => []
  maxCandidateCount := none

theorem fixed_nonemptyForms (pron : Str) : (fixed pron).NonemptyForms where
  convert := by simp [fixed]
  listCandidates := by simp [fixed]
  predictor := by simp [fixed]

/-- Type `a` and convert it. -/
def typeAndConvert (pron : Str) : List (Ime × Request) :=
  [(fixed pron, .processInput ⟨97, 0⟩), (fixed pron, .processInput ⟨32, 0⟩)]

set_option maxRecDepth 4096 in
/-- The enter key commits the conversion. -/
theorem commitsShown_of_run_fixed :
    ∃ outputs output s s',
      handle.run (typeAndConvert ['あ']) makeInitialState = some (outputs, s) ∧
      handle (fixed ['あ'], .processInput ⟨65293, 0⟩) s = some (output, s') ∧
      committedInput output = ['亜'] ∧
      CommitsShown s (.processInput ⟨65293, 0⟩) (committedInput output) s' := by
  have hprons : (fixed ['あ']).kkc.NonemptyProns := by simp [fixed, Kkc.NonemptyProns]
  have hok : ∀ key, NonemptyAnswers (fixed ['あ'], .processInput key) := fun key =>
    ⟨fixed_nonemptyForms _, hprons, Request.noConfusion⟩
  have hrun : (handle.run (typeAndConvert ['あ']) makeInitialState).map Prod.snd =
      some (.converting (Converting.convert (fixed ['あ']) ['あ'])) := by decide
  obtain ⟨⟨outputs, s⟩, hrun, rfl⟩ := Option.map_eq_some_iff.mp hrun
  refine ⟨_, _, _, _, hrun, rfl, rfl, commitsShown_of_run ?_ (hok _) hrun rfl⟩
  simpa [typeAndConvert] using ⟨hok _, hok _⟩

set_option maxRecDepth 4096 in
/-- With a segment that has a form but no pronunciation the F7 key makes the form
vanish, and nothing is committed. -/
theorem not_commitsShown_of_run :
    (fixed []).NonemptyForms ∧ ∃ outputs output s s',
      handle.run (typeAndConvert []) makeInitialState = some (outputs, s) ∧
      handle (fixed [], .processInput ⟨65476, 0⟩) s = some (output, s') ∧
      ¬CommitsShown s (.processInput ⟨65476, 0⟩) (committedInput output) s' := by
  have hrun : (handle.run (typeAndConvert []) makeInitialState).map Prod.snd =
      some (.converting (Converting.convert (fixed []) ['あ'])) := by decide
  obtain ⟨⟨outputs, s⟩, hrun, rfl⟩ := Option.map_eq_some_iff.mp hrun
  refine ⟨fixed_nonemptyForms [], _, _, _, _, hrun, rfl, fun h => ?_⟩
  cases h.vanished (by decide) rfl with
  | inl htext => exact absurd htext (by decide)
  | inr hkey => exact Bool.false_ne_true hkey

end Hachee.Senn.Fcitx
