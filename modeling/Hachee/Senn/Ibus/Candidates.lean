import Hachee.Senn.Ibus.StatefulIme

/-!
# How many candidates the ibus input method shows

The candidates of a segment are shown once the converter was asked for more of
them.  The bound of 15 applies to what the converter then lists.  But this is
appended to what the segment has from its conversion, so more than 15 candidates
can be shown.

They are in a run exactly if there is a step that appends so many
(`candidates_le_iff_of_path`).
-/

namespace Hachee.Senn.Ibus

open Lisp Senn.Im

/-! ## Candidates of a segment -/

/-- The candidates that a list adds to those of a segment. -/
def countNew (segment : Converting.Segment) (candidates : List Kkc.Candidate) : Nat :=
  candidates.countP fun cand => !segment.candidates.any fun c => c.form = cand.form

theorem length_ensureCandidatesAppended {segment : Converting.Segment}
    (h : segment.hasMoreCandidatesP = true) (candidates : List Kkc.Candidate) :
    (segment.ensureCandidatesAppended candidates).candidates.length =
      segment.candidates.length + countNew segment candidates := by
  rw [Converting.Segment.ensureCandidatesAppended, if_pos h]
  simp [Converting.Segment.appendCandidates, countNew, List.countP_eq_length_filter]

/-- Once all candidates of a segment are known, there are at most 15. -/
def SegmentBounded (segment : Converting.Segment) : Prop :=
  segment.hasMoreCandidatesP = false → segment.candidates.length ≤ maxCandidateCount

/-- All segments of a conversion are bounded. -/
def Bounded (s : Converting.State) : Prop := ∀ segment ∈ s.segments, SegmentBounded segment

/-- The current segment gets at most 15 candidates when the converter is asked for
more. -/
def AppendsBounded (s : Converting.State) (kkc : Kkc) : Prop :=
  ∀ segment, s.currentSegment = some segment → segment.hasMoreCandidatesP = true →
    segment.candidates.length +
      countNew segment ((kkc.listCandidates segment.pron).take maxCandidateCount) ≤
        maxCandidateCount

theorem listCandidates_makeIme (kkc : Kkc) (pron : Str) :
    (makeIme kkc).listCandidates pron = (kkc.listCandidates pron).take maxCandidateCount := by
  show takeFirst (kkc.listCandidates pron) maxCandidateCount = _
  unfold takeFirst
  split
  next => rfl
  next h => exact (List.take_of_length_le (Nat.le_of_not_lt h)).symm

theorem bounded_convert (ime : Ime) (pron : Str) : Bounded (Converting.convert ime pron) := by
  intro segment hsegment hmore
  obtain ⟨kkcSegment, -, rfl⟩ := List.mem_map.mp hsegment
  cases hmore

section

variable {s s' : Converting.State}

theorem Bounded.currentSegmentMove (h : Bounded s) (diff : Int) :
    Bounded (s.currentSegmentMove diff) := by
  rwa [Bounded, Converting.State.segments_currentSegmentMove]

theorem Bounded.setCurrentSegment (h : Bounded s) {segment : Converting.Segment}
    (hsegment : SegmentBounded segment) : Bounded (s.setCurrentSegment segment) :=
  Converting.State.forall_setCurrentSegment h hsegment

theorem Bounded.currentSegment (h : Bounded s) {segment : Converting.Segment}
    (hsegment : s.currentSegment = some segment) : SegmentBounded segment :=
  h segment (List.mem_of_getElem? hsegment)

theorem Bounded.currentSegmentKatakana (h : Bounded s)
    (hs' : s.currentSegmentKatakana = some s') : Bounded s' := by
  obtain ⟨segment, hsegment, hs'⟩ := bind_inv hs'
  cases hs'
  have hbounded := h.currentSegment hsegment
  exact h.setCurrentSegment hbounded

theorem Bounded.currentSegmentCandidatesSet {index : Int} (h : Bounded s)
    (hs' : s.currentSegmentCandidatesSet index = some s') : Bounded s' := by
  obtain ⟨segment, hsegment, hs'⟩ := bind_inv hs'
  cases hs'
  have hbounded := h.currentSegment hsegment
  refine h.setCurrentSegment ?_
  unfold Converting.Segment.cursorPosSet
  split
  next => exact hbounded
  next => exact hbounded

/-- A move among the candidates leaves a current segment that shows all it has. -/
theorem currentSegment_of_candidatesMove {ime : Ime} {diff : Int}
    (hs' : s.currentSegmentCandidatesMove diff ime = some s') :
    ∃ segment segment', s.currentSegment = some segment ∧ s' = s.setCurrentSegment segment' ∧
      s'.currentSegment = some segment' ∧ segment'.showsKatakanaP = false ∧
      segment'.hasMoreCandidatesP = false ∧
      segment'.candidates =
        (segment.ensureCandidatesAppended (ime.listCandidates segment.pron)).candidates := by
  obtain ⟨segment, hsegment, hs'⟩ := bind_inv hs'
  obtain ⟨moved, hmoved, hs'⟩ := bind_inv hs'
  cases hs'
  rcases ite_inv hmoved with ⟨-, hmoved⟩ | ⟨-, hmoved⟩
  · cases hmoved
  cases hmoved
  have hlt := (List.getElem?_eq_some_iff.mp hsegment).1
  refine ⟨segment, _, hsegment, rfl, List.getElem?_set_self hlt, rfl, ?_, rfl⟩
  unfold Converting.Segment.ensureCandidatesAppended
  split
  next => rfl
  next hmore => simpa using hmore

/-- The segment that is moved in is bounded if it appends few enough. -/
theorem candidatesMove_bounded_iff {kkc : Kkc} {diff : Int} (h : Bounded s)
    (hs' : s.currentSegmentCandidatesMove diff (makeIme kkc) = some s') :
    Bounded s' ↔ AppendsBounded s kkc := by
  obtain ⟨segment, segment', hsegment, rfl, hsegment', -, hmore', hcandidates⟩ :=
    currentSegment_of_candidatesMove hs'
  have hlength : SegmentBounded segment' ↔ (segment.hasMoreCandidatesP = true →
      segment.candidates.length +
        countNew segment ((kkc.listCandidates segment.pron).take maxCandidateCount) ≤
          maxCandidateCount) := by
    rw [SegmentBounded, hcandidates]
    cases hmore : segment.hasMoreCandidatesP with
    | true =>
        rw [length_ensureCandidatesAppended hmore, listCandidates_makeIme]
        simp [hmore']
    | false =>
        have hbounded := h.currentSegment hsegment hmore
        simp [Converting.Segment.ensureCandidatesAppended, hmore, hbounded]
  constructor
  · intro hbounded x hx
    cases hsegment.symm.trans hx
    exact hlength.mp (hbounded.currentSegment hsegment')
  · intro happends
    exact h.setCurrentSegment (hlength.mpr (happends segment hsegment))

/-- A view of a bounded conversion shows at most 15 candidates. -/
theorem Bounded.convertingView (h : Bounded s) {consumedP : Bool} {view : Fcitx.View}
    (hview : Fcitx.convertingView s = some view) :
    (Output.output ⟨consumedP, some view⟩).candidates.length ≤ maxCandidateCount := by
  obtain ⟨forms, -, hview⟩ := bind_inv hview
  obtain ⟨segment, hsegment, hview⟩ := bind_inv hview
  rcases ite_inv hview with ⟨-, hview⟩ | ⟨-, hview⟩
  · cases hview
    exact Nat.zero_le _
  · cases hview
    show (if segment.hasMoreCandidatesP = true then [] else segment.forms).length ≤ _
    split
    next => exact Nat.zero_le _
    next hmore =>
      rw [Converting.Segment.forms, List.length_map]
      exact h.currentSegment hsegment (by simpa using hmore)

/-- The view after a move among the candidates shows all of them. -/
theorem candidatesMove_view {ime : Ime} {diff : Int} {consumedP : Bool} {view : Fcitx.View}
    (h : Bounded s) (hs' : s.currentSegmentCandidatesMove diff ime = some s')
    (hview : Fcitx.convertingView s' = some view)
    (hle : (Output.output ⟨consumedP, some view⟩).candidates.length ≤ maxCandidateCount) :
    Bounded s' := by
  obtain ⟨segment, segment', -, rfl, hsegment', hkatakana, hmore, -⟩ :=
    currentSegment_of_candidatesMove hs'
  obtain ⟨forms, -, hview⟩ := bind_inv hview
  rw [hsegment'] at hview
  simp only [Option.bind_eq_bind, Option.bind_some, hkatakana, hmore, Bool.false_eq_true,
    if_false] at hview
  cases hview
  refine h.setCurrentSegment fun _ => ?_
  rwa [Output.candidates, Converting.Segment.forms, List.length_map] at hle

end

/-! ## Answers of the fcitx input method -/

/-- A state of the fcitx input method whose conversion is bounded. -/
def BoundedState (s : Fcitx.State) : Prop := ∀ state, s = .converting state → Bounded state

/-- The answer shows at most 15 candidates, and the new state is bounded. -/
structure Within (output : Fcitx.Output) (s : Fcitx.State) : Prop where
  candidates_le : (Output.output output).candidates.length ≤ maxCandidateCount
  bounded : BoundedState s

section

variable {output : Fcitx.Output} {state newState : Option Fcitx.State} {s : Fcitx.State}

theorem within_none (hs : BoundedState s) : Within (Fcitx.viewToOutput none) s :=
  ⟨Nat.zero_le _, hs⟩

theorem within_editing {s' : Inputting.State} {committedString : Option Str}
    (h : (do
      let view ← Fcitx.editingView s' committedString
      return Fcitx.resp (some view) newState) = some (output, state))
    (hs : BoundedState (newState.getD s)) : Within output (state.getD s) := by
  obtain ⟨view, hview, rfl, rfl⟩ := Fcitx.resp_inv h
  obtain ⟨before, -, hview⟩ := bind_inv hview
  cases hview
  exact ⟨Nat.zero_le _, hs⟩

theorem within_selecting {s' : Fcitx.SelectingFromPredictions}
    (h : (do
      let view ← s'.editingView
      return Fcitx.resp (some view) newState) = some (output, state))
    (hs : BoundedState (newState.getD s)) : Within output (state.getD s) := by
  obtain ⟨view, hview, rfl, rfl⟩ := Fcitx.resp_inv h
  obtain ⟨input, -, hview⟩ := bind_inv hview
  cases hview
  exact ⟨Nat.zero_le _, hs⟩

theorem within_converting {s' : Converting.State}
    (h : (do
      let view ← Fcitx.convertingView s'
      return Fcitx.resp (some view) (some (.converting s'))) = some (output, state))
    (hs : Bounded s') : Within output (state.getD s) := by
  obtain ⟨view, hview, rfl, rfl⟩ := Fcitx.resp_inv h
  refine ⟨hs.convertingView hview, ?_⟩
  rintro _ ⟨⟩
  exact hs

theorem boundedState_inputting (s : Inputting.State) : BoundedState (.inputting s) :=
  fun _ hstate => Fcitx.State.noConfusion hstate

theorem boundedState_selecting (s : Fcitx.SelectingFromPredictions) :
    BoundedState (.selectingFromPredictions s) := fun _ hstate => Fcitx.State.noConfusion hstate

theorem boundedState_katakana (s : Fcitx.Katakana) : BoundedState (.katakana s) :=
  fun _ hstate => Fcitx.State.noConfusion hstate

end

/-- The keys that move among the candidates. -/
def movesCandidateP (key : Fcitx.Key) : Bool := key.spaceP || key.downP || key.upP

section

variable {key : Fcitx.Key} {output : Fcitx.Output} {state : Option Fcitx.State}

theorem executeConverting_within {s : Converting.State} {kkc : Kkc} (hs : Bounded s)
    (happends : movesCandidateP key = true → AppendsBounded s kkc)
    (h : Fcitx.executeConverting s key (makeIme kkc) = some (output, state)) :
    Within output (state.getD (.converting s)) := by
  have moved : ∀ {diff : Int} {s' : Converting.State}, movesCandidateP key = true →
      s.currentSegmentCandidatesMove diff (makeIme kkc) = some s' → Bounded s' :=
    fun hkey hs' => (candidatesMove_bounded_iff hs hs').mpr (happends hkey)
  rcases ite_inv h with ⟨-, h⟩ | ⟨-, h⟩
  · exact within_converting h (hs.currentSegmentMove (-1))
  rcases ite_inv h with ⟨-, h⟩ | ⟨-, h⟩
  · exact within_converting h (hs.currentSegmentMove 1)
  rcases ite_inv h with ⟨hspace, h⟩ | ⟨-, h⟩
  · obtain ⟨s', hs', h⟩ := bind_inv h
    exact within_converting h (moved (by rw [movesCandidateP, hspace, Bool.true_or]) hs')
  rcases ite_inv h with ⟨hup, h⟩ | ⟨-, h⟩
  · obtain ⟨s', hs', h⟩ := bind_inv h
    exact within_converting h (moved (by rw [movesCandidateP, hup, Bool.or_true]) hs')
  rcases ite_inv h with ⟨-, h⟩ | ⟨-, h⟩
  · obtain ⟨s', hs', h⟩ := bind_inv h
    exact within_converting h (hs.currentSegmentKatakana hs')
  rcases ite_inv h with ⟨-, h⟩ | ⟨-, h⟩
  · exact within_editing h (boundedState_inputting _)
  rcases ite_inv h with ⟨-, h⟩ | ⟨-, h⟩
  · obtain ⟨buffer, -, h⟩ := bind_inv h
    obtain ⟨input, -, h⟩ := bind_inv h
    exact within_editing h (boundedState_inputting _)
  · obtain ⟨input, -, h⟩ := bind_inv h
    exact within_editing h (boundedState_inputting _)

/-- A move among the candidates that shows at most 15 has appended few enough. -/
theorem appendsBounded_of_executeConverting {s : Converting.State} {kkc : Kkc} (hs : Bounded s)
    (hkey : movesCandidateP key = true)
    (h : Fcitx.executeConverting s key (makeIme kkc) = some (output, state))
    (hle : (Output.output output).candidates.length ≤ maxCandidateCount) :
    AppendsBounded s kkc := by
  have moved : ∀ {diff : Int}, (do
      let s' ← s.currentSegmentCandidatesMove diff (makeIme kkc)
      let view ← Fcitx.convertingView s'
      return Fcitx.resp (some view) (some (.converting s'))) = some (output, state) →
        AppendsBounded s kkc := by
    intro diff h
    obtain ⟨s', hs', h⟩ := bind_inv h
    obtain ⟨view, hview, rfl, -⟩ := Fcitx.resp_inv h
    exact (candidatesMove_bounded_iff hs hs').mp (candidatesMove_view hs hs' hview hle)
  have hsym : key.sym = 32 ∨ key.sym = 65364 ∨ key.sym = 65362 := by
    simpa [movesCandidateP, Fcitx.Key.spaceP, Fcitx.Key.downP, Fcitx.Key.upP, Fcitx.Key.symP,
      or_assoc] using hkey
  have hleft : ¬key.leftP = true := by
    simp only [Fcitx.Key.leftP, Fcitx.Key.symP, decide_eq_true_eq]
    omega
  have hright : ¬key.rightP = true := by
    simp only [Fcitx.Key.rightP, Fcitx.Key.symP, decide_eq_true_eq]
    omega
  rw [Fcitx.executeConverting, if_neg hleft, if_neg hright] at h
  rcases ite_inv h with ⟨-, h⟩ | ⟨hspace, h⟩
  · exact moved h
  rcases ite_inv h with ⟨-, h⟩ | ⟨hup, h⟩
  · exact moved h
  · simp only [movesCandidateP, Bool.or_eq_true] at hkey hspace
    exact absurd hkey (not_or.mpr ⟨hspace, hup⟩)

/-- Typed text is shown without candidates, and so is a new conversion. -/
theorem executeInputting_within {s : Inputting.State} {ime : Ime}
    (h : Fcitx.executeInputting s key ime = some (output, state)) :
    Within output (state.getD (.inputting s)) := by
  have hstay := boundedState_inputting s
  rcases ite_inv h with ⟨-, h⟩ | ⟨-, h⟩
  · cases h
    exact within_none hstay
  -- The control key.
  rcases ite_inv h with ⟨-, h⟩ | ⟨-, h⟩
  · rcases ite_inv h with ⟨-, h⟩ | ⟨-, h⟩
    · cases h
      exact within_none hstay
    · exact within_editing h hstay
  -- Tab.
  rcases ite_inv h with ⟨-, h⟩ | ⟨-, h⟩
  · rcases ite_inv h with ⟨-, h⟩ | ⟨-, h⟩
    · cases h
      exact within_none hstay
    · exact within_selecting h (boundedState_selecting _)
  -- A character.
  rcases ite_inv h with ⟨-, h⟩ | ⟨-, h⟩
  · obtain ⟨s', -, h⟩ := bind_inv h
    exact within_editing h (boundedState_inputting _)
  -- F7.
  rcases ite_inv h with ⟨-, h⟩ | ⟨-, h⟩
  · cases h
    exact ⟨Nat.zero_le _, boundedState_katakana _⟩
  -- Space.
  rcases ite_inv h with ⟨-, h⟩ | ⟨-, h⟩
  · rcases ite_inv h with ⟨-, h⟩ | ⟨-, h⟩
    · exact within_editing h (boundedState_inputting _)
    · obtain ⟨pron, -, h⟩ := bind_inv h
      exact within_converting h (bounded_convert ime pron)
  -- Enter.
  rcases ite_inv h with ⟨-, h⟩ | ⟨-, h⟩
  · rcases ite_inv h with ⟨-, h⟩ | ⟨-, h⟩
    · cases h
      exact within_none hstay
    · exact within_editing h (boundedState_inputting _)
  -- Backspace.
  rcases ite_inv h with ⟨-, h⟩ | ⟨-, h⟩
  · obtain ⟨deleted, -, h⟩ := bind_inv h
    cases deleted with
    | none =>
        cases h
        exact within_none hstay
    | some s' => exact within_editing h (boundedState_inputting _)
  -- Left and right.
  rcases ite_inv h with ⟨-, h⟩ | ⟨-, h⟩
  · exact within_editing h (boundedState_inputting _)
  rcases ite_inv h with ⟨-, h⟩ | ⟨-, h⟩
  · exact within_editing h (boundedState_inputting _)
  · cases h
    exact within_none hstay

theorem executeSelecting_within {s : Fcitx.SelectingFromPredictions}
    (h : Fcitx.executeSelectingFromPredictions s key = some (output, state)) :
    Within output (state.getD (.selectingFromPredictions s)) := by
  rcases ite_inv h with ⟨-, h⟩ | ⟨-, h⟩
  · exact within_editing h (boundedState_inputting _)
  rcases ite_inv h with ⟨-, h⟩ | ⟨-, h⟩
  · exact within_selecting h (boundedState_selecting _)
  rcases ite_inv h with ⟨-, h⟩ | ⟨-, h⟩
  · exact within_selecting h (boundedState_selecting _)
  · exact within_selecting h (boundedState_selecting _)

theorem executeKatakana_within {s : Fcitx.Katakana}
    (h : Fcitx.executeKatakana s key = some (output, state)) :
    Within output (state.getD (.katakana s)) := by
  rcases ite_inv h with ⟨-, h⟩ | ⟨-, h⟩
  · exact within_editing h (boundedState_inputting _)
  · cases h
    exact ⟨Nat.zero_le _, boundedState_katakana _⟩

theorem selectCandidate_within {s : Fcitx.State} {index : Int} (hs : BoundedState s)
    (h : Fcitx.selectCandidate s index = some (output, state)) :
    Within output (state.getD s) := by
  cases s with
  | converting s =>
      obtain ⟨s', hs', h⟩ := bind_inv h
      exact within_converting h ((hs s rfl).currentSegmentCandidatesSet hs')
  | inputting s =>
      rcases ite_inv h with ⟨-, h⟩ | ⟨-, h⟩
      · exact within_selecting h (boundedState_selecting _)
      · cases h
        exact within_none (boundedState_inputting s)
  | katakana s =>
      cases h
      exact within_none (boundedState_katakana s)
  | selectingFromPredictions s =>
      cases h
      exact within_none (boundedState_selecting s)

end

/-! ## Runs -/

/-- If the step moves among the candidates of a conversion, the current segment gets
at most 15. -/
def Step.AppendsAtMost (x : Step) : Prop :=
  ∀ kkc key s, x.request = (kkc, .processInput key) → movesCandidateP key = true →
    x.state.inputMode = .hiragana → x.state.fcitxState = some (.converting s) →
      AppendsBounded s kkc

/-- The conversion of the state is bounded, if it has one. -/
def State.Bounded (s : State) : Prop := ∀ state, s.fcitxState = some state → BoundedState state

theorem makeInitialState_bounded : makeInitialState.Bounded := fun _ hstate => by cases hstate

/-- A step shows at most 15 candidates exactly if it appends few enough, and then the
next state is bounded again. -/
theorem Step.candidates_le_iff {x : Step}
    (h : handle x.request x.state = some (x.output, x.next)) (hs : x.state.Bounded) :
    (x.output.candidates.length ≤ maxCandidateCount ↔ x.AppendsAtMost) ∧
      (x.AppendsAtMost → x.next.Bounded) := by
  -- A step that shows few candidates and does not move among those of a conversion.
  have unmoved : x.output.candidates.length ≤ maxCandidateCount → x.next.Bounded →
      x.AppendsAtMost → (x.output.candidates.length ≤ maxCandidateCount ↔ x.AppendsAtMost) ∧
        (x.AppendsAtMost → x.next.Bounded) := fun hle hnext hx =>
    ⟨iff_of_true hle hx, fun _ => hnext⟩
  obtain ⟨⟨mode, fcitxState⟩, ⟨kkc, request⟩, output, s'⟩ := x
  replace h : handle (kkc, request) ⟨mode, fcitxState⟩ = some (output, s') := h
  cases request with
  | toggleInputMode =>
      cases mode with
      | hiragana =>
          cases h
          exact unmoved (Nat.zero_le _) makeInitialState_bounded fun _ _ _ hreq => by cases hreq
      | direct =>
          cases h
          refine unmoved (Nat.zero_le _) ?_ fun _ _ _ hreq => by cases hreq
          rintro _ ⟨⟩
          exact boundedState_inputting _
  | resetIm =>
      cases h
      exact unmoved (Nat.zero_le _) makeInitialState_bounded fun _ _ _ hreq => by cases hreq
  | selectCandidate index =>
      cases mode with
      | direct =>
          cases h
          exact unmoved (Nat.zero_le _) hs fun _ _ _ hreq => by cases hreq
      | hiragana =>
          obtain ⟨state, hstate, h⟩ := bind_inv h
          obtain ⟨⟨out, new⟩, hselect, h⟩ := bind_inv h
          cases h
          have hwithin := selectCandidate_within (hs state hstate) hselect
          refine unmoved hwithin.candidates_le ?_ fun _ _ _ hreq => by cases hreq
          rintro _ ⟨⟩
          exact hwithin.bounded
  | processInput key =>
      cases mode with
      | direct =>
          cases h
          exact unmoved (Nat.zero_le _) hs fun _ _ _ _ _ hmode => by cases hmode
      | hiragana =>
          obtain ⟨state, hstate, h⟩ := bind_inv h
          obtain ⟨⟨out, new⟩, hexecute, h⟩ := bind_inv h
          cases h
          cases hstate
          have next_bounded : Within out (new.getD state) →
              State.Bounded ⟨.hiragana, some (new.getD state)⟩ := by
            rintro hwithin _ ⟨⟩
            exact hwithin.bounded
          cases state with
          | inputting s =>
              have hwithin := executeInputting_within hexecute
              exact unmoved hwithin.candidates_le (next_bounded hwithin)
                fun _ _ _ _ _ _ hconverting => by cases hconverting
          | katakana s =>
              have hwithin := executeKatakana_within hexecute
              exact unmoved hwithin.candidates_le (next_bounded hwithin)
                fun _ _ _ _ _ _ hconverting => by cases hconverting
          | selectingFromPredictions s =>
              have hwithin := executeSelecting_within hexecute
              exact unmoved hwithin.candidates_le (next_bounded hwithin)
                fun _ _ _ _ _ _ hconverting => by cases hconverting
          | converting s =>
              have hbounded : Ibus.Bounded s := hs _ rfl s rfl
              have hwithin : Step.AppendsAtMost ⟨⟨.hiragana, some (.converting s)⟩,
                  (kkc, .processInput key), .output out,
                  ⟨.hiragana, some (new.getD (.converting s))⟩⟩ →
                  Within out (new.getD (.converting s)) := fun happends =>
                executeConverting_within hbounded
                  (fun hkey => happends kkc key s rfl hkey rfl rfl) hexecute
              refine ⟨⟨fun hle => ?_, fun happends => (hwithin happends).candidates_le⟩,
                fun happends => next_bounded (hwithin happends)⟩
              rintro _ _ _ ⟨⟩ hkey - ⟨⟩
              exact appendsBounded_of_executeConverting hbounded hkey hexecute hle

/-- In a run at most 15 candidates are shown each time, if and only if no step
appends more than that to the candidates of a conversion. -/
theorem candidates_le_iff_of_path {steps : List Step}
    (hpath : handle.Path makeInitialState steps) :
    (∀ x ∈ steps, x.output.candidates.length ≤ maxCandidateCount) ↔
      ∀ x ∈ steps, x.AppendsAtMost := by
  have hiff : ∀ x ∈ steps, x.state.Bounded →
      (x.output.candidates.length ≤ maxCandidateCount ↔ x.AppendsAtMost) ∧
        (x.AppendsAtMost → x.next.Bounded) := fun x hx hs =>
    Step.candidates_le_iff (hpath.answer hx) hs
  constructor
  · intro hle x hx
    have hs := hpath.invariant State.Bounded makeInitialState_bounded
      (fun y hy hs => (hiff y hy hs).2 ((hiff y hy hs).1.mp (hle y hy))) x hx
    exact (hiff x hx hs.1).1.mp (hle x hx)
  · intro happends x hx
    have hs := hpath.invariant State.Bounded makeInitialState_bounded
      (fun y hy hs => (hiff y hy hs).2 (happends y hy)) x hx
    exact (hiff x hx hs.1).1.mpr (happends x hx)

/-- A converter that converts to one candidate and lists the given ones. -/
def listing (forms : List Str) : Kkc :=
  ⟨fun pron => [⟨pron, [⟨pron⟩]⟩], fun _ => forms.map Kkc.Candidate.mk⟩

/-- Type `a`, convert it, and ask for more candidates. -/
def askForMore (forms : List Str) : List Step :=
  let typed : Fcitx.State := .inputting ⟨⟨['あ'], 1⟩, []⟩
  let converted : Converting.State := Converting.convert (makeIme (listing forms)) ['あ']
  let asked : Converting.Segment := ⟨['あ'], ⟨['あ']⟩ :: forms.map Kkc.Candidate.mk, 1, false, false⟩
  [⟨makeInitialState, (listing forms, .toggleInputMode), .mode "HIRAGANA".toList,
      ⟨.hiragana, some Fcitx.makeInitialState⟩⟩,
    ⟨⟨.hiragana, some Fcitx.makeInitialState⟩, (listing forms, .processInput ⟨97, 0⟩),
      .output ⟨true, some (.editing 3 ['あ'] [] (-1) [])⟩, ⟨.hiragana, some typed⟩⟩,
    ⟨⟨.hiragana, some typed⟩, (listing forms, .processInput ⟨32, 0⟩),
      .output ⟨true, some (.converting [['あ']] 0 [] 0)⟩,
      ⟨.hiragana, some (.converting converted)⟩⟩,
    ⟨⟨.hiragana, some (.converting converted)⟩, (listing forms, .processInput ⟨32, 0⟩),
      .output ⟨true, some (.converting [forms.headD []] 0 (['あ'] :: forms) 1)⟩,
      ⟨.hiragana, some (.converting ⟨[asked], ['あ'], 0⟩)⟩⟩]

set_option maxRecDepth 4096 in
/-- The converter lists two other candidates. -/
theorem candidates_le_iff_of_path_two :
    handle.Path makeInitialState (askForMore [['亜'], ['吾']]) ∧
      ((∀ x ∈ askForMore [['亜'], ['吾']],
          x.output.candidates.length ≤ maxCandidateCount) ↔
        ∀ x ∈ askForMore [['亜'], ['吾']], x.AppendsAtMost) := by
  have hpath : handle.Path makeInitialState (askForMore [['亜'], ['吾']]) :=
    .cons (by decide) (.cons (by decide) (.cons (by decide)
      (.cons (by decide) .nil)))
  exact ⟨hpath, candidates_le_iff_of_path hpath⟩

set_option maxRecDepth 4096 in
/-- The converter lists 15 other candidates, and 16 are shown. -/
theorem not_candidates_le_of_path :
    ∃ steps : List Step, handle.Path makeInitialState steps ∧
      ¬(∀ x ∈ steps, x.output.candidates.length ≤ maxCandidateCount) := by
  let forms : List Str := (List.range 15).map fun i => [Char.ofNat (0x4e00 + i)]
  have hpath : handle.Path makeInitialState (askForMore forms) :=
    .cons (by decide) (.cons (by decide) (.cons (by decide)
      (.cons (by decide) .nil)))
  refine ⟨askForMore forms, hpath, fun h => ?_⟩
  have hmem : (askForMore forms)[3] ∈ askForMore forms := List.getElem_mem _
  exact absurd (h _ hmem) (by decide)

end Hachee.Senn.Ibus
