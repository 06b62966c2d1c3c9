import Hachee.Senn.Ja
import Hachee.Senn.Im.Ime

/-!
# Choosing among conversions (`senn.im.converting`)

A converting state is a list of segments and the index of the current one.  A
segment has candidates, the index of the displayed candidate, a flag that asks
the converter for more candidates once, and a flag that displays the katakana of
its pronunciation instead.

The source changes the current segment in place.  No two segments of a state
share a structure, since `convert` makes each of them, so the model writes the
changed segment back at the current index.

`State.WellFormed` says that every index is in range.  Each function is defined
on well-formed states and keeps them well formed.
-/

namespace Hachee.Senn.Im.Converting

open Lisp

/-! ## Segments -/

/-- `(defstruct segment pron candidates current-index has-more-candidates-p
shows-katakana-p)`. -/
structure Segment where
  pron : Str
  candidates : List Kkc.Candidate
  currentIndex : Nat
  hasMoreCandidatesP : Bool
  showsKatakanaP : Bool := false
deriving DecidableEq, Repr

namespace Segment

/-- `segment-forms`. -/
def forms (segment : Segment) : List Str := segment.candidates.map Kkc.Candidate.form

/-- `segment-cursor-pos-form`, the form a segment displays. -/
def cursorPosForm (segment : Segment) : Option Str :=
  if segment.showsKatakanaP then some (Ja.hiraganaToKatakana segment.pron)
  else segment.candidates[segment.currentIndex]?.map Kkc.Candidate.form

/-- `segment-cursor-pos-move!`.  The modulus is zero when there is no candidate. -/
def cursorPosMove (segment : Segment) (diff : Int) : Option Segment :=
  if segment.candidates.length = 0 then none
  else
    some { segment with
      currentIndex := ((segment.currentIndex + diff) % segment.candidates.length).toNat }

/-- `segment-cursor-pos-set!`. -/
def cursorPosSet (segment : Segment) (index : Int) : Segment :=
  if -1 < index ∧ index < segment.candidates.length then
    { segment with currentIndex := index.toNat }
  else segment

/-- `append-candidates`. -/
def appendCandidates (currentCandidates newCandidates : List Kkc.Candidate) :
    List Kkc.Candidate :=
  currentCandidates ++
    newCandidates.filter fun cand => !currentCandidates.any fun c => c.form = cand.form

/-- `segment-ensure-candidates-appended!`. -/
def ensureCandidatesAppended (segment : Segment) (candidates : List Kkc.Candidate) : Segment :=
  if segment.hasMoreCandidatesP then
    { segment with
      candidates := appendCandidates segment.candidates candidates
      hasMoreCandidatesP := false }
  else segment

/-- The displayed candidate exists. -/
def WellFormed (segment : Segment) : Prop := segment.currentIndex < segment.candidates.length

theorem WellFormed.cursorPosForm {segment : Segment} (h : segment.WellFormed) :
    ∃ form, segment.cursorPosForm = some form := by
  unfold Segment.cursorPosForm
  split
  next => exact ⟨_, rfl⟩
  next => exact ⟨_, by rw [List.getElem?_eq_getElem h]; rfl⟩

theorem WellFormed.ensureCandidatesAppended {segment : Segment} (h : segment.WellFormed)
    (candidates : List Kkc.Candidate) :
    (segment.ensureCandidatesAppended candidates).WellFormed := by
  unfold Segment.ensureCandidatesAppended
  split
  next =>
    simp only [Segment.WellFormed, appendCandidates, List.length_append] at h ⊢
    omega
  next => exact h

theorem WellFormed.cursorPosSet {segment : Segment} (h : segment.WellFormed) (index : Int) :
    (segment.cursorPosSet index).WellFormed := by
  unfold Segment.cursorPosSet
  split
  next hindex =>
    simp only [Segment.WellFormed]
    omega
  next => exact h

/-- Moving wraps around, in both directions. -/
theorem WellFormed.cursorPosMove {segment : Segment} (h : segment.WellFormed) (diff : Int) :
    ∃ segment', segment.cursorPosMove diff = some segment' ∧ segment'.WellFormed := by
  have hpos : 0 < segment.candidates.length := Nat.zero_lt_of_lt h
  refine ⟨_, if_neg (by omega), ?_⟩
  have hlen : (0 : Int) < segment.candidates.length := by omega
  have hlt := Int.emod_lt_of_pos (segment.currentIndex + diff) hlen
  have hnonneg := Int.emod_nonneg (segment.currentIndex + diff)
    (by omega : (segment.candidates.length : Int) ≠ 0)
  simp only [Segment.WellFormed]
  omega

end Segment

/-! ## States -/

/-- `(defstruct state segments pronunciation (current-segment-index 0))`. -/
structure State where
  segments : List Segment
  pronunciation : Str
  currentSegmentIndex : Nat := 0
deriving DecidableEq, Repr

namespace State

/-- `current-segment`. -/
def currentSegment (state : State) : Option Segment := state.segments[state.currentSegmentIndex]?

/-- The state after the current segment was changed in place. -/
def setCurrentSegment (state : State) (segment : Segment) : State :=
  { state with segments := state.segments.set state.currentSegmentIndex segment }

/-- `current-segment-move!`. -/
def currentSegmentMove (state : State) (diff : Int) : State :=
  let newIndex := state.currentSegmentIndex + diff
  if 0 ≤ newIndex ∧ newIndex ≤ (state.segments.length : Int) - 1 then
    { state with currentSegmentIndex := newIndex.toNat }
  else state

/-- `current-segment-candidates-move!`. -/
def currentSegmentCandidatesMove (state : State) (diff : Int) (ime : Ime) : Option State := do
  let segment ← state.currentSegment
  let segment := segment.ensureCandidatesAppended (ime.listCandidates segment.pron)
  let segment ← segment.cursorPosMove diff
  return state.setCurrentSegment { segment with showsKatakanaP := false }

/-- `current-segment-candidates-set!`. -/
def currentSegmentCandidatesSet (state : State) (index : Int) : Option State := do
  let segment ← state.currentSegment
  return state.setCurrentSegment (segment.cursorPosSet index)

/-- `current-segment-katakana!`. -/
def currentSegmentKatakana (state : State) : Option State := do
  let segment ← state.currentSegment
  return state.setCurrentSegment { segment with showsKatakanaP := true }

/-- `(mapcar #'segment-cursor-pos-form (state-segments state))`. -/
def cursorPosForms (state : State) : Option (List Str) :=
  state.segments.mapM Segment.cursorPosForm

/-- `current-input`, the forms of the segments one after the other. -/
def currentInput (state : State) : Option Str := state.cursorPosForms.map List.flatten

end State

/-- A segment as `convert` makes it. -/
def ofKkcSegment (segment : Kkc.Segment) : Segment where
  pron := segment.pron
  candidates := segment.candidates
  currentIndex := 0
  hasMoreCandidatesP := true

/-- `convert`. -/
def convert (ime : Ime) (pron : Str) : State where
  segments := (ime.kkc.convert pron).map ofKkcSegment
  pronunciation := pron
  currentSegmentIndex := 0

namespace State

/-! ## All segments -/

/-- A move to another segment changes no segment. -/
theorem segments_currentSegmentMove (state : State) (diff : Int) :
    (state.currentSegmentMove diff).segments = state.segments := by
  unfold State.currentSegmentMove
  dsimp only
  split
  next => rfl
  next => rfl

/-- What holds of all segments holds after the current one was changed, if it holds of the
changed one. -/
theorem forall_setCurrentSegment {P : Segment → Prop} {state : State}
    (h : ∀ x ∈ state.segments, P x) {segment : Segment} (hsegment : P segment) :
    ∀ x ∈ (state.setCurrentSegment segment).segments, P x := by
  intro x hx
  cases List.mem_or_eq_of_mem_set hx with
  | inl hmem => exact h x hmem
  | inr heq =>
      rw [heq]
      exact hsegment

/-! ## Indices in range -/

/-- There is a segment, the current segment exists and so does the candidate each
segment displays. -/
structure WellFormed (state : State) : Prop where
  segments_ne_nil : state.segments ≠ []
  currentSegmentIndex_lt : state.currentSegmentIndex < state.segments.length
  segment_wellFormed : ∀ segment ∈ state.segments, segment.WellFormed

theorem WellFormed.currentSegment {state : State} (h : state.WellFormed) :
    ∃ segment, state.currentSegment = some segment ∧ segment.WellFormed := by
  refine ⟨_, List.getElem?_eq_getElem h.currentSegmentIndex_lt, ?_⟩
  exact h.segment_wellFormed _ (List.getElem_mem _)

/-- Writing a well-formed segment back keeps the state well formed. -/
theorem WellFormed.setCurrentSegment {state : State} (h : state.WellFormed) {segment : Segment}
    (hs : segment.WellFormed) : (state.setCurrentSegment segment).WellFormed where
  segments_ne_nil := by
    simpa [State.setCurrentSegment] using h.segments_ne_nil
  currentSegmentIndex_lt := by
    simpa [State.setCurrentSegment] using h.currentSegmentIndex_lt
  segment_wellFormed := forall_setCurrentSegment h.segment_wellFormed hs

theorem WellFormed.currentSegmentMove {state : State} (h : state.WellFormed) (diff : Int) :
    (state.currentSegmentMove diff).WellFormed := by
  unfold State.currentSegmentMove
  dsimp only
  split
  next hindex =>
    refine ⟨h.segments_ne_nil, ?_, h.segment_wellFormed⟩
    simp only
    omega
  next => exact h

theorem WellFormed.currentSegmentCandidatesMove {state : State} (h : state.WellFormed)
    (diff : Int) (ime : Ime) :
    ∃ state', state.currentSegmentCandidatesMove diff ime = some state' ∧ state'.WellFormed := by
  obtain ⟨segment, hseg, hwf⟩ := h.currentSegment
  obtain ⟨segment', hmove, hwf'⟩ :=
    (hwf.ensureCandidatesAppended (ime.listCandidates segment.pron)).cursorPosMove diff
  refine ⟨state.setCurrentSegment { segment' with showsKatakanaP := false }, ?_, ?_⟩
  · simp only [State.currentSegmentCandidatesMove, hseg, hmove, Option.bind_eq_bind,
      Option.bind_some, Option.pure_def]
  · exact h.setCurrentSegment hwf'

theorem WellFormed.currentSegmentCandidatesSet {state : State} (h : state.WellFormed)
    (index : Int) :
    ∃ state', state.currentSegmentCandidatesSet index = some state' ∧ state'.WellFormed := by
  obtain ⟨segment, hseg, hwf⟩ := h.currentSegment
  refine ⟨state.setCurrentSegment (segment.cursorPosSet index), ?_, ?_⟩
  · simp only [State.currentSegmentCandidatesSet, hseg, Option.bind_eq_bind, Option.bind_some,
      Option.pure_def]
  · exact h.setCurrentSegment (hwf.cursorPosSet index)

theorem WellFormed.currentSegmentKatakana {state : State} (h : state.WellFormed) :
    ∃ state', state.currentSegmentKatakana = some state' ∧ state'.WellFormed := by
  obtain ⟨segment, hseg, hwf⟩ := h.currentSegment
  refine ⟨state.setCurrentSegment { segment with showsKatakanaP := true }, ?_, ?_⟩
  · simp only [State.currentSegmentKatakana, hseg, Option.bind_eq_bind, Option.bind_some,
      Option.pure_def]
  · exact h.setCurrentSegment hwf

/-- Every segment of a well-formed state displays a form. -/
theorem WellFormed.cursorPosForms {state : State} (h : state.WellFormed) :
    ∃ forms, state.cursorPosForms = some forms :=
  exists_mapM_eq_some fun s hs => (h.segment_wellFormed s hs).cursorPosForm

theorem WellFormed.currentInput {state : State} (h : state.WellFormed) :
    ∃ input, state.currentInput = some input := by
  obtain ⟨forms, hforms⟩ := h.cursorPosForms
  exact ⟨forms.flatten, by rw [State.currentInput, hforms]; rfl⟩

end State

/-- A conversion starts well formed when the converter answers with something. -/
theorem convert_wellFormed {ime : Ime} (h : ime.kkc.Nonempty) (pron : Str) :
    (convert ime pron).WellFormed where
  segments_ne_nil := by
    simpa [convert] using (h pron).1
  currentSegmentIndex_lt := by
    simpa [convert, List.length_pos_iff] using (h pron).1
  segment_wellFormed := by
    intro segment hsegment
    obtain ⟨kkcSegment, hmem, rfl⟩ := List.mem_map.mp hsegment
    exact List.length_pos_iff.mpr ((h pron).2 kkcSegment hmem)

end Hachee.Senn.Im.Converting
