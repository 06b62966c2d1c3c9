import Hachee.Senn.Fcitx.WellFormed

/-!
# Selecting a candidate of the current segment

`select-candidate` sets the index of the current segment and leaves the flag that
displays its katakana.  `current-segment-candidates-move!` clears the flag.  So a
candidate that is selected after F7 is not displayed, unless it is the katakana
(`selectCandidate_iff`).
-/

namespace Hachee.Senn.Fcitx

open Lisp Senn.Im Foundation

/-- What a selected candidate should do to a conversion.  The current segment displays it,
and nothing else changes.  An index outside the candidates changes nothing at all. -/
structure Selects (s : Converting.State) (index : Int) (s' : Converting.State) : Prop where
  currentSegmentIndex : s'.currentSegmentIndex = s.currentSegmentIndex
  pronunciation : s'.pronunciation = s.pronunciation
  others : ∀ i ≠ s.currentSegmentIndex, s'.segments[i]? = s.segments[i]?
  inside : ∀ segment candidate, s.currentSegment = some segment → 0 ≤ index →
    segment.candidates[index.toNat]? = some candidate →
      s'.currentSegment.bind Converting.Segment.cursorPosForm = some candidate.form
  outside : ∀ segment, s.currentSegment = some segment →
    index < 0 ∨ segment.candidates.length ≤ index → s' = s

section

variable {segment : Converting.Segment} {index : Int}

theorem cursorPosSet_inside {candidate : Kkc.Candidate} (hindex : 0 ≤ index)
    (h : segment.candidates[index.toNat]? = some candidate) :
    segment.cursorPosSet index = { segment with currentIndex := index.toNat } := by
  have hlt := (List.getElem?_eq_some_iff.mp h).1
  exact if_pos ⟨by omega, by omega⟩

theorem cursorPosSet_outside (h : index < 0 ∨ segment.candidates.length ≤ index) :
    segment.cursorPosSet index = segment := if_neg (by omega)

/-- A segment at the candidate displays it, or its katakana. -/
theorem cursorPosForm_at {candidate : Kkc.Candidate}
    (h : segment.candidates[index.toNat]? = some candidate) :
    Converting.Segment.cursorPosForm { segment with currentIndex := index.toNat } =
        some candidate.form ↔
      (segment.showsKatakanaP = true → Ja.hiraganaToKatakana segment.pron = candidate.form) := by
  unfold Converting.Segment.cursorPosForm
  cases hkatakana : segment.showsKatakanaP with
  | false => simp [h]
  | true => simp

end

/-- Writing the current segment back changes nothing. -/
theorem setCurrentSegment_self {s : Converting.State} {segment : Converting.Segment}
    (h : s.currentSegment = some segment) : s.setCurrentSegment segment = s := by
  obtain ⟨hlt, hget⟩ := List.getElem?_eq_some_iff.mp h
  rw [Converting.State.setCurrentSegment, ← hget, List.set_getElem_self]

theorem currentSegment_setCurrentSegment {s : Converting.State} {segment : Converting.Segment}
    (h : s.currentSegment = some segment) (segment' : Converting.Segment) :
    (s.setCurrentSegment segment').currentSegment = some segment' :=
  List.getElem?_set_self (List.getElem?_eq_some_iff.mp h).1

/-- The conversion that is selected in selects the candidate, unless the katakana of the
current segment hides it. -/
theorem selects_iff {s : Converting.State} {segment : Converting.Segment}
    (hsegment : s.currentSegment = some segment) (index : Int) :
    Selects s index (s.setCurrentSegment (segment.cursorPosSet index)) ↔
      ∀ candidate, 0 ≤ index → segment.candidates[index.toNat]? = some candidate →
        segment.showsKatakanaP = true → Ja.hiraganaToKatakana segment.pron = candidate.form := by
  have hdisplay : ∀ candidate, 0 ≤ index → segment.candidates[index.toNat]? = some candidate →
      ((s.setCurrentSegment (segment.cursorPosSet index)).currentSegment.bind
          Converting.Segment.cursorPosForm = some candidate.form ↔
        (segment.showsKatakanaP = true →
          Ja.hiraganaToKatakana segment.pron = candidate.form)) := by
    intro candidate hindex hcandidate
    rw [currentSegment_setCurrentSegment hsegment, cursorPosSet_inside hindex hcandidate]
    exact cursorPosForm_at hcandidate
  constructor
  · intro h candidate hindex hcandidate
    exact (hdisplay candidate hindex hcandidate).mp
      (h.inside segment candidate hsegment hindex hcandidate)
  · intro h
    refine ⟨rfl, rfl, fun i hi => List.getElem?_set_ne hi.symm, ?_, ?_⟩
    · intro segment' candidate hsegment' hindex hcandidate
      cases hsegment.symm.trans hsegment'
      exact (hdisplay candidate hindex hcandidate).mpr (h candidate hindex hcandidate)
    · intro segment' hsegment' houtside
      cases hsegment.symm.trans hsegment'
      rw [cursorPosSet_outside houtside, setCurrentSegment_self hsegment]

/-- In every reachable conversion `select-candidate` is answered, and selects the candidate
exactly if it is not hidden: the index is outside the candidates, or the current segment
does not display its katakana, or the candidate is this katakana. -/
theorem selectCandidate_iff {requests : List (Ime × Request)} {outputs : List (Option Output)}
    {s : Converting.State}
    (hrun : handle.run requests makeInitialState = some (outputs, .converting s)) (ime : Ime)
    (index : Int) :
    ∃ segment output s', s.currentSegment = some segment ∧
      handle (ime, .selectCandidate index) (.converting s) = some (output, .converting s') ∧
      (Selects s index s' ↔
        ∀ candidate, 0 ≤ index → segment.candidates[index.toNat]? = some candidate →
          segment.showsKatakanaP = true →
            Ja.hiraganaToKatakana segment.pron = candidate.form) := by
  have hwf : s.WellFormed :=
    Handler.run_invariant handle_preserves_wellFormed requests (fun _ _ => trivial)
      makeInitialState_wellFormed hrun
  obtain ⟨segment, hsegment, hsegmentWf⟩ := hwf.currentSegment
  have hset := hwf.setCurrentSegment (hsegmentWf.cursorPosSet index)
  obtain ⟨view, hview⟩ := convertingView_spec hset
  refine ⟨segment, some (viewToOutput (some view)), _, hsegment, ?_, selects_iff hsegment index⟩
  simp only [handle, selectCandidate, Converting.State.currentSegmentCandidatesSet, hsegment,
    hview, Option.bind_eq_bind, Option.bind_some, Option.pure_def, resp, Option.getD_some]

/-- An input method that converts a string to itself and lists the given forms. -/
def listing (forms : List Str) : Ime where
  kkc := ⟨fun pron => [⟨pron, [⟨pron⟩]⟩], fun _ => forms.map Kkc.Candidate.mk⟩
  predictor := fun _ => []
  maxCandidateCount := none

/-- Type `a`, convert, and ask for more candidates. -/
def extendA (forms : List Str) : List (Ime × Request) :=
  [(listing forms, .processInput ⟨97, 0⟩), (listing forms, .processInput ⟨32, 0⟩),
    (listing forms, .processInput ⟨32, 0⟩)]

/-- The conversion of `あ` with the listed forms. -/
def extendedA (forms : List Str) (showsKatakanaP : Bool) : Converting.State :=
  ⟨[⟨['あ'], ⟨['あ']⟩ :: forms.map Kkc.Candidate.mk, 1, false, showsKatakanaP⟩], ['あ'], 0⟩

set_option maxRecDepth 4096 in
theorem run_extendA :
    ∃ outputs, handle.run (extendA [['亜'], ['吾']]) makeInitialState =
      some (outputs, .converting (extendedA [['亜'], ['吾']] false)) :=
  ⟨[some ⟨true, some (.editing 3 ['あ'] [] (-1) [])⟩,
    some ⟨true, some (.converting [['あ']] 0 [] 0)⟩,
    some ⟨true, some (.converting [['亜']] 0 [['あ'], ['亜'], ['吾']] 1)⟩], by decide⟩

/-- Selecting the last one of three candidates, while the second one is displayed. -/
theorem selectCandidate_iff_extendedA :
    ∃ segment output s', (extendedA [['亜'], ['吾']] false).currentSegment = some segment ∧
      handle (listing [['亜'], ['吾']], .selectCandidate 2)
          (.converting (extendedA [['亜'], ['吾']] false)) = some (output, .converting s') ∧
      (Selects (extendedA [['亜'], ['吾']] false) 2 s' ↔
        ∀ candidate, 0 ≤ (2 : Int) → segment.candidates[(2 : Int).toNat]? = some candidate →
          segment.showsKatakanaP = true →
            Ja.hiraganaToKatakana segment.pron = candidate.form) := by
  obtain ⟨outputs, hrun⟩ := run_extendA
  exact selectCandidate_iff hrun (listing [['亜'], ['吾']]) 2

set_option maxRecDepth 4096 in
/-- After F7 the segment displays `ア`, also when its candidate `亜` is selected. -/
theorem not_selectCandidate :
    ¬∀ (requests : List (Ime × Request)) (outputs : List (Option Output)) (s : Converting.State),
      handle.run requests makeInitialState = some (outputs, .converting s) →
        ∀ (ime : Ime) (index : Int), ∃ output s',
          handle (ime, .selectCandidate index) (.converting s) = some (output, .converting s') ∧
            Selects s index s' := by
  intro h
  have hrun : handle.run (extendA [['亜']] ++ [(listing [['亜']], .processInput ⟨65476, 0⟩)])
      makeInitialState =
        some ([some ⟨true, some (.editing 3 ['あ'] [] (-1) [])⟩,
          some ⟨true, some (.converting [['あ']] 0 [] 0)⟩,
          some ⟨true, some (.converting [['亜']] 0 [['あ'], ['亜']] 1)⟩,
          some ⟨true, some (.converting [['ア']] 0 [] (-1))⟩],
          .converting (extendedA [['亜']] true)) := by decide
  obtain ⟨output, s', hanswer, hselects⟩ := h _ _ _ hrun .echo 1
  have hselected : handle (Ime.echo, .selectCandidate 1) (.converting (extendedA [['亜']] true)) =
      some (some ⟨true, some (.converting [['ア']] 0 [] (-1))⟩,
        .converting (extendedA [['亜']] true)) := by decide
  cases hanswer.symm.trans hselected
  have hdisplay := hselects.inside _ ⟨['亜']⟩ rfl (by decide) rfl
  exact absurd hdisplay (by decide)

end Hachee.Senn.Fcitx
