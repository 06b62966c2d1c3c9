import Mathlib.Data.List.Rotate
import Hachee.Senn.Fcitx.SelectCandidate

/-!
# The candidate cursor loops

The first move among the candidates of a segment asks the converter for more and
appends those whose form the conversion did not give.  From then on the down key
goes through the candidates in a circle.

`Offered` says what a segment of a reachable conversion has to do with the answers
of the converter.  With it, the forms that are shown while the down key is pressed
as often as there are candidates are the candidates in turn
(`downs_show_candidates`).

The appended candidates are compared with the old ones and not among themselves.
So a form that the converter lists twice, and did not give in the conversion, is
shown twice.  And a segment that F7 made display its katakana leaves the katakana
with the first key.
-/

namespace Hachee.Senn.Fcitx

open Lisp Senn.Im Foundation

/-! ## What the converter offered -/

/-- The segment is one of the conversion, with the candidates that were appended, if they
were.  They come from the answer to one of the requests. -/
structure Offered (requests : List (Ime × Request)) (kkcSegment : Kkc.Segment)
    (segment : Converting.Segment) : Prop where
  pron : segment.pron = kkcSegment.pron
  converted : segment.hasMoreCandidatesP = true → segment.candidates = kkcSegment.candidates
  appended : segment.hasMoreCandidatesP = false → ∃ x ∈ requests, segment.candidates =
    Converting.Segment.appendCandidates kkcSegment.candidates
      (x.1.listCandidates kkcSegment.pron)

/-- A conversion comes from the answer to one of the requests, segment by segment. -/
def OfferedState (requests : List (Ime × Request)) (s : State) : Prop :=
  ∀ state : Converting.State, s = .converting state → ∃ x ∈ requests, ∀ (i : Nat) segment,
    state.segments[i]? = some segment →
      ∃ kkcSegment, (x.1.kkc.convert state.pronunciation)[i]? = some kkcSegment ∧
        Offered requests kkcSegment segment

section

variable {requests : List (Ime × Request)} {s s' : Converting.State} {request : Request}
  {ime : Ime}

/-- Changing the current segment in place keeps what was offered, if the change does. -/
theorem OfferedState.setCurrentSegment {segment segment' : Converting.Segment}
    (h : OfferedState requests (.converting s)) (hsegment : s.currentSegment = some segment)
    (hchange : ∀ kkcSegment, Offered requests kkcSegment segment →
      Offered requests kkcSegment segment') :
    OfferedState requests (.converting (s.setCurrentSegment segment')) := by
  rintro _ ⟨⟩
  obtain ⟨x, hx, hoffered⟩ := h s rfl
  refine ⟨x, hx, fun i segment'' hi => ?_⟩
  rw [Converting.State.setCurrentSegment, List.getElem?_set] at hi
  split at hi
  next heq =>
    subst heq
    obtain ⟨kkcSegment, hkkc, hsegment'⟩ := hoffered _ segment hsegment
    split at hi
    next =>
      cases hi
      exact ⟨kkcSegment, hkkc, hchange kkcSegment hsegment'⟩
    next => cases hi
  next => exact hoffered i segment'' hi

theorem OfferedState.currentSegmentMove (h : OfferedState requests (.converting s)) (diff : Int) :
    OfferedState requests (.converting (s.currentSegmentMove diff)) := by
  rintro _ ⟨⟩
  obtain ⟨x, hx, hoffered⟩ := h s rfl
  refine ⟨x, hx, fun i segment hi => ?_⟩
  rw [Converting.State.segments_currentSegmentMove] at hi
  have hpron : (s.currentSegmentMove diff).pronunciation = s.pronunciation := by
    unfold Converting.State.currentSegmentMove
    dsimp only
    split <;> rfl
  rw [hpron]
  exact hoffered i segment hi

/-- The first move appends what the converter lists. -/
theorem Offered.candidatesMove {kkcSegment : Kkc.Segment} {segment moved : Converting.Segment}
    {diff : Int} (h : Offered requests kkcSegment segment) (hmem : (ime, request) ∈ requests)
    (hmoved : (segment.ensureCandidatesAppended
      (ime.listCandidates segment.pron)).cursorPosMove diff = some moved) :
    Offered requests kkcSegment { moved with showsKatakanaP := false } := by
  rcases ite_inv hmoved with ⟨-, hmoved⟩ | ⟨-, hmoved⟩
  · cases hmoved
  cases hmoved
  unfold Converting.Segment.ensureCandidatesAppended
  split
  next hmore =>
    refine ⟨h.pron, fun hmore' => Bool.noConfusion hmore', fun _ => ⟨_, hmem, ?_⟩⟩
    show Converting.Segment.appendCandidates segment.candidates _ = _
    rw [h.converted hmore, h.pron]
  next => exact ⟨h.pron, h.converted, h.appended⟩

/-- Every request of the list keeps it. -/
theorem Move.offered {s s' : State} {text : Str} (hmem : (ime, request) ∈ requests)
    (h : Move ime request s text s') (hs : OfferedState requests s) :
    OfferedState requests s' := by
  have other : ∀ {t : State}, (∀ state, t ≠ .converting state) → OfferedState requests t :=
    fun ht state heq => absurd heq (ht state)
  cases h with
  | stay => exact hs
  | reset => exact other fun _ => State.noConfusion
  | type => exact other fun _ => State.noConfusion
  | delete => exact other fun _ => State.noConfusion
  | moveCursor => exact other fun _ => State.noConfusion
  | selectPrediction => exact other fun _ => State.noConfusion
  | katakana => exact other fun _ => State.noConfusion
  | convert =>
      rintro _ ⟨⟩
      refine ⟨_, hmem, fun i segment hi => ?_⟩
      rw [Converting.convert, List.getElem?_map] at hi
      obtain ⟨kkcSegment, hkkc, rfl⟩ := Option.map_eq_some_iff.mp hi
      exact ⟨kkcSegment, hkkc, rfl, fun _ => rfl, fun hmore => by cases hmore⟩
  | commitSpace => exact other fun _ => State.noConfusion
  | commitInput => exact other fun _ => State.noConfusion
  | movePrediction => exact other fun _ => State.noConfusion
  | commitPrediction => exact other fun _ => State.noConfusion
  | commitKatakana => exact other fun _ => State.noConfusion
  | moveSegment diff => exact hs.currentSegmentMove diff
  | moveCandidate hmove =>
      obtain ⟨segment, hsegment, hmove⟩ := bind_inv hmove
      obtain ⟨moved, hmoved, hmove⟩ := bind_inv hmove
      cases hmove
      exact hs.setCurrentSegment hsegment fun _ h => h.candidatesMove hmem hmoved
  | setCandidate hset =>
      obtain ⟨segment, hsegment, hset⟩ := bind_inv hset
      cases hset
      refine hs.setCurrentSegment hsegment fun _ h => ?_
      unfold Converting.Segment.cursorPosSet
      split
      next => exact ⟨h.pron, h.converted, h.appended⟩
      next => exact h
  | segmentKatakana hkatakana =>
      obtain ⟨segment, hsegment, hkatakana⟩ := bind_inv hkatakana
      cases hkatakana
      exact hs.setCurrentSegment hsegment fun _ h => ⟨h.pron, h.converted, h.appended⟩
  | inputAgain => exact other fun _ => State.noConfusion
  | commitAndType => exact other fun _ => State.noConfusion
  | commit => exact other fun _ => State.noConfusion

theorem offered_of_run {outputs : List (Option Output)} {s : State}
    (hrun : handle.run requests makeInitialState = some (outputs, s)) :
    OfferedState requests s := by
  have hpreserves : Handler.Preserves handle (· ∈ requests) (OfferedState requests) := by
    rintro ⟨ime, request⟩ s o s' hmem hs h
    exact (handle_move h).offered hmem hs
  exact Handler.run_invariant hpreserves requests (fun _ h => h)
    (fun state heq => State.noConfusion heq) hrun

end

/-! ## The down key -/

/-- The form of the current segment in an answer. -/
def shownForm : Option Output → Option Str
  | some ⟨_, some (.converting forms i _ _)⟩ => forms[i]?
  | _ => none

theorem shownForm_of_view {s : Converting.State} {view : View}
    (h : convertingView s = some view) :
    shownForm (some (viewToOutput (some view))) =
      s.currentSegment.bind Converting.Segment.cursorPosForm := by
  obtain ⟨forms, hforms, h⟩ := bind_inv h
  obtain ⟨segment, hsegment, h⟩ := bind_inv h
  have hget : forms[s.currentSegmentIndex]? =
      s.currentSegment.bind Converting.Segment.cursorPosForm := by
    have hmap := congrArg (fun xs => xs[s.currentSegmentIndex]?) (mapM_eq_some_iff.mp hforms)
    simp only [List.getElem?_map] at hmap
    rw [Converting.State.currentSegment] at hsegment ⊢
    rw [hsegment] at hmap ⊢
    cases hform : forms[s.currentSegmentIndex]? with
    | none => simp [hform] at hmap
    | some form => simpa [hform] using hmap.symm
  rcases ite_inv h with ⟨-, h⟩ | ⟨-, h⟩ <;> cases h <;> exact hget

/-- The segment after the down key. -/
def afterDown (segment : Converting.Segment) : Converting.Segment :=
  { segment with
    currentIndex := (segment.currentIndex + 1) % segment.candidates.length
    showsKatakanaP := false }

section

variable {s : Converting.State} {segment : Converting.Segment}

/-- The down key displays the next candidate of a segment that has all of them. -/
theorem handle_down (hs : s.WellFormed) (hsegment : s.currentSegment = some segment)
    (hmore : segment.hasMoreCandidatesP = false) (ime : Ime) {key : Key} (hkey : key.downP = true) :
    ∃ output, handle (ime, .processInput key) (.converting s) =
        some (output, .converting (s.setCurrentSegment (afterDown segment))) ∧
      shownForm output = segment.forms[(segment.currentIndex + 1) % segment.candidates.length]? ∧
      (s.setCurrentSegment (afterDown segment)).WellFormed := by
  have hwf : segment.WellFormed := hs.segment_wellFormed _ (List.mem_of_getElem? hsegment)
  have hlt : (segment.currentIndex + 1) % segment.candidates.length < segment.candidates.length :=
    Nat.mod_lt _ (Nat.zero_lt_of_lt hwf)
  have hmove : s.currentSegmentCandidatesMove 1 ime =
      some (s.setCurrentSegment (afterDown segment)) := by
    have hensure : segment.ensureCandidatesAppended (ime.listCandidates segment.pron) = segment :=
      if_neg (by simp [hmore])
    have hne : segment.candidates.length ≠ 0 := by
      have := Nat.zero_lt_of_lt hwf
      omega
    simp only [Converting.State.currentSegmentCandidatesMove, hsegment, hensure,
      Converting.Segment.cursorPosMove, if_neg hne, Option.bind_eq_bind, Option.bind_some,
      Option.pure_def, afterDown]
    norm_cast
  have hwf' : (s.setCurrentSegment (afterDown segment)).WellFormed := hs.setCurrentSegment hlt
  obtain ⟨view, hview⟩ := convertingView_spec hwf'
  have hsym : key.sym = 65364 := by simpa [Key.downP, Key.symP] using hkey
  refine ⟨some (viewToOutput (some view)), ?_, ?_, hwf'⟩
  · simp [handle, execute, executeConverting, Key.leftP, Key.rightP, Key.symP, hsym, hkey, hmove,
      hview, resp]
  · rw [shownForm_of_view hview, currentSegment_setCurrentSegment hsegment, Option.bind_some,
      Converting.Segment.cursorPosForm, Converting.Segment.forms, List.getElem?_map]
    rfl

/-- Pressed any number of times it goes through the candidates in a circle. -/
theorem run_down (keys : List (Ime × Key)) (hkeys : ∀ x ∈ keys, x.2.downP = true)
    (hs : s.WellFormed) (hsegment : s.currentSegment = some segment)
    (hmore : segment.hasMoreCandidatesP = false) :
    ∃ outputs s', handle.run (keys.map fun x => (x.1, .processInput x.2)) (.converting s) =
        some (outputs, .converting s') ∧ (outputs.map shownForm).length = keys.length ∧
      ∀ j < keys.length, (outputs.map shownForm)[j]? =
        some segment.forms[(segment.currentIndex + 1 + j) % segment.candidates.length]? := by
  induction keys generalizing s segment with
  | nil => exact ⟨[], s, rfl, rfl, fun j hj => absurd hj (Nat.not_lt_zero j)⟩
  | cons x keys ih =>
      obtain ⟨output, hdown, hshown, hs'⟩ :=
        handle_down hs hsegment hmore x.1 (hkeys x List.mem_cons_self)
      obtain ⟨outputs, s', hrun, hlength, hforms⟩ :=
        ih (fun y hy => hkeys y (List.mem_cons_of_mem _ hy)) hs'
          (currentSegment_setCurrentSegment hsegment _) hmore
      refine ⟨output :: outputs, s', Handler.run_cons_eq_some.mpr ⟨_, _, _, hdown, hrun, rfl⟩,
        congrArg Nat.succ hlength, fun j hj => ?_⟩
      cases j with
      | zero => exact congrArg some hshown
      | succ j =>
          rw [List.map_cons, List.getElem?_cons_succ, hforms j (Nat.lt_of_succ_lt_succ hj)]
          have hindex : ((segment.currentIndex + 1) % segment.candidates.length + 1 + j) %
              segment.candidates.length =
                (segment.currentIndex + 1 + (j + 1)) % segment.candidates.length := by
            rw [Nat.add_assoc, Nat.mod_add_mod]
            congr 1
            omega
          rw [← hindex]
          rfl

end

/-! ## Once around -/

/-- What is at the places of a rotated list is the rotated list. -/
theorem eq_map_rotate {α : Type*} {xs : List α} {shown : List (Option α)} {n : Nat}
    (hlength : shown.length = xs.length)
    (hget : ∀ j < xs.length, shown[j]? = some xs[(n + j) % xs.length]?) :
    shown = (xs.rotate n).map some := by
  refine List.ext_getElem? fun j => ?_
  by_cases hj : j < xs.length
  · rw [hget j hj, List.getElem?_map, List.getElem?_rotate hj, Nat.add_comm j n,
      List.getElem?_eq_getElem (Nat.mod_lt _ (Nat.zero_lt_of_lt hj))]
    rfl
  · rw [List.getElem?_eq_none (by omega), List.getElem?_eq_none (by simp; omega)]

/-- A list that is rotated to behind one of its elements ends with it. -/
theorem getLast?_rotate_succ {α : Type*} {xs : List α} {i : Nat} (hi : i < xs.length) :
    (xs.rotate (i + 1)).getLast? = xs[i]? := by
  rw [List.getLast?_eq_getElem?, List.length_rotate, List.getElem?_rotate (by omega)]
  congr 1
  have heq : xs.length - 1 + (i + 1) = i + xs.length := by omega
  rw [heq, Nat.add_mod_right, Nat.mod_eq_of_lt hi]

/-- The forms that the converter lists and did not give in the conversion. -/
def newForms (kkcSegment : Kkc.Segment) (candidates : List Kkc.Candidate) : List Str :=
  (candidates.map Kkc.Candidate.form).filter
    fun form => !(kkcSegment.candidates.map Kkc.Candidate.form).contains form

theorem map_form_appendCandidates (kkcSegment : Kkc.Segment) (candidates : List Kkc.Candidate) :
    (Converting.Segment.appendCandidates kkcSegment.candidates candidates).map
        Kkc.Candidate.form =
      kkcSegment.candidates.map Kkc.Candidate.form ++ newForms kkcSegment candidates := by
  rw [Converting.Segment.appendCandidates, List.map_append, newForms, List.filter_map]
  congr 2
  refine List.filter_congr fun c _ => ?_
  have hany : (kkcSegment.candidates.any fun c' => c'.form = c.form) =
      (kkcSegment.candidates.map Kkc.Candidate.form).contains c.form := by
    rw [Bool.eq_iff_iff, List.any_eq_true, List.contains_iff_mem, List.mem_map]
    simp only [decide_eq_true_eq]
  rw [hany, Function.comp_apply]

/-- All forms are once among the candidates if the converter repeats none. -/
theorem count_appendCandidates {kkcSegment : Kkc.Segment} {candidates : List Kkc.Candidate}
    (hconvert : (kkcSegment.candidates.map Kkc.Candidate.form).Nodup)
    (hnew : (newForms kkcSegment candidates).Nodup) {form : Str}
    (hform : form ∈ kkcSegment.candidates.map Kkc.Candidate.form ∨
      form ∈ candidates.map Kkc.Candidate.form) :
    ((Converting.Segment.appendCandidates kkcSegment.candidates candidates).map
      Kkc.Candidate.form).count form = 1 := by
  rw [map_form_appendCandidates]
  refine List.count_eq_one_of_mem (List.nodup_append.mpr ⟨hconvert, hnew, ?_⟩) ?_
  · intro a ha b hb heq
    have hnot := (List.mem_filter.mp hb).2
    rw [← heq, List.contains_iff_mem.mpr ha] at hnot
    cases hnot
  · rw [List.mem_append]
    by_cases hold : form ∈ kkcSegment.candidates.map Kkc.Candidate.form
    · exact .inl hold
    · exact .inr (List.mem_filter.mpr ⟨hform.resolve_left hold, by simpa using hold⟩)

/-- No segment of a conversion has a form twice. -/
def DistinctForms (kkc : Kkc) : Prop :=
  ∀ pron, ∀ segment ∈ kkc.convert pron, (segment.candidates.map Kkc.Candidate.form).Nodup

/-- In every reachable conversion whose current segment was extended, pressing the down key
as often as the segment has candidates is answered each time.  What is shown are all forms
that the conversion or the converter's list offered, each once if the list repeats no form
that the conversion did not give, and last the candidate that the segment stood at before. -/
theorem downs_show_candidates {requests : List (Ime × Request)} {outputs : List (Option Output)}
    {s : Converting.State} (hkkc : ∀ x ∈ requests, DistinctForms x.1.kkc)
    (hrun : handle.run requests makeInitialState = some (outputs, .converting s))
    {segment : Converting.Segment} (hsegment : s.currentSegment = some segment)
    (hmore : segment.hasMoreCandidatesP = false) {keys : List (Ime × Key)}
    (hkeys : ∀ x ∈ keys, x.2.downP = true) (hlength : keys.length = segment.candidates.length) :
    ∃ x ∈ requests, ∃ y ∈ requests, ∃ kkcSegment, ∃ shown : List Str, ∃ outputs' s',
      (x.1.kkc.convert s.pronunciation)[s.currentSegmentIndex]? = some kkcSegment ∧
      segment.candidates = Converting.Segment.appendCandidates kkcSegment.candidates
        (y.1.listCandidates kkcSegment.pron) ∧
      handle.run (keys.map fun x => (x.1, .processInput x.2)) (.converting s) =
        some (outputs', .converting s') ∧
      outputs'.map shownForm = shown.map some ∧
      ((newForms kkcSegment (y.1.listCandidates kkcSegment.pron)).Nodup →
        ∀ form, (form ∈ kkcSegment.candidates.map Kkc.Candidate.form ∨
          form ∈ (y.1.listCandidates kkcSegment.pron).map Kkc.Candidate.form) →
            shown.count form = 1) ∧
      shown.getLast? = segment.forms[segment.currentIndex]? ∧
      (segment.showsKatakanaP = false → shown.getLast? = segment.cursorPosForm) := by
  have hwf : s.WellFormed :=
    Handler.run_invariant handle_preserves_wellFormed requests (fun _ _ => trivial)
      makeInitialState_wellFormed hrun
  obtain ⟨x, hx, hoffered⟩ := offered_of_run hrun s rfl
  obtain ⟨kkcSegment, hkkcSegment, hsegmentOffered⟩ := hoffered _ segment hsegment
  obtain ⟨y, hy, hcandidates⟩ := hsegmentOffered.appended hmore
  obtain ⟨outputs', s', hdowns, hshown, hforms⟩ := run_down keys hkeys hwf hsegment hmore
  have hlt : segment.currentIndex < segment.forms.length := by
    rw [Converting.Segment.forms, List.length_map]
    exact hwf.segment_wellFormed _ (List.mem_of_getElem? hsegment)
  have hlast : (segment.forms.rotate (segment.currentIndex + 1)).getLast? =
      segment.forms[segment.currentIndex]? := getLast?_rotate_succ hlt
  refine ⟨x, hx, y, hy, kkcSegment, segment.forms.rotate (segment.currentIndex + 1), outputs', s',
    hkkcSegment, hcandidates, hdowns, ?_, ?_, hlast, ?_⟩
  · have hlen : segment.forms.length = segment.candidates.length := List.length_map _
    refine eq_map_rotate (by rw [hshown, hlength, hlen]) fun j hj => ?_
    rw [hforms j (by omega), hlen]
  · intro hnew form hform
    rw [(List.rotate_perm _ _).count_eq, Converting.Segment.forms, hcandidates]
    exact count_appendCandidates
      (hkkc x hx _ kkcSegment (List.mem_of_getElem? hkkcSegment)) hnew hform
  · intro hkatakana
    rw [hlast, Converting.Segment.cursorPosForm, hkatakana, Converting.Segment.forms,
      List.getElem?_map]
    rfl

theorem distinctForms_listing (forms : List Str) : DistinctForms (listing forms).kkc := by
  intro pron segment hsegment
  cases List.mem_singleton.mp hsegment
  exact List.nodup_singleton _

/-- The key, with the converter that lists the given forms. -/
def downKey (forms : List Str) : Ime × Key := (listing forms, ⟨65364, 0⟩)

set_option maxRecDepth 4096 in
/-- The converter lists `亜` and `吾`. -/
theorem downs_show_candidates_two :
    ∃ x ∈ extendA [['亜'], ['吾']], ∃ y ∈ extendA [['亜'], ['吾']], ∃ kkcSegment,
      ∃ shown : List Str, ∃ outputs' s',
        (x.1.kkc.convert ['あ'])[0]? = some kkcSegment ∧
        [⟨['あ']⟩, ⟨['亜']⟩, ⟨['吾']⟩] = Converting.Segment.appendCandidates
          kkcSegment.candidates (y.1.listCandidates kkcSegment.pron) ∧
        handle.run ((List.replicate 3 (downKey [['亜'], ['吾']])).map
          fun x => (x.1, .processInput x.2)) (.converting (extendedA [['亜'], ['吾']] false)) =
            some (outputs', .converting s') ∧
        outputs'.map shownForm = shown.map some ∧
        ((newForms kkcSegment (y.1.listCandidates kkcSegment.pron)).Nodup →
          ∀ form, (form ∈ kkcSegment.candidates.map Kkc.Candidate.form ∨
            form ∈ (y.1.listCandidates kkcSegment.pron).map Kkc.Candidate.form) →
              shown.count form = 1) ∧
        shown.getLast? = some ['亜'] ∧ (false = false → shown.getLast? = some ['亜']) := by
  have hrun : handle.run (extendA [['亜'], ['吾']]) makeInitialState =
      some ([some ⟨true, some (.editing 3 ['あ'] [] (-1) [])⟩,
        some ⟨true, some (.converting [['あ']] 0 [] 0)⟩,
        some ⟨true, some (.converting [['亜']] 0 [['あ'], ['亜'], ['吾']] 1)⟩],
        .converting (extendedA [['亜'], ['吾']] false)) := by decide
  refine @downs_show_candidates (extendA [['亜'], ['吾']]) _ (extendedA [['亜'], ['吾']] false) ?_
    hrun _ rfl rfl (List.replicate 3 (downKey [['亜'], ['吾']])) ?_ rfl
  · intro x hx
    simp only [extendA, List.mem_cons, List.not_mem_nil, or_false, or_self] at hx
    rcases hx with rfl | rfl
    · exact distinctForms_listing _
    · exact distinctForms_listing _
  · intro x hx
    cases List.eq_of_mem_replicate hx
    rfl

set_option maxRecDepth 4096 in
/-- With `亜` listed twice and F7 pressed, `亜` is shown twice, and the keys do not end on the
katakana `ア` that was displayed before them. -/
theorem not_downs_show_candidates :
    ¬∀ (ime : Ime) (requests : List Request) (outputs : List (Option Output))
      (s : Converting.State), DistinctForms ime.kkc →
        handle.run (requests.map fun request => (ime, request)) makeInitialState =
          some (outputs, .converting s) →
        ∀ segment kkcSegment outputs' s', s.currentSegment = some segment →
          segment.hasMoreCandidatesP = false →
          (ime.kkc.convert s.pronunciation)[s.currentSegmentIndex]? = some kkcSegment →
          handle.run (List.replicate segment.candidates.length (ime, .processInput ⟨65364, 0⟩))
            (.converting s) = some (outputs', s') →
          (∀ form, (form ∈ kkcSegment.candidates.map Kkc.Candidate.form ∨
            form ∈ (ime.listCandidates kkcSegment.pron).map Kkc.Candidate.form) →
              (outputs'.map shownForm).count (some form) = 1) ∨
            (outputs'.map shownForm).getLast? = some segment.cursorPosForm := by
  intro h
  let twice : List Str := [['亜'], ['亜']]
  have hrun : handle.run ([Request.processInput ⟨97, 0⟩, .processInput ⟨32, 0⟩,
      .processInput ⟨32, 0⟩, .processInput ⟨65476, 0⟩].map fun request =>
        (listing twice, request)) makeInitialState =
      some ([some ⟨true, some (.editing 3 ['あ'] [] (-1) [])⟩,
        some ⟨true, some (.converting [['あ']] 0 [] 0)⟩,
        some ⟨true, some (.converting [['亜']] 0 [['あ'], ['亜'], ['亜']] 1)⟩,
        some ⟨true, some (.converting [['ア']] 0 [] (-1))⟩],
        .converting (extendedA twice true)) := by decide
  have hdowns : handle.run (List.replicate 3 (listing twice, Request.processInput ⟨65364, 0⟩))
      (.converting (extendedA twice true)) =
        some ([some ⟨true, some (.converting [['亜']] 0 [['あ'], ['亜'], ['亜']] 2)⟩,
          some ⟨true, some (.converting [['あ']] 0 [['あ'], ['亜'], ['亜']] 0)⟩,
          some ⟨true, some (.converting [['亜']] 0 [['あ'], ['亜'], ['亜']] 1)⟩],
          .converting (extendedA twice false)) := by decide
  rcases h (listing twice) _ _ _ (distinctForms_listing twice) hrun _ _ _ _ rfl rfl rfl hdowns with
    hcount | hlast
  · exact absurd (hcount ['亜'] (.inr (by decide))) (by decide)
  · exact absurd hlast (by decide)

end Hachee.Senn.Fcitx
