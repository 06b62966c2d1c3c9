import Hachee.Senn.Fcitx.ProcessInput

/-!
# No request to the fcitx input method fails

Every move keeps a state well formed (`Move.wellFormed`), and in a well-formed
state every request is answered (`handle_answers`), if the converter answers with
segments that have candidates.  So no run fails (`run_wellFormed`).
-/

namespace Hachee.Senn.Fcitx

open Lisp Senn.Im Foundation

/-! ## Moves keep states well formed -/

theorem SelectingFromPredictions.move_predictions (s : SelectingFromPredictions) (diff : Int) :
    (s.move diff).predictions = s.predictions := by
  unfold SelectingFromPredictions.move
  dsimp only
  split <;> rfl

theorem SelectingFromPredictions.move_lt {s : SelectingFromPredictions}
    (h : s.currentIndex < s.predictions.length) (diff : Int) :
    (s.move diff).currentIndex < (s.move diff).predictions.length := by
  unfold SelectingFromPredictions.move
  dsimp only
  split
  next hindex =>
    simp only
    omega
  next => exact h

/-- A move keeps every index in range, whatever the converter and the predictor
answer. -/
theorem Move.wellFormed {ime : Ime} {request : Request} {s s' : State} {text : Str}
    (h : Move ime request s text s') (hs : s.WellFormed) : s'.WellFormed := by
  cases h with
  | stay => exact hs
  | reset => exact makeInitialState_wellFormed
  | type hins => exact Inputting.State.valid_of_insertChar hs hins
  | delete _ hdel => exact Inputting.State.valid_of_deleteChar hs hdel
  | moveCursor diff => exact Buffer.Valid.moveCursorPos hs diff
  | selectPrediction hindex => exact hindex
  | katakana => trivial
  | convert hview => exact convert_wellFormed_of_view hview
  | commitSpace => exact makeInitialState_wellFormed
  | commitInput => exact makeInitialState_wellFormed
  | movePrediction diff => exact SelectingFromPredictions.move_lt hs diff
  | commitPrediction => exact makeInitialState_wellFormed
  | commitKatakana => exact makeInitialState_wellFormed
  | moveSegment diff => exact hs.currentSegmentMove diff
  | moveCandidate hmove =>
      obtain ⟨s'', hs'', hwf⟩ := Converting.State.WellFormed.currentSegmentCandidatesMove hs _ ime
      cases hmove.symm.trans hs''
      exact hwf
  | setCandidate hset =>
      obtain ⟨s'', hs'', hwf⟩ := Converting.State.WellFormed.currentSegmentCandidatesSet hs _
      cases hset.symm.trans hs''
      exact hwf
  | segmentKatakana hkatakana =>
      obtain ⟨s'', hs'', hwf⟩ := Converting.State.WellFormed.currentSegmentKatakana hs
      cases hkatakana.symm.trans hs''
      exact hwf
  | inputAgain => exact Nat.le_refl _
  | commitAndType _ hins =>
      cases hins.symm.trans (Buffer.insertChar_ofSplit [] [] _)
      exact Buffer.valid_ofSplit ..
  | commit => exact makeInitialState_wellFormed

/-! ## Every request is answered -/

theorem SelectingFromPredictions.editingView_spec {s : SelectingFromPredictions}
    (h : s.currentIndex < s.predictions.length) : ∃ view, s.editingView = some view := by
  rw [SelectingFromPredictions.editingView, SelectingFromPredictions.currentInput,
    List.getElem?_eq_getElem h]
  exact ⟨_, rfl⟩

/-- An answer with a view that is there. -/
theorem returns_resp {v : Option View} {newState : Option State} (h : Returns v) :
    Returns (do let view ← v; return resp (some view) newState) :=
  .bind h fun _ _ => .pure _

section

variable {ime : Ime} {key : Key}

theorem executeKatakana_returns (s : Katakana) : Returns (executeKatakana s key) :=
  .ite (fun _ => returns_resp ⟨_, editingView_empty _⟩) fun _ => .pure _

theorem executeSelectingFromPredictions_returns {s : SelectingFromPredictions}
    (h : s.currentIndex < s.predictions.length) :
    Returns (executeSelectingFromPredictions s key) := by
  refine .ite (fun _ => returns_resp ⟨_, editingView_empty _⟩) fun _ => ?_
  refine .ite (fun _ => returns_resp (SelectingFromPredictions.editingView_spec (s.move_lt h 1)))
    fun _ => ?_
  refine .ite
    (fun _ => returns_resp (SelectingFromPredictions.editingView_spec (s.move_lt h (-1))))
    fun _ => ?_
  exact returns_resp (SelectingFromPredictions.editingView_spec h)

theorem executeConverting_returns {s : Converting.State} (h : s.WellFormed) :
    Returns (executeConverting s key ime) := by
  -- A changed state that is well formed has a view.
  have changed : ∀ {x : Option Converting.State}, (∃ s', x = some s' ∧ s'.WellFormed) →
      Returns (do
        let s' ← x
        let view ← convertingView s'
        return resp (some view) (some (.converting s'))) := by
    rintro x ⟨s', rfl, hs'⟩
    exact returns_resp (convertingView_spec hs')
  refine .ite (fun _ => returns_resp (convertingView_spec (h.currentSegmentMove (-1)))) fun _ => ?_
  refine .ite (fun _ => returns_resp (convertingView_spec (h.currentSegmentMove 1))) fun _ => ?_
  refine .ite (fun _ => changed (h.currentSegmentCandidatesMove 1 ime)) fun _ => ?_
  refine .ite (fun _ => changed (h.currentSegmentCandidatesMove (-1) ime)) fun _ => ?_
  refine .ite (fun _ => changed h.currentSegmentKatakana) fun _ => ?_
  refine .ite (fun _ => returns_resp (editingView_spec (Nat.le_refl _) none)) fun _ => ?_
  refine .ite (fun _ => ?_) fun _ => ?_
  · refine .bind ⟨_, Buffer.insertChar_ofSplit [] [] key.char⟩ fun buffer hbuffer => ?_
    refine .bind h.currentInput fun input _ => ?_
    cases hbuffer.symm.trans (Buffer.insertChar_ofSplit [] [] key.char)
    exact returns_resp (editingView_spec (Buffer.valid_ofSplit ..) (some input))
  · exact .bind h.currentInput fun input _ => returns_resp ⟨_, editingView_empty _⟩

/-- The converter is asked for a conversion when the buffer is not empty, and
must answer with something. -/
theorem executeInputting_returns {s : Inputting.State} (h : s.buffer.Valid)
    (hkkc : ime.kkc.Nonempty) : Returns (executeInputting s key ime) := by
  refine .ite (fun _ => .pure _) fun _ => ?_
  -- The control key.
  refine .ite (fun _ => .ite (fun _ => .pure _) fun _ => returns_resp (editingView_spec h none))
    fun _ => ?_
  -- Tab.
  refine .ite (fun _ => .ite (fun _ => .pure _) fun hpredictions => ?_) fun _ => ?_
  · have hne : s.predictions ≠ [] := by simpa using hpredictions
    exact returns_resp (SelectingFromPredictions.editingView_spec (List.length_pos_iff.mpr hne))
  -- A character.
  refine .ite (fun _ => ?_) fun _ => ?_
  · obtain ⟨s', hs', -⟩ := Inputting.State.insertChar_spec h key.char ime
    refine .bind ⟨s', hs'⟩ fun s'' hs'' => ?_
    exact returns_resp (editingView_spec (Inputting.State.valid_of_insertChar h hs'') none)
  -- F7.
  refine .ite (fun _ => .pure _) fun _ => ?_
  -- Space.
  refine .ite (fun _ => .ite (fun _ => returns_resp ⟨_, editingView_empty _⟩) fun hempty => ?_)
    fun _ => ?_
  · have hne : s.bufferString ≠ [] := by simpa using hempty
    refine .bind (Inputting.State.bufferGetPron_spec h hne) fun pron _ => ?_
    exact returns_resp (convertingView_spec (Converting.convert_wellFormed hkkc pron))
  -- Enter.
  refine .ite (fun _ => .ite (fun _ => .pure _) fun _ => returns_resp ⟨_, editingView_empty _⟩)
    fun _ => ?_
  -- Backspace.
  refine .ite (fun _ => ?_) fun _ => ?_
  · refine .bind (Inputting.State.deleteChar_returns h ime) fun deleted hdeleted => ?_
    cases deleted with
    | none => exact .pure _
    | some s' =>
        exact returns_resp (editingView_spec (Inputting.State.valid_of_deleteChar h hdeleted) none)
  -- Left and right.
  refine .ite (fun _ => returns_resp (editingView_spec (h.moveCursorPos (-1)) none)) fun _ => ?_
  exact .ite (fun _ => returns_resp (editingView_spec (h.moveCursorPos 1) none)) fun _ => .pure _

theorem execute_returns {s : State} (h : s.WellFormed) (hkkc : ime.kkc.Nonempty) :
    Returns (execute s key ime) := by
  cases s with
  | inputting s => exact executeInputting_returns h hkkc
  | converting s => exact executeConverting_returns h
  | katakana s => exact executeKatakana_returns s
  | selectingFromPredictions s => exact executeSelectingFromPredictions_returns h

theorem selectCandidate_returns {s : State} (h : s.WellFormed) (index : Int) :
    Returns (selectCandidate s index) := by
  cases s with
  | inputting s =>
      refine .ite (fun hindex => ?_) fun _ => .pure _
      exact returns_resp (SelectingFromPredictions.editingView_spec (by simp only; omega))
  | converting s =>
      obtain ⟨s', hs', hwf⟩ := Converting.State.WellFormed.currentSegmentCandidatesSet h index
      refine .bind ⟨s', hs'⟩ fun s'' hs'' => ?_
      cases hs''.symm.trans hs'
      exact returns_resp (convertingView_spec hwf)
  | katakana s => exact .pure _
  | selectingFromPredictions s => exact .pure _

end

/-- In a well-formed state every request is answered, if the converter answers
with something. -/
theorem handle_answers : handle.Answers (fun x => x.1.kkc.Nonempty) State.WellFormed := by
  rintro ⟨ime, request⟩ s hkkc hs
  cases request with
  | processInput key =>
      obtain ⟨⟨output, state⟩, h⟩ : Returns (execute s key ime) := execute_returns hs hkkc
      exact ⟨some output, state.getD s, by simp [handle, h]⟩
  | selectCandidate index =>
      obtain ⟨⟨output, state⟩, h⟩ := selectCandidate_returns hs index
      exact ⟨some output, state.getD s, by simp [handle, h]⟩
  | resetIm => exact ⟨none, makeInitialState, rfl⟩

theorem handle_preserves_wellFormed : handle.Preserves (fun _ => True) State.WellFormed :=
  fun _ _ _ _ _ hs h => (handle_move h).wellFormed hs

/-- No request of a run fails and every state is well formed, if the converter
answers each time with segments that have candidates. -/
theorem run_wellFormed (requests : List (Ime × Request))
    (hkkc : ∀ x ∈ requests, x.1.kkc.Nonempty) :
    ∃ outputs s, handle.run requests makeInitialState = some (outputs, s) ∧ s.WellFormed :=
  Handler.run_total (fun r s o s' _ => handle_preserves_wellFormed r s o s' trivial)
    handle_answers requests hkkc makeInitialState_wellFormed

/-- Type `a`, convert, and ask for the candidate behind the last one. -/
theorem run_wellFormed_echo :
    ∃ outputs s, handle.run
        [(Ime.echo, .processInput ⟨97, 0⟩), (Ime.echo, .processInput ⟨32, 0⟩),
          (Ime.echo, .selectCandidate 1)] makeInitialState = some (outputs, s) ∧ s.WellFormed :=
  run_wellFormed _ (by simp [Ime.echo, Kkc.Nonempty])

end Hachee.Senn.Fcitx
