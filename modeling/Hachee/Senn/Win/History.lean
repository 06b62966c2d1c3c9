import Hachee.Senn.Win.Commit

/-!
# What the history changes in a conversion

The history of the application state is a table, and `history-overwrite-mixin`
reads it when a conversion starts.  What it reads is determined by the past of the
run: the last form that was committed for a pronunciation (`Step.committedForms`).

So a conversion is the one of the converter, except that the form that was
committed last comes first (`convert_of_path`).
-/

namespace Hachee.Senn.Win

open Lisp Senn.Im

/-! ## What is committed -/

/-- The pronunciations of segments with the forms they display. -/
def displayedForms (segments : List Converting.Segment) : List (Str × Str) :=
  segments.filterMap fun segment => segment.cursorPosForm.map fun form => (segment.pron, form)

/-- The segments that a key commits: those of a conversion, by the enter key. -/
def InputState.committedSegments (s : InputState) (key : Key) : List Converting.Segment :=
  match s with
  | .converting s => if key.enterP then s.segments else []
  | _ => []

/-- What a step commits of a conversion, segment by segment. -/
def Step.committedForms (x : Step) : List (Str × Str) :=
  match x.request.2 with
  | .toggleInputMode => []
  | .processInput key => displayedForms (x.state.inputState.committedSegments key)

/-- The form that was committed last for a pronunciation, if there is one. -/
def lastCommitted (past : List Step) (pron : Str) : Option Str :=
  HashTable.lastWrite pron (past.flatMap Step.committedForms)

/-- A segment of a conversion after forms were committed for its pronunciation.
Without such a form it is the segment of the converter. -/
def overwrite (last : Option Str) (base : Kkc.Segment) : Kkc.Segment :=
  match last with
  | none => base
  | some form => ⟨base.pron, ⟨form⟩ :: base.candidates.filter fun c => c.form ≠ form⟩

/-! ## The history holds the past -/

/-- The history maps each pronunciation to the form that was committed last. -/
def State.Remembers (s : State) (past : List Step) : Prop :=
  ∀ pron, s.history.getForm pron = lastCommitted past pron

theorem Answer.committedSegments_eq {ime : Ime} {key : Key} {mode : InputMode} {s : InputState}
    {r : Result} (h : Answer ime key mode s r) :
    r.committedSegments = s.committedSegments key := by
  cases h with
  | @pass s hkey =>
      cases s with
      | directState => rfl
      | inputting s => rfl
      | converting s =>
          have henter : ¬key.enterP = true := by
            intro henter
            simp [InputState.processes, henter] at hkey
          simp [result, InputState.committedSegments, henter]
  | type => rfl
  | delete => rfl
  | convert => rfl
  | commitInput => rfl
  | moveCandidate _ henter => simp [result, InputState.committedSegments, henter]
  | moveSegment _ henter => simp [result, InputState.committedSegments, henter]
  | commitConversion _ henter => simp [result, InputState.committedSegments, henter]

/-- The history after a commit, whose later segments come last. -/
theorem getForm_putCommittedSegments {history' : History} :
    ∀ (segments : List Converting.Segment) (history : History) (writes : List (Str × Str)),
      putCommittedSegments history segments = some history' →
        (∀ pron, history.getForm pron = HashTable.lastWrite pron writes) →
          ∀ pron, history'.getForm pron =
            HashTable.lastWrite pron (writes ++ displayedForms segments)
  | [], history, writes, hput, hwrites, pron => by
      cases hput
      rw [displayedForms, List.filterMap_nil, List.append_nil]
      exact hwrites pron
  | segment :: segments, history, writes, hput, hwrites, pron => by
      rw [putCommittedSegments, List.foldlM_cons] at hput
      obtain ⟨history'', hput', hrest⟩ := bind_inv hput
      obtain ⟨form, hform, hput'⟩ := bind_inv hput'
      cases hput'
      have hnext := getForm_putCommittedSegments segments (history.put segment.pron form)
        (writes ++ [(segment.pron, form)]) hrest
        (HashTable.gethash_puthash_lastWrite hwrites segment.pron form) pron
      rw [hnext, List.append_assoc]
      simp [displayedForms, hform]

/-- A step adds what it commits. -/
theorem State.Remembers.step {x : Step} {past : List Step} (hs : x.state.Remembers past)
    (h : handle x.request x.state = some (x.output, x.next)) :
    x.next.Remembers (past ++ [x]) := by
  obtain ⟨s, ⟨stateful, request⟩, output, s'⟩ := x
  replace h : handle (stateful, request) s = some (output, s') := h
  intro pron
  rw [lastCommitted, List.flatMap_append, List.flatMap_singleton]
  cases request with
  | toggleInputMode =>
      obtain ⟨-, inputState, inputMode, -, rfl⟩ := handle_toggleInputMode_inv h
      rw [Step.committedForms, List.append_nil]
      exact hs pron
  | processInput key =>
      obtain ⟨r, history, hr, hhistory, -, rfl⟩ := handle_processInput_eq h
      have hforms := getForm_putCommittedSegments _ _ _ hhistory hs pron
      rw [(execute_answer hr).committedSegments_eq] at hforms
      exact hforms

/-! ## A conversion starts -/

/-- Typed text is converted with its pronunciation. -/
theorem executeInputting_convert {s : Inputting.State} {ime : Ime} {key : Key} {mode : InputMode}
    {r : Result} {state : Converting.State} (h : executeInputting s ime key mode = some r)
    (hstate : r.state.getD (.inputting s) = .converting state) :
    ∃ pron, s.bufferGetPron = some pron ∧ state = Converting.convert ime pron := by
  unfold executeInputting at h
  cases hchar : keyToChar mode key with
  | some char =>
      rw [hchar] at h
      obtain ⟨s', -, h⟩ := bind_inv h
      cases h
      cases hstate
  | none =>
      rw [hchar] at h
      rcases ite_inv h with ⟨-, h⟩ | ⟨-, h⟩
      · obtain ⟨deleted, -, h⟩ := bind_inv h
        cases deleted with
        | some s' =>
            cases h
            cases hstate
        | none =>
            cases h
            cases hstate
      rcases ite_inv h with ⟨-, h⟩ | ⟨-, h⟩
      · rcases ite_inv h with ⟨-, h⟩ | ⟨-, h⟩
        · cases h
          cases hstate
        · obtain ⟨pron, hpron, h⟩ := bind_inv h
          obtain ⟨view, -, h⟩ := bind_inv h
          cases h
          cases hstate
          exact ⟨pron, hpron, rfl⟩
      rcases ite_inv h with ⟨-, h⟩ | ⟨-, h⟩
      · cases h
        cases mode <;> cases hstate
      · cases h
        cases hstate

/-- The segments of a conversion, as the history changes them. -/
theorem State.Remembers.convert {s : State} {past : List Step} (hs : s.Remembers past)
    {stateful : StatefulIme} (hoverwrite : stateful.historyOverwriteP = true) (pron : Str) :
    Converting.convert (stateful.withHistory s.history) pron =
      ⟨(stateful.ime.kkc.convert pron).map fun base =>
        Converting.ofKkcSegment (overwrite (lastCommitted past base.pron) base), pron, 0⟩ := by
  simp only [Converting.convert, StatefulIme.withHistory, hoverwrite, if_true, History.apply,
    List.map_map]
  congr 1
  refine List.map_congr_left fun base _ => ?_
  rw [Function.comp_apply, hs base.pron]
  cases lastCommitted past base.pron with
  | none => rfl
  | some form => rfl

/-- Whenever a conversion starts, the converter is asked for the pronunciation of the
typed text.  The form committed last for the pronunciation of a segment comes first,
and the other candidates keep their order.  A segment for which no form was
committed is left as it is. -/
theorem convert_of_path {before after : List Step} {x : Step}
    (hpath : handle.Path makeInitialState (before ++ x :: after))
    (hoverwrite : x.request.1.historyOverwriteP = true) {typed : Inputting.State}
    (htyped : x.state.inputState = .inputting typed) {converting : Converting.State}
    (hconverting : x.next.inputState = .converting converting) :
    ∃ pron, typed.bufferGetPron = some pron ∧
      converting = ⟨(x.request.1.ime.kkc.convert pron).map fun base =>
        Converting.ofKkcSegment (overwrite (lastCommitted before base.pron) base), pron, 0⟩ := by
  have hinitial : makeInitialState.Remembers [] := fun pron => by
    rw [lastCommitted]
    rfl
  have hremembers : x.state.Remembers ([] ++ before) :=
    hpath.invariant_past (fun past s => s.Remembers past) hinitial
      fun past y hy hs => hs.step (hpath.answer (List.mem_append_left _ hy))
  have h := hpath.answer (List.mem_append_right _ (List.mem_cons_self ..))
  obtain ⟨s, ⟨stateful, request⟩, output, s'⟩ := x
  replace h : handle (stateful, request) s = some (output, s') := h
  cases request with
  | toggleInputMode =>
      obtain ⟨-, inputState, inputMode, htoggle, rfl⟩ := handle_toggleInputMode_inv h
      simp only at htyped hconverting
      subst hconverting
      rcases toggleInputMode_inv htoggle with
        ⟨-, hnext, -⟩ | ⟨_, hbefore, -⟩ | ⟨_, -, ⟨-, hnext, -⟩ | ⟨-, -, hnext | ⟨-, hnext⟩⟩⟩
      · cases hnext
      · cases htyped.symm.trans hbefore
      · cases hnext
      · cases hnext
      · cases hnext
  | processInput key =>
      obtain ⟨r, history, hr, -, -, rfl⟩ := handle_processInput_eq h
      simp only at htyped hconverting
      rw [htyped] at hr hconverting
      obtain ⟨pron, hpron, rfl⟩ := executeInputting_convert hr hconverting
      exact ⟨pron, hpron, hremembers.convert hoverwrite pron⟩

/-- An input method that offers a kanji first and then the string itself. -/
def kanjiFirst : StatefulIme where
  ime := { Ime.echo with kkc.convert := fun pron => [⟨pron, [⟨['亜']⟩, ⟨pron⟩]⟩] }
  historyOverwriteP := true

/-- Convert `a`, choose the second candidate, commit it, and type `a` again. -/
def commitSecondCandidate : List Step :=
  let typed : InputState := .inputting ⟨⟨['あ'], 1⟩, [['あ']]⟩
  let segment : Converting.Segment := ⟨['あ'], [⟨['亜']⟩, ⟨['あ']⟩], 0, true, false⟩
  let chosen : Converting.Segment :=
    { segment with currentIndex := 1, hasMoreCandidatesP := false }
  [⟨makeInitialState, (kanjiFirst, .toggleInputMode), .ok, ⟨.hiragana, .inputting {}, .empty⟩⟩,
    ⟨⟨.hiragana, .inputting {}, .empty⟩, (kanjiFirst, .processInput ⟨65, false⟩),
      .processed true (some (.editing ['あ'] [['あ']])), ⟨.hiragana, typed, .empty⟩⟩,
    ⟨⟨.hiragana, typed, .empty⟩, (kanjiFirst, .processInput ⟨32, false⟩),
      .processed true (some (.converting [['亜']] 0 [] 0)),
      ⟨.hiragana, .converting ⟨[segment], ['あ'], 0⟩, .empty⟩⟩,
    ⟨⟨.hiragana, .converting ⟨[segment], ['あ'], 0⟩, .empty⟩,
      (kanjiFirst, .processInput ⟨40, false⟩),
      .processed true (some (.converting [['あ']] 0 [['亜'], ['あ']] 1)),
      ⟨.hiragana, .converting ⟨[chosen], ['あ'], 0⟩, .empty⟩⟩,
    ⟨⟨.hiragana, .converting ⟨[chosen], ['あ'], 0⟩, .empty⟩,
      (kanjiFirst, .processInput ⟨13, false⟩), .processed true (some (.committed ['あ'])),
      ⟨.hiragana, .inputting {}, History.put .empty ['あ'] ['あ']⟩⟩,
    ⟨⟨.hiragana, .inputting {}, History.put .empty ['あ'] ['あ']⟩,
      (kanjiFirst, .processInput ⟨65, false⟩),
      .processed true (some (.editing ['あ'] [['あ']])),
      ⟨.hiragana, typed, History.put .empty ['あ'] ['あ']⟩⟩]

set_option maxRecDepth 4096 in
theorem kanjiFirst_type (history : History) :
    handle (kanjiFirst, .processInput ⟨65, false⟩) ⟨.hiragana, .inputting {}, history⟩ =
      some (.processed true (some (.editing ['あ'] [['あ']])),
        ⟨.hiragana, .inputting ⟨⟨['あ'], 1⟩, [['あ']]⟩, history⟩) := by
  have hexecute : execute (.inputting {}) (kanjiFirst.withHistory history) ⟨65, false⟩
      .hiragana = some (result true (some (.editing ['あ'] [['あ']]))
        (some (.inputting ⟨⟨['あ'], 1⟩, [['あ']]⟩))) := by
    have hchar : keyToChar .hiragana ⟨65, false⟩ = some 'a' := by decide
    have hbuffer : Buffer.insertChar {} 'a' = some ⟨['あ'], 1⟩ := by decide
    simp only [execute, executeInputting, hchar, InputMode.case, Inputting.State.insertChar,
      hbuffer]
    rfl
  exact @handle_processInput kanjiFirst ⟨65, false⟩ ⟨.hiragana, .inputting {}, history⟩ _ _
    hexecute rfl

/-- The second conversion offers the form that was committed first. -/
theorem convert_of_path_kanjiFirst :
    ∃ pron, Inputting.State.bufferGetPron ⟨⟨['あ'], 1⟩, [['あ']]⟩ = some pron ∧
      Converting.State.mk [⟨['あ'], [⟨['あ']⟩, ⟨['亜']⟩], 0, true, false⟩] ['あ'] 0 =
        ⟨(kanjiFirst.ime.kkc.convert pron).map fun base =>
          Converting.ofKkcSegment
            (overwrite (lastCommitted commitSecondCandidate base.pron) base), pron, 0⟩ := by
  have hpath : handle.Path makeInitialState (commitSecondCandidate ++
      ⟨⟨.hiragana, .inputting ⟨⟨['あ'], 1⟩, [['あ']]⟩, History.put .empty ['あ'] ['あ']⟩,
        (kanjiFirst, .processInput ⟨32, false⟩),
        .processed true (some (.converting [['あ']] 0 [] 0)),
        ⟨.hiragana, .converting ⟨[⟨['あ'], [⟨['あ']⟩, ⟨['亜']⟩], 0, true, false⟩], ['あ'], 0⟩,
          History.put .empty ['あ'] ['あ']⟩⟩ :: []) :=
    .cons rfl (.cons (kanjiFirst_type _) (.cons rfl (.cons rfl (.cons rfl
      (.cons (kanjiFirst_type _) (.cons rfl .nil))))))
  exact convert_of_path hpath rfl rfl rfl

end Hachee.Senn.Win
