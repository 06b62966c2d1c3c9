import Hachee.Senn.Ibus.StatefulIme
import Hachee.Senn.Win.CanProcess

/-!
# Events that are passed on to the application

An event that an input method does not consume is handled by the application.  It
should not have changed the input method as well.

`resp` reports an event as consumed exactly if it is given a view.  So an answer
of the fcitx input method is *passed on* where `resp` is given neither a view nor
a state, and every branch of `execute` and `select-candidate` gives both or
neither or a view alone (`PassesOn`).  The ibus input method answers through the
fcitx one, and the answers of the Windows input method were listed in `Answer`.
-/

namespace Hachee.Senn

open Lisp Senn.Im Foundation

namespace Fcitx

/-- An event that is not consumed comes with no new state. -/
def PassesOn (answer : Option (Output × Option State)) : Prop :=
  ∀ output state, answer = some (output, state) → output.consumedP = false → state = none

section

variable {α : Type*} {key : Key} {ime : Ime}

theorem PassesOn.ite {c : Prop} [Decidable c] {x y : Option (Output × Option State)}
    (hx : PassesOn x) (hy : PassesOn y) : PassesOn (if c then x else y) := by
  split
  next => exact hx
  next => exact hy

theorem PassesOn.bind {x : Option α} {f : α → Option (Output × Option State)}
    (hf : ∀ a, PassesOn (f a)) : PassesOn (x.bind f) := by
  intro output state h
  obtain ⟨a, -, h⟩ := Option.bind_eq_some_iff.mp h
  exact hf a output state h

/-- An answer with a view is consumed. -/
theorem PassesOn.view (view : View) (newState : Option State) :
    PassesOn (some (resp (some view) newState)) := by
  rintro output state h hconsumed
  cases h
  cases hconsumed

/-- An answer with neither a view nor a state. -/
theorem PassesOn.none : PassesOn (some (resp none)) := by
  rintro output state h -
  cases h
  rfl

/-- An answer that needs a view. -/
theorem PassesOn.of_view {v : Option View} {newState : Option State} :
    PassesOn (do let view ← v; return resp (some view) newState) :=
  .bind fun view => .view view newState

theorem executeKatakana_passesOn (s : Katakana) : PassesOn (executeKatakana s key) :=
  .ite .of_view (.view _ _)

theorem executeSelectingFromPredictions_passesOn (s : SelectingFromPredictions) :
    PassesOn (executeSelectingFromPredictions s key) :=
  .ite .of_view (.ite .of_view (.ite .of_view .of_view))

theorem executeConverting_passesOn (s : Converting.State) :
    PassesOn (executeConverting s key ime) := by
  refine .ite .of_view (.ite .of_view ?_)
  -- The moves among the candidates, and F7.
  refine .ite (.bind fun _ => .of_view) (.ite (.bind fun _ => .of_view) ?_)
  refine .ite (.bind fun _ => .of_view) ?_
  -- Backspace.
  refine .ite .of_view ?_
  exact .ite (.bind fun _ => .bind fun _ => .of_view) (.bind fun _ => .of_view)

theorem executeInputting_passesOn (s : Inputting.State) :
    PassesOn (executeInputting s key ime) := by
  -- The super key and the control key.
  refine .ite .none (.ite (.ite .none .of_view) ?_)
  -- Tab.
  refine .ite (.ite .none .of_view) ?_
  -- A character, F7 and space.
  refine .ite (.bind fun _ => .of_view) (.ite (.view _ _) ?_)
  refine .ite (.ite .of_view (.bind fun _ => .of_view)) ?_
  -- Enter.
  refine .ite (.ite .none .of_view) ?_
  -- Backspace answers without a view where it has deleted nothing.
  refine .ite (.bind fun deleted => ?_) ?_
  · cases deleted with
    | none => exact .none
    | some s' => exact .of_view
  -- Left and right.
  exact .ite .of_view (.ite .of_view .none)

theorem execute_passesOn (s : State) : PassesOn (execute s key ime) := by
  cases s with
  | inputting s => exact executeInputting_passesOn s
  | converting s => exact executeConverting_passesOn s
  | katakana s => exact executeKatakana_passesOn s
  | selectingFromPredictions s => exact executeSelectingFromPredictions_passesOn s

theorem selectCandidate_passesOn (s : State) (index : Int) :
    PassesOn (selectCandidate s index) := by
  cases s with
  | inputting s => exact .ite .of_view .none
  | converting s => exact .bind fun _ => .of_view
  | katakana s => exact .none
  | selectingFromPredictions s => exact .none

end

/-- The state stays where an event is not consumed. -/
theorem PassesOn.getD_eq {answer : Option (Output × Option State)} (h : PassesOn answer)
    {output : Output} {state : Option State} (hanswer : answer = some (output, state))
    (hconsumed : output.consumedP = false) (s : State) : state.getD s = s := by
  rw [h output state hanswer hconsumed]
  rfl

theorem handle_of_not_consumed {ime : Ime} {request : Request} {s s' : State} {output : Output}
    (h : handle (ime, request) s = some (some output, s')) (hconsumed : output.consumedP = false) :
    s' = s := by
  cases request with
  | processInput key =>
      obtain ⟨⟨output', state⟩, hexecute, h⟩ := bind_inv h
      cases h
      exact (execute_passesOn s).getD_eq hexecute hconsumed s
  | selectCandidate index =>
      obtain ⟨⟨output', state⟩, hselect, h⟩ := bind_inv h
      cases h
      exact (selectCandidate_passesOn s index).getD_eq hselect hconsumed s
  | resetIm => cases h

end Fcitx

theorem Ibus.handle_of_not_consumed {kkc : Kkc} {request : Ibus.Request} {s s' : Ibus.State}
    {output : Fcitx.Output} (h : Ibus.handle (kkc, request) s = some (.output output, s'))
    (hconsumed : output.consumedP = false) : s' = s := by
  obtain ⟨mode, fcitxState⟩ := s
  cases request with
  | toggleInputMode => cases mode <;> cases h
  | processInput key =>
      cases mode with
      | direct =>
          cases h
          rfl
      | hiragana =>
          obtain ⟨state, rfl, h⟩ := bind_inv h
          obtain ⟨⟨output', state'⟩, hexecute, h⟩ := bind_inv h
          cases h
          rw [(Fcitx.execute_passesOn state).getD_eq hexecute hconsumed]
  | selectCandidate index =>
      cases mode with
      | direct =>
          cases h
          rfl
      | hiragana =>
          obtain ⟨state, rfl, h⟩ := bind_inv h
          obtain ⟨⟨output', state'⟩, hselect, h⟩ := bind_inv h
          cases h
          rw [(Fcitx.selectCandidate_passesOn state index).getD_eq hselect hconsumed]
  | resetIm => cases h

/-- The only answer with a `0` has no new state and commits nothing. -/
theorem Win.handle_of_not_processed {stateful : Win.StatefulIme} {request : Win.Request}
    {s s' : Win.State} {view : Option Win.View}
    (h : Win.handle (stateful, request) s = some (.processed false view, s')) : s' = s := by
  cases request with
  | toggleInputMode =>
      obtain ⟨x, -, h⟩ := bind_inv h
      cases h
  | processInput key =>
      obtain ⟨r, history, hexecute, hhistory, houtput, rfl⟩ := Win.handle_processInput_eq h
      obtain ⟨mode, inputState, history'⟩ := s
      cases Win.execute_answer hexecute with
      | pass =>
          cases hhistory
          rfl
      | type => cases houtput
      | delete => cases houtput
      | convert => cases houtput
      | commitInput => cases houtput
      | moveCandidate => cases houtput
      | moveSegment => cases houtput
      | commitConversion => cases houtput

/-- In every run of each of the three input methods, a key or a candidate that is reported
as not consumed leaves the whole state as it was. -/
theorem unchanged_of_not_consumed :
    (∀ steps, Fcitx.handle.Path Fcitx.makeInitialState steps → ∀ x ∈ steps, ∀ output,
      x.output = some output → output.consumedP = false → x.next = x.state) ∧
    (∀ steps, Ibus.handle.Path Ibus.makeInitialState steps → ∀ x ∈ steps, ∀ output,
      x.output = .output output → output.consumedP = false → x.next = x.state) ∧
    (∀ steps, Win.handle.Path Win.makeInitialState steps → ∀ x ∈ steps, ∀ view,
      x.output = .processed false view → x.next = x.state) := by
  refine ⟨fun steps hpath x hx output houtput hconsumed => ?_,
    fun steps hpath x hx output houtput hconsumed => ?_, fun steps hpath x hx view houtput => ?_⟩
  · have hanswer := hpath.answer hx
    rw [houtput] at hanswer
    exact Fcitx.handle_of_not_consumed hanswer hconsumed
  · have hanswer := hpath.answer hx
    rw [houtput] at hanswer
    exact Ibus.handle_of_not_consumed hanswer hconsumed
  · have hanswer := hpath.answer hx
    rw [houtput] at hanswer
    exact Win.handle_of_not_processed hanswer

/-- Type `a`, and press F1. -/
def Fcitx.typeAndF1 (last : Fcitx.State) :
    List (Handler.Step (Ime × Fcitx.Request) Fcitx.State (Option Fcitx.Output)) :=
  let typed : Fcitx.State := .inputting ⟨⟨['あ'], 1⟩, [['あ']]⟩
  [⟨makeInitialState, (.echo, .processInput ⟨97, 0⟩),
      some ⟨true, some (.editing 3 ['あ'] [['あ']] (-1) [])⟩, typed⟩,
    ⟨typed, (.echo, .processInput ⟨65470, 0⟩), some ⟨false, none⟩, last⟩]

/-- Toggle, type `a`, and press F1. -/
def Ibus.typeAndF1 (last : Ibus.State) :
    List (Handler.Step (Kkc × Ibus.Request) Ibus.State Ibus.Output) :=
  let kkc : Kkc := Ime.echo.kkc
  let typed : Ibus.State := ⟨.hiragana, some (.inputting ⟨⟨['あ'], 1⟩, []⟩)⟩
  [⟨makeInitialState, (kkc, .toggleInputMode), .mode "HIRAGANA".toList,
      ⟨.hiragana, some Fcitx.makeInitialState⟩⟩,
    ⟨⟨.hiragana, some Fcitx.makeInitialState⟩, (kkc, .processInput ⟨97, 0⟩),
      .output ⟨true, some (.editing 3 ['あ'] [] (-1) [])⟩, typed⟩,
    ⟨typed, (kkc, .processInput ⟨65470, 0⟩), .output ⟨false, none⟩, last⟩]

/-- Type `a`, go back to the direct mode, and press the left key. -/
def Win.typeAndLeft (last : Win.State) :
    List (Handler.Step (Win.StatefulIme × Win.Request) Win.State Win.Output) :=
  let typed : Inputting.State := ⟨⟨['あ'], 1⟩, [['あ']]⟩
  [⟨makeInitialState, (.echo, .toggleInputMode), .ok, ⟨.hiragana, .inputting {}, .empty⟩⟩,
    ⟨⟨.hiragana, .inputting {}, .empty⟩, (.echo, .processInput ⟨65, false⟩),
      .processed true (some (.editing ['あ'] [['あ']])), ⟨.hiragana, .inputting typed, .empty⟩⟩,
    ⟨⟨.hiragana, .inputting typed, .empty⟩, (.echo, .toggleInputMode), .ok,
      ⟨.direct, .inputting typed, .empty⟩⟩,
    ⟨⟨.direct, .inputting typed, .empty⟩, (.echo, .processInput ⟨37, false⟩),
      .processed false none, last⟩]

set_option maxRecDepth 4096 in
/-- The typed text stays in each of the three. -/
theorem unchanged_of_not_consumed_typed :
    (∃ last, Fcitx.handle.Path Fcitx.makeInitialState (Fcitx.typeAndF1 last) ∧
      last = .inputting ⟨⟨['あ'], 1⟩, [['あ']]⟩) ∧
    (∃ last, Ibus.handle.Path Ibus.makeInitialState (Ibus.typeAndF1 last) ∧
      last = ⟨.hiragana, some (.inputting ⟨⟨['あ'], 1⟩, []⟩)⟩) ∧
    ∃ last, Win.handle.Path Win.makeInitialState (Win.typeAndLeft last) ∧
      last = ⟨.direct, .inputting ⟨⟨['あ'], 1⟩, [['あ']]⟩, .empty⟩ := by
  have hfcitx : Fcitx.handle.Path Fcitx.makeInitialState (Fcitx.typeAndF1 _) :=
    .cons (by decide) (.cons rfl .nil)
  have hibus : Ibus.handle.Path Ibus.makeInitialState (Ibus.typeAndF1 _) :=
    .cons (by decide) (.cons (by decide) (.cons rfl .nil))
  have hwin : Win.handle.Path Win.makeInitialState (Win.typeAndLeft _) :=
    .cons rfl (.cons Win.processInput_type (.cons rfl (.cons rfl .nil)))
  refine ⟨⟨_, hfcitx, ?_⟩, ⟨_, hibus, ?_⟩, ⟨_, hwin, ?_⟩⟩
  · exact unchanged_of_not_consumed.1 _ hfcitx _ (List.getElem_mem (n := 1) (by decide)) _ rfl rfl
  · exact unchanged_of_not_consumed.2.1 _ hibus _ (List.getElem_mem (n := 2) (by decide)) _ rfl rfl
  · exact unchanged_of_not_consumed.2.2 _ hwin _ (List.getElem_mem (n := 3) (by decide)) _ rfl

end Hachee.Senn
