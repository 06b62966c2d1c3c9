import Hachee.Senn.Fcitx.WellFormed

/-!
# Predictions for the text that is typed

An inputting state stores the predictions for its string.  Typing and deleting a
character renew them, and moving the cursor needs not.  But a conversion can be
left by the backspace key, which types its pronunciation again, and by a
character, which commits it.  Both make an inputting state of a buffer alone, so
the state has text and no predictions.

Exactly these two steps leave the predictions behind the text, and only if the
predictor has something to say about it (`predicted_iff_of_path`).
-/

namespace Hachee.Senn.Fcitx

open Lisp Senn.Im Foundation

/-- The predictions of an inputting state are those for its string. -/
def State.Predicted (s : State) (ime : Ime) : Prop :=
  ∀ state, s = .inputting state → state.predictions = ime.listPredictions state.bufferString

/-- The text with which a request goes on when it leaves a conversion. -/
def State.retyped (s : State) (request : Request) : Option Str :=
  match s, request with
  | .converting s, .processInput key =>
      if key.backspaceP then some s.pronunciation
      else if key.charP then some (Buffer.typeChar [] key.char)
      else none
  | _, _ => none

theorem predicted_empty (ime : Ime) : (State.inputting {}).Predicted ime := by
  rintro _ ⟨⟩
  rfl

theorem predicted_converting (s : Converting.State) (ime : Ime) :
    (State.converting s).Predicted ime := fun _ hstate => State.noConfusion hstate

/-! ## Leaving a conversion -/

section

variable {key : Key} {ime : Ime} {output : Output} {state : Option State}

/-- Only the backspace key and the printable characters leave a text behind. -/
theorem retyped_eq_none (s : Converting.State) (hkey : key.sym ≤ 32 ∨ 65289 ≤ key.sym) :
    (State.converting s).retyped (.processInput key) = none := by
  have hback : key.backspaceP = false := by
    simp only [Key.backspaceP, Key.symP, decide_eq_false_iff_not]
    omega
  have hchar : key.charP = false := by
    simp only [Key.charP, decide_eq_false_iff_not, show '!'.toNat = 33 from rfl,
      show '~'.toNat = 126 from rfl]
    omega
  simp [State.retyped, hback, hchar]

theorem sym_of_symP {sym : Int} (h : key.symP sym = true) : key.sym = sym := by
  simpa [Key.symP] using h

/-- What a key makes of a conversion: a conversion, a buffer without predictions,
or a fresh state. -/
theorem executeConverting_retyped {s : Converting.State}
    (h : executeConverting s key ime = some (output, state)) :
    match (State.converting s).retyped (.processInput key) with
    | some string => ∃ buffer : Buffer, state = some (.inputting { buffer }) ∧
        buffer.string = string
    | none => (∃ s', state = some (.converting s')) ∨ state = some (.inputting {}) := by
  rcases ite_inv h with ⟨hleft, h⟩ | ⟨-, h⟩
  · obtain ⟨view, -, -, rfl⟩ := resp_inv h
    have hsym : key.sym = 65361 := sym_of_symP hleft
    rw [retyped_eq_none s (by omega)]
    exact Or.inl ⟨_, rfl⟩
  rcases ite_inv h with ⟨hright, h⟩ | ⟨-, h⟩
  · obtain ⟨view, -, -, rfl⟩ := resp_inv h
    have hsym : key.sym = 65363 := sym_of_symP hright
    rw [retyped_eq_none s (by omega)]
    exact Or.inl ⟨_, rfl⟩
  rcases ite_inv h with ⟨hspace, h⟩ | ⟨-, h⟩
  · obtain ⟨s', -, h⟩ := bind_inv h
    obtain ⟨view, -, -, rfl⟩ := resp_inv h
    have hsym : key.sym = 32 ∨ key.sym = 65364 :=
      ((Bool.or_eq_true _ _).mp hspace).imp sym_of_symP sym_of_symP
    rw [retyped_eq_none s (by omega)]
    exact Or.inl ⟨_, rfl⟩
  rcases ite_inv h with ⟨hup, h⟩ | ⟨-, h⟩
  · obtain ⟨s', -, h⟩ := bind_inv h
    obtain ⟨view, -, -, rfl⟩ := resp_inv h
    have hsym : key.sym = 65362 := sym_of_symP hup
    rw [retyped_eq_none s (by omega)]
    exact Or.inl ⟨_, rfl⟩
  rcases ite_inv h with ⟨hf7, h⟩ | ⟨-, h⟩
  · obtain ⟨s', -, h⟩ := bind_inv h
    obtain ⟨view, -, -, rfl⟩ := resp_inv h
    have hsym : key.sym = 65476 := sym_of_symP hf7
    rw [retyped_eq_none s (by omega)]
    exact Or.inl ⟨_, rfl⟩
  rcases ite_inv h with ⟨hback, h⟩ | ⟨hback, h⟩
  · obtain ⟨view, -, -, rfl⟩ := resp_inv h
    simp only [State.retyped, hback, if_true]
    exact ⟨_, rfl, rfl⟩
  rcases ite_inv h with ⟨hchar, h⟩ | ⟨hchar, h⟩
  · obtain ⟨buffer, hbuffer, h⟩ := bind_inv h
    obtain ⟨input, -, h⟩ := bind_inv h
    obtain ⟨view, -, -, rfl⟩ := resp_inv h
    cases hbuffer.symm.trans (Buffer.insertChar_ofSplit [] [] key.char)
    simp only [State.retyped, hback, hchar, if_true, if_false, Bool.false_eq_true]
    exact ⟨_, rfl, List.append_nil _⟩
  · obtain ⟨input, -, h⟩ := bind_inv h
    obtain ⟨view, -, -, rfl⟩ := resp_inv h
    have hnone : (State.converting s).retyped (.processInput key) = none := by
      simp [State.retyped, hback, hchar]
    rw [hnone]
    exact Or.inr rfl

end

/-! ## Steps -/

section

variable {ime predicting : Ime} {request : Request} {s s' : State}

/-- Predictions are renewed with the text, except in a conversion that is left. -/
theorem Move.predicted {text : Str} (h : Move ime request s text s')
    (hs : s.Predicted predicting) (hpredictor : ime.listPredictions = predicting.listPredictions)
    (hconverting : ∀ state, s ≠ .converting state) : s'.Predicted predicting := by
  cases h with
  | stay => exact hs
  | reset => exact predicted_empty predicting
  | type hins =>
      obtain ⟨buffer, -, hins⟩ := bind_inv hins
      cases hins
      rintro _ ⟨⟩
      exact congrFun hpredictor _
  | delete _ hdel =>
      rcases ite_inv hdel with ⟨-, hdel⟩ | ⟨-, hdel⟩
      · cases hdel
      · obtain ⟨buffer, -, hdel⟩ := bind_inv hdel
        cases hdel
        rintro _ ⟨⟩
        exact congrFun hpredictor _
  | @moveCursor s diff =>
      rintro _ ⟨⟩
      have hstring : (s.bufferCursorPosMove diff).bufferString = s.bufferString :=
        Buffer.string_moveCursorPos s.buffer diff
      rw [hstring]
      exact hs s rfl
  | commitSpace => exact predicted_empty predicting
  | commitInput => exact predicted_empty predicting
  | commitPrediction => exact predicted_empty predicting
  | commitKatakana => exact predicted_empty predicting
  | selectPrediction => exact fun _ hstate => State.noConfusion hstate
  | katakana => exact fun _ hstate => State.noConfusion hstate
  | convert => exact predicted_converting _ predicting
  | movePrediction => exact fun _ hstate => State.noConfusion hstate
  | moveSegment => exact predicted_converting _ predicting
  | moveCandidate => exact predicted_converting _ predicting
  | setCandidate => exact predicted_converting _ predicting
  | segmentKatakana => exact predicted_converting _ predicting
  | inputAgain => exact absurd rfl (hconverting _)
  | commitAndType => exact absurd rfl (hconverting _)
  | commit => exact predicted_empty predicting

/-- A request that leaves a conversion for a text leaves no predictions. -/
theorem handle_predicted_iff {output : Option Output}
    (h : handle (ime, request) s = some (output, s')) (hs : s.Predicted predicting)
    (hpredictor : ime.listPredictions = predicting.listPredictions) :
    s'.Predicted predicting ↔
      ∀ string, s.retyped request = some string → predicting.listPredictions string = [] := by
  have renewed : (∀ state, s ≠ .converting state) → (s'.Predicted predicting ↔
      ∀ string, s.retyped request = some string → predicting.listPredictions string = []) := by
    intro hconverting
    have hpredicted := (handle_move h).predicted hs hpredictor hconverting
    refine iff_of_true hpredicted fun string hstring => ?_
    cases s with
    | converting state => exact absurd rfl (hconverting state)
    | inputting state => cases hstring
    | katakana state => cases hstring
    | selectingFromPredictions state => cases hstring
  cases s with
  | inputting state => exact renewed fun _ => State.noConfusion
  | katakana state => exact renewed fun _ => State.noConfusion
  | selectingFromPredictions state => exact renewed fun _ => State.noConfusion
  | converting state =>
      cases request with
      | resetIm =>
          cases h
          exact iff_of_true (predicted_empty predicting) fun _ hstring => by cases hstring
      | selectCandidate index =>
          obtain ⟨⟨out, new⟩, hselect, h⟩ := bind_inv h
          cases h
          obtain ⟨state', -, hselect⟩ := bind_inv hselect
          obtain ⟨view, -, -, rfl⟩ := resp_inv hselect
          exact iff_of_true (predicted_converting _ predicting) fun _ hstring => by cases hstring
      | processInput key =>
          obtain ⟨⟨out, new⟩, hexecute, h⟩ := bind_inv h
          cases h
          have hretyped := executeConverting_retyped hexecute
          cases hstring : (State.converting state).retyped (.processInput key) with
          | none =>
              rw [hstring] at hretyped
              refine iff_of_true ?_ fun _ hnone => by cases hnone
              rcases hretyped with ⟨state', rfl⟩ | rfl
              · exact predicted_converting state' predicting
              · exact predicted_empty predicting
          | some string =>
              rw [hstring] at hretyped
              obtain ⟨buffer, rfl, hbuffer⟩ := hretyped
              constructor
              · rintro hpredicted _ ⟨⟩
                have hpredictions := hpredicted { buffer } rfl
                rw [Inputting.State.bufferString, hbuffer] at hpredictions
                exact hpredictions.symm
              · rintro hempty _ ⟨⟩
                rw [Inputting.State.bufferString, hbuffer]
                exact (hempty string rfl).symm

end

/-! ## Runs -/

/-- In a run with one predictor the predictions are always those for the text that
is typed, if and only if no conversion is left for a text that has predictions. -/
theorem predicted_iff_of_path {ime : Ime}
    {steps : List (Handler.Step (Ime × Request) State (Option Output))}
    (hpath : handle.Path makeInitialState steps)
    (hpredictor : ∀ x ∈ steps, x.request.1.listPredictions = ime.listPredictions) :
    (∀ x ∈ steps, x.next.Predicted ime) ↔
      ∀ x ∈ steps, ∀ string, x.state.retyped x.request.2 = some string →
        ime.listPredictions string = [] := by
  have hiff : ∀ x ∈ steps, x.state.Predicted ime → (x.next.Predicted ime ↔
      ∀ string, x.state.retyped x.request.2 = some string → ime.listPredictions string = []) :=
    fun x hx hs => handle_predicted_iff (hpath.answer hx) hs (hpredictor x hx)
  constructor
  · intro hpredicted x hx
    have hs := hpath.invariant (fun s => s.Predicted ime) (predicted_empty ime)
      (fun y hy _ => hpredicted y hy) x hx
    exact (hiff x hx hs.1).mp hs.2
  · intro hempty x hx
    exact (hpath.invariant (fun s => s.Predicted ime) (predicted_empty ime)
      (fun y hy hs => (hiff y hy hs).mpr (hempty y hy)) x hx).2

/-- Type `a`, convert it, and press the backspace key. -/
def convertAndBackspace : List (Handler.Step (Ime × Request) State (Option Output)) :=
  let typed : State := .inputting ⟨⟨['あ'], 1⟩, [['あ']]⟩
  let converted : State := .converting (Converting.convert .echo ['あ'])
  [⟨makeInitialState, (.echo, .processInput ⟨97, 0⟩),
      some ⟨true, some (.editing 3 ['あ'] [['あ']] (-1) [])⟩, typed⟩,
    ⟨typed, (.echo, .processInput ⟨32, 0⟩),
      some ⟨true, some (.converting [['あ']] 0 [] 0)⟩, converted⟩,
    ⟨converted, (.echo, .processInput ⟨65288, 0⟩),
      some ⟨true, some (.editing 3 ['あ'] [] (-1) [])⟩, .inputting ⟨⟨['あ'], 1⟩, []⟩⟩]

set_option maxRecDepth 4096 in
theorem path_convertAndBackspace : handle.Path makeInitialState convertAndBackspace :=
  .cons (by decide) (.cons (by decide) (.cons (by decide) .nil))

set_option maxRecDepth 4096 in
/-- Before the conversion is left, the predictions are those for the text. -/
theorem predicted_iff_of_path_convert :
    handle.Path makeInitialState (convertAndBackspace.take 2) ∧
      ((∀ x ∈ convertAndBackspace.take 2, x.next.Predicted .echo) ↔
        ∀ x ∈ convertAndBackspace.take 2, ∀ string, x.state.retyped x.request.2 = some string →
          Ime.echo.listPredictions string = []) := by
  have hpath : handle.Path makeInitialState (convertAndBackspace.take 2) :=
    .cons (by decide) (.cons (by decide) .nil)
  refine ⟨hpath, predicted_iff_of_path hpath ?_⟩
  simp [convertAndBackspace]

/-- The text is there again and its predictions are not. -/
theorem not_predicted_of_path :
    handle.Path makeInitialState convertAndBackspace ∧
      (∀ x ∈ convertAndBackspace, x.request.1 = .echo) ∧
      ¬(∀ x ∈ convertAndBackspace, x.next.Predicted .echo) := by
  refine ⟨path_convertAndBackspace, by simp [convertAndBackspace], fun h => ?_⟩
  have hmem : convertAndBackspace[2] ∈ convertAndBackspace := List.getElem_mem _
  have hpredictions := h _ hmem _ rfl
  cases hpredictions

end Hachee.Senn.Fcitx
