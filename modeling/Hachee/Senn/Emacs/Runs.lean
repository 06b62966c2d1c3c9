import Hachee.Senn.Emacs.Choice
import Hachee.Senn.Emacs.EchoArea

/-!
# Runs of commands of the Emacs client

A run is a list of commands, each with the answers of the server and the display it meets.

The indices stay valid in every run without an error (`WellFormed`).  An error comes from two
things.  A lookup takes the current options of the segment and of its neighbours, and there is
none where one of them shows kana.  And the text of the echo area is a format string.
`Meets` is the condition under which a command has no error.
-/

namespace Hachee.Senn.Emacs

open Lisp (Str)
open Foundation Pages

/-! ## The commands as a handler -/

/-- The commands.  The keymap binds `senn-select-from-chars` to the selector characters. -/
inductive Command
  | nextOption
  | prevOption
  | toHiragana
  | toKatakana
  | moveTopOfOptions
  | moveBottomOfOptions
  | nextSelect
  | prevSelect
  | selectFromChars (selectorChar : {char : Char // char ∈ selectorChars})

/-- What a command does. -/
def perform (env : Env) : Command → Conversion → Outcome
  | .nextOption, conv => nextOption env conv
  | .prevOption, conv => prevOption env conv
  | .toHiragana, conv => toHiragana conv
  | .toKatakana, conv => toKatakana conv
  | .moveTopOfOptions, conv => moveTopOfOptions conv
  | .moveBottomOfOptions, conv => moveBottomOfOptions conv
  | .nextSelect, conv => nextSelect conv
  | .prevSelect, conv => prevSelect conv
  | .selectFromChars selectorChar, conv => selectFromChars selectorChar conv

/-- An error is no answer. -/
def Outcome.answer : Outcome → Option (Option Str × Conversion)
  | .returns conv message => some (message, conv)
  | .signals _ => none

/-- The commands one after the other. -/
def execute : Handler (Env × Command) Conversion (Option Str) :=
  fun (env, command) conv => (perform env command conv).answer

/-! ## The invariant -/

/-- The index of the current option is -2, -1 or that of an option. -/
def Select.ValidIndex (select : Select) : Prop :=
  select.currOptionIdx = -2 ∨ select.currOptionIdx = -1 ∨
    (0 ≤ select.currOptionIdx ∧ select.currOptionIdx < select.options.length)

/-- A segment: until the lookup it has one option, and then pages of options. -/
structure Select.WellFormed (select : Select) : Prop where
  optionCount_eq : select.optionCount = select.options.length
  options_ne_nil : select.options ≠ []
  validIndex : select.ValidIndex
  single : select.moreOptionsP = true → select.options.length = 1 ∧ select.selectors = []
  paged : select.moreOptionsP = false →
    Paged optionOutputSize select.options select.selectors

structure Conversion.WellFormed (conv : Conversion) : Prop where
  selectCount_eq : conv.selectCount = conv.selects.length
  currSelectIdx_lt : conv.currSelectIdx < conv.selects.length
  select : ∀ select ∈ conv.selects, select.WellFormed

/-- An index that is not negative is that of an option. -/
theorem Select.ValidIndex.exists_eq {select : Select} (h : select.ValidIndex)
    (hle : 0 ≤ select.currOptionIdx) :
    ∃ i : Nat, select.currOptionIdx = i ∧ i < select.options.length := by
  obtain ⟨i, hi⟩ := Int.eq_ofNat_of_zero_le hle
  obtain hkana | hkana | hlt := h
  · omega
  · omega
  · exact ⟨i, hi, by omega⟩

theorem wordSelect_wellFormed (word : Word) : (wordSelect word).WellFormed where
  optionCount_eq := rfl
  options_ne_nil := List.cons_ne_nil _ _
  validIndex := .inr (.inr ⟨Int.le_refl 0, Int.zero_lt_one⟩)
  single := fun _ => ⟨rfl, rfl⟩
  paged := fun h => nomatch h

/-- What the server sends is converted to well-formed segments. -/
theorem convert_wellFormed (pron : Str) {words : List Word} (h : words ≠ []) :
    (convert pron words).WellFormed where
  selectCount_eq := rfl
  currSelectIdx_lt := by simpa [convert] using List.length_pos_iff.mpr h
  select := by
    intro select hmem
    obtain ⟨word, -, rfl⟩ := List.mem_map.mp hmem
    exact wordSelect_wellFormed word

namespace Conversion.WellFormed

variable {conv : Conversion} {select : Select}

theorem currSelect_eq (h : conv.WellFormed) :
    ∃ select, conv.currSelect = some select ∧ select.WellFormed :=
  ⟨_, List.getElem?_eq_getElem h.currSelectIdx_lt, h.select _ (List.getElem_mem _)⟩

theorem prevSelect_eq (h : conv.WellFormed) : ∃ select, getPrevSelectOrNil conv = some select ∧
    ∀ neighbour, select = some neighbour → neighbour.WellFormed := by
  rw [getPrevSelectOrNil]
  split
  · have hlt : conv.currSelectIdx - 1 < conv.selects.length := by
      have hcurr := h.currSelectIdx_lt
      omega
    refine ⟨_, by rw [List.getElem?_eq_getElem hlt, Option.map_some], ?_⟩
    rintro neighbour ⟨⟩
    exact h.select _ (List.getElem_mem _)
  · exact ⟨none, rfl, fun _ h => nomatch h⟩

theorem nextSelect_eq (h : conv.WellFormed) : ∃ select, getNextSelectOrNil conv = some select ∧
    ∀ neighbour, select = some neighbour → neighbour.WellFormed := by
  rw [getNextSelectOrNil]
  split
  · rename_i hnext
    have hlt : conv.currSelectIdx + 1 < conv.selects.length := by
      have hcount := h.selectCount_eq
      omega
    refine ⟨_, by rw [List.getElem?_eq_getElem hlt, Option.map_some], ?_⟩
    rintro neighbour ⟨⟩
    exact h.select _ (List.getElem_mem _)
  · exact ⟨none, rfl, fun _ h => nomatch h⟩

/-- A change of the current segment. -/
theorem setCurrSelect (h : conv.WellFormed) (hselect : select.WellFormed) :
    (conv.setCurrSelect select).WellFormed where
  selectCount_eq := by simpa [Conversion.setCurrSelect] using h.selectCount_eq
  currSelectIdx_lt := by simpa [Conversion.setCurrSelect] using h.currSelectIdx_lt
  select := by
    intro select' hmem
    cases List.mem_or_eq_of_mem_set hmem with
    | inl hmem => exact h.select select' hmem
    | inr heq => exact heq ▸ hselect

end Conversion.WellFormed

/-- Another conversion of the rest, if the server sends any words for it. -/
theorem reconvertWithBoundary_wellFormed {conv : Conversion} (h : conv.WellFormed)
    {apiConvert : Str → Int → List Word} (hwords : ∀ pron index, apiConvert pron index ≠ [])
    (diff : Int → Int) : ∃ conv', reconvertWithBoundary apiConvert conv diff = some conv' ∧
      conv'.WellFormed := by
  obtain ⟨select, hcurr, -⟩ := h.currSelect_eq
  refine ⟨_, by rw [reconvertWithBoundary, hcurr]; rfl, ⟨rfl, ?_, ?_⟩⟩
  · have hlt := h.currSelectIdx_lt
    have hpos := List.length_pos_iff.mpr (hwords ((conv.selects.drop conv.currSelectIdx).flatMap
      Select.pron) (diff select.pron.length))
    simp only [List.length_append, List.length_take, List.length_map]
    omega
  · intro select' hmem
    cases List.mem_append.mp hmem with
    | inl hmem => exact h.select select' (List.mem_of_mem_take hmem)
    | inr hmem =>
        obtain ⟨word, -, rfl⟩ := List.mem_map.mp hmem
        exact wordSelect_wellFormed word

/-- A move of the index. -/
theorem Select.WellFormed.move {select : Select} (h : select.WellFormed) {index : Int}
    (hindex : index = -2 ∨ index = -1 ∨ (0 ≤ index ∧ index < select.options.length))
    (npCount : Nat) :
    Select.WellFormed { select with currOptionIdx := index, npCount := npCount } :=
  ⟨h.optionCount_eq, h.options_ne_nil, hindex, h.single, h.paged⟩

/-! ## What is shown -/

/-- What is said of a command: it keeps the invariant, and it has no error if and only if it
meets the condition. -/
structure Outcome.Spec (outcome : Outcome) (meets : Prop) : Prop where
  keeps : ∀ conv message, outcome = .returns conv message → conv.WellFormed
  iff : (∃ conv message, outcome = .returns conv message) ↔ meets

theorem Outcome.Spec.of_returns {conv : Conversion} (h : conv.WellFormed) (message : Option Str) :
    (Outcome.returns conv message).Spec True where
  keeps := by
    rintro conv' message' ⟨⟩
    exact h
  iff := by simp

/-- The page of the current option, and no page before a lookup. -/
theorem showSelect_spec {conv : Conversion} {select : Select} (h : conv.WellFormed)
    (hselect : select.WellFormed) (hle : 0 ≤ select.currOptionIdx) :
    (showSelect conv select).Spec (ShownPlain select select.currOptionIdx) := by
  have hshown : (∃ message, messageSelect select = some message) ↔
      ShownPlain select select.currOptionIdx := by
    cases hmore : select.moreOptionsP with
    | true =>
        have hnil := (hselect.single hmore).2
        have hmessage : messageSelect select = some none := by
          rw [messageSelect, minibufString, if_pos hnil]
          rfl
        simp [hmessage, ShownPlain, findSelector, hnil]
    | false =>
        have hpaged := hselect.paged hmore
        obtain ⟨i, hi, hlt⟩ := hselect.validIndex.exists_eq hle
        obtain ⟨k, selector, hget, -, hfound, -⟩ := hpaged.findSelector_eq hlt
        rw [← hi] at hfound
        exact messageSelect_iff hfound (hpaged.size selector (List.mem_of_getElem? hget)).2
  rw [← hshown, showSelect]
  split
  · rename_i message hmessage
    refine ⟨?_, by simp [hmessage]⟩
    rintro conv' message' ⟨⟩
    exact h
  · rename_i hmessage
    exact ⟨fun _ _ heq => (by cases heq), by simp [hmessage]⟩

/-! ## Lookups -/

section Lookups

variable {select : Select}

theorem getCurrOption_eq (h : select.WellFormed) (hle : 0 ≤ select.currOptionIdx) :
    ∃ option, getCurrOption select = some (some option) := by
  obtain ⟨i, hi, hlt⟩ := h.validIndex.exists_eq hle
  refine ⟨select.options[i], ?_⟩
  rw [getCurrOption, if_pos hle, hi, Int.toNat_natCast, List.getElem?_eq_getElem hlt,
    Option.map_some]

theorem getCurrOption_kana (h : ¬0 ≤ select.currOptionIdx) : getCurrOption select = some none := by
  rw [getCurrOption, if_neg h]

/-- A segment that shows kana has no word. -/
theorem selectWord_iff (h : select.WellFormed) :
    (∃ word, selectWord select = some word) ↔ 0 ≤ select.currOptionIdx := by
  by_cases hle : 0 ≤ select.currOptionIdx
  · obtain ⟨option, hoption⟩ := getCurrOption_eq h hle
    simp [selectWord, hoption, hle]
  · simp [selectWord, getCurrOption_kana hle, hle]

theorem contextWord_iff {neighbour : Option Select}
    (h : ∀ select, neighbour = some select → select.WellFormed) :
    (∃ word, contextWord neighbour = some word) ↔
      ∀ select, neighbour = some select → 0 ≤ select.currOptionIdx := by
  cases neighbour with
  | none => simp [contextWord]
  | some select =>
      have hword := selectWord_iff (h select rfl)
      simp only [contextWord, Option.map_eq_some_iff, Option.some.injEq, forall_eq', ← hword]
      constructor
      · rintro ⟨word, word', hword, -⟩
        exact ⟨word', hword⟩
      · rintro ⟨word, hword⟩
        exact ⟨some word, word, hword, rfl⟩

variable {prevSelect nextSelect : Option Select}

/-- The segment after a lookup. -/
theorem ensureMoreOptionsLookedUp_words (env : Env) (h : select.WellFormed)
    (hmore : select.moreOptionsP = true) {option : SennOption}
    {prevWord nextWord : Option ContextWord} (hoption : getCurrOption select = some (some option))
    (hprev : contextWord prevSelect = some prevWord)
    (hnext : contextWord nextSelect = some nextWord) :
    ∃ select', ensureMoreOptionsLookedUp env select prevSelect nextSelect = some select' ∧
      select'.WellFormed ∧ select'.npCount = 0 := by
  have hnew : adjoinOptions option (lookupOptions env select.pron prevWord nextWord) ≠ [] :=
    List.cons_ne_nil _ _
  obtain ⟨selectors, hbuild, hpaged, -⟩ :=
    buildSelectors_paged env.display (show 1 ≤ optionOutputSize by decide) hnew
  rw [ensureMoreOptionsLookedUp, if_pos hmore]
  simp only [hoption, hprev, hnext, hbuild, Option.bind_eq_bind, Option.bind_some]
  refine ⟨_, rfl, ⟨rfl, hnew, ?_, fun hmore' => (nomatch hmore'), fun _ => hpaged⟩, rfl⟩
  -- the one option before the lookup is the first one after it
  have hsingle := (h.single hmore).1
  have hpos := List.length_pos_iff.mpr hnew
  obtain hkana | hkana | hlt := h.validIndex
  · exact .inl hkana
  · exact .inr (.inl hkana)
  · refine .inr (.inr ⟨hlt.1, ?_⟩)
    show select.currOptionIdx < (adjoinOptions _ _).length
    omega

/-- What a lookup takes. -/
theorem ensureMoreOptionsLookedUp_inv {env : Env} {select' : Select}
    (hmore : select.moreOptionsP = true)
    (h : ensureMoreOptionsLookedUp env select prevSelect nextSelect = some select') :
    ∃ option prevWord nextWord, getCurrOption select = some (some option) ∧
      contextWord prevSelect = some prevWord ∧ contextWord nextSelect = some nextWord := by
  rw [ensureMoreOptionsLookedUp, if_pos hmore] at h
  obtain ⟨option?, hoption, h⟩ := Lisp.bind_inv h
  obtain ⟨prevWord, hprev, h⟩ := Lisp.bind_inv h
  obtain ⟨nextWord, hnext, h⟩ := Lisp.bind_inv h
  obtain ⟨option, rfl, -⟩ := Lisp.bind_inv h
  exact ⟨option, prevWord, nextWord, hoption, hprev, hnext⟩

/-- A lookup has no error if and only if neither the segment nor a neighbour shows kana. -/
theorem ensureMoreOptionsLookedUp_iff (env : Env) (h : select.WellFormed)
    (hmore : select.moreOptionsP = true)
    (hprev : ∀ neighbour, prevSelect = some neighbour → neighbour.WellFormed)
    (hnext : ∀ neighbour, nextSelect = some neighbour → neighbour.WellFormed) :
    (∃ select', ensureMoreOptionsLookedUp env select prevSelect nextSelect = some select') ↔
      0 ≤ select.currOptionIdx ∧
        (∀ neighbour, prevSelect = some neighbour → 0 ≤ neighbour.currOptionIdx) ∧
        ∀ neighbour, nextSelect = some neighbour → 0 ≤ neighbour.currOptionIdx := by
  rw [← contextWord_iff hprev, ← contextWord_iff hnext]
  constructor
  · rintro ⟨select', hlookup⟩
    obtain ⟨option, prevWord, nextWord, hoption, hprev', hnext'⟩ :=
      ensureMoreOptionsLookedUp_inv hmore hlookup
    refine ⟨?_, ⟨prevWord, hprev'⟩, nextWord, hnext'⟩
    by_contra hkana
    rw [getCurrOption_kana hkana] at hoption
    cases hoption
  · rintro ⟨hle, ⟨prevWord, hprev'⟩, nextWord, hnext'⟩
    obtain ⟨option, hoption⟩ := getCurrOption_eq h hle
    obtain ⟨select', hlookup, -⟩ :=
      ensureMoreOptionsLookedUp_words env h hmore hoption hprev' hnext'
    exact ⟨select', hlookup⟩

theorem ensureMoreOptionsLookedUp_wellFormed {env : Env} {select' : Select} (h : select.WellFormed)
    (hmore : select.moreOptionsP = true)
    (hlookup : ensureMoreOptionsLookedUp env select prevSelect nextSelect = some select') :
    select'.WellFormed ∧ select'.npCount = 0 := by
  obtain ⟨option, prevWord, nextWord, hoption, hprev, hnext⟩ :=
    ensureMoreOptionsLookedUp_inv hmore hlookup
  obtain ⟨select'', hlookup', hwellFormed⟩ :=
    ensureMoreOptionsLookedUp_words env h hmore hoption hprev hnext
  obtain rfl := Option.some.inj (hlookup.symm.trans hlookup')
  exact hwellFormed

end Lookups

/-! ## The condition -/

/-- A lookup finds words of the segment and of its neighbours, and without a lookup the page
that is shown is plain.  After a lookup no page is shown. -/
def MeetsMove (newIndex : Int → Int → Int) (conv : Conversion) : Prop :=
  ∀ select, conv.currSelect = some select →
    if select.moreOptionsP then
      0 ≤ select.currOptionIdx ∧
        (∀ neighbour, getPrevSelectOrNil conv = some (some neighbour) →
          0 ≤ neighbour.currOptionIdx) ∧
        ∀ neighbour, getNextSelectOrNil conv = some (some neighbour) →
          0 ≤ neighbour.currOptionIdx
    else messageSelectCount ≤ select.npCount + 1 →
      ShownPlain select (newIndex select.optionCount select.currOptionIdx)

/-- The condition for a command to have no error. -/
def Meets : Command → Conversion → Prop
  | .nextOption, conv => MeetsMove nextIndex conv
  | .prevOption, conv => MeetsMove prevIndex conv
  | .moveTopOfOptions, conv =>
      ∀ select, conv.currSelect = some select → ShownPlain select 0
  | .moveBottomOfOptions, conv =>
      ∀ select, conv.currSelect = some select → ShownPlain select (select.optionCount - 1)
  | .selectFromChars _, conv =>
      ∀ select, conv.currSelect = some select → ShownPlain select select.currOptionIdx
  | _, _ => True

/-! ## The commands one by one -/

section Commands

variable {conv : Conversion}

/-- The move goes to an index of an option. -/
def Moves (newIndex : Int → Int → Int) : Prop :=
  ∀ count index : Int, 0 < count →
    (index = -2 ∨ index = -1 ∨ (0 ≤ index ∧ index < count)) →
      0 ≤ newIndex count index ∧ newIndex count index < count

theorem nextIndex_moves : Moves nextIndex := by
  intro count index hpos hindex
  rw [nextIndex]
  split
  · omega
  · omega

theorem prevIndex_moves : Moves prevIndex := by
  intro count index hpos hindex
  rw [prevIndex]
  split
  · omega
  · omega

section Move

variable {newIndex : Int → Int → Int} {select : Select}

theorem Moves.wellFormed (hmoves : Moves newIndex) (h : select.WellFormed) (npCount : Nat) :
    0 ≤ newIndex select.optionCount select.currOptionIdx ∧ Select.WellFormed { select with
      currOptionIdx := newIndex select.optionCount select.currOptionIdx
      npCount := npCount } := by
  have hpos := List.length_pos_iff.mpr h.options_ne_nil
  have hcount := h.optionCount_eq
  have hvalid := h.validIndex
  rw [Select.ValidIndex, ← hcount] at hvalid
  obtain ⟨hle, hlt⟩ := hmoves _ _ (by omega) hvalid
  exact ⟨hle, h.move (.inr (.inr ⟨hle, by omega⟩)) npCount⟩

/-- A move with a lookup shows no page. -/
theorem moveOption_lookup (hmoves : Moves newIndex) (env : Env) (h : conv.WellFormed)
    (hcurr : conv.currSelect = some select) (hselect : select.WellFormed)
    (hmore : select.moreOptionsP = true) :
    (moveOption newIndex env conv).Spec (MeetsMove newIndex conv) := by
  obtain ⟨prevSelect, hprev, hprevs⟩ := h.prevSelect_eq
  obtain ⟨nextSelect, hnext, hnexts⟩ := h.nextSelect_eq
  have hlookup : lookedUpSelect env conv =
      ensureMoreOptionsLookedUp env select prevSelect nextSelect := by
    rw [lookedUpSelect, hcurr, hprev, hnext]
    rfl
  have hmeets : MeetsMove newIndex conv ↔ ∃ select', lookedUpSelect env conv = some select' := by
    rw [hlookup, ensureMoreOptionsLookedUp_iff env hselect hmore hprevs hnexts]
    simp [MeetsMove, hcurr, hmore, hprev, hnext]
  rw [hmeets, moveOption]
  cases hresult : lookedUpSelect env conv with
  | none => exact ⟨fun _ _ heq => (by cases heq), by simp⟩
  | some select' =>
      obtain ⟨hselect', hnpCount⟩ :=
        ensureMoreOptionsLookedUp_wellFormed hselect hmore (hlookup ▸ hresult)
      have hmoved := (hmoves.wellFormed hselect' 1).2
      have hspec := Outcome.Spec.of_returns (h.setCurrSelect hmoved) none
      dsimp only
      rw [hnpCount, if_neg (by decide)]
      exact ⟨hspec.keeps, by simp⟩

/-- A move without a lookup. -/
theorem moveOption_lookedUp (hmoves : Moves newIndex) (env : Env) (h : conv.WellFormed)
    (hcurr : conv.currSelect = some select) (hselect : select.WellFormed)
    (hmore : select.moreOptionsP = false) :
    (moveOption newIndex env conv).Spec (MeetsMove newIndex conv) := by
  obtain ⟨prevSelect, hprev, -⟩ := h.prevSelect_eq
  obtain ⟨nextSelect, hnext, -⟩ := h.nextSelect_eq
  have hlookup : lookedUpSelect env conv = some select := by
    rw [lookedUpSelect, hcurr, hprev, hnext]
    exact if_neg (by simp [hmore])
  have hmeets : MeetsMove newIndex conv ↔ (messageSelectCount ≤ select.npCount + 1 →
      ShownPlain select (newIndex select.optionCount select.currOptionIdx)) := by
    simp [MeetsMove, hcurr, hmore]
  obtain ⟨hle, hmoved⟩ := hmoves.wellFormed hselect (select.npCount + 1)
  rw [hmeets, moveOption, hlookup]
  dsimp only
  split
  · rename_i hshow
    have hspec := showSelect_spec (h.setCurrSelect hmoved) hmoved hle
    exact ⟨hspec.keeps, hspec.iff.trans (by simp [hshow, ShownPlain])⟩
  · rename_i hshow
    have hspec := Outcome.Spec.of_returns (h.setCurrSelect hmoved) none
    exact ⟨hspec.keeps, by simp [hshow]⟩

theorem moveOption_spec (hmoves : Moves newIndex) (env : Env) (h : conv.WellFormed) :
    (moveOption newIndex env conv).Spec (MeetsMove newIndex conv) := by
  obtain ⟨select, hcurr, hselect⟩ := h.currSelect_eq
  cases hmore : select.moreOptionsP with
  | true => exact moveOption_lookup hmoves env h hcurr hselect hmore
  | false => exact moveOption_lookedUp hmoves env h hcurr hselect hmore

end Move

theorem jumpOption_spec (h : conv.WellFormed) (newIndex : Int → Int)
    (hindex : ∀ count, 0 < count → 0 ≤ newIndex count ∧ newIndex count < count) :
    (jumpOption newIndex conv).Spec (∀ select, conv.currSelect = some select →
      ShownPlain select (newIndex select.optionCount)) := by
  obtain ⟨select, hcurr, hselect⟩ := h.currSelect_eq
  have hpos := List.length_pos_iff.mpr hselect.options_ne_nil
  have hcount := hselect.optionCount_eq
  obtain ⟨hle, hlt⟩ := hindex select.optionCount (by omega)
  have hmoved := hselect.move (.inr (.inr ⟨hle, by omega⟩)) select.npCount
  have hspec := showSelect_spec (h.setCurrSelect hmoved) hmoved hle
  rw [jumpOption, hcurr]
  simp only [Option.some.injEq, forall_eq']
  exact hspec

theorem toKana_spec (h : conv.WellFormed) {index : Int} (hindex : index = -2 ∨ index = -1) :
    (toKana index conv).Spec True := by
  obtain ⟨select, hcurr, hselect⟩ := h.currSelect_eq
  have hmoved := hselect.move (hindex.imp_right .inl) select.npCount
  rw [toKana, hcurr]
  exact .of_returns (h.setCurrSelect hmoved) none

theorem nextSelect_spec (h : conv.WellFormed) : (nextSelect conv).Spec True := by
  rw [nextSelect]
  split
  · rename_i hlt
    have hcount := h.selectCount_eq
    have hnext : Conversion.WellFormed { conv with currSelectIdx := conv.currSelectIdx + 1 } :=
      ⟨hcount, by show conv.currSelectIdx + 1 < conv.selects.length; omega, h.select⟩
    exact .of_returns hnext none
  · exact .of_returns h none

theorem prevSelect_spec (h : conv.WellFormed) : (prevSelect conv).Spec True := by
  rw [prevSelect]
  split
  · have hlt := h.currSelectIdx_lt
    have hprev : Conversion.WellFormed { conv with currSelectIdx := conv.currSelectIdx - 1 } :=
      ⟨h.selectCount_eq, by show conv.currSelectIdx - 1 < conv.selects.length; omega, h.select⟩
    exact .of_returns hprev none
  · exact .of_returns h none

/-- A selector character goes to an option of the same page. -/
theorem chosenIndex_found {select : Select} {options : List SennOption} {selector : Selector}
    {i : Nat} (hpaged : Paged optionOutputSize options select.selectors) (hi : i < options.length)
    (hfound : findSelector i select.selectors = some selector) (position : Nat) :
    ∃ j : Nat, chosenIndex selector.region position i = j ∧ j < options.length ∧
      findSelector j select.selectors = some selector := by
  have hmem := List.mem_of_find?_eq_some hfound
  rw [chosenIndex_eq hpaged hmem]
  split
  · rename_i hlt
    obtain ⟨k, hget⟩ := List.mem_iff_getElem?.mp hmem
    have hoption := hpaged.options_getElem? hget hlt
    rw [List.getElem?_eq_getElem hlt] at hoption
    have hj := (List.getElem?_eq_some_iff.mp hoption).1
    refine ⟨_, rfl, hj, hpaged.findSelector_of_holds hget hj ⟨Nat.le_add_right _ _, ?_⟩⟩
    rw [hpaged.region_eq hget]
    dsimp only
    omega
  · exact ⟨i, rfl, hi, hfound⟩

theorem shownPlain_of_neg {select : Select} {index : Int} (h : ¬0 ≤ index) :
    ShownPlain select index := by
  intro selector hfound
  have hregion := List.find?_some hfound
  simp only [decide_eq_true_eq] at hregion
  omega

theorem selectFromChars_spec (h : conv.WellFormed)
    (selectorChar : {char : Char // char ∈ selectorChars}) :
    (selectFromChars selectorChar conv).Spec (∀ select, conv.currSelect = some select →
      ShownPlain select select.currOptionIdx) := by
  obtain ⟨select, hcurr, hselect⟩ := h.currSelect_eq
  simp only [hcurr, Option.some.injEq, forall_eq']
  rw [selectFromChars, hcurr]
  dsimp only
  split
  · rename_i hguard
    obtain ⟨hle, hnil⟩ := hguard
    have hmore : select.moreOptionsP = false :=
      Bool.eq_false_iff.mpr fun hmore => hnil (hselect.single hmore).2
    have hpaged := hselect.paged hmore
    obtain ⟨i, hi, hlt⟩ := hselect.validIndex.exists_eq hle
    obtain ⟨k, selector, hget, -, hfound, -⟩ := hpaged.findSelector_eq hlt
    obtain ⟨position, hposition⟩ := List.mem_iff_getElem?.mp selectorChar.2
    rw [hi, hfound, idxOf?_selectorChars hposition]
    dsimp only
    obtain ⟨j, hj, hjlt, hjfound⟩ := chosenIndex_found hpaged hlt hfound position
    rw [hj]
    have hmoved := hselect.move
      (.inr (.inr ⟨Int.natCast_nonneg j, Int.ofNat_lt.mpr hjlt⟩)) select.npCount
    have hspec := showSelect_spec (h.setCurrSelect hmoved) hmoved (Int.natCast_nonneg j)
    exact ⟨hspec.keeps, hspec.iff.trans (by simp [ShownPlain, hfound, hjfound])⟩
  · rename_i hguard
    have hshown : ShownPlain select select.currOptionIdx := by
      by_cases hle : 0 ≤ select.currOptionIdx
      · have hnil : select.selectors = [] := by
          by_contra hnil
          exact hguard ⟨hle, hnil⟩
        simp [ShownPlain, findSelector, hnil]
      · exact shownPlain_of_neg hle
    have hspec := Outcome.Spec.of_returns h none
    exact ⟨hspec.keeps, by simp [hshown]⟩

theorem perform_spec (env : Env) (command : Command) (h : conv.WellFormed) :
    (perform env command conv).Spec (Meets command conv) := by
  cases command with
  | nextOption => exact moveOption_spec nextIndex_moves env h
  | prevOption => exact moveOption_spec prevIndex_moves env h
  | toHiragana => exact toKana_spec h (.inr rfl)
  | toKatakana => exact toKana_spec h (.inl rfl)
  | moveTopOfOptions =>
      exact jumpOption_spec h (fun _ => 0) fun count hpos => ⟨Int.le_refl 0, hpos⟩
  | moveBottomOfOptions =>
      exact jumpOption_spec h (fun count => count - 1) fun count hpos => ⟨by omega, by omega⟩
  | nextSelect => exact nextSelect_spec h
  | prevSelect => exact prevSelect_spec h
  | selectFromChars selectorChar => exact selectFromChars_spec h selectorChar

end Commands

/-! ## Runs -/

theorem answer_eq_some {outcome : Outcome} {message : Option Str} {conv : Conversion} :
    outcome.answer = some (message, conv) ↔ outcome = .returns conv message := by
  cases outcome with
  | returns conv' message' => simp [Outcome.answer, and_comm]
  | signals conv' => simp [Outcome.answer]

theorem execute_keeps : execute.Preserves (fun _ => True) Conversion.WellFormed :=
  fun request _ message conv' _ h hexecute =>
    (perform_spec request.1 request.2 h).keeps conv' message (answer_eq_some.mp hexecute)

theorem execute_iff (request : Env × Command) {conv : Conversion} (h : conv.WellFormed) :
    (∃ message conv', execute request conv = some (message, conv')) ↔ Meets request.2 conv := by
  rw [← (perform_spec request.1 request.2 h).iff, exists_comm]
  exact exists_congr fun conv' => exists_congr fun message => answer_eq_some

/-- No command of the run signals an error, and in each state every index is valid. -/
def NoErrors (requests : List (Env × Command)) (conv : Conversion) : Prop :=
  ∀ before after, requests = before ++ after →
    ∃ messages conv', execute.run before conv = some (messages, conv') ∧
      ∀ select ∈ conv'.selects, select.ValidIndex

/-- A run has no error, and only valid indices, if and only if its commands meet the condition
in the states in which they are called. -/
theorem noErrors_iff (requests : List (Env × Command)) (conv : Conversion) (h : conv.WellFormed) :
    NoErrors requests conv ↔
      execute.Along (fun request conv => Meets request.2 conv) requests conv := by
  have hruns := Handler.run_iff_along execute_keeps fun request conv => execute_iff request
  constructor
  · intro hno
    obtain ⟨messages, conv', hrun, -⟩ := hno requests [] (List.append_nil _).symm
    exact (hruns requests h).mp ⟨messages, conv', hrun⟩
  · rintro halong before after rfl
    obtain ⟨messages, conv', hrun⟩ := (hruns before h).mpr halong.of_append
    have hwellFormed := Handler.run_invariant execute_keeps before (fun _ _ => trivial) h hrun
    exact ⟨messages, conv', hrun, fun select hmem => (hwellFormed.select select hmem).validIndex⟩

/-- The server of the examples: it has one word. -/
def exampleEnv : Env := ⟨fun _ _ _ => [⟨['b'], ['b'], none⟩], ⟨List.length, 80⟩⟩

/-- A segment of one word. -/
def exampleConversion : Conversion := convert ['a'] [⟨['A'], ['a'], none⟩]

/-- The next option, and then katakana. -/
theorem noErrors_nextOption :
    NoErrors [(exampleEnv, .nextOption), (exampleEnv, .toKatakana)] exampleConversion := by
  have h : exampleConversion.WellFormed := convert_wellFormed ['a'] (List.cons_ne_nil _ _)
  refine (noErrors_iff _ exampleConversion h).mpr
    ⟨?_, fun _ _ _ => ⟨trivial, fun _ _ _ => trivial⟩⟩
  rintro select ⟨⟩
  exact ⟨Int.le_refl 0, fun _ hprev => (by cases hprev), fun _ hnext => (by cases hnext)⟩

/-- Katakana, and then the next option: the lookup needs the current option. -/
theorem not_noErrors : ¬ ∀ (requests : List (Env × Command)) (conv : Conversion),
    conv.WellFormed → NoErrors requests conv := by
  intro h
  obtain ⟨messages, conv', hrun, -⟩ :=
    h [(exampleEnv, .toKatakana), (exampleEnv, .nextOption)] exampleConversion
      (convert_wellFormed ['a'] (List.cons_ne_nil _ _)) _ [] (List.append_nil _).symm
  have hnone : execute.run [(exampleEnv, .toKatakana), (exampleEnv, .nextOption)]
      exampleConversion = none := rfl
  rw [hnone] at hrun
  cases hrun

end Hachee.Senn.Emacs
