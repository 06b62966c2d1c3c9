import Hachee.Foundation.Handler
import Hachee.Senn.Emacs.Selectors

/-!
# Conversions and commands of the Emacs client (`senn-data.el`, `senn.el`)

A conversion is a vector of segments, one of which is current.  A segment has some options for
its pronunciation, and the index of the current one.  Two negative indices stand for the
pronunciation itself, in hiragana and in katakana.

The first option is all that the server sends for a conversion.  The others are looked up when
the user asks for them, with the current options of the neighbours as the context.

A command that signals an error leaves what it has changed before.
-/

namespace Hachee.Senn.Emacs

open Lisp (Str)

/-! ## Segments and conversions -/

/-- `senn-select` -/
structure Select where
  pron : Str
  options : List SennOption
  optionCount : Nat
  currOptionIdx : Int
  moreOptionsP : Bool
  selectors : List Selector
  npCount : Nat
deriving DecidableEq, Repr

/-- `senn-conversion` -/
structure Conversion where
  pron : Str
  selects : List Select
  selectCount : Nat
  currSelectIdx : Nat
deriving DecidableEq, Repr

/-- `senn-get-curr-option`.  The inner `none` is `nil`. -/
def getCurrOption (select : Select) : Option (Option SennOption) :=
  if 0 ≤ select.currOptionIdx then select.options[select.currOptionIdx.toNat]?.map some
  else some none

/-- `senn-with-current-select` -/
def Conversion.currSelect (conv : Conversion) : Option Select := conv.selects[conv.currSelectIdx]?

/-- The changes of the current segment. -/
def Conversion.setCurrSelect (conv : Conversion) (select : Select) : Conversion :=
  { conv with selects := conv.selects.set conv.currSelectIdx select }

/-- `senn-get-prev-select-or-nil` -/
def getPrevSelectOrNil (conv : Conversion) : Option (Option Select) :=
  if 0 < conv.currSelectIdx then conv.selects[conv.currSelectIdx - 1]?.map some else some none

/-- `senn-get-next-select-or-nil` -/
def getNextSelectOrNil (conv : Conversion) : Option (Option Select) :=
  if conv.currSelectIdx < conv.selectCount - 1 then conv.selects[conv.currSelectIdx + 1]?.map some
  else some none

/-! ## The server -/

/-- A word in an answer of the server. -/
structure Word where
  form : Str
  pron : Str
  origin : Option Str
deriving DecidableEq, Repr

/-- A word of the context in a request. -/
structure ContextWord where
  form : Str
  pron : Str
deriving DecidableEq, Repr

/-- What the commands run in: the answers to lookups, and the display. -/
structure Env where
  lookupWords : Str → Option ContextWord → Option ContextWord → List Word
  display : Display

/-- `senn-convert-origin` -/
def convertOrigin (origin : Option Str) : Option Origin :=
  if origin = some "EXTENDED-DICTIONARY".toList then some .ex
  else if origin = some "TANKAN-DICTIONARY".toList then some .tk
  else if origin = some "UNKNOWN-WORD".toList then some .uw
  else none

/-- `senn-word->option` -/
def wordOption (word : Word) : SennOption :=
  ⟨word.form, if word.origin ≠ some [] then convertOrigin word.origin else none⟩

/-- `senn-word->select` -/
def wordSelect (word : Word) : Select where
  pron := word.pron
  options := [wordOption word]
  optionCount := 1
  currOptionIdx := 0
  moreOptionsP := true
  selectors := []
  npCount := 0

/-- `senn-convert`, from the words of the answer. -/
def convert (pron : Str) (words : List Word) : Conversion :=
  let selects := words.map wordSelect
  ⟨pron, selects, selects.length, 0⟩

/-- `senn-reconvert-with-boundary`, where the server converts the rest of the pronunciation
with another boundary. -/
def reconvertWithBoundary (apiConvert : Str → Int → List Word) (conv : Conversion)
    (diff : Int → Int) : Option Conversion := do
  let currSelect ← conv.currSelect
  let selects1 := conv.selects.take conv.currSelectIdx
  let pron := (conv.selects.drop conv.currSelectIdx).flatMap Select.pron
  let selects2 := (apiConvert pron (diff currSelect.pron.length)).map wordSelect
  let newSelects := selects1 ++ selects2
  some ⟨conv.pron, newSelects, newSelects.length, conv.currSelectIdx⟩

/-- `senn-lookup-options` -/
def lookupOptions (env : Env) (pron : Str) (prevWord nextWord : Option ContextWord) :
    List SennOption :=
  (env.lookupWords pron prevWord nextWord).map wordOption

/-! ## The options in the echo area -/

/-- `senn-option-selector-chars` -/
def selectorChars : List Char := ['a', 's', 'd', 'f', 'g', 'h', 'j', 'k', 'l', ';']

/-- `senn-option-output-size` -/
def optionOutputSize : Nat := selectorChars.length

/-- `senn-message-select-count` -/
def messageSelectCount : Nat := 2

/-- `senn-option->message` -/
def optionMessage (option : SennOption) (selectorChar : Char) (focusedp : Bool) : Str :=
  let origin := originString option.origin
  if focusedp then
    [' ', selectorChar, ':', ' ', '['] ++ option.form ++ [']'] ++ origin ++ [' ']
  else [' ', selectorChar, ':', ' '] ++ option.form ++ origin ++ [' ']

/-- `senn-collect-option-messages` -/
def collectOptionMessages (currOptionIdx : Int) (selector : Selector) : Option (List Str) :=
  let indexFromRegionBegin := currOptionIdx - selector.region.1
  selector.options.zipIdx.mapM fun (option, i) => do
    let selectorChar ← selectorChars[i]?
    some (optionMessage option selectorChar ((i : Int) = indexFromRegionBegin))

/-- `senn-select->minibuf-string`.  The inner `none` is `nil`. -/
def minibufString (select : Select) : Option (Option Str) :=
  if select.selectors = [] then some none
  else do
    let selector ← findSelector select.currOptionIdx select.selectors
    let messages ← collectOptionMessages select.currOptionIdx selector
    some (some messages.flatten)

/-- A format string without arguments: a `%` is written twice. -/
def formatString : Str → Option Str
  | [] => some []
  | '%' :: '%' :: string => do
      let text ← formatString string
      some ('%' :: text)
  | '%' :: _ => none
  | char :: string => do
      let text ← formatString string
      some (char :: text)

/-- `senn-message-select`: the text of the options is the format string of `message`. -/
def messageSelect (select : Select) : Option (Option Str) := do
  match ← minibufString select with
  | some messageString => (formatString messageString).map some
  | none => some none

/-! ## Lookups -/

/-- `senn-adjoin-options` -/
def adjoinOptions (option : SennOption) (otherOptions : List SennOption) : List SennOption :=
  option :: otherOptions.filter fun o => option.form ≠ o.form

/-- `senn-select->word` -/
def selectWord (select : Select) : Option ContextWord := do
  -- the form of `nil` is an error
  let option ← (← getCurrOption select)
  some ⟨option.form, select.pron⟩

/-- `(when select (senn-select->word select))` -/
def contextWord (select : Option Select) : Option (Option ContextWord) :=
  match select with
  | some select => (selectWord select).map some
  | none => some none

/-- `senn-ensure-more-options-looked-up`: the segment after the call.  An error comes before
the changes. -/
def ensureMoreOptionsLookedUp (env : Env) (select : Select)
    (prevSelect nextSelect : Option Select) : Option Select :=
  if select.moreOptionsP then do
    let option ← getCurrOption select
    let prevWord ← contextWord prevSelect
    let nextWord ← contextWord nextSelect
    let option ← option
    let newOptions := adjoinOptions option (lookupOptions env select.pron prevWord nextWord)
    let selectors ← buildSelectors env.display newOptions optionOutputSize
    some { select with
      options := newOptions
      optionCount := newOptions.length
      moreOptionsP := false
      selectors := selectors
      npCount := 0 }
  else some select

/-! ## Commands -/

/-- How a command ends: with the text of the echo area, if it shows one, or with an error. -/
inductive Outcome
  | returns (conv : Conversion) (message : Option Str)
  | signals (conv : Conversion)
deriving DecidableEq, Repr

/-- The conversion after the command. -/
def Outcome.conv : Outcome → Conversion
  | .returns conv _ => conv
  | .signals conv => conv

/-- A command whose last form is `senn-message-select`. -/
def showSelect (conv : Conversion) (select : Select) : Outcome :=
  match messageSelect select with
  | some message => .returns conv message
  | none => .signals conv

/-- The segment in which `senn-next-option` and `senn-prev-option` move. -/
def lookedUpSelect (env : Env) (conv : Conversion) : Option Select := do
  let currSelect ← conv.currSelect
  let prevSelect ← getPrevSelectOrNil conv
  let nextSelect ← getNextSelectOrNil conv
  ensureMoreOptionsLookedUp env currSelect prevSelect nextSelect

/-- `senn-next-option` and `senn-prev-option`, from the count and the index to the new index. -/
def moveOption (newIndex : Int → Int → Int) (env : Env) (conv : Conversion) : Outcome :=
  match lookedUpSelect env conv with
  | none => .signals conv
  | some select =>
      let select := { select with
        currOptionIdx := newIndex select.optionCount select.currOptionIdx
        npCount := select.npCount + 1 }
      let conv := conv.setCurrSelect select
      if messageSelectCount ≤ select.npCount then showSelect conv select
      else .returns conv none

/-- The index after `senn-next-option`. -/
def nextIndex (count index : Int) : Int := if index = count - 1 ∨ index < 0 then 0 else index + 1

/-- The index after `senn-prev-option`. -/
def prevIndex (count index : Int) : Int := if index ≤ 0 then count - 1 else index - 1

/-- `senn-next-option` -/
def nextOption : Env → Conversion → Outcome := moveOption nextIndex

/-- `senn-prev-option` -/
def prevOption : Env → Conversion → Outcome := moveOption prevIndex

/-- `senn-move-top-of-options` and `senn-move-bottom-of-options`, from the count to the new
index. -/
def jumpOption (newIndex : Int → Int) (conv : Conversion) : Outcome :=
  match conv.currSelect with
  | none => .signals conv
  | some select =>
      let select := { select with currOptionIdx := newIndex select.optionCount }
      showSelect (conv.setCurrSelect select) select

/-- `senn-move-top-of-options` -/
def moveTopOfOptions : Conversion → Outcome := jumpOption fun _ => 0

/-- `senn-move-bottom-of-options` -/
def moveBottomOfOptions : Conversion → Outcome := jumpOption fun count => count - 1

/-- `senn-to-hiragana` and `senn-to-katakana`, with the index. -/
def toKana (index : Int) (conv : Conversion) : Outcome :=
  match conv.currSelect with
  | none => .signals conv
  | some select => .returns (conv.setCurrSelect { select with currOptionIdx := index }) none

/-- `senn-to-hiragana` -/
def toHiragana : Conversion → Outcome := toKana (-1)

/-- `senn-to-katakana` -/
def toKatakana : Conversion → Outcome := toKana (-2)

/-- `senn-next-select` -/
def nextSelect (conv : Conversion) : Outcome :=
  if conv.currSelectIdx < conv.selectCount - 1 then
    .returns { conv with currSelectIdx := conv.currSelectIdx + 1 } none
  else .returns conv none

/-- `senn-prev-select` -/
def prevSelect (conv : Conversion) : Outcome :=
  if 0 < conv.currSelectIdx then
    .returns { conv with currSelectIdx := conv.currSelectIdx - 1 } none
  else .returns conv none

/-- The index after a selector character: that of the option with this character, if it is in
the region. -/
def chosenIndex (region : Nat × Nat) (position : Nat) (index : Int) : Int :=
  if region.1 ≤ region.1 + position ∧ region.1 + position ≤ region.2 then
    (region.1 + position : Nat)
  else index

/-- `senn-select-from-chars` -/
def selectFromChars (selectorChar : Char) (conv : Conversion) : Outcome :=
  match conv.currSelect with
  | none => .signals conv
  | some select =>
      if 0 ≤ select.currOptionIdx ∧ select.selectors ≠ [] then
        match findSelector select.currOptionIdx select.selectors,
          selectorChars.idxOf? selectorChar with
        | some selector, some position =>
            let select := { select with
              currOptionIdx := chosenIndex selector.region position select.currOptionIdx }
            showSelect (conv.setCurrSelect select) select
        -- the region of `nil`, or a sum with `nil`
        | _, _ => .signals conv
      else .returns conv none

end Hachee.Senn.Emacs
