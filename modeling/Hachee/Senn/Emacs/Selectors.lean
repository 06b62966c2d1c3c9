import Mathlib.Data.List.Induction
import Hachee.Foundation.Pages
import Hachee.Lisp.Sequence

/-!
# Selectors of the Emacs client (`senn-data.el`)

A selector shows some consecutive options of a segment in the minibuffer.  It has these
options, and the region of their indices.

`senn-build-selectors` cuts the options into selectors in one walk.  It closes a page when the
next option would make it too long or too wide.  The invariant of the walk (`Built`) says
that the pages closed and the open one, one after the other, are the options so far.

An error is `none`.  The width of a text, which `string-width` measures, and `frame-width` are
parameters.
-/

namespace Hachee.Senn.Emacs

open Lisp (Str)
open Foundation Pages

/-! ## Options -/

/-- The symbols for origins. -/
inductive Origin
  | iv
  | tk
  | ex
  | uw
deriving DecidableEq, Repr

/-- `senn-option`.  `nil` as the origin is `none`. -/
structure SennOption where
  form : Str
  origin : Option Origin
deriving DecidableEq, Repr

/-- `senn-origin-string-alist` -/
def originStringAlist : List (Origin × Str) :=
  [(.iv, ['S']), (.tk, ['T']), (.ex, ['E'])]

/-- `senn-origin->string` -/
def originString (org : Option Origin) : Str :=
  match originStringAlist.find? fun pair => some pair.1 = org with
  | some pair => [' ', '('] ++ pair.2 ++ [')']
  | none => []

/-! ## Selectors -/

/-- `senn-selector` -/
structure Selector where
  region : Nat × Nat
  options : List SennOption
deriving DecidableEq, Repr

/-- What the measures of texts and of the frame are. -/
structure Display where
  stringWidth : Str → Nat
  frameWidth : Nat

/-- `senn-calc-width` -/
def calcWidth (display : Display) (option : SennOption) : Nat :=
  let selectorCharWidth := 1
  let formWidth := display.stringWidth option.form
  let originWidth := display.stringWidth (originString option.origin)
  1 + selectorCharWidth + 1 + 1 + 1 + formWidth + 1 + originWidth + 1

/-- The variables of `senn-build-selectors`.  The lists are in reverse order. -/
structure Building where
  totalWidth : Nat
  totalSize : Nat
  tmp : List SennOption
  start : Nat
  ret : List Selector

/-- The selector for the open page. -/
def Building.selector (building : Building) : Selector :=
  ⟨(building.start, building.start + (building.totalSize - 1)), building.tmp.reverse⟩

/-- A turn of the loop. -/
def addOption (display : Display) (maxSize : Nat) (building : Building)
    (optionIndex : SennOption × Nat) : Building :=
  let (option, index) := optionIndex
  let curWidth := calcWidth display option
  if building.totalSize + 1 ≤ maxSize ∧ curWidth + building.totalWidth < display.frameWidth then
    { building with
      tmp := option :: building.tmp
      totalSize := building.totalSize + 1
      totalWidth := building.totalWidth + curWidth }
  else
    { ret := building.selector :: building.ret
      tmp := [option]
      totalWidth := curWidth
      totalSize := 1
      start := index }

/-- After the loop the open page is closed. -/
def Building.finish (building : Building) : List Selector :=
  (if building.tmp = [] then building.ret else building.selector :: building.ret).reverse

/-- `senn-build-selectors` -/
def buildSelectors (display : Display) (options : List SennOption) (maxSize : Nat) :
    Option (List Selector) := do
  let first ← options.head?
  let building := (options.tail.zipIdx 1).foldl (addOption display maxSize)
    ⟨calcWidth display first, 1, [first], 0, []⟩
  some building.finish

/-- `senn-find-selector` -/
def findSelector (index : Int) (selectors : List Selector) : Option Selector :=
  selectors.find? fun selector => selector.region.1 ≤ index ∧ index ≤ selector.region.2

/-! ## Pages of options -/

/-- Selectors for consecutive, non-empty pages of options. -/
structure Paged (maxSize : Nat) (options : List SennOption) (selectors : List Selector) :
    Prop where
  concat : selectors.flatMap Selector.options = options
  regions_eq : selectors.map Selector.region =
    regions 0 (selectors.map fun selector => selector.options.length)
  size : ∀ selector ∈ selectors,
    0 < selector.options.length ∧ selector.options.length ≤ maxSize

/-- The options of a selector are below the width of the frame, or there is one of them. -/
def Narrow (display : Display) (options : List SennOption) : Prop :=
  (options.map (calcWidth display)).sum < display.frameWidth ∨ options.length = 1

section Paged

variable {maxSize : Nat} {options page : List SennOption} {selectors : List Selector}

theorem Paged.sum_eq (h : Paged maxSize options selectors) :
    (selectors.map fun selector => selector.options.length).sum = options.length := by
  rw [← h.concat, List.length_flatMap]

/-- A page after all the other ones. -/
theorem Paged.concat_page (h : Paged maxSize options selectors) (hpage : page ≠ [])
    (hsize : page.length ≤ maxSize) :
    Paged maxSize (options ++ page) (selectors ++
      [⟨(options.length, options.length + (page.length - 1)), page⟩]) := by
  have hpos := List.length_pos_iff.mpr hpage
  constructor
  · rw [List.flatMap_append, h.concat]
    simp
  · rw [List.map_append, List.map_append, regions_append, h.regions_eq, h.sum_eq]
    simp only [List.map_cons, List.map_nil, regions, Nat.zero_add]
    rw [Nat.add_sub_assoc hpos]
  · intro selector hmem
    cases List.mem_append.mp hmem with
    | inl hmem => exact h.size selector hmem
    | inr hmem =>
        obtain rfl := List.mem_singleton.mp hmem
        exact ⟨hpos, hsize⟩

/-- The region of a selector, and the options before it. -/
theorem Paged.region_eq (h : Paged maxSize options selectors) {k : Nat} {selector : Selector}
    (hselector : selectors[k]? = some selector) :
    selector.region = (((selectors.take k).flatMap Selector.options).length,
      ((selectors.take k).flatMap Selector.options).length + selector.options.length - 1) := by
  have hregion : (selectors.map Selector.region)[k]? = some selector.region := by
    rw [List.getElem?_map, hselector, Option.map_some]
  rw [h.regions_eq, getElem?_regions, List.getElem?_map, hselector, Option.map_some,
    Option.map_some, Option.some_inj, ← List.map_take] at hregion
  rw [← hregion, List.length_flatMap, Nat.zero_add]

/-- The options of a selector are those of its region. -/
theorem Paged.options_getElem? (h : Paged maxSize options selectors) {k j : Nat}
    {selector : Selector} (hselector : selectors[k]? = some selector)
    (hj : j < selector.options.length) :
    options[selector.region.1 + j]? = selector.options[j]? := by
  obtain ⟨hk, rfl⟩ := List.getElem?_eq_some_iff.mp hselector
  have hsplit : options = (selectors.take k).flatMap Selector.options ++
      (selectors[k].options ++ (selectors.drop (k + 1)).flatMap Selector.options) := by
    rw [← List.flatMap_cons, ← List.drop_eq_getElem_cons hk, ← List.flatMap_append,
      List.take_append_drop, h.concat]
  rw [h.region_eq hselector]
  conv_lhs => rw [hsplit]
  rw [List.getElem?_append_right (Nat.le_add_right ..), Nat.add_sub_cancel_left,
    List.getElem?_append_left hj]

/-- Each index lies in the region of exactly one selector, which is the one that is found. -/
theorem Paged.findSelector_eq (h : Paged maxSize options selectors) {i : Nat}
    (hi : i < options.length) :
    ∃ (k : Nat) (selector : Selector), selectors[k]? = some selector ∧
      Holds selector.region i ∧ findSelector i selectors = some selector ∧
      ∀ (k' : Nat) (selector' : Selector), selectors[k']? = some selector' →
        Holds selector'.region i → k' = k := by
  have hpos : ∀ size ∈ selectors.map fun selector => selector.options.length, 0 < size := by
    intro size hmem
    obtain ⟨selector, hselector, rfl⟩ := List.mem_map.mp hmem
    exact (h.size selector hselector).1
  obtain ⟨k, region, hregion, hholds, hunique⟩ :=
    exists_page hpos (Nat.zero_le i) (by rw [h.sum_eq]; omega)
  simp only [← h.regions_eq, List.getElem?_map] at hregion hunique
  obtain ⟨selector, hselector, rfl⟩ := Option.map_eq_some_iff.mp hregion
  have hunique' : ∀ (k' : Nat) (selector' : Selector), selectors[k']? = some selector' →
      Holds selector'.region i → k' = k := fun k' selector' h' =>
    hunique k' selector'.region (by rw [h', Option.map_some])
  obtain ⟨hk, hget⟩ := List.getElem?_eq_some_iff.mp hselector
  refine ⟨k, selector, hselector, hholds, ?_, hunique'⟩
  rw [findSelector, List.find?_eq_some_iff_getElem]
  refine ⟨?_, k, hk, hget, ?_⟩
  · simpa [Holds] using hholds
  · intro j hj
    have hj' : selectors[j]? = some selectors[j] := List.getElem?_eq_getElem (by omega)
    have hnot : ¬Holds selectors[j].region i := fun hholds' =>
      absurd (hunique' j _ hj' hholds') (by omega)
    simp only [Holds, not_and_or, Nat.not_le] at hnot
    simpa using hnot

/-- The selector of a region is the one that is found. -/
theorem Paged.findSelector_of_holds (h : Paged maxSize options selectors) {i k : Nat}
    {selector : Selector} (hselector : selectors[k]? = some selector) (hi : i < options.length)
    (hholds : Holds selector.region i) : findSelector i selectors = some selector := by
  obtain ⟨k', selector', hselector', -, hfound, hunique⟩ := h.findSelector_eq hi
  obtain rfl := hunique k selector hselector hholds
  rw [hfound, ← hselector, hselector']

end Paged

/-! ## The walk -/

/-- The options of the pages closed. -/
def Building.closed (building : Building) : List SennOption :=
  building.ret.reverse.flatMap Selector.options

/-- The invariant of the walk: the pages closed and the open one hold the options so far. -/
structure Built (display : Display) (maxSize : Nat) (options : List SennOption)
    (building : Building) : Prop where
  tmp_ne_nil : building.tmp ≠ []
  totalSize_eq : building.totalSize = building.tmp.length
  totalSize_le : building.totalSize ≤ maxSize
  totalWidth_eq : building.totalWidth = (building.tmp.map (calcWidth display)).sum
  start_eq : building.start = building.closed.length
  options_eq : options = building.closed ++ building.tmp.reverse
  paged : Paged maxSize building.closed building.ret.reverse
  narrow_tmp : Narrow display building.tmp.reverse
  narrow : ∀ selector ∈ building.ret, Narrow display selector.options

section Walk

variable {display : Display} {maxSize : Nat} {options : List SennOption} {building : Building}

/-- The pages when the open one is closed too. -/
theorem Built.selector_paged (h : Built display maxSize options building) :
    Paged maxSize options (building.selector :: building.ret).reverse := by
  have hnil : building.tmp.reverse ≠ [] := by simpa using h.tmp_ne_nil
  have hpage := h.paged.concat_page hnil (by simpa [← h.totalSize_eq] using h.totalSize_le)
  rw [List.reverse_cons, h.options_eq, Building.selector, h.start_eq, h.totalSize_eq]
  simpa using hpage

theorem Built.narrow_selector (h : Built display maxSize options building) :
    ∀ selector ∈ building.selector :: building.ret, Narrow display selector.options := by
  intro selector hmem
  cases hmem with
  | head => exact h.narrow_tmp
  | tail _ hmem => exact h.narrow selector hmem

/-- A turn keeps the invariant. -/
theorem Built.addOption (h : Built display maxSize options building) (hmax : 1 ≤ maxSize)
    (option : SennOption) : Built display maxSize (options ++ [option])
      (addOption display maxSize building (option, options.length)) := by
  rw [Emacs.addOption]
  split
  · rename_i hfits
    have hwidth : ((building.tmp.reverse ++ [option]).map (calcWidth display)).sum =
        calcWidth display option + building.totalWidth := by
      simp [h.totalWidth_eq, Nat.add_comm]
    constructor
    · exact List.cons_ne_nil _ _
    · simp [h.totalSize_eq]
    · exact hfits.1
    · simp [h.totalWidth_eq, Nat.add_comm]
    · exact h.start_eq
    · rw [h.options_eq, List.append_assoc, List.reverse_cons]
      rfl
    · exact h.paged
    · rw [List.reverse_cons]
      exact .inl (hwidth ▸ hfits.2)
    · exact h.narrow
  · have hpaged := h.selector_paged
    have hclosed : Building.closed
        ⟨calcWidth display option, 1, [option], options.length,
          building.selector :: building.ret⟩ = options := hpaged.concat
    constructor
    · exact List.cons_ne_nil _ _
    · rfl
    · exact hmax
    · simp
    · rw [hclosed]
    · rw [hclosed]
      rfl
    · rw [hclosed]
      exact hpaged
    · exact .inr rfl
    · exact h.narrow_selector

theorem built_foldl (display : Display) (hmax : 1 ≤ maxSize) (first : SennOption)
    (rest : List SennOption) :
    Built display maxSize (first :: rest) ((rest.zipIdx 1).foldl (Emacs.addOption display maxSize)
      ⟨calcWidth display first, 1, [first], 0, []⟩) := by
  induction rest using List.reverseRecOn with
  | nil =>
      constructor
      · exact List.cons_ne_nil _ _
      · rfl
      · exact hmax
      · simp
      · rfl
      · rfl
      · exact ⟨rfl, rfl, fun _ hmem => nomatch hmem⟩
      · exact .inr rfl
      · exact fun _ hmem => nomatch hmem
  | append_singleton rest option ih =>
      have hstep := ih.addOption hmax option
      rw [List.zipIdx_append, List.foldl_append, Nat.add_comm]
      exact hstep

end Walk

/-- The result: pages that are long and wide at most as they are meant to be. -/
theorem buildSelectors_paged (display : Display) {maxSize : Nat} (hmax : 1 ≤ maxSize)
    {options : List SennOption} (hoptions : options ≠ []) :
    ∃ selectors, buildSelectors display options maxSize = some selectors ∧
      Paged maxSize options selectors ∧
      ∀ selector ∈ selectors, Narrow display selector.options := by
  obtain ⟨first, rest, rfl⟩ := List.exists_cons_of_ne_nil hoptions
  have hbuilt := built_foldl display hmax first rest
  refine ⟨_, rfl, ?_⟩
  rw [List.tail_cons, Building.finish, if_neg hbuilt.tmp_ne_nil]
  exact ⟨hbuilt.selector_paged, fun selector hmem =>
    hbuilt.narrow_selector selector (List.mem_reverse.mp hmem)⟩

end Hachee.Senn.Emacs
