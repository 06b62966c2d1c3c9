import Hachee.Senn.Emacs.Commands

/-!
# The option that a selector character selects

`senn-build-selectors` cuts the options into pages, and `senn-find-selector` finds the page of
the current option.  A selector character of `senn-select-from-chars` stands for its position
in this page.
-/

namespace Hachee.Senn.Emacs

open Foundation Pages

/-- The selector characters are different. -/
theorem idxOf?_selectorChars {char : Char} {k : Nat} (h : selectorChars[k]? = some char) :
    selectorChars.idxOf? char = some k := by
  have hnodup : selectorChars.Nodup := by decide
  obtain ⟨hk, hget⟩ := List.getElem?_eq_some_iff.mp h
  rw [List.idxOf?_eq_some_iff]
  refine ⟨hk, hget, fun j hj heq => ?_⟩
  have hindex : j = k := hnodup.getElem_inj_iff.mp (heq.trans hget.symm)
  omega

section Choice

variable {maxSize : Nat} {conv : Conversion} {select : Select} {selector : Selector}

/-- The index after a selector character is in the region of the page, or is not changed. -/
theorem chosenIndex_eq {options : List SennOption} (h : Paged maxSize options select.selectors)
    (hmem : selector ∈ select.selectors) (position : Nat) (index : Int) :
    chosenIndex selector.region position index =
      if position < selector.options.length then ((selector.region.1 + position : Nat) : Int)
      else index := by
  have hpos := (h.size selector hmem).1
  obtain ⟨k, hk⟩ := List.mem_iff_getElem?.mp hmem
  rw [chosenIndex, h.region_eq hk]
  refine if_congr ?_ rfl rfl
  show _ ≤ _ ∧ _ ≤ _ - 1 ↔ _
  omega

/-- What a selector character does on a page. -/
theorem selectFromChars_conv {options : List SennOption} {i k : Nat} {char : Char}
    (hpaged : Paged maxSize options select.selectors) (hcurr : conv.currSelect = some select)
    (hi : select.currOptionIdx = i) (hfound : findSelector i select.selectors = some selector)
    (hchar : selectorChars[k]? = some char) :
    (selectFromChars char conv).conv = conv.setCurrSelect { select with
      currOptionIdx :=
        if k < selector.options.length then ((selector.region.1 + k : Nat) : Int) else i } := by
  have hmem := List.mem_of_find?_eq_some hfound
  have hguard : 0 ≤ select.currOptionIdx ∧ select.selectors ≠ [] :=
    ⟨by omega, List.ne_nil_of_mem hmem⟩
  have hconv : ∀ conv' select', (showSelect conv' select').conv = conv' := by
    intro conv' select'
    rw [showSelect]
    split <;> rfl
  rw [selectFromChars, hcurr]
  dsimp only
  rw [if_pos hguard, hi, hfound, idxOf?_selectorChars hchar, ← chosenIndex_eq hpaged hmem]
  exact hconv _ _

end Choice

/-- The options are cut into consecutive pages.  Each index is on one of them, the one that is
found, and a selector character selects the option at its position if the page has one. -/
theorem buildSelectors_pages (display : Display) {maxSize : Nat} (hmax : 1 ≤ maxSize)
    {options : List SennOption} (hoptions : options ≠ []) :
    ∃ selectors, buildSelectors display options maxSize = some selectors ∧
      Paged maxSize options selectors ∧
      (∀ selector ∈ selectors, Narrow display selector.options) ∧
      (∀ i < options.length, ∃ (k : Nat) (selector : Selector), selectors[k]? = some selector ∧
        Holds selector.region i ∧ findSelector i selectors = some selector ∧
        ∀ (k' : Nat) (selector' : Selector), selectors[k']? = some selector' →
          Holds selector'.region i → k' = k) ∧
      ∀ (conv : Conversion) (select : Select) (selector : Selector) (i k : Nat) (char : Char),
        conv.currSelect = some select → select.selectors = selectors →
        select.currOptionIdx = i → findSelector i selectors = some selector →
        selectorChars[k]? = some char →
          (selectFromChars char conv).conv = conv.setCurrSelect { select with
            currOptionIdx :=
              if k < selector.options.length then ((selector.region.1 + k : Nat) : Int)
              else i } := by
  obtain ⟨selectors, hbuild, hpaged, hnarrow⟩ := buildSelectors_paged display hmax hoptions
  refine ⟨selectors, hbuild, hpaged, hnarrow, fun i hi => hpaged.findSelector_eq hi, ?_⟩
  rintro conv select selector i k char hcurr rfl hi hfound hchar
  exact selectFromChars_conv hpaged hcurr hi hfound hchar

/-- Four options, for a frame of twenty columns. -/
def fourOptions : List SennOption :=
  [⟨['x'], none⟩, ⟨['y'], none⟩, ⟨['z', 'z'], some .iv⟩, ⟨['w'], none⟩]

/-- Two options fill the first page, and the third and the fourth are too wide for one page. -/
def threePages : List Selector :=
  [⟨(0, 1), [⟨['x'], none⟩, ⟨['y'], none⟩]⟩, ⟨(2, 2), [⟨['z', 'z'], some .iv⟩]⟩,
    ⟨(3, 3), [⟨['w'], none⟩]⟩]

/-- A segment with the options of the three pages. -/
def pagedSelect (currOptionIdx : Int) : Select :=
  ⟨['x'], fourOptions, 4, currOptionIdx, false, threePages, 2⟩

/-- A conversion of this segment only. -/
def pagedConversion (currOptionIdx : Int) : Conversion :=
  ⟨['x'], [pagedSelect currOptionIdx], 1, 0⟩

/-- The second selector character selects `y` on the first page, and nothing on the second. -/
theorem buildSelectors_pages_three :
    buildSelectors ⟨List.length, 20⟩ fourOptions 2 = some threePages ∧
      Paged 2 fourOptions threePages ∧
      (∀ selector ∈ threePages, Narrow ⟨List.length, 20⟩ selector.options) ∧
      (∀ i < 4, ∃ (k : Nat) (selector : Selector), threePages[k]? = some selector ∧
        Holds selector.region i ∧ findSelector i threePages = some selector ∧
        ∀ (k' : Nat) (selector' : Selector), threePages[k']? = some selector' →
          Holds selector'.region i → k' = k) ∧
      (selectFromChars 's' (pagedConversion 0)).conv = pagedConversion 1 ∧
      (selectFromChars 's' (pagedConversion 2)).conv = pagedConversion 2 := by
  obtain ⟨selectors, hbuild, hpaged, hnarrow, hfound, hchar⟩ :=
    buildSelectors_pages ⟨List.length, 20⟩ (show 1 ≤ 2 by decide) (show fourOptions ≠ [] by decide)
  have hthree : buildSelectors ⟨List.length, 20⟩ fourOptions 2 = some threePages := by decide
  obtain rfl : threePages = selectors := Option.some.inj (hthree.symm.trans hbuild)
  refine ⟨hthree, hpaged, hnarrow, hfound, ?_, ?_⟩
  · exact hchar (pagedConversion 0) (pagedSelect 0) ⟨(0, 1), [⟨['x'], none⟩, ⟨['y'], none⟩]⟩ 0 1 's'
      rfl rfl rfl (by decide) rfl
  · exact hchar (pagedConversion 2) (pagedSelect 2) ⟨(2, 2), [⟨['z', 'z'], some .iv⟩]⟩ 2 1 's'
      rfl rfl rfl (by decide) rfl

end Hachee.Senn.Emacs
