import Hachee.Foundation.Pages
import Hachee.Lisp.Sequence

/-!
# The candidate list of the Windows text service

The candidates are shown in pages of `kPageSize`.  A view has the candidates and the index of
the current one, which is an `int`.  `GetPageIndex` and `GetCurrentPage` report the pages to
the text services framework, and `DrawCandidates` draws the current page.

The number of pages that is reported is one more than the quotient, so that the last page is
empty when the candidates fill the other ones (`consistent_iff`).

`UINT` is `UInt32`.  The arithmetic on `int` is undefined outside of its range, and so is an
access outside of the vector of candidates: both are `none`.  The positions on the screen are
unbounded, and the height of a text, which `DrawText` measures, is a parameter.
-/

namespace Hachee.Senn.Win.CandidateWindow

open Lisp (Str)
open Foundation Pages

/-! ## The view -/

/-- `kPageSize` -/
def kPageSize : Int := 9

/-- The values of `int`. -/
def IsInt (x : Int) : Prop := -2 ^ 31 ≤ x ∧ x < 2 ^ 31

instance (x : Int) : Decidable (IsInt x) := inferInstanceAs (Decidable (_ ∧ _))

/-- The result of an operation on `int`. -/
def int (x : Int) : Option Int := if IsInt x then some x else none

/-- `View` -/
structure View where
  candidates : List Str
  currentIndex : Int
  isInt : IsInt currentIndex

/-- `candidate_count` -/
def View.candidateCount (view : View) : UInt32 := UInt32.ofNat view.candidates.length

/-! ## The pages that are reported (`candidate_ui_list.cpp`) -/

/-- The results that the reporting functions return. -/
inductive HResult
  | sOk
  | eInvalidArg
  | eNotSufficientBuffer
deriving DecidableEq, Repr

/-- The loop over the pages: it writes the page's first index. -/
def writePageIndex (puPageCnt : UInt32) (pIndex : List UInt32) : List UInt32 :=
  (List.range puPageCnt.toNat).foldl
    (fun pIndex i => pIndex.set i (UInt32.ofNat i * UInt32.ofInt kPageSize)) pIndex

/-- `GetPageIndex`.  A null pointer is `none`.  The result and what the two pointers point to
after the call. -/
def getPageIndex (view : View) (pIndex : Option (List UInt32)) (uSize : UInt32)
    (puPageCnt : Option UInt32) : HResult × Option (List UInt32) × Option UInt32 :=
  match puPageCnt with
  | none => (.eInvalidArg, pIndex, none)
  | some _ =>
      let pageCnt := view.candidateCount / UInt32.ofInt kPageSize + 1
      match pIndex with
      | none => (.sOk, none, some pageCnt)
      | some buffer =>
          if uSize < pageCnt then (.eNotSufficientBuffer, some buffer, some pageCnt)
          else (.sOk, some (writePageIndex pageCnt buffer), some pageCnt)

/-- `GetCurrentPage` -/
def getCurrentPage (view : View) (puPage : Option UInt32) : HResult × Option UInt32 :=
  match puPage with
  | none => (.eInvalidArg, none)
  | some _ => (.sOk, some (UInt32.ofInt (view.currentIndex.tdiv kPageSize)))

/-! ## The page that is drawn (`candidate_window.cpp`) -/

/-- `kMarginX` -/
def kMarginX : Int := 20

/-- `kMarginY` -/
def kMarginY : Int := 10

/-- `RECT` -/
structure Rect where
  left : Int
  top : Int
  right : Int
  bottom : Int
deriving DecidableEq, Repr

/-- What is drawn for a candidate: its text, and a highlighted background for the current
one. -/
structure Drawn where
  index : Int
  text : Str
  rect : Rect
  highlight : Option Rect
deriving DecidableEq, Repr

/-- The candidates drawn so far, and `prev_bottom`. -/
structure Drawing where
  drawn : List Drawn
  prevBottom : Int

/-- `(*view->candidates())[index]` -/
def View.candidate (view : View) (index : Int) : Option Str :=
  if 0 ≤ index then view.candidates[index.toNat]? else none

/-- A turn of the loop. -/
def drawCandidate (textHeight : Str → Int) (areaWidth : Int) (view : View) (drawing : Drawing)
    (index : Int) : Option Drawing := do
  let s ← view.candidate index
  let top := drawing.prevBottom
  let bottom := top + kMarginY + textHeight s + kMarginY
  let highlight := if index = view.currentIndex then some ⟨0, top, areaWidth, bottom⟩ else none
  some ⟨drawing.drawn ++ [⟨index, s, ⟨kMarginX, top, areaWidth, bottom⟩, highlight⟩], bottom⟩

/-- The loop from an index on. -/
def drawFrom (textHeight : Str → Int) (areaWidth : Int) (view : View) (beginIndex : Int)
    (count : Nat) : Option Drawing :=
  (List.range count).foldlM
    (fun drawing (k : Nat) => drawCandidate textHeight areaWidth view drawing (beginIndex + k))
    ⟨[], 0⟩

/-- `DrawCandidates` -/
def drawCandidates (textHeight : Str → Int) (areaWidth : Int) (view : View) :
    Option (List Drawn) := do
  let currentPage := view.currentIndex.tdiv kPageSize
  let beginIndex ← int (currentPage * kPageSize)
  let nextPage ← int (currentPage + 1)
  let nextBegin ← int (nextPage * kPageSize)
  let endIndex := min nextBegin view.candidateCount.toInt32.toInt
  let drawing ← drawFrom textHeight areaWidth view beginIndex (endIndex - beginIndex).toNat
  some drawing.drawn

/-! ## What is reported -/

section Reported

variable {view : View}

theorem pageSize_toNat : (UInt32.ofInt kPageSize).toNat = 9 := rfl

/-- The loop writes the multiples of the page size and leaves the rest of the buffer. -/
theorem writePageIndex_eq {puPageCnt : UInt32} {pIndex : List UInt32}
    (h : puPageCnt.toNat ≤ pIndex.length) :
    writePageIndex puPageCnt pIndex =
      ((List.range puPageCnt.toNat).map fun i => UInt32.ofNat i * UInt32.ofInt kPageSize) ++
        pIndex.drop puPageCnt.toNat := by
  rw [writePageIndex]
  generalize puPageCnt.toNat = count at h
  induction count with
  | zero => simp
  | succ count ih =>
      rw [List.range_succ, List.foldl_append, ih (by omega), List.map_append]
      rw [List.foldl_cons, List.foldl_nil, List.set_append_right _ _ (by simp)]
      simp only [List.map_cons, List.map_nil, List.length_map, List.length_range, Nat.sub_self,
        List.append_assoc, List.singleton_append]
      rw [List.drop_eq_getElem_cons h, List.set_cons_zero]

/-- The number of pages that is reported. -/
def pageCount (view : View) : Nat := view.candidateCount.toNat / 9 + 1

theorem pageCnt_toNat (view : View) :
    (view.candidateCount / UInt32.ofInt kPageSize + 1).toNat = pageCount view := by
  have hlt := view.candidateCount.toNat_lt
  rw [UInt32.toNat_add, UInt32.toNat_div, pageSize_toNat]
  exact Nat.mod_eq_of_lt (by show _ + 1 < _; omega)

/-- The multiples that are written are not cut. -/
theorem start_toNat {i : Nat} (h : i < pageCount view) :
    (UInt32.ofNat i * UInt32.ofInt kPageSize).toNat = i * 9 := by
  have hlt := view.candidateCount.toNat_lt
  rw [pageCount] at h
  rw [UInt32.toNat_mul, pageSize_toNat, UInt32.toNat_ofNat_of_lt' (by show i < 2 ^ 32; omega)]
  exact Nat.mod_eq_of_lt (by omega)

/-- `GetPageIndex` with a buffer that is large enough. -/
theorem getPageIndex_buffer {buffer : List UInt32} {uSize : UInt32}
    (hsize : buffer.length = uSize.toNat)
    (hle : view.candidateCount / UInt32.ofInt kPageSize + 1 ≤ uSize) (old : UInt32) :
    ∃ pIndex, getPageIndex view (some buffer) uSize (some old) =
        (.sOk, some pIndex, some (view.candidateCount / UInt32.ofInt kPageSize + 1)) ∧
      (pIndex.take (pageCount view)).map UInt32.toNat =
        (List.range (pageCount view)).map (· * 9) := by
  have hcount := pageCnt_toNat view
  refine ⟨_, if_neg (UInt32.not_lt.mpr hle), ?_⟩
  rw [writePageIndex_eq (hsize ▸ hle), hcount, List.take_left' (by simp), List.map_map]
  exact List.map_congr_left fun i hi => start_toNat (List.mem_range.mp hi)

/-- The pages start at these candidates, as a caller of `GetPageIndex` learns from a call
without a buffer and a call with one that is large enough. -/
def Reports (view : View) (starts : List Nat) : Prop :=
  ∃ pageCnt : UInt32, pageCnt.toNat = starts.length ∧
    (∀ uSize old, getPageIndex view none uSize (some old) = (.sOk, none, some pageCnt)) ∧
    ∀ (buffer : List UInt32) (uSize old : UInt32), buffer.length = uSize.toNat →
      pageCnt ≤ uSize → ∃ pIndex,
        getPageIndex view (some buffer) uSize (some old) = (.sOk, some pIndex, some pageCnt) ∧
          (pIndex.take starts.length).map UInt32.toNat = starts

/-- The starts that are reported. -/
theorem reports_iff {starts : List Nat} :
    Reports view starts ↔ starts = (List.range (pageCount view)).map (· * 9) := by
  have hcount := pageCnt_toNat view
  constructor
  · intro h
    obtain ⟨pageCnt, hlength, hnull, hbuffer⟩ := h
    obtain rfl : view.candidateCount / UInt32.ofInt kPageSize + 1 = pageCnt :=
      Option.some.inj (Prod.mk.inj (Prod.mk.inj (hnull 0 0)).2).2
    have hsize : (List.replicate (pageCount view) (0 : UInt32)).length =
        (view.candidateCount / UInt32.ofInt kPageSize + 1).toNat := by simp [hcount]
    obtain ⟨pIndex, hcall, hstarts⟩ := hbuffer _ _ 0 hsize (UInt32.le_refl _)
    obtain ⟨pIndex', hcall', hstarts'⟩ := getPageIndex_buffer hsize (UInt32.le_refl _) 0
    obtain rfl : pIndex' = pIndex := by
      rw [hcall'] at hcall
      exact Option.some.inj (Prod.mk.inj (Prod.mk.inj hcall).2).1
    rw [← hlength, hcount] at hstarts
    exact hstarts.symm.trans hstarts'
  · rintro rfl
    refine ⟨_, by rw [hcount]; simp, fun _ _ => rfl, ?_⟩
    intro buffer uSize old hsize hle
    rw [List.length_map, List.length_range]
    exact getPageIndex_buffer hsize hle old

end Reported

/-! ## What is drawn -/

section Drawn

variable {view : View} {c : Nat}

/-- The index and the text that are drawn, and whether they are highlighted. -/
def Drawn.entry (drawn : Drawn) : Int × Option Str × Bool :=
  (drawn.index, some drawn.text, drawn.highlight.isSome)

/-- The candidates of a page, with the current one highlighted. -/
def View.entries (view : View) (start count : Nat) : List (Int × Option Str × Bool) :=
  (List.range' start count).map fun (i : Nat) =>
    ((i : Int), view.candidates[i]?, decide ((i : Int) = view.currentIndex))

/-- A turn draws the candidate of its index. -/
theorem drawCandidate_entry (textHeight : Str → Int) (areaWidth : Int) (drawing : Drawing)
    {i : Nat} (h : i < view.candidates.length) :
    ∃ drawing', drawCandidate textHeight areaWidth view drawing i = some drawing' ∧
      drawing'.drawn.map Drawn.entry = drawing.drawn.map Drawn.entry ++ view.entries i 1 := by
  have hcandidate : view.candidate i = some view.candidates[i] := by
    rw [View.candidate, if_pos (Int.natCast_nonneg i), Int.toNat_natCast,
      List.getElem?_eq_getElem h]
  refine ⟨_, by rw [drawCandidate, hcandidate]; rfl, ?_⟩
  simp only [List.map_append, List.map_cons, List.map_nil, View.entries, List.range'_one,
    Drawn.entry, List.getElem?_eq_getElem h]
  split
  · rename_i hcurrent
    simp [hcurrent]
  · rename_i hcurrent
    simp [hcurrent]

/-- The loop draws the candidates of a page. -/
theorem drawFrom_entries (textHeight : Str → Int) (areaWidth : Int) (view : View)
    (start count : Nat) (h : start + count ≤ view.candidates.length) :
    ∃ drawing, drawFrom textHeight areaWidth view start count = some drawing ∧
      drawing.drawn.map Drawn.entry = view.entries start count := by
  induction count with
  | zero => exact ⟨⟨[], 0⟩, rfl, rfl⟩
  | succ count ih =>
      obtain ⟨drawing, hloop, hdrawn⟩ := ih (by omega)
      obtain ⟨drawing', hstep, hdrawn'⟩ := drawCandidate_entry textHeight areaWidth drawing
        (show start + count < view.candidates.length by omega)
      refine ⟨drawing', ?_, ?_⟩
      · rw [drawFrom] at hloop ⊢
        rw [List.range_succ, List.foldlM_append, hloop]
        simpa using hstep
      · rw [hdrawn', hdrawn]
        simp only [View.entries]
        rw [← List.map_append, List.range'_append_1]

theorem currentIndex_tdiv (h : view.currentIndex = c) :
    view.currentIndex.tdiv kPageSize = ((c / 9 : Nat) : Int) := by
  rw [h, kPageSize, Int.tdiv_eq_ediv_of_nonneg (Int.natCast_nonneg c)]
  omega

theorem int_of_isInt {x : Int} (h : IsInt x) : int x = some x := if_pos h

theorem int_of_not_isInt {x : Int} (h : ¬IsInt x) : int x = none := if_neg h

theorem candidateCount_toInt32 :
    view.candidateCount.toInt32.toInt = (view.candidates.length : Int).bmod Int32.size := by
  rw [View.candidateCount, UInt32.toInt32_ofNat', Int32.toInt_ofNat']

theorem int_begin (h : view.currentIndex = c) :
    int (view.currentIndex.tdiv kPageSize * kPageSize) = some ((c / 9 * 9 : Nat) : Int) := by
  have hlt := h ▸ view.isInt.2
  have hbegin : view.currentIndex.tdiv kPageSize * kPageSize = ((c / 9 * 9 : Nat) : Int) := by
    rw [currentIndex_tdiv h, kPageSize]
    omega
  rw [hbegin, int_of_isInt]
  rw [IsInt]
  omega

theorem int_next (h : view.currentIndex = c) :
    int (view.currentIndex.tdiv kPageSize + 1) = some ((c / 9 + 1 : Nat) : Int) := by
  have hlt := h ▸ view.isInt.2
  rw [currentIndex_tdiv h, int_of_isInt]
  · rfl
  · rw [IsInt]
    omega

/-- The end of the page is not a value of `int`. -/
theorem drawCandidates_none (textHeight : Str → Int) (areaWidth : Int)
    (h : view.currentIndex = c) (hc : 2 ^ 31 - 2 ≤ c) :
    drawCandidates textHeight areaWidth view = none := by
  have hend : ¬IsInt (((c / 9 + 1 : Nat) : Int) * kPageSize) := by
    rw [IsInt, kPageSize]
    omega
  rw [drawCandidates]
  simp only [Option.bind_eq_bind]
  rw [int_begin h, Option.bind_some, int_next h, Option.bind_some, int_of_not_isInt hend,
    Option.bind_none]

/-- The arithmetic before the loop. -/
theorem drawCandidates_eq (textHeight : Str → Int) (areaWidth : Int)
    (h : view.currentIndex = c) (hc : c < 2 ^ 31 - 2) :
    drawCandidates textHeight areaWidth view =
      (drawFrom textHeight areaWidth view ((c / 9 * 9 : Nat) : Int)
        (min (((c / 9 + 1 : Nat) : Int) * kPageSize)
          ((view.candidates.length : Int).bmod Int32.size) - ((c / 9 * 9 : Nat) : Int)).toNat).bind
        fun drawing => some drawing.drawn := by
  have hend : IsInt (((c / 9 + 1 : Nat) : Int) * kPageSize) := by
    rw [IsInt, kPageSize]
    omega
  rw [drawCandidates]
  simp only [Option.bind_eq_bind]
  rw [int_begin h, Option.bind_some, int_next h, Option.bind_some, int_of_isInt hend,
    Option.bind_some, candidateCount_toInt32]

/-- The page with the current index is drawn. -/
theorem drawCandidates_entries (textHeight : Str → Int) (areaWidth : Int)
    (h : view.currentIndex = c) (hc : c < 2 ^ 31 - 2)
    (hlt : c < view.candidates.length) (hlength : view.candidates.length < 2 ^ 31) :
    ∃ drawn, drawCandidates textHeight areaWidth view = some drawn ∧
      drawn.map Drawn.entry =
        view.entries (c / 9 * 9) (min ((c / 9 + 1) * 9) view.candidates.length - c / 9 * 9) := by
  have hcount : (min (((c / 9 + 1 : Nat) : Int) * kPageSize)
      ((view.candidates.length : Int).bmod Int32.size) - ((c / 9 * 9 : Nat) : Int)).toNat =
        min ((c / 9 + 1) * 9) view.candidates.length - c / 9 * 9 := by
    have hsize : Int32.size = 4294967296 := rfl
    rw [hsize, Int.bmod_eq_of_le (by omega) (by omega), kPageSize]
    omega
  obtain ⟨drawing, hloop, hdrawn⟩ := drawFrom_entries textHeight areaWidth view (c / 9 * 9)
    (min ((c / 9 + 1) * 9) view.candidates.length - c / 9 * 9) (by omega)
  exact ⟨drawing.drawn, by rw [drawCandidates_eq _ _ h hc, hcount, hloop]; rfl, hdrawn⟩

/-- Nothing is drawn when the number of candidates is negative as an `int`. -/
theorem drawCandidates_nil (textHeight : Str → Int) (areaWidth : Int)
    (h : view.currentIndex = c) (hc : c < 2 ^ 31 - 2)
    (hlength : 2 ^ 31 ≤ view.candidates.length) (hlt : view.candidates.length < 2 ^ 32) :
    drawCandidates textHeight areaWidth view = some [] := by
  have hcount : (min (((c / 9 + 1 : Nat) : Int) * kPageSize)
      ((view.candidates.length : Int).bmod Int32.size) - ((c / 9 * 9 : Nat) : Int)).toNat = 0 := by
    have hsize : Int32.size = 4294967296 := rfl
    rw [Int.bmod_def, hsize]
    omega
  rw [drawCandidates_eq _ _ h hc, hcount]
  rfl

end Drawn

/-! ## The exact condition -/

/-- The three functions agree: the starts of non-empty pages of at most `kPageSize` candidates
are reported, the current page has the current index, and its candidates are drawn. -/
def Consistent (textHeight : Str → Int) (areaWidth : Int) (view : View) : Prop :=
  ∃ sizes : List Nat, (∀ size ∈ sizes, 0 < size ∧ (size : Int) ≤ kPageSize) ∧
    sizes.sum = view.candidates.length ∧
    Reports view ((regions 0 sizes).map Prod.fst) ∧
    ∃ (page : UInt32) (region : Nat × Nat),
      (∀ old, getCurrentPage view (some old) = (.sOk, some page)) ∧
      (regions 0 sizes)[page.toNat]? = some region ∧
      Holds region view.currentIndex.toNat ∧
      ∃ drawn, drawCandidates textHeight areaWidth view = some drawn ∧
        drawn.map Drawn.entry = view.entries region.1 (region.2 + 1 - region.1)

theorem getCurrentPage_eq {view : View} {c : Nat} (h : view.currentIndex = c) :
    ∃ page : UInt32, page.toNat = c / 9 ∧
      ∀ old, getCurrentPage view (some old) = (.sOk, some page) := by
  have hlt := h ▸ view.isInt.2
  refine ⟨UInt32.ofInt (view.currentIndex.tdiv kPageSize), ?_, fun _ => rfl⟩
  rw [currentIndex_tdiv h, UInt32.ofInt, UInt32.toNat_ofNat']
  omega

section Condition

variable {view : View} {c : Nat}

/-- The number of candidates, when the pages that are reported split them. -/
theorem length_of_reports {sizes : List Nat}
    (hsizes : ∀ size ∈ sizes, 0 < size ∧ (size : Int) ≤ kPageSize)
    (hsum : sizes.sum = view.candidates.length)
    (hreports : Reports view ((regions 0 sizes).map Prod.fst)) :
    view.candidates.length % 9 ≠ 0 ∧ view.candidates.length < 2 ^ 32 := by
  have hcount : view.candidateCount.toNat = view.candidates.length % 2 ^ 32 :=
    UInt32.toNat_ofNat'
  have hsizes' : ∀ size ∈ sizes, 0 < size ∧ size ≤ 9 := fun size h =>
    ⟨(hsizes size h).1, Int.ofNat_le.mp (hsizes size h).2⟩
  obtain ⟨hfirst, hlast⟩ := starts_multiples_iff.mp ⟨sizes, hsizes', hsum, reports_iff.mp hreports⟩
  rw [hcount] at hfirst hlast
  omega

/-- The pages when the last one is not empty. -/
theorem consistent_of_lt (textHeight : Str → Int) (areaWidth : Int)
    (h : view.currentIndex = c) (hlt : c < view.candidates.length)
    (hmod : view.candidates.length % 9 ≠ 0) (hlength : view.candidates.length < 2 ^ 31)
    (hc : c < 2 ^ 31 - 2) : Consistent textHeight areaWidth view := by
  have hcount : view.candidateCount.toNat = view.candidates.length % 2 ^ 32 :=
    UInt32.toNat_ofNat'
  rw [Nat.mod_eq_of_lt (by omega)] at hcount
  have hfirst : view.candidates.length / 9 * 9 < view.candidates.length := by omega
  have hlast : view.candidates.length ≤ (view.candidates.length / 9 + 1) * 9 := by omega
  have hregions := regions_equalSizes hfirst hlast
  obtain ⟨page, hpage, hcurrent⟩ := getCurrentPage_eq h
  obtain ⟨drawn, hdrawn, hentries⟩ := drawCandidates_entries textHeight areaWidth h hc hlt
    hlength
  refine ⟨_, fun size hsize => ?_, sum_equalSizes hfirst, ?_, page,
    (c / 9 * 9, min ((c / 9 + 1) * 9) view.candidates.length - 1), hcurrent, ?_, ?_, drawn,
    hdrawn, ?_⟩
  · obtain ⟨hpos, hle⟩ := equalSizes_bounds hfirst hlast size hsize
    exact ⟨hpos, Int.ofNat_le.mpr hle⟩
  · rw [reports_iff, hregions, List.map_map, pageCount, hcount]
    rfl
  · rw [hregions, hpage, List.getElem?_map, List.getElem?_range (by omega), Option.map_some]
  · rw [h, Int.toNat_natCast]
    exact ⟨by show c / 9 * 9 ≤ c; omega, by show c ≤ _ - 1; omega⟩
  · rw [hentries]
    congr 1
    show _ = min ((c / 9 + 1) * 9) view.candidates.length - 1 + 1 - c / 9 * 9
    omega

end Condition

/-- The pages are consistent if and only if the last one is shorter than the others, and the
number of candidates and the end of the page are values of `int`. -/
theorem consistent_iff (textHeight : Str → Int) (areaWidth : Int) (view : View)
    (hle : 0 ≤ view.currentIndex) (hlt : view.currentIndex < view.candidates.length) :
    Consistent textHeight areaWidth view ↔ view.candidates.length % 9 ≠ 0 ∧
      view.candidates.length < 2 ^ 31 ∧ view.currentIndex < 2 ^ 31 - 2 := by
  obtain ⟨c, hc⟩ := Int.eq_ofNat_of_zero_le hle
  rw [hc] at hlt
  constructor
  · intro h
    obtain ⟨sizes, hsizes, hsum, hreports, page, region, -, -, hholds, drawn, hdrawn,
      hentries⟩ := h
    obtain ⟨hmod, hlength⟩ := length_of_reports hsizes hsum hreports
    have hend : c < 2 ^ 31 - 2 := by
      by_contra hge
      rw [drawCandidates_none _ _ hc (Nat.le_of_not_lt hge)] at hdrawn
      cases hdrawn
    refine ⟨hmod, ?_, by rw [hc]; omega⟩
    by_contra hge
    rw [drawCandidates_nil _ _ hc hend (Nat.le_of_not_lt hge) hlength] at hdrawn
    obtain rfl := Option.some.inj hdrawn
    -- the page of the current index is not empty
    have hnil := congrArg List.length hentries
    obtain ⟨hleft, hright⟩ := hholds
    simp [View.entries] at hnil
    omega
  · intro h
    obtain ⟨hmod, hlength, hend⟩ := h
    exact consistent_of_lt _ _ hc (by omega) hmod hlength (by omega)

/-- Ten candidates, on two pages. -/
theorem consistent_ten : Consistent (fun _ => 16) 200 ⟨List.replicate 10 ['a'], 9, by decide⟩ :=
  (consistent_iff (fun _ => 16) 200 ⟨List.replicate 10 ['a'], 9, by decide⟩ (by decide)
    (by decide)).mpr (by decide)

/-- Nine candidates are reported as two pages, and the second one is empty. -/
theorem not_consistent : ¬ ∀ (textHeight : Str → Int) (areaWidth : Int) (view : View),
    0 ≤ view.currentIndex → view.currentIndex < view.candidates.length →
      Consistent textHeight areaWidth view := by
  intro h
  obtain ⟨sizes, hsizes, hsum, hreports, -⟩ :=
    h (fun _ => 0) 0 ⟨List.replicate 9 ['a'], 0, by decide⟩ (by decide) (by decide)
  exact (length_of_reports hsizes hsum hreports).1 rfl

end Hachee.Senn.Win.CandidateWindow
