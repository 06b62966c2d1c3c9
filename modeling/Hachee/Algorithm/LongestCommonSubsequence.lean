import Hachee.Foundation.CommonSubsequence
import Hachee.Foundation.Loop
import Hachee.Lisp.Sequence

/-!
# The length of the longest common subsequence

A model of `algorithm/longest-common-subsequence.lisp`.  The cell of the table for two
positions is meant to hold the length of the longest common subsequences of the strings up
to these positions.  The cells of the first column and the first row are set from the
characters at their own positions alone.  A first character that is met early in the other
string is forgotten later in the row.

What the cells hold is said through the strings without their first characters.  It is the
length for these, and one more if a walk backwards from the cell finds a first character
(`BackWalk`, `computeLengthNonEmpty_eq`).  Hence the exact condition for the result to be
the length for the whole strings (`computeLength_iff`), and for it not to be zero (`Shares`,
`computeLength_bounds`).
-/

namespace Hachee.Algorithm.LongestCommonSubsequence

open Foundation CommonSubsequence
open Lisp (Str)

/-! ## The table -/

/-- `table`: an array with two indices.  A cell without a value has not been set. -/
abbrev Grid := Nat → Nat → Option Nat

/-- `(setf (aref table i1 i2) v)` -/
def setf (table : Grid) (i1 i2 v : Nat) : Grid :=
  fun i i' => if i = i1 ∧ i' = i2 then some v else table i i'

/-- A turn of the loop over the first column. -/
def setColumnCell (str1 : Str) (char2 : Char) (table : Grid) (i1 : Nat) : Option Grid := do
  let char1 ← str1[i1]?
  some (setf table i1 0 (if char2 = char1 then 1 else 0))

/-- A turn of the loop over the first row. -/
def setRowCell (str2 : Str) (char1 : Char) (table : Grid) (i2 : Nat) : Option Grid := do
  let char2 ← str2[i2]?
  some (setf table 0 i2 (if char1 = char2 then 1 else 0))

/-- A turn of the inner loop. -/
def setCell (str1 str2 : Str) (i1 : Nat) (table : Grid) (i2 : Nat) : Option Grid := do
  let char1 ← str1[i1]?
  let char2 ← str2[i2]?
  if char1 = char2 then
    let length ← table (i1 - 1) (i2 - 1)
    some (setf table i1 i2 (length + 1))
  else
    let above ← table (i1 - 1) i2
    let left ← table i1 (i2 - 1)
    some (setf table i1 i2 (max above left))

/-- `compute-length-non-empty` -/
def computeLengthNonEmpty (str1 str2 : Str) : Option Nat := do
  let str1Len := str1.length
  let str2Len := str2.length
  let char2 ← str2[0]?
  let table ← (List.range str1Len).foldlM (setColumnCell str1 char2) fun _ _ => none
  let char1 ← str1[0]?
  let table ← (List.range str2Len).foldlM (setRowCell str2 char1) table
  let table ← (List.range' 1 (str1Len - 1)).foldlM
    (fun table i1 =>
      (List.range' 1 (str2Len - 1)).foldlM (setCell str1 str2 i1) table) table
  table (str1Len - 1) (str2Len - 1)

/-- `compute-length` -/
def computeLength (str1 str2 : Str) : Option Nat :=
  if str1 = [] ∨ str2 = [] then some 0 else computeLengthNonEmpty str1 str2

example : computeLength "0abcd0".toList "00ab1abc0".toList = some 4 := by decide

/-! ## What the loops fill in -/

/-- A table of numbers that follows the recurrence of the code. -/
structure Recurrence (str1 str2 : Str) (value : Nat → Nat → Nat) : Prop where
  column : ∀ {i char1}, str1[i]? = some char1 →
    value i 0 = if str2[0]? = some char1 then 1 else 0
  row : ∀ {j char2}, str2[j]? = some char2 →
    value 0 j = if str1[0]? = some char2 then 1 else 0
  both : ∀ {i j char}, str1[i + 1]? = some char → str2[j + 1]? = some char →
    value (i + 1) (j + 1) = value i j + 1
  side : ∀ {i j char1 char2}, str1[i + 1]? = some char1 → str2[j + 1]? = some char2 →
    char1 ≠ char2 → value (i + 1) (j + 1) = max (value i (j + 1)) (value (i + 1) j)

/-- The cells of a region are set to the numbers. -/
def Filled (value : Nat → Nat → Nat) (region : Nat → Nat → Prop) (table : Grid) : Prop :=
  ∀ i j, region i j → table i j = some (value i j)

section Loops

variable {value : Nat → Nat → Nat} {region : Nat → Nat → Prop} {table : Grid}

theorem Filled.mono {region' : Nat → Nat → Prop} (h : Filled value region table)
    (hsub : ∀ i j, region' i j → region i j) : Filled value region' table :=
  fun i j hij => h i j (hsub i j hij)

theorem Filled.setf (h : Filled value region table) {i1 i2 v : Nat} (hv : v = value i1 i2) :
    Filled value (fun i j => region i j ∨ (i = i1 ∧ j = i2)) (setf table i1 i2 v) := by
  intro i j hij
  simp only [LongestCommonSubsequence.setf]
  split
  · rename_i heq
    rw [heq.1, heq.2, hv]
  · rename_i hne
    exact h i j (hij.resolve_right hne)

variable {str1 str2 : Str}

theorem setColumnCell_filled (hrec : Recurrence str1 str2 value) {char2 : Char}
    (h2 : str2[0]? = some char2) (table : Grid) :
    ∃ table', (List.range str1.length).foldlM (setColumnCell str1 char2) table = some table' ∧
      Filled value (fun i j => i < str1.length ∧ j = 0) table' := by
  have hloop := Loop.foldlM_range' (f := setColumnCell str1 char2)
    (fun k => Filled value fun i j => i < k ∧ j = 0) str1.length 0 table ?_ ?_
  · rw [List.range_eq_range']
    simpa using hloop
  · intro i table' _ hi h
    have h1 : str1[i]? = some str1[i] := List.getElem?_eq_getElem (by omega)
    refine ⟨_, by rw [setColumnCell, h1]; rfl, (h.setf ?_).mono fun i' j hij => by omega⟩
    rw [hrec.column h1, h2]
    simp
  · intro i j hij
    omega

theorem setRowCell_filled (hrec : Recurrence str1 str2 value) {char1 : Char}
    (h1 : str1[0]? = some char1)
    (h : Filled value (fun i j => i < str1.length ∧ j = 0) table) :
    ∃ table', (List.range str2.length).foldlM (setRowCell str2 char1) table = some table' ∧
      Filled value (fun i j => (i < str1.length ∧ j = 0) ∨ (i < 1 ∧ j < str2.length)) table' := by
  have hloop := Loop.foldlM_range' (f := setRowCell str2 char1)
    (fun k => Filled value fun i j => (i < str1.length ∧ j = 0) ∨ (i < 1 ∧ j < k))
    str2.length 0 table ?_ ?_
  · rw [List.range_eq_range']
    simpa using hloop
  · intro j table' _ hj h
    have h2 : str2[j]? = some str2[j] := List.getElem?_eq_getElem (by omega)
    refine ⟨_, by rw [setRowCell, h2]; rfl, (h.setf ?_).mono fun i j' hij => by omega⟩
    rw [hrec.row h2, h1]
    simp
  · exact h.mono fun i j hij => by omega

/-- A turn fills in its cell. -/
theorem setCell_filled (hrec : Recurrence str1 str2 value) {i1 i2 : Nat} (h1 : i1 + 1 < str1.length)
    (h2 : i2 + 1 < str2.length) (h : Filled value region table)
    (hregion : region i1 i2 ∧ region i1 (i2 + 1) ∧ region (i1 + 1) i2) :
    ∃ table', setCell str1 str2 (i1 + 1) table (i2 + 1) = some table' ∧
      Filled value (fun i j => region i j ∨ (i = i1 + 1 ∧ j = i2 + 1)) table' := by
  obtain ⟨hdiagonal, habove, hleft⟩ := hregion
  have hchar1 := List.getElem?_eq_getElem h1
  have hchar2 := List.getElem?_eq_getElem h2
  simp only [setCell, hchar1, hchar2, Option.bind_eq_bind, Option.bind_some, Nat.add_sub_cancel,
    h _ _ hdiagonal, h _ _ habove, h _ _ hleft]
  split
  · rename_i heq
    refine ⟨_, rfl, h.setf ?_⟩
    rw [hrec.both hchar1 (heq ▸ hchar2)]
  · rename_i hne
    refine ⟨_, rfl, h.setf ?_⟩
    rw [hrec.side hchar1 hchar2 hne]

/-- A turn of the outer loop fills in its line. -/
theorem foldlM_setCell_filled (hrec : Recurrence str1 str2 value) {i1 : Nat} (hi : 1 ≤ i1)
    (h1 : i1 < str1.length) (h2 : 0 < str2.length)
    (h : Filled value (fun i j => (i < str1.length ∧ j = 0) ∨ (i < i1 ∧ j < str2.length)) table) :
    ∃ table', (List.range' 1 (str2.length - 1)).foldlM (setCell str1 str2 i1) table = some table' ∧
      Filled value (fun i j => (i < str1.length ∧ j = 0) ∨ (i < i1 + 1 ∧ j < str2.length))
        table' := by
  have hloop := Loop.foldlM_range' (f := setCell str1 str2 i1)
    (fun k => Filled value fun i j =>
      (i < str1.length ∧ j = 0) ∨ (i < i1 ∧ j < str2.length) ∨ (i = i1 ∧ j < k))
    (str2.length - 1) 1 table ?_ (h.mono fun i j hij => by omega)
  · obtain ⟨table', hloop, hfilled⟩ := hloop
    exact ⟨table', hloop, hfilled.mono fun i j hij => by omega⟩
  · intro i2 table' hlt hle h'
    obtain ⟨i, rfl⟩ := Nat.exists_eq_add_of_le' hi
    obtain ⟨j, rfl⟩ := Nat.exists_eq_add_of_le' hlt
    have hj : j + 1 < str2.length := by omega
    obtain ⟨table'', hstep, hfilled⟩ := setCell_filled hrec h1 hj h'
      ⟨by omega, by omega, by omega⟩
    exact ⟨table'', hstep, hfilled.mono fun i' j' hij => by omega⟩

/-- The result is the number of the last cell. -/
theorem computeLengthNonEmpty_of_recurrence (hrec : Recurrence str1 str2 value)
    (h1 : str1 ≠ []) (h2 : str2 ≠ []) :
    computeLengthNonEmpty str1 str2 = some (value (str1.length - 1) (str2.length - 1)) := by
  have hlen1 := List.length_pos_iff.mpr h1
  have hlen2 := List.length_pos_iff.mpr h2
  have hchar1 := List.getElem?_eq_getElem hlen1
  have hchar2 := List.getElem?_eq_getElem hlen2
  obtain ⟨table1, hcolumn, hfilled1⟩ := setColumnCell_filled hrec hchar2 fun _ _ => none
  obtain ⟨table2, hrow, hfilled2⟩ := setRowCell_filled hrec hchar1 hfilled1
  obtain ⟨table3, hrows, hfilled3⟩ := Loop.foldlM_range'
    (fun k => Filled value fun i j => (i < str1.length ∧ j = 0) ∨ (i < k ∧ j < str2.length))
    (str1.length - 1) 1 table2
    (fun i1 table hle hlt h => foldlM_setCell_filled hrec hle (by omega) hlen2 h) hfilled2
  simp only [computeLengthNonEmpty, hchar1, hchar2, Option.bind_eq_bind, Option.bind_some, hcolumn,
    hrow]
  rw [hrows, Option.bind_some]
  exact hfilled3 _ _ (by omega)

end Loops

/-! ## What the numbers are -/

/-- The length for the strings up to two positions, without their first characters. -/
def inner (str1 str2 : Str) (i j : Nat) : Nat := lcs (str1.tail.take i) (str2.tail.take j)

/-- A walk backwards through the table of `inner`, diagonally where the characters are equal,
and else to a side with the same number.  It ends in the first row or the first column, at a
character that is the first one of the other string. -/
inductive BackWalk (str1 str2 : Str) : Nat → Nat → Prop
  | row {j : Nat} {char : Char} : str1[0]? = some char → str2[j]? = some char →
      BackWalk str1 str2 0 j
  | column {i : Nat} {char : Char} : str1[i]? = some char → str2[0]? = some char →
      BackWalk str1 str2 i 0
  | both {i j : Nat} {char : Char} : str1[i + 1]? = some char → str2[j + 1]? = some char →
      BackWalk str1 str2 i j → BackWalk str1 str2 (i + 1) (j + 1)
  | above {i j : Nat} : str1[i + 1]? ≠ str2[j + 1]? →
      inner str1 str2 i (j + 1) = inner str1 str2 (i + 1) (j + 1) →
      BackWalk str1 str2 i (j + 1) → BackWalk str1 str2 (i + 1) (j + 1)
  | left {i j : Nat} : str1[i + 1]? ≠ str2[j + 1]? →
      inner str1 str2 (i + 1) j = inner str1 str2 (i + 1) (j + 1) →
      BackWalk str1 str2 (i + 1) j → BackWalk str1 str2 (i + 1) (j + 1)

section Inner

variable {str1 str2 : Str} {i j : Nat} {char char1 char2 : Char}

theorem take_succ_of_getElem? {str : Str} (h : str[i]? = some char) :
    str.take (i + 1) = str.take i ++ [char] := by
  rw [List.take_add_one, h]
  rfl

theorem take_succ_tail {str : Str} (h : str[i + 1]? = some char) :
    str.tail.take (i + 1) = str.tail.take i ++ [char] :=
  take_succ_of_getElem? (by rw [List.getElem?_tail, h])

theorem inner_both (h1 : str1[i + 1]? = some char) (h2 : str2[j + 1]? = some char) :
    inner str1 str2 (i + 1) (j + 1) = inner str1 str2 i j + 1 := by
  rw [inner, take_succ_tail h1, take_succ_tail h2, lcs_concat_self, inner]

theorem inner_side (h1 : str1[i + 1]? = some char1) (h2 : str2[j + 1]? = some char2)
    (hne : char1 ≠ char2) : inner str1 str2 (i + 1) (j + 1) =
      max (inner str1 str2 i (j + 1)) (inner str1 str2 (i + 1) j) := by
  simp only [inner]
  rw [take_succ_tail h1, take_succ_tail h2, lcs_concat_of_ne hne]

/-- A walk that finds a first character gives a longer common subsequence. -/
theorem BackWalk.inner_lt (h : BackWalk str1 str2 i j) :
    inner str1 str2 i j < lcs (str1.take (i + 1)) (str2.take (j + 1)) := by
  have hone : ∀ {c : Char} {xs ys : Str}, c ∈ xs → c ∈ ys → 0 < lcs xs ys := fun hx hy =>
    length_le_lcs (List.singleton_sublist.mpr hx) (List.singleton_sublist.mpr hy)
  induction h with
  | row h1 h2 =>
      rw [inner, List.take_zero, lcs_nil_left, take_succ_of_getElem? h1, take_succ_of_getElem? h2]
      exact hone (List.mem_concat_self ..) (List.mem_concat_self ..)
  | column h1 h2 =>
      rw [inner, List.take_zero, lcs_nil_right, take_succ_of_getElem? h1, take_succ_of_getElem? h2]
      exact hone (List.mem_concat_self ..) (List.mem_concat_self ..)
  | both h1 h2 _ ih =>
      rw [inner_both h1 h2, take_succ_of_getElem? h1, take_succ_of_getElem? h2, lcs_concat_self]
      exact Nat.succ_lt_succ ih
  | above _ heq _ ih =>
      rw [← heq]
      exact ih.trans_le (lcs_mono (List.take_sublist_take_left (by omega)) (List.Sublist.refl _))
  | left _ heq _ ih =>
      rw [← heq]
      exact ih.trans_le (lcs_mono (List.Sublist.refl _) (List.take_sublist_take_left (by omega)))

end Inner

/-! ## The exact condition -/

open Classical in
/-- What a cell holds. -/
noncomputable def value (str1 str2 : Str) (i j : Nat) : Nat :=
  inner str1 str2 i j + if BackWalk str1 str2 i j then 1 else 0

theorem value_of_backWalk {str1 str2 : Str} {i j : Nat} (h : BackWalk str1 str2 i j) :
    value str1 str2 i j = inner str1 str2 i j + 1 := by
  rw [value, if_pos h]

theorem value_of_not_backWalk {str1 str2 : Str} {i j : Nat} (h : ¬BackWalk str1 str2 i j) :
    value str1 str2 i j = inner str1 str2 i j := by
  rw [value, if_neg h, Nat.add_zero]

open Classical in
theorem recurrence_value (str1 str2 : Str) : Recurrence str1 str2 (value str1 str2) where
  column := by
    intro i char1 h1
    have hwalk : BackWalk str1 str2 i 0 ↔ str2[0]? = some char1 := by
      constructor
      · intro h
        cases h with
        | row h1' h2 => rw [h2, ← h1', h1]
        | column h1' h2 => rw [h2, ← h1', h1]
      · exact fun h2 => .column h1 h2
    simp [value, inner, hwalk]
  row := by
    intro j char2 h2
    have hwalk : BackWalk str1 str2 0 j ↔ str1[0]? = some char2 := by
      constructor
      · intro h
        cases h with
        | row h1 h2' => rw [h1, ← h2', h2]
        | column h1 h2' => rw [h1, ← h2', h2]
      · exact fun h1 => .row h1 h2
    simp [value, inner, hwalk]
  both := by
    intro i j char h1 h2
    have hwalk : BackWalk str1 str2 (i + 1) (j + 1) ↔ BackWalk str1 str2 i j := by
      constructor
      · intro h
        cases h with
        | both _ _ h => exact h
        | above hne => exact absurd (h1.trans h2.symm) hne
        | left hne => exact absurd (h1.trans h2.symm) hne
      · exact .both h1 h2
    rw [value, value, inner_both h1 h2, if_congr hwalk rfl rfl, Nat.add_right_comm]
  side := by
    intro i j char1 char2 h1 h2 hne
    have hne' : str1[i + 1]? ≠ str2[j + 1]? := fun heq =>
      hne (Option.some.inj (h1.symm.trans (heq.trans h2)))
    have hwalk : BackWalk str1 str2 (i + 1) (j + 1) ↔
        (inner str1 str2 i (j + 1) = inner str1 str2 (i + 1) (j + 1) ∧
          BackWalk str1 str2 i (j + 1)) ∨
        (inner str1 str2 (i + 1) j = inner str1 str2 (i + 1) (j + 1) ∧
          BackWalk str1 str2 (i + 1) j) := by
      constructor
      · intro h
        cases h with
        | both h1' h2' _ => exact absurd (h1'.trans h2'.symm) hne'
        | above _ heq h => exact .inl ⟨heq, h⟩
        | left _ heq h => exact .inr ⟨heq, h⟩
      · intro h
        cases h with
        | inl h => exact .above hne' h.1 h.2
        | inr h => exact .left hne' h.1 h.2
    have hmax := inner_side h1 h2 hne
    rw [value, value, value, if_congr hwalk rfl rfl]
    grind

/-- The result for strings that are not empty. -/
theorem computeLengthNonEmpty_eq {str1 str2 : Str} (h1 : str1 ≠ []) (h2 : str2 ≠ []) :
    computeLengthNonEmpty str1 str2 = some (value str1 str2 (str1.length - 1) (str2.length - 1)) :=
  computeLengthNonEmpty_of_recurrence (recurrence_value str1 str2) h1 h2

/-- The result is the length of the longest common subsequences if and only if the strings
without their first characters have common subsequences as long, or the walk from the last
cell finds a first character. -/
theorem computeLength_iff (str1 str2 : Str) :
    (∃ n, computeLength str1 str2 = some n ∧ IsGreatest (CommonLengths str1 str2) n) ↔
      lcs str1.tail str2.tail = lcs str1 str2 ∨
        BackWalk str1 str2 (str1.length - 1) (str2.length - 1) := by
  have hgreatest : ∀ n, IsGreatest (CommonLengths str1 str2) n ↔ n = lcs str1 str2 := fun n =>
    ⟨fun h => h.unique (isGreatest_lcs str1 str2), fun h => h ▸ isGreatest_lcs str1 str2⟩
  simp only [hgreatest, exists_eq_right]
  cases str1 with
  | nil => simp [computeLength]
  | cons char1 xs =>
      cases str2 with
      | nil => simp [computeLength]
      | cons char2 ys =>
          have hle := lcs_cons_le char1 char2 xs ys
          have hmono : lcs xs ys ≤ lcs (char1 :: xs) (char2 :: ys) :=
            lcs_mono (List.sublist_cons_self ..) (List.sublist_cons_self ..)
          have hinner : inner (char1 :: xs) (char2 :: ys) xs.length ys.length = lcs xs ys := by
            simp [inner]
          rw [computeLength, if_neg (by simp),
            computeLengthNonEmpty_eq (List.cons_ne_nil _ _) (List.cons_ne_nil _ _),
            Option.some_inj]
          simp only [List.length_cons, Nat.add_sub_cancel, List.tail_cons]
          by_cases hwalk : BackWalk (char1 :: xs) (char2 :: ys) xs.length ys.length
          · have hlt := hwalk.inner_lt
            rw [hinner, List.take_of_length_le (by simp), List.take_of_length_le (by simp)] at hlt
            rw [value_of_backWalk hwalk, hinner]
            simp only [hwalk, or_true, iff_true]
            omega
          · rw [value_of_not_backWalk hwalk, hinner]
            simp [hwalk]

/-- The string `"a"` is forgotten at the end of `"ab"`. -/
theorem not_computeLength : ¬ ∀ str1 str2 : Str,
    ∃ n, computeLength str1 str2 = some n ∧ IsGreatest (CommonLengths str1 str2) n := by
  intro h
  obtain ⟨n, hn, -, hmax⟩ := h ['a'] ['a', 'b']
  have hone : 1 ∈ CommonLengths ['a'] ['a', 'b'] :=
    ⟨['a'], by decide, by decide, rfl⟩
  have hzero : computeLength ['a'] ['a', 'b'] = some 0 := by decide
  rw [hzero] at hn
  cases hn
  exact absurd (hmax hone) (by decide)

/-! ## When the result is zero -/

/-- The cells a cell hears of: itself in the first row and the first column, and else all
cells up to it but the first one. -/
@[mk_iff] structure Heard (i j i' j' : Nat) : Prop where
  left : i' ≤ i
  right : j' ≤ j
  row : i = 0 → j' = j
  column : j = 0 → i' = i
  corner : 0 < i → 0 < j → 0 < i' + j'

theorem heard_row {j i' j' : Nat} : Heard 0 j i' j' ↔ i' = 0 ∧ j' = j := by
  rw [heard_iff]
  omega

theorem heard_column {i i' j' : Nat} : Heard i 0 i' j' ↔ i' = i ∧ j' = 0 := by
  rw [heard_iff]
  omega

/-- What a cell hears of besides itself, it hears of from the cell above or from the one to the
left. -/
theorem heard_succ {i j i' j' : Nat} (h : ¬(i' = i + 1 ∧ j' = j + 1)) :
    Heard (i + 1) (j + 1) i' j' ↔ Heard i (j + 1) i' j' ∨ Heard (i + 1) j i' j' := by
  simp only [heard_iff]
  omega

section Positive

variable {str1 str2 : Str} {value : Nat → Nat → Nat}

theorem pos_ite_iff {p : Prop} [Decidable p] : (0 < if p then 1 else 0) ↔ p := by
  split
  · simp [*]
  · simp [*]

/-- A cell is not zero if and only if it hears of equal characters. -/
theorem Recurrence.pos_iff (hrec : Recurrence str1 str2 value) {i j : Nat}
    (hi : i < str1.length) (hj : j < str2.length) :
    0 < value i j ↔ ∃ i' j', Heard i j i' j' ∧ str1[i']? = str2[j']? := by
  induction i generalizing j with
  | zero =>
      have h2 := List.getElem?_eq_getElem hj
      rw [hrec.row h2, ← h2, pos_ite_iff]
      simp [heard_row]
  | succ i ih =>
      have h1 := List.getElem?_eq_getElem hi
      induction j with
      | zero =>
          rw [hrec.column h1, ← h1, pos_ite_iff]
          simp [heard_column, eq_comm]
      | succ j ihj =>
          have h2 := List.getElem?_eq_getElem hj
          by_cases heq : str1[i + 1]? = str2[j + 1]?
          · have hself : Heard (i + 1) (j + 1) (i + 1) (j + 1) := (heard_iff ..).mpr (by omega)
            rw [hrec.both h1 (heq ▸ h1)]
            exact iff_of_true (Nat.succ_pos _) ⟨i + 1, j + 1, hself, heq⟩
          · have hchars : str1[i + 1] ≠ str2[j + 1] := fun hc => heq (by rw [h1, h2, hc])
            have hother : ∀ {i' j'}, str1[i']? = str2[j']? → ¬(i' = i + 1 ∧ j' = j + 1) := by
              rintro i' j' hc ⟨rfl, rfl⟩
              exact heq hc
            rw [hrec.side h1 h2 hchars, lt_sup_iff]
            calc 0 < value i (j + 1) ∨ 0 < value (i + 1) j
                ↔ (∃ i' j', Heard i (j + 1) i' j' ∧ str1[i']? = str2[j']?) ∨
                    ∃ i' j', Heard (i + 1) j i' j' ∧ str1[i']? = str2[j']? :=
                  or_congr (ih (Nat.lt_of_succ_lt hi) hj) (ihj (Nat.lt_of_succ_lt hj))
              _ ↔ ∃ i' j', (Heard i (j + 1) i' j' ∨ Heard (i + 1) j i' j') ∧
                    str1[i']? = str2[j']? := by
                  simp only [or_and_right, exists_or]
              _ ↔ ∃ i' j', Heard (i + 1) (j + 1) i' j' ∧ str1[i']? = str2[j']? :=
                  exists_congr fun i' => exists_congr fun j' =>
                    and_congr_left fun hc => (heard_succ (hother hc)).symm

end Positive

theorem value_le_left (str1 str2 : Str) (i j : Nat) : value str1 str2 i j ≤ i + 1 := by
  have hle := (lcs_le_length_left (str1.tail.take i) (str2.tail.take j)).trans
    (List.length_take_le i str1.tail)
  rw [value, inner]
  split <;> omega

theorem value_le_right (str1 str2 : Str) (i j : Nat) : value str1 str2 i j ≤ j + 1 := by
  have hle := (lcs_le_length_right (str1.tail.take i) (str2.tail.take j)).trans
    (List.length_take_le j str2.tail)
  rw [value, inner]
  split <;> omega

/-- What it takes for the result not to be zero: a string of one character is compared with
the last character of the other alone, and else the first characters are not compared. -/
def Shares (str1 str2 : Str) : Prop :=
  if str1.length ≤ 1 ∨ str2.length ≤ 1 then str1 ≠ [] ∧ str1.getLast? = str2.getLast?
  else (∃ c ∈ str1.tail, c ∈ str2) ∨ ∃ c ∈ str2.tail, c ∈ str1

instance (str1 str2 : Str) : Decidable (Shares str1 str2) :=
  inferInstanceAs (Decidable (if str1.length ≤ 1 ∨ str2.length ≤ 1 then _ ∧ _ else _ ∨ _))

theorem exists_mem_tail_iff {xs ys : Str} : (∃ c ∈ xs.tail, c ∈ ys) ↔
    ∃ i j, i + 1 < xs.length ∧ j < ys.length ∧ xs[i + 1]? = ys[j]? := by
  constructor
  · rintro ⟨c, htail, hmem⟩
    obtain ⟨i, hi⟩ := List.mem_iff_getElem?.mp htail
    obtain ⟨j, hj⟩ := List.mem_iff_getElem?.mp hmem
    rw [List.getElem?_tail] at hi
    exact ⟨i, j, (List.getElem?_eq_some_iff.mp hi).1, (List.getElem?_eq_some_iff.mp hj).1,
      hi.trans hj.symm⟩
  · rintro ⟨i, j, hi, -, heq⟩
    have hchar := List.getElem?_eq_getElem hi
    refine ⟨xs[i + 1], List.mem_iff_getElem?.mpr ⟨i, ?_⟩, List.mem_of_getElem? (heq ▸ hchar)⟩
    rw [List.getElem?_tail, hchar]

/-- What the last cell hears of. -/
theorem shares_iff {str1 str2 : Str} (h1 : str1 ≠ []) (h2 : str2 ≠ []) :
    Shares str1 str2 ↔ ∃ i j, Heard (str1.length - 1) (str2.length - 1) i j ∧
      str1[i]? = str2[j]? := by
  have hlen1 := List.length_pos_iff.mpr h1
  have hlen2 := List.length_pos_iff.mpr h2
  rw [Shares]
  split
  · rename_i hone
    rw [List.getLast?_eq_getElem?, List.getLast?_eq_getElem?]
    constructor
    · intro h
      exact ⟨_, _, (heard_iff ..).mpr (by omega), h.2⟩
    · intro h
      obtain ⟨i, j, ⟨hi, hj, hrow, hcolumn, -⟩, heq⟩ := h
      obtain rfl : i = str1.length - 1 := by omega
      obtain rfl : j = str2.length - 1 := by omega
      exact ⟨h1, heq⟩
  · rename_i hone
    rw [exists_mem_tail_iff, exists_mem_tail_iff]
    constructor
    · rintro (⟨i, j, hi, hj, heq⟩ | ⟨j, i, hj, hi, heq⟩)
      · exact ⟨i + 1, j, (heard_iff ..).mpr (by omega), heq⟩
      · exact ⟨i, j + 1, (heard_iff ..).mpr (by omega), heq.symm⟩
    · rintro ⟨i, j, hheard, heq⟩
      obtain ⟨hi, hj, -, -, hcorner⟩ := hheard
      cases i with
      | zero =>
          obtain ⟨j, rfl⟩ := Nat.exists_eq_succ_of_ne_zero (show j ≠ 0 by omega)
          exact .inr ⟨j, 0, by omega, by omega, heq.symm⟩
      | succ i => exact .inl ⟨i, j, by omega, by omega, heq⟩

/-- The result is not larger than either length, and zero if and only if nothing is shared. -/
theorem computeLength_bounds (str1 str2 : Str) :
    ∃ n, computeLength str1 str2 = some n ∧ n ≤ str1.length ∧ n ≤ str2.length ∧
      (0 < n ↔ Shares str1 str2) := by
  rw [computeLength]
  split
  · rename_i hnil
    refine ⟨0, rfl, Nat.zero_le _, Nat.zero_le _, ?_⟩
    have hshares : ¬Shares str1 str2 := by
      cases hnil with
      | inl h => simp [Shares, h]
      | inr h =>
          subst h
          cases str1 <;> simp [Shares]
    simp [hshares]
  · rename_i hne
    obtain ⟨h1, h2⟩ := not_or.mp hne
    have hlen1 := List.length_pos_iff.mpr h1
    have hlen2 := List.length_pos_iff.mpr h2
    refine ⟨_, computeLengthNonEmpty_eq h1 h2, ?_, ?_, ?_⟩
    · exact (value_le_left ..).trans_eq (by omega)
    · exact (value_le_right ..).trans_eq (by omega)
    · rw [(recurrence_value str1 str2).pos_iff (by omega) (by omega), shares_iff h1 h2]
end Hachee.Algorithm.LongestCommonSubsequence
