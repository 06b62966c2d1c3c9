import Mathlib.Data.List.DropRight
import Mathlib.Data.Rat.Defs
import Mathlib.Tactic.Common
import Hachee.Foundation.Fields
import Hachee.Lisp.Sequence

/-!
# Text: records, lines and numbers

The programs modelled here keep their data in text files, one record a line.  A
file is its text, a string.

* `cl-ppcre:split` is a parameter (`ClPpcre`).  It is used with regular expressions
  that match one character only.  It splits at every match, and drops the empty
  strings at the end of the result.
* A loop over `read-line` meets the lines of the text.  A text that ends in a
  newline has no further, empty line.
* Numbers are printed by `~A` in base ten.  `parse-integer` signals an error on
  anything but an integer, and so does `read-from-string` here on anything but a
  rational number.
-/

namespace Hachee.Lisp

open Foundation

/-! ## Splitting -/

/-- The regular expressions that strings are split at: a character, or `\s`. -/
inductive Regex where
  | char (c : Char)
  | space

/-- A blank is one of five characters. -/
def isBlank (c : Char) : Bool :=
  c = ' ' || c = '\t' || c = '\n' || c = '\r' || c.toNat = 12

/-- The characters that are matched. -/
def Regex.Matches : Regex → Char → Bool
  | .char c, x => x == c
  | .space, x => isBlank x

/-- The library `cl-ppcre`, with what is documented of its function `split`. -/
class ClPpcre where
  split : Regex → Str → List Str
  split_eq : ∀ regex s, split regex s = Fields.split regex.Matches s

/-- The function on lists. -/
instance : ClPpcre where
  split regex s := Fields.split regex.Matches s
  split_eq _ _ := rfl

/-- `(cl-ppcre:split sep s)`, for a separator of one character. -/
def split [ClPpcre] (sep : Char) (s : Str) : List Str := ClPpcre.split (.char sep) s

example : split '/' "a//b//".toList = ["a".toList, [], "b".toList] := by decide

/-- A part is made of the characters between two separators. -/
theorem of_mem_splitOn {sep : Char} : ∀ {s part : Str}, part ∈ s.splitOn sep →
    sep ∉ part ∧ part ⊆ s
  | [], part, h => by
      rw [List.splitOn_nil, List.mem_singleton] at h
      rw [h]
      exact ⟨List.not_mem_nil, List.nil_subset _⟩
  | c :: s, part, h => by
      obtain ⟨front, rest, hparts⟩ := List.exists_cons_of_ne_nil (List.splitOn_ne_nil sep s)
      have ih : ∀ p ∈ front :: rest, sep ∉ p ∧ p ⊆ c :: s := fun p hp => by
        obtain ⟨hsep, hsub⟩ := of_mem_splitOn (s := s) (by rw [hparts]; exact hp)
        exact ⟨hsep, List.subset_cons_of_subset c hsub⟩
      rw [List.splitOn_cons_eq_if_modifyHead, hparts] at h
      by_cases hc : c = sep
      · rw [if_pos (beq_iff_eq.mpr hc), List.mem_cons] at h
        cases h with
        | inl h =>
            rw [h]
            exact ⟨List.not_mem_nil, List.nil_subset _⟩
        | inr h => exact ih part h
      · rw [if_neg (by simpa using hc), List.modifyHead_cons, List.mem_cons] at h
        cases h with
        | inl h =>
            obtain ⟨hsep, hsub⟩ := ih front List.mem_cons_self
            rw [h, List.mem_cons, not_or]
            exact ⟨⟨Ne.symm hc, hsep⟩, List.cons_subset.mpr ⟨List.mem_cons_self, hsub⟩⟩
        | inr h => exact ih part (List.mem_cons_of_mem _ h)

section Split

variable [ClPpcre]

theorem split_eq (sep : Char) (s : Str) :
    split sep s = (s.splitOn sep).rdropWhile List.isEmpty := ClPpcre.split_eq (.char sep) s

theorem of_mem_split {sep : Char} {s part : Str} (h : part ∈ split sep s) :
    sep ∉ part ∧ part ⊆ s := by
  rw [split_eq] at h
  exact of_mem_splitOn ((List.rdropWhile_prefix List.isEmpty _).subset h)

/-- No part of a split string contains the separator. -/
theorem notMem_of_mem_split {sep : Char} {s part : Str} (h : part ∈ split sep s) : sep ∉ part :=
  (of_mem_split h).1

/-- What no separator follows is the last part. -/
theorem split_snoc {sep : Char} (s : Str) {last : Str} (hsep : sep ∉ last) (hne : last ≠ []) :
    split sep (s ++ sep :: last) = s.splitOn sep ++ [last] := by
  rw [split_eq, List.splitOn_append_cons_self, List.splitOn_eq_singleton hsep]
  refine List.rdropWhile_concat_neg _ _ _ ?_
  rwa [List.isEmpty_iff]

theorem split_eq_singleton {sep : Char} {s : Str} (hsep : sep ∉ s) (hne : s ≠ []) :
    split sep s = [s] := by
  rw [split_eq, List.splitOn_eq_singleton hsep, List.rdropWhile_singleton, if_neg]
  rwa [List.isEmpty_iff]

@[simp] theorem split_nil (sep : Char) : split sep [] = [] := split_eq sep []

/-- Two parts. -/
theorem split_pair {sep : Char} {first last : Str} (hfirst : sep ∉ first) (hlast : sep ∉ last)
    (hne : last ≠ []) : split sep (first ++ sep :: last) = [first, last] := by
  rw [split_snoc first hlast hne, List.splitOn_eq_singleton hfirst, List.singleton_append]

/-- A separator with nothing behind it is lost. -/
theorem split_trailing {sep : Char} {s : Str} (hsep : sep ∉ s) :
    split sep (s ++ [sep]) = split sep s := by
  rw [split_eq, List.splitOn_append_cons_self, List.splitOn_eq_singleton hsep, List.splitOn_nil,
    List.rdropWhile_concat_pos _ _ _ rfl, split_eq, List.splitOn_eq_singleton hsep]

end Split

/-- A record: the parts behind the first are written with a separator before each. -/
def record (sep : Char) (first : Str) (rest : List Str) : Str :=
  first ++ rest.flatMap (sep :: ·)

theorem splitOn_record {sep : Char} : ∀ {first : Str} {rest : List Str}, sep ∉ first →
    (∀ part ∈ rest, sep ∉ part) → (record sep first rest).splitOn sep = first :: rest
  | first, [], hfirst, _ => by
      rw [record, List.flatMap_nil, List.append_nil, List.splitOn_eq_singleton hfirst]
  | first, part :: rest, hfirst, hrest => by
      have ih := splitOn_record (hrest part List.mem_cons_self) fun p hp =>
        hrest p (List.mem_cons_of_mem _ hp)
      rw [record, List.flatMap_cons, List.cons_append,
        List.splitOn_append_cons_self_of_not_mem hfirst]
      exact congrArg _ ih

/-- A record of parts that are not empty is split into its parts. -/
theorem split_record [ClPpcre] (sep : Char) {first : Str} {rest : List Str}
    (hparts : ∀ part ∈ first :: rest, sep ∉ part ∧ part ≠ []) :
    split sep (record sep first rest) = first :: rest := by
  rw [split_eq, splitOn_record (hparts first List.mem_cons_self).1 fun part hpart =>
    (hparts part (List.mem_cons_of_mem _ hpart)).1, List.rdropWhile_eq_self_iff]
  intro hne
  rw [List.isEmpty_iff]
  exact (hparts _ (List.getLast_mem hne)).2

theorem notMem_record {sep c : Char} {first : Str} {rest : List Str} (hsep : c ≠ sep)
    (hparts : ∀ part ∈ first :: rest, c ∉ part) : c ∉ record sep first rest := by
  rw [record, List.mem_append, List.mem_flatMap, not_or]
  refine ⟨hparts first List.mem_cons_self, fun h => ?_⟩
  obtain ⟨part, hpart, hmem⟩ := h
  cases List.mem_cons.mp hmem with
  | inl h => exact hsep h
  | inr h => exact hparts part (List.mem_cons_of_mem _ hpart) h

/-! ## Lines -/

/-- The lines that a loop over `read-line` meets. -/
def readLines (text : Str) : List Str :=
  let parts := text.splitOn '\n'
  if parts.getLast? = some [] then parts.dropLast else parts

/-- The text of a file to which the lines are written, each with `~%`. -/
def writeLines (lines : List Str) : Str := lines.flatMap (· ++ ['\n'])

theorem notMem_of_mem_readLines {text line : Str} (h : line ∈ readLines text) : '\n' ∉ line := by
  simp only [readLines] at h
  split at h
  next => exact (of_mem_splitOn (List.dropLast_subset _ h)).1
  next => exact (of_mem_splitOn h).1

/-- A text has lines if it is not empty. -/
theorem readLines_ne_nil {text : Str} (h : text ≠ []) : readLines text ≠ [] := by
  have hsplit := List.splitOnP_ne_nil (· == '\n') text
  simp only [readLines]
  split
  next hlast =>
    intro hnil
    -- Only the empty text is one empty part.
    have hone : text.splitOn '\n' = [[]] := by
      rw [← List.dropLast_append_getLast? [] hlast, hnil, List.nil_append]
    have htext : ['\n'].intercalate (text.splitOn '\n') = text := List.intercalate_splitOn '\n'
    rw [hone] at htext
    exact h htext.symm
  next => exact hsplit

theorem splitOn_writeLines : ∀ {lines : List Str}, (∀ line ∈ lines, '\n' ∉ line) →
    (writeLines lines).splitOn '\n' = lines ++ [[]]
  | [], _ => rfl
  | line :: lines, h => by
      have ih := splitOn_writeLines fun l hl => h l (List.mem_cons_of_mem _ hl)
      rw [writeLines, List.flatMap_cons, List.append_assoc, List.singleton_append,
        List.splitOn_append_cons_self_of_not_mem (h line List.mem_cons_self)]
      exact congrArg _ ih

/-- The lines that were written are read. -/
theorem readLines_writeLines {lines : List Str} (h : ∀ line ∈ lines, '\n' ∉ line) :
    readLines (writeLines lines) = lines := by
  simp [readLines, splitOn_writeLines h]

/-! ## Numbers -/

/-- `~A` of a natural number. -/
def princNat (n : Nat) : Str := Nat.toDigits 10 n

/-- `~A` of an integer. -/
def princInteger (n : Int) : Str :=
  if n < 0 then '-' :: princNat n.natAbs else princNat n.natAbs

/-- `~A` of a rational number. -/
def princRational (q : Rat) : Str :=
  if q.den = 1 then princInteger q.num else princInteger q.num ++ '/' :: princNat q.den

/-- The digits of a natural number. -/
def parseDigits (s : Str) : Option Nat :=
  if s ≠ [] ∧ s.all Char.isDigit then some (Nat.ofDigitChars 10 s 0) else none

/-- Digits with an optional sign. -/
def parseSigned : Str → Option Int
  | '-' :: s => do
      let n ← parseDigits s
      some (-(n : Int))
  | '+' :: s => do
      let n ← parseDigits s
      some (n : Int)
  | s => do
      let n ← parseDigits s
      some (n : Int)

/-- `whitespace[1]p`. -/
def whitespaceP (c : Char) : Bool :=
  c = ' ' || c = '\t' || c = '\n' || c = '\r' || c.toNat = 12 || c.toNat = 127

/-- `parse-integer`. -/
def parseInteger (s : Str) : Option Int :=
  parseSigned ((s.dropWhile whitespaceP).rdropWhile whitespaceP)

/-- `read-from-string` of an integer or a ratio. -/
def readRational (s : Str) : Option Rat :=
  match s.splitOn '/' with
  | [num] => do
      let n ← parseSigned num
      some (n : Rat)
  | [num, den] => do
      let n ← parseSigned num
      let d ← parseDigits den
      if d = 0 then none else some (mkRat n d)
  | _ => none

theorem isDigit_of_mem_princNat {n : Nat} {c : Char} (h : c ∈ princNat n) : c.isDigit :=
  Nat.isDigit_of_mem_toDigits (by decide) (by decide) h

theorem princNat_ne_nil (n : Nat) : princNat n ≠ [] := Nat.toDigits_ne_nil

/-- The characters of a number. -/
theorem of_mem_princInteger {n : Int} {c : Char} (h : c ∈ princInteger n) :
    c = '-' ∨ c.isDigit := by
  unfold princInteger at h
  split at h
  next =>
    cases List.mem_cons.mp h with
    | inl h => exact Or.inl h
    | inr h => exact Or.inr (isDigit_of_mem_princNat h)
  next => exact Or.inr (isDigit_of_mem_princNat h)

theorem princInteger_ne_nil (n : Int) : princInteger n ≠ [] := by
  unfold princInteger
  split
  next => exact List.cons_ne_nil _ _
  next => exact princNat_ne_nil _

/-- A character that is neither a digit nor a sign does not occur in an integer. -/
theorem notMem_princInteger (n : Int) {c : Char} (hsign : c ≠ '-') (hdigit : c.isDigit = false) :
    c ∉ princInteger n := by
  intro h
  cases of_mem_princInteger h with
  | inl h => exact hsign h
  | inr h => exact absurd h (by rw [hdigit]; exact Bool.false_ne_true)

theorem notMem_princNat (n : Nat) {c : Char} (hdigit : c.isDigit = false) : c ∉ princNat n :=
  fun h => absurd (isDigit_of_mem_princNat h) (by rw [hdigit]; exact Bool.false_ne_true)

theorem parseDigits_princNat (n : Nat) : parseDigits (princNat n) = some n := by
  have hall : (princNat n).all Char.isDigit = true :=
    List.all_eq_true.mpr fun c hc => isDigit_of_mem_princNat hc
  rw [parseDigits, if_pos ⟨princNat_ne_nil n, hall⟩, princNat, Nat.ofDigitChars_ten_toDigits]

/-- Digits without a sign. -/
theorem parseSigned_princNat (n : Nat) : parseSigned (princNat n) = some (n : Int) := by
  have hdigits := parseDigits_princNat n
  unfold parseSigned
  split
  next s hs => exact absurd (isDigit_of_mem_princNat (hs ▸ List.mem_cons_self)) (by decide)
  next s hs => exact absurd (isDigit_of_mem_princNat (hs ▸ List.mem_cons_self)) (by decide)
  next => rw [hdigits]; rfl

theorem parseSigned_princInteger (n : Int) : parseSigned (princInteger n) = some n := by
  unfold princInteger
  split
  next h =>
    have hdigits := parseDigits_princNat n.natAbs
    simp only [parseSigned, hdigits, Option.bind_eq_bind, Option.bind_some, Option.some.injEq]
    omega
  next h =>
    rw [parseSigned_princNat, Option.some.injEq]
    omega

theorem whitespaceP_of_isDigit {c : Char} (h : c.isDigit = true) : whitespaceP c = false := by
  rw [Char.isDigit_iff_toNat] at h
  have hne : ∀ d : Char, d.toNat < '0'.toNat → c ≠ d := fun d hd hc => by
    rw [hc] at h
    omega
  have h57 : '9'.toNat = 57 := rfl
  have h48 : '0'.toNat = 48 := rfl
  simp [whitespaceP, hne ' ' (by decide), hne '\t' (by decide), hne '\n' (by decide),
    hne '\r' (by decide)]
  omega

/-- No blanks stand around a printed number. -/
theorem whitespaceP_of_mem_princInteger {n : Int} {c : Char} (h : c ∈ princInteger n) :
    whitespaceP c = false := by
  cases of_mem_princInteger h with
  | inl h => rw [h]; rfl
  | inr h => exact whitespaceP_of_isDigit h

/-- An integer is read as it was printed. -/
theorem parseInteger_princInteger (n : Int) : parseInteger (princInteger n) = some n := by
  have htrim : ((princInteger n).dropWhile whitespaceP).rdropWhile whitespaceP =
      princInteger n := by
    rw [List.dropWhile_eq_self_iff.mpr, List.rdropWhile_eq_self_iff]
    · intro hne
      simp [whitespaceP_of_mem_princInteger (List.getLast_mem hne)]
    · intro hpos
      simp [whitespaceP_of_mem_princInteger (List.getElem_mem hpos)]
  rw [parseInteger, htrim, parseSigned_princInteger]

/-- So is a natural number. -/
theorem parseInteger_princNat (n : Nat) : parseInteger (princNat n) = some (n : Int) :=
  parseInteger_princInteger (n : Int)

/-- A rational number is read as it was printed. -/
theorem readRational_princRational (q : Rat) : readRational (princRational q) = some q := by
  have hnum : '/' ∉ princInteger q.num := notMem_princInteger _ (by decide) (by decide)
  unfold princRational
  split
  next hden =>
    have hq : ((q.num : Int) : Rat) = q := Rat.den_eq_one_iff q |>.mp hden
    simp [readRational, List.splitOn_eq_singleton hnum, parseSigned_princInteger, hq]
  next hden =>
    have hdigits : '/' ∉ princNat q.den := notMem_princNat _ (by decide)
    rw [readRational, List.splitOn_append_cons_self_of_not_mem hnum,
      List.splitOn_eq_singleton hdigits]
    simp [parseSigned_princInteger, parseDigits_princNat, q.den_nz, Rat.mkRat_self]

theorem princRational_ne_nil (q : Rat) : princRational q ≠ [] := by
  unfold princRational
  split
  next => exact princInteger_ne_nil _
  next => simp

/-- The characters of a rational number. -/
theorem notMem_princRational (q : Rat) {c : Char} (hsign : c ≠ '-') (hslash : c ≠ '/')
    (hdigit : c.isDigit = false) : c ∉ princRational q := by
  have hnum := notMem_princInteger q.num hsign hdigit
  unfold princRational
  split
  next => exact hnum
  next =>
    rw [List.mem_append, List.mem_cons, not_or, not_or]
    exact ⟨hnum, hslash, notMem_princNat _ hdigit⟩

end Hachee.Lisp
