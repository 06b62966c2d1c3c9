import Hachee.Senn.Ja

/-!
# The input buffer (`senn.im.buffer`)

A buffer is a string with a cursor.  `insert-char` looks at the last characters
before the cursor, at most four, together with the new character, and replaces
the longest such suffix that the rule table knows.  When it knows none, the
character is inserted as it is and a letter `n` just before the cursor becomes
`ん`.

The editing functions read the buffer with `subseq`, which signals an error when
the cursor lies outside the string.  So they return options.

Above them stands a second reading of the buffer, as the text to the left and
the text to the right of the cursor.  `typeChar` is the effect of `insert-char`
on the text to the left.  `insertChar_ofSplit` says that `insert-char` is
`typeChar` on the left and nothing on the right, and the other functions have
their own such equation.
-/

namespace Hachee.Senn.Im

open Lisp Senn.Ja

/-- `(defstruct buffer string cursor-pos)`. -/
structure Buffer where
  string : Str := []
  cursorPos : Nat := 0
deriving DecidableEq, Repr

namespace Buffer

/-- `replace-n-at-end`. -/
def replaceNAtEnd (str : Str) : Str :=
  if str.getLast? = some 'n' then str.dropLast ++ ['ん'] else str

/-- `insert-char-direct`. -/
def insertCharDirect (buffer : Buffer) (char : Char) : Option Buffer := do
  let before ← subseq buffer.string 0 buffer.cursorPos
  let after ← subseq buffer.string buffer.cursorPos buffer.string.length
  return ⟨before ++ [char] ++ after, buffer.cursorPos + 1⟩

/-- The local function `try-insertion` of `insert-char`.  The argument is
`diff-from-pos` plus one, so that `0` stands for the negative value at which the
source stops looking. -/
def tryInsertion (buffer : Buffer) (char : Char) : Nat → Option Buffer
  | 0 => do
      let before ← subseq buffer.string 0 buffer.cursorPos
      let after ← subseq buffer.string buffer.cursorPos buffer.string.length
      return ⟨replaceNAtEnd before ++ [char] ++ after, buffer.cursorPos + 1⟩
  | diff + 1 => do
      let ending ← subseq buffer.string (buffer.cursorPos - diff) buffer.cursorPos
      match romajiToHiragana (ending ++ [char]) with
      | some hiragana => do
          let before ← subseq buffer.string 0 (buffer.cursorPos - diff)
          let after ← subseq buffer.string buffer.cursorPos buffer.string.length
          return ⟨before ++ hiragana ++ after, buffer.cursorPos - diff + hiragana.length⟩
      | none => tryInsertion buffer char diff

/-- `insert-char`. -/
def insertChar (buffer : Buffer) (char : Char) : Option Buffer :=
  buffer.tryInsertion char (min buffer.cursorPos 4 + 1)

/-- `delete-char`. -/
def deleteChar (buffer : Buffer) : Option Buffer :=
  if 0 < buffer.cursorPos then do
    let before ← subseq buffer.string 0 (buffer.cursorPos - 1)
    let after ← subseq buffer.string buffer.cursorPos buffer.string.length
    return ⟨before ++ after, buffer.cursorPos - 1⟩
  else some buffer

/-- `move-cursor-pos`. -/
def moveCursorPos (buffer : Buffer) (diff : Int) : Buffer :=
  let newPos := diff + buffer.cursorPos
  if 0 ≤ newPos ∧ newPos ≤ buffer.string.length then ⟨buffer.string, newPos.toNat⟩ else buffer

/-- The assertions at the end of the source file. -/
example : insertChar ⟨['あ', 'k'], 2⟩ 'a' = some ⟨['あ', 'か'], 2⟩ := by decide +kernel
example : insertChar ⟨['k', 'r'], 1⟩ 'a' = some ⟨['か', 'r'], 1⟩ := by decide +kernel

/-! ## The text around the cursor -/

/-- The cursor lies within the string. -/
def Valid (buffer : Buffer) : Prop := buffer.cursorPos ≤ buffer.string.length

/-- The buffer with the cursor between `left` and `right`. -/
def ofSplit (left right : Str) : Buffer := ⟨left ++ right, left.length⟩

/-- The text before the cursor. -/
def left (buffer : Buffer) : Str := buffer.string.take buffer.cursorPos

/-- The text after the cursor. -/
def right (buffer : Buffer) : Str := buffer.string.drop buffer.cursorPos

@[simp] theorem left_ofSplit (left right : Str) : (ofSplit left right).left = left := by
  simp [Buffer.left, ofSplit]

@[simp] theorem right_ofSplit (left right : Str) : (ofSplit left right).right = right := by
  simp [Buffer.right, ofSplit]

@[simp] theorem string_ofSplit (left right : Str) :
    (ofSplit left right).string = left ++ right := rfl

theorem valid_ofSplit (left right : Str) : (ofSplit left right).Valid := by
  simp [Valid, ofSplit]

/-- A buffer whose cursor lies within the string is the split at its cursor. -/
theorem Valid.eq_ofSplit {buffer : Buffer} (h : buffer.Valid) :
    buffer = ofSplit buffer.left buffer.right := by
  have hlen : buffer.left.length = buffer.cursorPos := by
    rw [Buffer.left, List.length_take]
    exact Nat.min_eq_left h
  cases buffer with
  | mk string cursorPos =>
      rw [ofSplit, hlen]
      simp [Buffer.left, Buffer.right]

@[simp] theorem string_moveCursorPos (buffer : Buffer) (diff : Int) :
    (buffer.moveCursorPos diff).string = buffer.string := by
  unfold moveCursorPos
  dsimp only
  split <;> rfl

/-- Moving the cursor never leaves the string. -/
theorem Valid.moveCursorPos {buffer : Buffer} (h : buffer.Valid) (diff : Int) :
    (buffer.moveCursorPos diff).Valid := by
  unfold Buffer.moveCursorPos
  dsimp only
  split
  next hpos =>
    simp only [Valid]
    omega
  next => exact h

/-! ## Typing a character -/

/-- `replace-n-at-end` writes one character in place. -/
@[simp] theorem replaceNAtEnd_length (str : Str) : (replaceNAtEnd str).length = str.length := by
  unfold replaceNAtEnd
  split
  next h =>
    have hne : str ≠ [] := by
      rintro rfl
      cases h
    have hpos : 0 < str.length := List.length_pos_iff.mpr hne
    simp
    omega
  next => rfl

/-- The search of `try-insertion` on the text before the cursor, with the same
shifted argument. -/
def typeFrom (left : Str) (char : Char) : Nat → Str
  | 0 => replaceNAtEnd left ++ [char]
  | diff + 1 =>
      match romajiToHiragana (left.drop (left.length - diff) ++ [char]) with
      | some hiragana => left.take (left.length - diff) ++ hiragana
      | none => typeFrom left char diff

/-- What `insert-char` makes of the text before the cursor. -/
def typeChar (left : Str) (char : Char) : Str := typeFrom left char (min left.length 4 + 1)

/-- The search of `typeFrom` ends without a rule, or at the longest end of the text
that makes a rule with the character. -/
theorem typeFrom_cases (left : Str) (char : Char) :
    ∀ k : Nat, k ≤ left.length + 1 →
      (typeFrom left char k = replaceNAtEnd left ++ [char] ∧
        ∀ pre mid, left = pre ++ mid → mid.length < k →
          romajiToHiragana (mid ++ [char]) = none) ∨
      ∃ pre mid hiragana, left = pre ++ mid ∧ mid.length < k ∧
        romajiToHiragana (mid ++ [char]) = some hiragana ∧
        typeFrom left char k = pre ++ hiragana ∧
        ∀ pre' mid', left = pre' ++ mid' → mid.length < mid'.length → mid'.length < k →
          romajiToHiragana (mid' ++ [char]) = none
  | 0, _ => .inl ⟨rfl, fun _ _ _ h => absurd h (Nat.not_lt_zero _)⟩
  | k + 1, hk => by
      have hsplit := (List.take_append_drop (left.length - k) left).symm
      have hlength : (left.drop (left.length - k)).length = k := by
        rw [List.length_drop]
        omega
      -- The end of length `k` is tried first.
      have hend : ∀ pre mid, left = pre ++ mid → mid.length = k →
          mid = left.drop (left.length - k) := by
        intro pre mid heq hmid
        exact (List.append_inj' (heq.symm.trans hsplit) (hmid.trans hlength.symm)).2
      cases hrule : romajiToHiragana (left.drop (left.length - k) ++ [char]) with
      | some hiragana =>
          refine .inr ⟨_, _, hiragana, hsplit, by omega, hrule, by rw [typeFrom, hrule], ?_⟩
          intro pre' mid' _ hlonger hshorter
          omega
      | none =>
          have htype : typeFrom left char (k + 1) = typeFrom left char k := by
            rw [typeFrom, hrule]
          rcases typeFrom_cases left char k (by omega) with
            ⟨heq, hnone⟩ | ⟨pre, mid, hiragana, hleft, hmid, hsome, heq, hnone⟩
          · refine .inl ⟨htype.trans heq, fun pre mid hleft hmid => ?_⟩
            rcases Nat.lt_succ_iff_lt_or_eq.mp hmid with hlt | hlast
            · exact hnone pre mid hleft hlt
            · rw [hend pre mid hleft hlast, hrule]
          · refine .inr ⟨pre, mid, hiragana, hleft, by omega, hsome, htype.trans heq, ?_⟩
            intro pre' mid' hleft' hlonger hmid'
            rcases Nat.lt_succ_iff_lt_or_eq.mp hmid' with hlt | hlast
            · exact hnone pre' mid' hleft' hlonger hlt
            · rw [hend pre' mid' hleft' hlast, hrule]

theorem tryInsertion_ofSplit (left right : Str) (char : Char) :
    ∀ diff : Nat, diff ≤ left.length + 1 →
      (ofSplit left right).tryInsertion char diff = some (ofSplit (typeFrom left char diff) right)
  | 0, _ => by
      simp only [tryInsertion, ofSplit, subseq_append_left, subseq_append_right]
      simp [typeFrom]
  | diff + 1, h => by
      simp only [tryInsertion, ofSplit, subseq_append_suffix left right (Nat.le_of_succ_le_succ h),
        subseq_append_front, subseq_append_right, Option.bind_eq_bind, Option.bind_some, typeFrom]
      cases romajiToHiragana (left.drop (left.length - diff) ++ [char]) with
      | none => exact tryInsertion_ofSplit left right char diff (by omega)
      | some hiragana => simp

/-- `insert-char` changes the text before the cursor by `typeChar` and nothing
else. -/
theorem insertChar_ofSplit (left right : Str) (char : Char) :
    (ofSplit left right).insertChar char = some (ofSplit (typeChar left char) right) :=
  tryInsertion_ofSplit left right char _ (Nat.succ_le_succ (Nat.min_le_left ..))

theorem insertCharDirect_ofSplit (left right : Str) (char : Char) :
    (ofSplit left right).insertCharDirect char = some (ofSplit (left ++ [char]) right) := by
  simp only [insertCharDirect, ofSplit, subseq_append_left, subseq_append_right]
  simp

/-- `delete-char` drops the last character before the cursor, if there is one. -/
theorem deleteChar_ofSplit (left right : Str) :
    (ofSplit left right).deleteChar = some (ofSplit left.dropLast right) := by
  unfold deleteChar
  split
  next h =>
    have hlen : left.length - 1 ≤ left.length := Nat.sub_le _ _
    simp only [ofSplit, subseq_append_front, subseq_append_right]
    simp [List.dropLast_eq_take]
  next h =>
    have hnil : left = [] := by simpa [ofSplit] using h
    subst hnil
    rfl

/-- Where no end of the text makes a rule, the character is inserted as it is. -/
theorem typeChar_of_none {left : Str} {char : Char}
    (hnone : ∀ pre mid, left = pre ++ mid → romajiToHiragana (mid ++ [char]) = none) :
    typeChar left char = replaceNAtEnd left ++ [char] := by
  rcases typeFrom_cases left char _ (Nat.succ_le_succ (Nat.min_le_left _ 4)) with
    ⟨htype, -⟩ | ⟨pre, mid, hiragana, hleft, -, hrule, -, -⟩
  · exact htype
  · rw [hnone pre mid hleft] at hrule
    cases hrule

theorem typeChar_eq_append {left : Str} {char : Char} (hn : left.getLast? ≠ some 'n')
    (hnone : ∀ pre mid, left = pre ++ mid → romajiToHiragana (mid ++ [char]) = none) :
    typeChar left char = left ++ [char] := by
  rw [typeChar_of_none hnone, replaceNAtEnd, if_neg hn]

/-- Something stands before the cursor, whatever is typed. -/
theorem typeChar_ne_nil (left : Str) (char : Char) : typeChar left char ≠ [] := by
  unfold typeChar
  generalize min left.length 4 + 1 = diff
  induction diff with
  | zero => simp [typeFrom]
  | succ diff ih =>
      unfold typeFrom
      split
      next hiragana h =>
        intro hnil
        exact romajiToHiragana_ne_nil h (List.append_eq_nil_iff.mp hnil).2
      next => exact ih

end Buffer

end Hachee.Senn.Im
