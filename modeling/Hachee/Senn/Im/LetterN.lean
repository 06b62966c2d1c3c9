import Mathlib.Data.List.Induction
import Hachee.Senn.Im.Inputting
import Hachee.Senn.Im.Typing

/-!
# The letter `n` before the cursor

`nn` is the only rule that ends in `n`.  So typing the letter behind another `n`
makes `ん` of the two, and behind anything else it inserts the letter
(`typeChar_letterN`).

`state-buffer-get-pron` uses this to complete an `n` at the end of the string.
But it looks at the end of the string and types at the cursor, so it does what it
should exactly if the cursor is at the end (`bufferGetPron_iff`).

An `n` that is followed by a character of another syllable should have become
`ん`.  `insert-char` sees to it where no rule matches.  A digit, a capital or a
punctuation mark has a rule of its own, which matches and leaves the `n` before
it as it is (`nReady_typeString_iff`).
-/

namespace Hachee.Senn.Im

open Lisp Senn.Ja

namespace Buffer

/-! ## Rules with an `n` -/

/-- The only rule that ends in `n` is `nn`.  Before the last letter, an `n` can only be the
first one.  No kana is written with an `n`, and a rule of one letter writes one inert
character. -/
theorem rules_checked : (['n', 'n'], ['ん']) ∈ rules ∧ ∀ rule ∈ rules,
    (rule.1.getLast? = some 'n' → rule.1 = ['n', 'n']) ∧ 'n' ∉ rule.1.dropLast.tail ∧
      'n' ∉ rule.2 ∧ (rule.1.length = 1 → rule.2.length = 1 ∧ Inert rule.2) := by
  decide +kernel

theorem rules_letterN (rule : Str × Str) (h : rule ∈ rules) :
    rule.1.getLast? = some 'n' → rule.1 = ['n', 'n'] := (rules_checked.2 rule h).1

theorem rules_letterN_first (rule : Str × Str) (h : rule ∈ rules) :
    'n' ∉ rule.1.dropLast.tail := (rules_checked.2 rule h).2.1

theorem rules_kana_letterN (rule : Str × Str) (h : rule ∈ rules) : 'n' ∉ rule.2 :=
  (rules_checked.2 rule h).2.2.1

theorem rules_single (rule : Str × Str) (h : rule ∈ rules) :
    rule.1.length = 1 → rule.2.length = 1 ∧ Inert rule.2 := (rules_checked.2 rule h).2.2.2

/-- A rule of more letters than one has small letters only. -/
theorem rules_small :
    ∀ rule ∈ rules, rule.1.length = 1 ∨ ∀ c ∈ rule.1, c.isLower = true := by
  have hall : (rules.all fun rule => rule.1.length == 1 || rule.1.all Char.isLower) = true := by
    decide +kernel
  simpa only [List.all_eq_true, Bool.or_eq_true, beq_iff_eq] using hall

theorem romajiToHiragana_nn : romajiToHiragana ['n', 'n'] = some ['ん'] :=
  @romajiToHiragana_of_mem (['n', 'n'], ['ん']) rules_checked.1

/-- What goes before an `n` in a rule is an `n`. -/
theorem eq_of_romajiToHiragana_letterN {mid hiragana : Str}
    (h : romajiToHiragana (mid ++ ['n']) = some hiragana) : mid = ['n'] ∧ hiragana = ['ん'] := by
  obtain ⟨rule, hrule, hromaji, -⟩ := romajiToHiragana_eq_some h
  have hnn := rules_letterN rule hrule (by rw [hromaji, List.getLast?_concat])
  rw [hromaji] at hnn
  have hmid : mid = ['n'] :=
    List.append_cancel_right (hnn : mid ++ ['n'] = ['n'] ++ ['n'])
  subst hmid
  exact ⟨rfl, Option.some.inj (h.symm.trans romajiToHiragana_nn)⟩

/-- What goes between an `n` and the last letter in a rule is nothing. -/
theorem eq_of_romajiToHiragana_after {pre hiragana : Str} {c : Char}
    (h : romajiToHiragana ((pre ++ ['n']) ++ [c]) = some hiragana) : pre = [] := by
  obtain ⟨rule, hrule, hromaji, -⟩ := romajiToHiragana_eq_some h
  have hfirst := rules_letterN_first rule hrule
  rw [hromaji, List.dropLast_concat] at hfirst
  cases pre with
  | nil => rfl
  | cons x pre => exact absurd (List.mem_append_right pre List.mem_cons_self) hfirst

/-! ## Typing an `n` -/

/-- Two letters `n` make `ん`. -/
theorem typeChar_letterN_letterN (left : Str) :
    typeChar (left ++ ['n']) 'n' = left ++ ['ん'] := by
  have hlength : 1 < min (left ++ ['n']).length 4 + 1 := by
    rw [List.length_append, List.length_singleton]
    omega
  rcases typeFrom_cases (left ++ ['n']) 'n' _ (Nat.succ_le_succ (Nat.min_le_left _ 4)) with
    ⟨-, hnone⟩ | ⟨pre, mid, hiragana, hleft, -, hrule, htype, -⟩
  · have := hnone left ['n'] rfl hlength
    rw [List.singleton_append, romajiToHiragana_nn] at this
    cases this
  · obtain ⟨rfl, rfl⟩ := eq_of_romajiToHiragana_letterN hrule
    rw [typeChar, htype, List.append_cancel_right hleft]

/-- Behind anything else an `n` is inserted as it is. -/
theorem typeChar_letterN {left : Str} (h : left.getLast? ≠ some 'n') :
    typeChar left 'n' = left ++ ['n'] := by
  refine typeChar_eq_append h fun pre mid hleft => ?_
  cases hrule : romajiToHiragana (mid ++ ['n']) with
  | none => rfl
  | some hiragana =>
      rw [hleft, (eq_of_romajiToHiragana_letterN hrule).1, List.getLast?_concat] at h
      exact absurd rfl h

theorem eq_concat_of_getLast? {left : Str} {c : Char} (h : left.getLast? = some c) :
    left = left.dropLast ++ [c] :=
  (List.dropLast_append_getLast? c h).symm

/-- Typing an `n` completes the `n` at the end of the text exactly if nothing is behind the
cursor. -/
theorem typeChar_letterN_append_iff {left right : Str}
    (hn : (left ++ right).getLast? = some 'n') :
    typeChar left 'n' ++ right = replaceNAtEnd (left ++ right) ↔ right = [] := by
  rw [replaceNAtEnd, if_pos hn]
  rcases List.eq_nil_or_concat right with rfl | ⟨q, x, rfl⟩
  · rw [List.append_nil] at hn ⊢
    have htype : typeChar left 'n' = left.dropLast ++ ['ん'] := by
      conv_lhs => rw [eq_concat_of_getLast? hn]
      exact typeChar_letterN_letterN left.dropLast
    rw [htype, List.append_nil]
    exact iff_of_true rfl rfl
  · -- The text behind the cursor still ends in `n`.
    rw [List.concat_eq_append] at hn ⊢
    rw [← List.append_assoc, List.getLast?_concat] at hn
    cases hn
    refine iff_of_false (fun heq => ?_) (by simp)
    have hlast := congrArg List.getLast? heq
    rw [← List.append_assoc, List.getLast?_concat, List.getLast?_concat] at hlast
    exact absurd hlast (by decide)

end Buffer

/-! ## The pronunciation of the input -/

namespace Inputting.State

/-- The pronunciation is the string with an `n` at its end completed, exactly if there
is no such `n` or the cursor is behind it. -/
theorem bufferGetPron_iff {state : State} (h : state.buffer.Valid)
    (hne : state.bufferString ≠ []) :
    state.bufferGetPron = some (Buffer.replaceNAtEnd state.bufferString) ↔
      state.bufferString.getLast? ≠ some 'n' ∨
        state.buffer.cursorPos = state.bufferString.length := by
  obtain ⟨left, right, hbuffer⟩ : ∃ left right, state.buffer = .ofSplit left right :=
    ⟨_, _, h.eq_ofSplit⟩
  have hstring : state.bufferString = left ++ right := by rw [bufferString, hbuffer]; rfl
  have hcursor : state.buffer.cursorPos = left.length := by rw [hbuffer]; rfl
  by_cases hn : state.bufferString.getLast? = some 'n'
  · have hpron : (state.buffer.insertChar 'n') =
        some (.ofSplit (Buffer.typeChar left 'n') right) := by
      rw [hbuffer, Buffer.insertChar_ofSplit]
    have hget : state.bufferGetPron = some (Buffer.typeChar left 'n' ++ right) := by
      simp [bufferGetPron, hn, hpron]
    have hend : left.length = (left ++ right).length ↔ right = [] := by simp
    rw [hget, Option.some_inj, hcursor]
    rw [hstring] at hn ⊢
    rw [Buffer.typeChar_letterN_append_iff hn, hend]
    exact (or_iff_right (not_not.mpr hn)).symm
  · obtain ⟨last, hlast⟩ : ∃ last, state.bufferString.getLast? = some last :=
      ⟨_, List.getLast?_eq_some_getLast hne⟩
    have hne' : last ≠ 'n' := fun heq => hn (hlast.trans (congrArg some heq))
    simp [bufferGetPron, Buffer.replaceNAtEnd, hlast, hne']

/-- `kan` typed with the cursor at the end. -/
theorem bufferGetPron_iff_kan :
    State.bufferGetPron { buffer := ⟨['か', 'n'], 2⟩ } = some ['か', 'ん'] ∧
      (State.bufferGetPron { buffer := ⟨['か', 'n'], 2⟩ } =
          some (Buffer.replaceNAtEnd ['か', 'n']) ↔
        ['か', 'n'].getLast? ≠ some 'n' ∨ 2 = ['か', 'n'].length) :=
  have hiff := @bufferGetPron_iff { buffer := ⟨['か', 'n'], 2⟩ } (Nat.le_refl 2)
    (List.cons_ne_nil _ _)
  ⟨hiff.mpr (.inr rfl), hiff⟩

/-- The same string with the cursor before `か`. -/
theorem not_bufferGetPron :
    ¬∀ state : State, state.buffer.Valid → state.bufferString ≠ [] →
      state.bufferGetPron = some (Buffer.replaceNAtEnd state.bufferString) := by
  intro h
  let state : State := { buffer := .ofSplit [] ['か', 'n'] }
  have hpron : state.bufferGetPron = some ['n', 'か', 'n'] := by
    have hn : Buffer.typeChar [] 'n' = ['n'] := Buffer.typeChar_letterN (by simp)
    have hinsert : state.buffer.insertChar 'n' = some (.ofSplit ['n'] ['か', 'n']) := by
      rw [Buffer.insertChar_ofSplit, hn]
    simp [bufferGetPron, bufferString, state, hinsert]
  have := h state (Nat.zero_le _) (List.cons_ne_nil _ _)
  rw [hpron] at this
  exact absurd this (by decide)

end Inputting.State

namespace Buffer

/-! ## An `n` in typed text -/

/-- Every `n` of the text is its last character or is followed by `y`. -/
def NReady (text : Str) : Prop :=
  ∀ i : Nat, text[i]? = some 'n' → i + 1 = text.length ∨ text[i + 1]? = some 'y'

/-- An `n` of the text is followed by an inert character. -/
def NLeft (text : Str) : Prop := ∃ pre x post, text = pre ++ 'n' :: x :: post ∧ 128 ≤ x.toNat

theorem nReady_of_dropLast {text : Str} (h : 'n' ∉ text.dropLast) : NReady text := by
  intro i hi
  obtain ⟨hlt, hget⟩ := List.getElem?_eq_some_iff.mp hi
  by_cases hlast : i + 1 = text.length
  · exact .inl hlast
  · refine absurd (List.mem_iff_getElem?.mpr ⟨i, ?_⟩) h
    rw [List.getElem?_dropLast, if_pos (by omega), hi]

theorem not_nReady_of_nLeft {text : Str} (h : NLeft text) : ¬NReady text := by
  obtain ⟨pre, x, post, rfl, hx⟩ := h
  intro hready
  rcases hready pre.length (by simp) with hlength | hy
  · simp at hlength
  · have hxy : x = 'y' := by simpa using hy
    subst hxy
    exact absurd hx (by decide)

/-- The number of letters `n` at the end of what was typed. -/
def lettersN (chars : Str) : Nat := (chars.reverse.takeWhile (· = 'n')).length

@[simp] theorem lettersN_concat (chars : Str) (c : Char) :
    lettersN (chars ++ [c]) = if c = 'n' then lettersN chars + 1 else 0 := by
  unfold lettersN
  by_cases hc : c = 'n' <;> simp [hc]

/-- The character has a rule of its own, and none behind an `n`. -/
def StandsAlone (c : Char) : Prop :=
  (∃ hiragana, romajiToHiragana [c] = some hiragana) ∧ romajiToHiragana ['n', c] = none

/-- What has a rule and is no small letter stands alone. -/
theorem standsAlone_of_mem {c : Char} {hiragana : Str} (h : ([c], hiragana) ∈ rules)
    (hc : c.isLower = false) : StandsAlone c := by
  refine ⟨⟨hiragana, @romajiToHiragana_of_mem ([c], hiragana) h⟩, ?_⟩
  cases hrule : romajiToHiragana ['n', c] with
  | none => rfl
  | some _ =>
      obtain ⟨rule, hmem, hromaji, -⟩ := romajiToHiragana_eq_some hrule
      have hsmall := rules_small rule hmem
      rw [hromaji] at hsmall
      simp [hc] at hsmall

/-- No such character is typed behind an odd number of letters `n`. -/
def NTyped (chars : Str) : Prop :=
  ∀ pre c post, chars = pre ++ c :: post → lettersN pre % 2 = 1 → ¬StandsAlone c

theorem nTyped_concat {chars : Str} {c : Char} :
    NTyped (chars ++ [c]) ↔ NTyped chars ∧ (lettersN chars % 2 = 1 → ¬StandsAlone c) := by
  constructor
  · intro h
    refine ⟨fun pre x post heq => h pre x (post ++ [c]) (by simp [heq]), h chars c [] rfl⟩
  · rintro ⟨h, hc⟩ pre x post heq
    rcases List.eq_nil_or_concat post with rfl | ⟨post, y, rfl⟩
    · obtain ⟨rfl, hx⟩ := List.append_inj' heq rfl
      cases hx
      exact hc
    · rw [List.concat_eq_append, ← List.cons_append, ← List.append_assoc] at heq
      exact h pre x post (List.append_inj' heq rfl).1

theorem notMem_replaceNAtEnd {left : Str} (h : 'n' ∉ left.dropLast) :
    'n' ∉ replaceNAtEnd left := by
  unfold replaceNAtEnd
  split
  next => simpa using h
  next hlast =>
    intro hmem
    rcases List.eq_nil_or_concat left with rfl | ⟨q, x, rfl⟩
    · cases hmem
    · rw [List.concat_eq_append] at h hlast hmem
      rw [List.dropLast_concat] at h
      rw [List.getLast?_concat] at hlast
      rcases List.mem_append.mp hmem with hq | hx
      · exact h hq
      · exact hlast (congrArg some (List.mem_singleton.mp hx).symm)

/-- Another character than `n` leaves no `n`, unless it stands alone behind one. -/
theorem notMem_typeChar {left : Str} {c : Char} (hc : c ≠ 'n') (hleft : 'n' ∉ left.dropLast)
    (halone : left.getLast? = some 'n' → ¬StandsAlone c) : 'n' ∉ typeChar left c := by
  rcases typeFrom_cases left c _ (Nat.succ_le_succ (Nat.min_le_left _ 4)) with
    ⟨htype, -⟩ | ⟨pre, mid, hiragana, hsplit, -, hrule, htype, hnone⟩
  · rw [typeChar, htype]
    simpa using ⟨notMem_replaceNAtEnd hleft, fun heq => hc heq.symm⟩
  · rw [typeChar, htype, List.mem_append, not_or]
    constructor
    · rcases List.eq_nil_or_concat mid with rfl | ⟨mid, x, rfl⟩
      · -- The character stands alone, so no `n` is before it.
        rw [List.append_nil] at hsplit
        subst hsplit
        intro hmem
        by_cases hlast : left.getLast? = some 'n'
        · refine halone hlast ⟨⟨hiragana, hrule⟩, ?_⟩
          have hconcat := eq_concat_of_getLast? hlast
          have hlength : 0 < left.length := List.length_pos_of_mem hmem
          exact hnone left.dropLast ['n'] hconcat (Nat.zero_lt_one)
            (by rw [List.length_singleton]; omega)
        · have := notMem_replaceNAtEnd hleft
          rw [replaceNAtEnd, if_neg hlast] at this
          exact this hmem
      · intro hmem
        rw [hsplit, List.concat_eq_append, ← List.append_assoc, List.dropLast_concat] at hleft
        exact hleft (List.mem_append_left _ hmem)
    · obtain ⟨rule, hmem, -, rfl⟩ := romajiToHiragana_eq_some hrule
      exact rules_kana_letterN rule hmem

/-- A character that stands alone leaves the `n` before it. -/
theorem nLeft_typeChar {left : Str} {c : Char} (halone : StandsAlone c) :
    NLeft (typeChar (left ++ ['n']) c) := by
  obtain ⟨⟨kana, hkana⟩, hbehind⟩ := halone
  rcases typeFrom_cases (left ++ ['n']) c _ (Nat.succ_le_succ (Nat.min_le_left _ 4)) with
    ⟨-, hnone⟩ | ⟨pre, mid, hiragana, hsplit, -, hrule, htype, -⟩
  · have := hnone (left ++ ['n']) [] (List.append_nil _).symm (Nat.zero_lt_succ _)
    rw [List.nil_append, hkana] at this
    cases this
  rcases List.eq_nil_or_concat mid with rfl | ⟨mid, x, rfl⟩
  · rw [List.append_nil] at hsplit
    obtain ⟨rule, hmem, hromaji, rfl⟩ := romajiToHiragana_eq_some hrule
    obtain ⟨hlength, hinert⟩ := rules_single rule hmem (by rw [hromaji]; rfl)
    obtain ⟨x, hx⟩ := List.length_eq_one_iff.mp hlength
    refine ⟨left, x, [], ?_, hinert x (hx ▸ List.mem_singleton_self x)⟩
    rw [typeChar, htype, ← hsplit, hx, List.append_assoc]
    rfl
  · -- A longer rule would have the `n` in its midst.
    rw [List.concat_eq_append] at hsplit hrule
    rw [← List.append_assoc] at hsplit
    cases (List.append_inj' hsplit rfl).2
    cases eq_of_romajiToHiragana_after hrule
    rw [List.nil_append, List.singleton_append, hbehind] at hrule
    cases hrule

/-- What was left stays. -/
theorem NLeft.typeChar {left : Str} (h : NLeft left) (c : Char) :
    NLeft (Buffer.typeChar left c) := by
  obtain ⟨pre, x, post, rfl, hx⟩ := h
  have hinert : EndsInert (pre ++ ['n', x]) := by
    intro y hy
    have hxy : x = y := by simpa using hy
    rwa [← hxy]
  have heq : pre ++ 'n' :: x :: post = (pre ++ ['n', x]) ++ post := by simp
  refine ⟨pre, x, Buffer.typeChar post c, ?_, hx⟩
  rw [heq, typeChar_inert_append hinert]
  simp

theorem typed_concat (chars : Str) (c : Char) :
    (chars ++ [c]).foldl typeChar [] = typeChar (chars.foldl typeChar []) c := by
  rw [List.foldl_append]
  rfl

/-- As long as no such character is typed, an `n` can only be at the end, and is there
after an odd number of them. -/
theorem typed_spec (chars : Str) (h : NTyped chars) :
    'n' ∉ (chars.foldl typeChar []).dropLast ∧
      ((chars.foldl typeChar []).getLast? = some 'n' ↔ lettersN chars % 2 = 1) := by
  induction chars using List.reverseRecOn with
  | nil => simp [lettersN]
  | append_singleton chars c ih =>
      obtain ⟨hchars, hc⟩ := nTyped_concat.mp h
      obtain ⟨hdrop, hlast⟩ := ih hchars
      rw [typed_concat, lettersN_concat]
      by_cases hn : c = 'n'
      · subst hn
        rw [if_pos rfl]
        by_cases hodd : lettersN chars % 2 = 1
        · have hend := hlast.mpr hodd
          rw [eq_concat_of_getLast? hend, typeChar_letterN_letterN, List.dropLast_concat,
            List.getLast?_concat]
          refine ⟨hdrop, iff_of_false (by decide) (by omega)⟩
        · have hend := mt hlast.mp hodd
          rw [typeChar_letterN hend, List.dropLast_concat, List.getLast?_concat]
          refine ⟨?_, iff_of_true rfl (by omega)⟩
          have := notMem_replaceNAtEnd hdrop
          rwa [replaceNAtEnd, if_neg hend] at this
      · rw [if_neg hn]
        have hnone := notMem_typeChar hn hdrop fun hend => hc (hlast.mp hend)
        refine ⟨fun hmem => hnone (List.dropLast_subset _ hmem), ?_⟩
        exact iff_of_false (fun hend => hnone (List.mem_of_getLast? hend)) (by decide)

/-- Once such a character is typed, an `n` is left before it for good. -/
theorem nLeft_typed (chars : Str) (h : ¬NTyped chars) : NLeft (chars.foldl typeChar []) := by
  induction chars using List.reverseRecOn with
  | nil => exact absurd (fun pre c post heq => by simp at heq) h
  | append_singleton chars c ih =>
      rw [typed_concat]
      by_cases hchars : NTyped chars
      · have hc := fun hlast => h (nTyped_concat.mpr ⟨hchars, hlast⟩)
        obtain ⟨hodd, halone⟩ := Classical.not_imp.mp hc
        rw [eq_concat_of_getLast? ((typed_spec chars hchars).2.mpr hodd)]
        exact nLeft_typeChar (not_not.mp halone)
      · exact (ih hchars).typeChar c

/-- Typing into an empty buffer leaves a text in which every `n` is the last character
or is followed by `y`, exactly if no character that has a rule of its own, and none
behind an `n`, is typed behind an odd number of letters `n`. -/
theorem nReady_typeString_iff (chars : Str) :
    ∃ buffer, ({} : Buffer).typeString chars = some buffer ∧
      (NReady buffer.string ↔
        ∀ pre c post, chars = pre ++ c :: post → lettersN pre % 2 = 1 → ¬StandsAlone c) := by
  refine ⟨_, typeString_ofSplit [] chars [], ?_⟩
  rw [string_ofSplit, List.append_nil]
  constructor
  · intro hready
    by_contra h
    exact not_nReady_of_nLeft (nLeft_typed chars h) hready
  · intro h
    exact nReady_of_dropLast (typed_spec chars h).1

/-- After `n1` the `n` is still there. -/
theorem not_nReady_typeString :
    ¬∀ chars : Str, (∀ c ∈ chars, 32 ≤ c.toNat ∧ c.toNat ≤ 126) →
      ∃ buffer, ({} : Buffer).typeString chars = some buffer ∧ NReady buffer.string := by
  intro h
  obtain ⟨buffer, htype, hready⟩ := h ['n', '1'] (by simp)
  have hempty : ({} : Buffer) = ofSplit [] [] := rfl
  rw [hempty, typeString_ofSplit] at htype
  have halone : StandsAlone '1' :=
    @standsAlone_of_mem '1' ['１'] (by decide) (by decide)
  have hn : typeChar [] 'n' = ['n'] := typeChar_letterN (by simp)
  rw [← Option.some.inj htype, string_ofSplit, List.append_nil, List.foldl_cons,
    List.foldl_cons, List.foldl_nil, hn] at hready
  exact not_nReady_of_nLeft (@nLeft_typeChar [] '1' halone) hready

end Buffer

end Hachee.Senn.Im
