import Mathlib.Data.List.Induction
import Mathlib.Data.List.Infix
import Hachee.Senn.Im.Buffer

/-!
# Typing romaji into an empty buffer

A rule of the table whose kana holds no Latin letter should be typed like this:
the letters of its romaji, one by one, leave its kana before the cursor.

Characters outside ASCII are *inert* for `typeChar`: no rule has one in its
romaji, and none is the letter `n`.  So a text before the cursor that ends in one
is a frame (`typeChar_inert_append`), and typing a sequence of rules is typing each
of them into an empty buffer and joining the results
(`typeString_rules`).

What is left is the table itself.  Each rule is typed into its own kana, except
`nya`, `nyu`, `nye` and `nyo`.  After `n` the letter `y` matches no rule, so
`try-insertion` ends in the branch that turns the `n` into `ん`, before the
vowel that would complete the rule is typed.
-/

namespace Hachee.Senn.Im

open Lisp Senn.Ja

namespace Buffer

/-- Type the characters of a string one after the other. -/
def typeString (buffer : Buffer) (chars : Str) : Option Buffer := chars.foldlM insertChar buffer

/-- `insert-char` on every character is `typeChar` on every character. -/
theorem typeString_ofSplit (right : Str) :
    ∀ (chars left : Str),
      (ofSplit left right).typeString chars = some (ofSplit (chars.foldl typeChar left) right)
  | [], _ => rfl
  | c :: chars, left => by
      rw [typeString, List.foldlM_cons, insertChar_ofSplit]
      exact typeString_ofSplit right chars (typeChar left c)

/-! ## Inert text -/

/-- No character of the text can take part in a rule. -/
def Inert (text : Str) : Prop := ∀ c ∈ text, 128 ≤ c.toNat

instance (text : Str) : Decidable (Inert text) := List.decidableBAll _ text

theorem Inert.append {s t : Str} (hs : Inert s) (ht : Inert t) : Inert (s ++ t) := by
  intro c hc
  cases List.mem_append.mp hc with
  | inl h => exact hs c h
  | inr h => exact ht c h

/-- The last character of the text, if there is one, can take part in no rule. -/
def EndsInert (text : Str) : Prop := ∀ c, text.getLast? = some c → 128 ≤ c.toNat

theorem Inert.endsInert {s : Str} (hs : Inert s) : EndsInert s :=
  fun c hc => hs c (List.mem_of_getLast? hc)

/-- Such a text does not end in `n`. -/
theorem EndsInert.getLast?_ne {s : Str} (hs : EndsInert s) : s.getLast? ≠ some 'n' := by
  intro h
  have := hs 'n' h
  simp at this

theorem replaceNAtEnd_inert_append {s : Str} (hs : EndsInert s) (p : Str) :
    replaceNAtEnd (s ++ p) = s ++ replaceNAtEnd p := by
  rcases List.eq_nil_or_concat p with rfl | ⟨q, x, rfl⟩
  · rw [List.append_nil, replaceNAtEnd, if_neg hs.getLast?_ne]
    simp [replaceNAtEnd]
  · unfold replaceNAtEnd
    rw [List.concat_eq_append, ← List.append_assoc, List.getLast?_concat, List.getLast?_concat]
    split <;> simp [List.append_assoc]

/-- While the search stays within `p`, the text before it is a frame. -/
theorem typeFrom_inert_append {s : Str} (hs : EndsInert s) (p : Str) (c : Char) :
    ∀ diff : Nat, diff ≤ p.length + 1 → typeFrom (s ++ p) c diff = s ++ typeFrom p c diff
  | 0, _ => by
      simp only [typeFrom, replaceNAtEnd_inert_append hs, List.append_assoc]
  | diff + 1, h => by
      have hlen : (s ++ p).length - diff = s.length + (p.length - diff) := by
        rw [List.length_append]
        omega
      simp only [typeFrom, hlen, List.drop_length_add_append,
        List.take_length_add_append]
      cases romajiToHiragana (p.drop (p.length - diff) ++ [c]) with
      | some hiragana => simp
      | none => exact typeFrom_inert_append hs p c diff (by omega)

/-- Where the search reaches into the text before `p`, it finds nothing, since it
takes the last character of it. -/
theorem typeFrom_of_inert {s : Str} (hs : EndsInert s) (p : Str) (c : Char) :
    ∀ e : Nat, e ≤ s.length →
      typeFrom (s ++ p) c (p.length + 1 + e) = typeFrom (s ++ p) c (p.length + 1)
  | 0, _ => rfl
  | e + 1, h => by
      have hlt : (s ++ p).length - (p.length + 1 + e) < s.length := by
        rw [List.length_append]
        omega
      have hne : s.drop ((s ++ p).length - (p.length + 1 + e)) ≠ [] := by simpa using hlt
      have hlast : s.getLast? =
          some ((s.drop ((s ++ p).length - (p.length + 1 + e))).getLast hne) := by
        rw [List.getLast_drop, List.getLast?_eq_some_getLast]
      have hmem : (s.drop ((s ++ p).length - (p.length + 1 + e))).getLast hne ∈
          (s ++ p).drop ((s ++ p).length - (p.length + 1 + e)) ++ [c] := by
        rw [List.drop_append_of_le_length (Nat.le_of_lt hlt)]
        exact List.mem_append_left _ (List.mem_append_left _ (List.getLast_mem hne))
      have hnone := romajiToHiragana_eq_none hmem (hs _ hlast)
      rw [← typeFrom_of_inert hs p c e (by omega), ← Nat.add_assoc, typeFrom, hnone]

/-- A text that ends inert is a frame for `insert-char`. -/
theorem typeChar_inert_append {s : Str} (hs : EndsInert s) (p : Str) (c : Char) :
    typeChar (s ++ p) c = s ++ typeChar p c := by
  unfold typeChar
  by_cases hp : 4 ≤ p.length
  · have h1 : min (s ++ p).length 4 = 4 := by
      rw [List.length_append]
      omega
    have h2 : min p.length 4 = 4 := by omega
    rw [h1, h2]
    exact typeFrom_inert_append hs p c _ (by omega)
  · obtain ⟨e, he, hes⟩ : ∃ e, min (s ++ p).length 4 + 1 = p.length + 1 + e ∧ e ≤ s.length := by
      refine ⟨min (s ++ p).length 4 - p.length, ?_, ?_⟩ <;> rw [List.length_append] <;> omega
    have h2 : min p.length 4 = p.length := by omega
    rw [he, h2, typeFrom_of_inert hs p c e hes]
    exact typeFrom_inert_append hs p c _ (Nat.le_refl _)

theorem foldl_typeChar_inert_append {s : Str} (hs : EndsInert s) :
    ∀ chars p : Str, chars.foldl typeChar (s ++ p) = s ++ chars.foldl typeChar p
  | [], _ => rfl
  | c :: chars, p => by
      rw [List.foldl_cons, List.foldl_cons, typeChar_inert_append hs]
      exact foldl_typeChar_inert_append hs chars (typeChar p c)

/-! ## Rules while they are typed -/

/-- The kana of the rule holds no Latin letter. -/
def IsKana (rule : Str × Str) : Prop := ∀ c ∈ rule.2, c.isAlpha = false

instance (rule : Str × Str) : Decidable (IsKana rule) :=
  List.decidableBAll _ rule.2

/-- The rules that `n` followed by `y` should complete. -/
def nyRomaji : List Str := [['n', 'y', 'a'], ['n', 'y', 'u'], ['n', 'y', 'e'], ['n', 'y', 'o']]

/-- What stands before the cursor while a kana rule other than the four is being
typed. -/
def pendingRomaji : List Str :=
  [[], ['b'], ['c'], ['d'], ['f'], ['g'], ['h'], ['j'], ['k'], ['l'], ['m'], ['n'], ['p'], ['r'],
   ['s'], ['t'], ['v'], ['w'], ['x'], ['y'], ['z'], ['b', 'y'], ['c', 'h'], ['d', 'y'],
   ['g', 'w'], ['g', 'y'], ['h', 'y'], ['j', 'y'], ['k', 'w'], ['k', 'y'], ['l', 'y'],
   ['m', 'y'], ['p', 'y'], ['r', 'y'], ['s', 'h'], ['s', 'y'], ['t', 's'], ['t', 'y'],
   ['x', 'k'], ['x', 't'], ['x', 'w'], ['x', 'y'], ['z', 'y']]

/-- The last letter completes a rule: a vowel, a character that is no small letter or the
letter before it once more. -/
def completes (romaji : Str) : Bool :=
  romaji.getLast?.any fun c =>
    c ∈ ['a', 'i', 'u', 'e', 'o'] || !c.isLower || romaji.dropLast.getLast? == some c

theorem rules_completes : ∀ rule ∈ rules, completes rule.1 = true := by
  have hall : (rules.all fun rule => completes rule.1) = true := by decide +kernel
  simpa only [List.all_eq_true] using hall

/-- The ends of these texts are among them, and none of them is completed.  Of two letters the
first is no `n`. -/
theorem pendingRomaji_closed : ∀ p ∈ pendingRomaji, p.length ≤ 4 ∧
    (∀ mid ∈ p.tails, mid ∈ pendingRomaji) ∧ p.dropLast ∈ pendingRomaji ∧
      p.dropLast.getLast? ≠ some 'n' ∧ completes p = false := by
  decide +kernel

/-- Every kana rule but the four is a pending text and one more letter.  The kana of a kana
rule is inert, and that of the four starts with `に`. -/
theorem rules_pending : ∀ rule ∈ rules, IsKana rule →
    (rule.1 ∉ nyRomaji → rule.1 ≠ [] ∧ rule.1.dropLast ∈ pendingRomaji) ∧ Inert rule.2 ∧
      (rule.1 ∈ nyRomaji → rule.2.head? = some 'に') := by
  decide +kernel

/-- What is not completed is no rule. -/
theorem romajiToHiragana_eq_none_of_completes {romaji : Str} (h : completes romaji = false) :
    romajiToHiragana romaji = none := by
  cases hrule : romajiToHiragana romaji with
  | none => rfl
  | some hiragana =>
      obtain ⟨rule, hmem, hromaji, -⟩ := romajiToHiragana_eq_some hrule
      have hcomplete := rules_completes rule hmem
      rw [hromaji, h] at hcomplete
      cases hcomplete

/-- Typing pending texts one letter after the other disturbs none of them. -/
theorem foldl_typeChar_pending (p : Str) (hp : p ∈ pendingRomaji) :
    p.foldl typeChar [] = p := by
  induction p using List.reverseRecOn with
  | nil => rfl
  | append_singleton q c ih =>
      obtain ⟨-, htails, hq, hn, -⟩ := pendingRomaji_closed _ hp
      rw [List.dropLast_concat] at hq hn
      rw [List.foldl_append, ih hq]
      refine typeChar_eq_append hn fun pre mid hmid => ?_
      -- The end of the text is a pending text, and so it is no rule.
      have hend : mid ++ [c] ∈ pendingRomaji :=
        htails _ ((List.mem_tails _ _).mpr ⟨pre, by rw [hmid, List.append_assoc]⟩)
      exact romajiToHiragana_eq_none_of_completes (pendingRomaji_closed _ hend).2.2.2.2

/-- The letter that completes a rule replaces the whole pending text. -/
theorem typeChar_of_rule {p h : Str} {c : Char} (hlen : p.length ≤ 4)
    (hrule : romajiToHiragana (p ++ [c]) = some h) : typeChar p c = h := by
  rw [typeChar, Nat.min_eq_left hlen, typeFrom, Nat.sub_self, List.drop_zero, hrule]
  simp

/-- What typing the romaji of a rule into an empty buffer leaves before the
cursor. -/
def typedRule (rule : Str × Str) : Str := rule.1.foldl typeChar []

/-- Every kana rule but the four is typed into its kana. -/
theorem typedRule_eq {rule : Str × Str} (h : rule ∈ rules) (hk : IsKana rule)
    (hny : rule.1 ∉ nyRomaji) : typedRule rule = rule.2 := by
  obtain ⟨hne, hp⟩ := (rules_pending rule h hk).1 hny
  have hlast : rule.1.dropLast ++ [rule.1.getLast hne] = rule.1 :=
    List.dropLast_append_getLast hne
  have hrule : romajiToHiragana (rule.1.dropLast ++ [rule.1.getLast hne]) = some rule.2 :=
    hlast.symm ▸ romajiToHiragana_of_mem h
  rw [typedRule, ← hlast, List.foldl_append, foldl_typeChar_pending _ hp]
  exact typeChar_of_rule (pendingRomaji_closed _ hp).1 hrule

/-- After `n` the letter `y` makes `ん` of it, and the vowel completes a rule of its own. -/
theorem foldl_typeChar_n_y {v : Char} {kana : Str} (hv : (['y', v], kana) ∈ rules) :
    ['n', 'y', v].foldl typeChar [] = 'ん' :: kana := by
  have hn : typeChar [] 'n' = ['n'] := by
    have hpending := foldl_typeChar_pending ['n'] (by decide)
    rwa [List.foldl_cons, List.foldl_nil] at hpending
  have hy : typeChar ['n'] 'y' = ['ん'] ++ ['y'] := by
    refine typeChar_of_none fun pre mid hmid => romajiToHiragana_eq_none_of_completes ?_
    rcases List.singleton_eq_append_iff.mp hmid with ⟨-, rfl⟩ | ⟨-, rfl⟩
    · rfl
    · rfl
  have hinert : EndsInert ['ん'] := Inert.endsInert (by decide)
  calc ['n', 'y', v].foldl typeChar []
      = typeChar (typeChar (typeChar [] 'n') 'y') v := by
        simp only [List.foldl_cons, List.foldl_nil]
    _ = typeChar (['ん'] ++ ['y']) v := by rw [hn, hy]
    _ = ['ん'] ++ typeChar ['y'] v := typeChar_inert_append hinert ['y'] v
    _ = ['ん'] ++ kana := by
        have hrule : romajiToHiragana (['y'] ++ [v]) = some kana :=
          @romajiToHiragana_of_mem (['y', v], kana) hv
        rw [typeChar_of_rule (by decide) hrule]

theorem rules_y : (['y', 'a'], ['や']) ∈ rules ∧ (['y', 'u'], ['ゆ']) ∈ rules ∧
    (['y', 'e'], ['い', 'ぇ']) ∈ rules ∧ (['y', 'o'], ['よ']) ∈ rules := by
  decide

/-- The four are typed into `ん` and a kana of the `y` row. -/
theorem foldl_typeChar_ny : ∀ r ∈ nyRomaji,
    Inert (r.foldl typeChar []) ∧ (r.foldl typeChar []).head? = some 'ん' := by
  have hny : ∀ v kana, (['y', v], kana) ∈ rules → Inert ('ん' :: kana) →
      Inert (['n', 'y', v].foldl typeChar []) ∧
        (['n', 'y', v].foldl typeChar []).head? = some 'ん' := by
    intro v kana hv hinert
    rw [foldl_typeChar_n_y hv]
    exact ⟨hinert, rfl⟩
  obtain ⟨ha, hu, he, ho⟩ := rules_y
  simp only [nyRomaji, List.forall_mem_cons]
  exact ⟨hny _ _ ha (by decide), hny _ _ hu (by decide), hny _ _ he (by decide),
    hny _ _ ho (by decide), List.forall_mem_nil _⟩

/-- Typing a kana rule leaves inert text, whether or not it is the kana of the
rule. -/
theorem typedRule_inert {rule : Str × Str} (h : rule ∈ rules) (hk : IsKana rule) :
    Inert (typedRule rule) := by
  by_cases hny : rule.1 ∈ nyRomaji
  · exact (foldl_typeChar_ny rule.1 hny).1
  · rw [typedRule_eq h hk hny]
    exact (rules_pending rule h hk).2.1

/-! ## Sequences of rules -/

/-- Typing kana rules in a row joins what each of them leaves. -/
theorem foldl_typeChar_rules :
    ∀ (entries : List (Str × Str)) {s : Str}, (∀ e ∈ entries, e ∈ rules ∧ IsKana e) →
      Inert s →
      (entries.flatMap Prod.fst).foldl typeChar s = s ++ entries.flatMap typedRule
  | [], s, _, _ => by simp
  | e :: entries, s, h, hs => by
      obtain ⟨he, hk⟩ := h e (List.mem_cons_self ..)
      have hfirst : e.1.foldl typeChar s = s ++ typedRule e := by
        simpa [typedRule] using foldl_typeChar_inert_append hs.endsInert e.1 []
      have hrest := foldl_typeChar_rules entries (fun x hx => h x (List.mem_cons_of_mem _ hx))
        (hs.append (typedRule_inert he hk))
      rw [List.flatMap_cons, List.foldl_append, hfirst, hrest, List.flatMap_cons,
        List.append_assoc]

theorem typeString_rules {entries : List (Str × Str)} (h : ∀ e ∈ entries, e ∈ rules ∧ IsKana e) :
    ({} : Buffer).typeString (entries.flatMap Prod.fst) =
      some (ofSplit (entries.flatMap typedRule) []) := by
  have h0 := typeString_ofSplit [] (entries.flatMap Prod.fst) []
  rw [foldl_typeChar_rules entries h (by simp [Inert]), List.nil_append] at h0
  exact h0

/-- What is typed is the kana of the rules exactly when none of the four rules is
among them.  At the first of the four, `ん` stands where the kana has `に`. -/
theorem flatMap_typedRule_eq_iff :
    ∀ entries : List (Str × Str), (∀ e ∈ entries, e ∈ rules ∧ IsKana e) →
      (entries.flatMap typedRule = entries.flatMap Prod.snd ↔ ∀ e ∈ entries, e.1 ∉ nyRomaji)
  | [], _ => by simp
  | e :: entries, h => by
      obtain ⟨he, hk⟩ := h e (List.mem_cons_self ..)
      have ih := flatMap_typedRule_eq_iff entries (fun x hx => h x (List.mem_cons_of_mem _ hx))
      rw [List.flatMap_cons, List.flatMap_cons, List.forall_mem_cons]
      by_cases hny : e.1 ∈ nyRomaji
      · have htyped : (typedRule e).head? = some 'ん' := (foldl_typeChar_ny e.1 hny).2
        have hkana := (rules_pending e he hk).2.2 hny
        refine ⟨fun heq => ?_, fun hall => absurd hny hall.1⟩
        have hhead := congrArg List.head? heq
        rw [List.head?_append, List.head?_append, htyped, hkana] at hhead
        simp at hhead
      · rw [typedRule_eq he hk hny, List.append_cancel_left_eq, ih]
        exact (and_iff_right hny).symm

/-- Typing a sequence of kana rules letter by letter into an empty buffer writes
their kana and leaves the cursor at the end, if and only if none of the rules is
`nya`, `nyu`, `nye` or `nyo`. -/
theorem typeString_kana_iff (entries : List (Str × Str))
    (h : ∀ e ∈ entries, e ∈ rules ∧ IsKana e) :
    ({} : Buffer).typeString (entries.flatMap Prod.fst) =
        some ⟨entries.flatMap Prod.snd, (entries.flatMap Prod.snd).length⟩ ↔
      ∀ e ∈ entries, e.1 ∉ nyRomaji := by
  rw [typeString_rules h, ← flatMap_typedRule_eq_iff entries h]
  constructor
  · intro heq
    simpa [ofSplit] using congrArg (Option.map Buffer.string) heq
  · intro heq
    simp [ofSplit, heq]

/-- `kya` and `nn` in a row. -/
theorem typeString_kyann :
    ({} : Buffer).typeString ['k', 'y', 'a', 'n', 'n'] = some ⟨['き', 'ゃ', 'ん'], 3⟩ :=
  (typeString_kana_iff [(['k', 'y', 'a'], ['き', 'ゃ']), (['n', 'n'], ['ん'])]
    (by decide)).mpr (by decide)

/-- `nya` is typed into `んや`. -/
theorem typeString_nya :
    (['n', 'y', 'a'], ['に', 'ゃ']) ∈ rules ∧ IsKana (['n', 'y', 'a'], ['に', 'ゃ']) ∧
      ({} : Buffer).typeString ['n', 'y', 'a'] = some ⟨['ん', 'や'], 2⟩ ∧
      ({} : Buffer).typeString ['n', 'y', 'a'] ≠ some ⟨['に', 'ゃ'], 2⟩ := by
  have htype : ({} : Buffer).typeString ['n', 'y', 'a'] = some ⟨['ん', 'や'], 2⟩ := by
    have hofSplit := typeString_ofSplit [] ['n', 'y', 'a'] []
    rwa [foldl_typeChar_n_y rules_y.1] at hofSplit
  refine ⟨by decide, by decide, htype, ?_⟩
  rw [htype]
  decide

end Buffer

end Hachee.Senn.Im
