import Hachee.Lisp.Sequence

/-!
# Romaji, hiragana and katakana (`senn.ja`)

`rules` is the rule table of the source, in its order.  The source loads it into
a hash table, so a later rule of the same romaji would replace an earlier one.
-/

namespace Hachee.Senn.Ja

open Lisp

/-- One character of `hiragana->katakana`.  The range is `ぁ` to `ゖ`. -/
def htok (c : Char) : Char :=
  if 'ぁ'.toNat ≤ c.toNat ∧ c.toNat ≤ 'ゖ'.toNat then
    Char.ofNat (c.toNat + ('ア'.toNat - 'あ'.toNat))
  else c

/-- `hiragana->katakana`. -/
def hiraganaToKatakana (string : Str) : Str := string.map htok

@[simp] theorem hiraganaToKatakana_eq_nil {string : Str} :
    hiraganaToKatakana string = [] ↔ string = [] := List.map_eq_nil_iff

/-- The rules of the source: a romaji string and its kana. -/
def rules : List (Str × Str) :=
  [(['a'], ['あ']), (['i'], ['い']), (['u'], ['う']), (['e'], ['え']), (['o'], ['お']),
   (['k', 'a'], ['か']), (['k', 'i'], ['き']), (['k', 'u'], ['く']), (['k', 'e'], ['け']),
   (['k', 'o'], ['こ']),
   (['s', 'a'], ['さ']), (['s', 'i'], ['し']), (['s', 'u'], ['す']), (['s', 'e'], ['せ']),
   (['s', 'o'], ['そ']),
   (['t', 'a'], ['た']), (['t', 'i'], ['ち']), (['t', 'u'], ['つ']), (['t', 'e'], ['て']),
   (['t', 'o'], ['と']),
   (['n', 'a'], ['な']), (['n', 'i'], ['に']), (['n', 'u'], ['ぬ']), (['n', 'e'], ['ね']),
   (['n', 'o'], ['の']),
   (['h', 'a'], ['は']), (['h', 'i'], ['ひ']), (['h', 'u'], ['ふ']), (['h', 'e'], ['へ']),
   (['h', 'o'], ['ほ']),
   (['m', 'a'], ['ま']), (['m', 'i'], ['み']), (['m', 'u'], ['む']), (['m', 'e'], ['め']),
   (['m', 'o'], ['も']),
   (['y', 'a'], ['や']), (['y', 'u'], ['ゆ']), (['y', 'o'], ['よ']),
   (['r', 'a'], ['ら']), (['r', 'i'], ['り']), (['r', 'u'], ['る']), (['r', 'e'], ['れ']),
   (['r', 'o'], ['ろ']),
   (['l', 'a'], ['ぁ']), (['l', 'i'], ['ぃ']), (['l', 'u'], ['ぅ']), (['l', 'e'], ['ぇ']),
   (['l', 'o'], ['ぉ']),
   (['w', 'a'], ['わ']), (['w', 'i'], ['ゐ']), (['w', 'u'], ['う']), (['w', 'e'], ['ゑ']),
   (['w', 'o'], ['を']),
   (['n', 'n'], ['ん']),
   (['g', 'a'], ['が']), (['g', 'i'], ['ぎ']), (['g', 'u'], ['ぐ']), (['g', 'e'], ['げ']),
   (['g', 'o'], ['ご']),
   (['z', 'a'], ['ざ']), (['z', 'i'], ['じ']), (['z', 'u'], ['ず']), (['z', 'e'], ['ぜ']),
   (['z', 'o'], ['ぞ']),
   (['d', 'a'], ['だ']), (['d', 'i'], ['ぢ']), (['d', 'u'], ['づ']), (['d', 'e'], ['で']),
   (['d', 'o'], ['ど']),
   (['b', 'a'], ['ば']), (['b', 'i'], ['び']), (['b', 'u'], ['ぶ']), (['b', 'e'], ['べ']),
   (['b', 'o'], ['ぼ']),
   (['p', 'a'], ['ぱ']), (['p', 'i'], ['ぴ']), (['p', 'u'], ['ぷ']), (['p', 'e'], ['ぺ']),
   (['p', 'o'], ['ぽ']),
   (['k', 'y', 'a'], ['き', 'ゃ']), (['k', 'y', 'u'], ['き', 'ゅ']), (['k', 'y', 'e'], ['き', 'ぇ']),
   (['k', 'y', 'o'], ['き', 'ょ']),
   (['s', 'y', 'a'], ['し', 'ゃ']), (['s', 'y', 'u'], ['し', 'ゅ']), (['s', 'y', 'e'], ['し', 'ぇ']),
   (['s', 'y', 'o'], ['し', 'ょ']),
   (['s', 'h', 'a'], ['し', 'ゃ']), (['s', 'h', 'u'], ['し', 'ゅ']), (['s', 'h', 'e'], ['し', 'ぇ']),
   (['s', 'h', 'o'], ['し', 'ょ']),
   (['c', 'h', 'a'], ['ち', 'ゃ']), (['c', 'h', 'u'], ['ち', 'ゅ']), (['c', 'h', 'e'], ['ち', 'ぇ']),
   (['c', 'h', 'o'], ['ち', 'ょ']),
   (['t', 'y', 'a'], ['ち', 'ゃ']), (['t', 'y', 'u'], ['ち', 'ゅ']), (['t', 'y', 'e'], ['ち', 'ぇ']),
   (['t', 'y', 'o'], ['ち', 'ょ']),
   (['n', 'y', 'a'], ['に', 'ゃ']), (['n', 'y', 'u'], ['に', 'ゅ']), (['n', 'y', 'e'], ['に', 'ぇ']),
   (['n', 'y', 'o'], ['に', 'ょ']),
   (['h', 'y', 'a'], ['ひ', 'ゃ']), (['h', 'y', 'u'], ['ひ', 'ゅ']), (['h', 'y', 'e'], ['ひ', 'ぇ']),
   (['h', 'y', 'o'], ['ひ', 'ょ']),
   (['m', 'y', 'a'], ['み', 'ゃ']), (['m', 'y', 'u'], ['み', 'ゅ']), (['m', 'y', 'e'], ['み', 'ぇ']),
   (['m', 'y', 'o'], ['み', 'ょ']),
   (['r', 'y', 'a'], ['り', 'ゃ']), (['r', 'y', 'u'], ['り', 'ゅ']), (['r', 'y', 'e'], ['り', 'ぇ']),
   (['r', 'y', 'o'], ['り', 'ょ']),
   (['l', 'y', 'a'], ['ゃ']), (['l', 'y', 'u'], ['ゅ']), (['l', 'y', 'e'], ['ぇ']),
   (['l', 'y', 'o'], ['ょ']),
   (['g', 'y', 'a'], ['ぎ', 'ゃ']), (['g', 'y', 'u'], ['ぎ', 'ゅ']), (['g', 'y', 'e'], ['ぎ', 'ぇ']),
   (['g', 'y', 'o'], ['ぎ', 'ょ']),
   (['z', 'y', 'a'], ['じ', 'ゃ']), (['z', 'y', 'u'], ['じ', 'ゅ']), (['z', 'y', 'e'], ['じ', 'ぇ']),
   (['z', 'y', 'o'], ['じ', 'ょ']),
   (['j', 'y', 'a'], ['じ', 'ゃ']), (['j', 'y', 'u'], ['じ', 'ゅ']), (['j', 'y', 'e'], ['じ', 'ぇ']),
   (['j', 'y', 'o'], ['じ', 'ょ']),
   (['j', 'a'], ['じ', 'ゃ']), (['j', 'u'], ['じ', 'ゅ']), (['j', 'e'], ['じ', 'ぇ']),
   (['j', 'o'], ['じ', 'ょ']),
   (['b', 'y', 'a'], ['び', 'ゃ']), (['b', 'y', 'u'], ['び', 'ゅ']), (['b', 'y', 'e'], ['び', 'ぇ']),
   (['b', 'y', 'o'], ['び', 'ょ']),
   (['p', 'y', 'a'], ['ぴ', 'ゃ']), (['p', 'y', 'u'], ['ぴ', 'ゅ']), (['p', 'y', 'e'], ['ぴ', 'ぇ']),
   (['p', 'y', 'o'], ['ぴ', 'ょ']),
   (['k', 'w', 'a'], ['く', 'ゎ']), (['k', 'w', 'i'], ['く', 'ぃ']), (['k', 'w', 'e'], ['く', 'ぇ']),
   (['k', 'w', 'o'], ['く', 'ぉ']),
   (['t', 's', 'a'], ['つ', 'ぁ']), (['t', 's', 'i'], ['つ', 'ぃ']), (['t', 's', 'e'], ['つ', 'ぇ']),
   (['t', 's', 'o'], ['つ', 'ぉ']),
   (['f', 'a'], ['ふ', 'ぁ']), (['f', 'i'], ['ふ', 'ぃ']), (['f', 'e'], ['ふ', 'ぇ']),
   (['f', 'o'], ['ふ', 'ぉ']),
   (['g', 'w', 'a'], ['ぐ', 'ゎ']), (['g', 'w', 'i'], ['ぐ', 'ぃ']), (['g', 'w', 'e'], ['ぐ', 'ぇ']),
   (['g', 'w', 'o'], ['ぐ', 'ぉ']),
   (['d', 'y', 'i'], ['で', 'ぃ']), (['d', 'y', 'u'], ['ど', 'ぅ']), (['d', 'y', 'e'], ['で', 'ぇ']),
   (['d', 'y', 'o'], ['ど', 'ぉ']),
   (['x', 'w', 'i'], ['う', 'ぃ']), (['x', 'w', 'e'], ['う', 'ぇ']), (['x', 'w', 'o'], ['う', 'ぉ']),
   (['s', 'h', 'i'], ['し']), (['t', 'y', 'i'], ['て', 'ぃ']), (['c', 'h', 'i'], ['ち']),
   (['t', 's', 'u'], ['つ']),
   (['j', 'i'], ['じ']), (['f', 'u'], ['ふ']), (['y', 'e'], ['い', 'ぇ']),
   (['v', 'a'], ['ヴ', 'ぁ']), (['v', 'i'], ['ヴ', 'ぃ']), (['v', 'u'], ['ヴ']),
   (['v', 'e'], ['ヴ', 'ぇ']), (['v', 'o'], ['ヴ', 'ぉ']),
   (['x', 'a'], ['ぁ']), (['x', 'i'], ['ぃ']), (['x', 'u'], ['ぅ']), (['x', 'e'], ['ぇ']),
   (['x', 'o'], ['ぉ']),
   (['x', 't', 'u'], ['っ']), (['x', 'y', 'a'], ['ゃ']), (['x', 'y', 'u'], ['ゅ']),
   (['x', 'y', 'o'], ['ょ']),
   (['x', 'w', 'a'], ['ゎ']), (['x', 'k', 'a'], ['ヵ']), (['x', 'k', 'e'], ['ヶ']),
   (['v', 'v'], ['っ', 'v']), (['x', 'x'], ['っ', 'x']), (['k', 'k'], ['っ', 'k']),
   (['g', 'g'], ['っ', 'g']), (['s', 's'], ['っ', 's']),
   (['z', 'z'], ['っ', 'z']), (['j', 'j'], ['っ', 'j']), (['t', 't'], ['っ', 't']),
   (['d', 'd'], ['っ', 'd']), (['h', 'h'], ['っ', 'h']),
   (['f', 'f'], ['っ', 'f']), (['b', 'b'], ['っ', 'b']), (['p', 'p'], ['っ', 'p']),
   (['m', 'm'], ['っ', 'm']), (['y', 'y'], ['っ', 'y']),
   (['r', 'r'], ['っ', 'r']), (['w', 'w'], ['っ', 'w']), (['c', 'c'], ['っ', 'c']),
   (['1'], ['１']), (['2'], ['２']), (['3'], ['３']), (['4'], ['４']), (['5'], ['５']),
   (['6'], ['６']), (['7'], ['７']), (['8'], ['８']), (['9'], ['９']), (['0'], ['０']),
   (['!'], ['！']), (['@'], ['＠']), (['#'], ['＃']), (['$'], ['＄']), (['%'], ['％']),
   (['^'], ['＾']), (['&'], ['＆']), (['*'], ['＊']), (['('], ['（']), ([')'], ['）']),
   (['-'], ['ー']), (['='], ['＝']), (['`'], ['｀']), (['\\'], ['￥']), (['|'], ['｜']),
   (['_'], ['＿']), (['+'], ['＋']), (['~'], ['￣']), (['{'], ['｛']), (['}'], ['｝']),
   ([':'], ['：']), ([';'], ['；']), (['"'], ['”']), (['\''], ['’']), (['.'], ['。']),
   ([','], ['、']), (['<'], ['＜']), (['>'], ['＞']), (['?'], ['？']), (['/'], ['・']),
   (['A'], ['Ａ']), (['B'], ['Ｂ']), (['C'], ['Ｃ']), (['D'], ['Ｄ']), (['E'], ['Ｅ']),
   (['F'], ['Ｆ']), (['G'], ['Ｇ']), (['H'], ['Ｈ']), (['I'], ['Ｉ']), (['J'], ['Ｊ']),
   (['K'], ['Ｋ']), (['L'], ['Ｌ']), (['M'], ['Ｍ']), (['N'], ['Ｎ']), (['O'], ['Ｏ']),
   (['P'], ['Ｐ']), (['Q'], ['Ｑ']), (['R'], ['Ｒ']), (['S'], ['Ｓ']), (['T'], ['Ｔ']),
   (['U'], ['Ｕ']), (['V'], ['Ｖ']), (['W'], ['Ｗ']), (['X'], ['Ｘ']), (['Y'], ['Ｙ']),
   (['Z'], ['Ｚ'])]

/-- The table `romaji->hiragana` looks romaji up in. -/
def table : HashTable Str Str :=
  rules.foldl (fun table rule => table.puthash rule.1 rule.2) HashTable.empty

/-- `romaji->hiragana`. -/
def romajiToHiragana (romaji : Str) : Option Str := table.gethash romaji

/-- What the table answers is the kana of a rule. -/
theorem romajiToHiragana_eq_some {romaji hiragana : Str}
    (h : romajiToHiragana romaji = some hiragana) :
    ∃ rule ∈ rules, rule.1 = romaji ∧ rule.2 = hiragana := by
  cases HashTable.gethash_foldl_puthash _ _ rules _ h with
  | inl h' => cases h'
  | inr h' => exact h'

/-- A number for a romaji string, on which the kernel compares rules fast. -/
def romajiCode (romaji : Str) : Nat := romaji.foldl (fun n c => 128 * n + c.toNat) 0

/-- No romaji string has two rules. -/
theorem rules_nodup : (rules.map Prod.fst).Nodup := by
  have hcodes : ((rules.map Prod.fst).map romajiCode).Nodup :=
    nodup_of_distinct (by decide +kernel)
  exact List.Nodup.of_map romajiCode hcodes

/-- The table answers every rule. -/
theorem romajiToHiragana_of_mem {rule : Str × Str} (h : rule ∈ rules) :
    romajiToHiragana rule.1 = some rule.2 :=
  HashTable.gethash_foldl_puthash_of_mem Prod.fst Prod.snd rules _ rules_nodup h

/-- Every romaji string of the table is written in ASCII. -/
theorem rules_romaji_ascii : ∀ rule ∈ rules, ∀ c ∈ rule.1, c.toNat < 128 := by
  have hall : (rules.all fun rule => rule.1.all fun c => decide (c.toNat < 128)) = true := by
    decide +kernel
  simpa only [List.all_eq_true, decide_eq_true_eq] using hall

/-- Every rule writes something. -/
theorem rules_hiragana_ne_nil : ∀ rule ∈ rules, rule.2 ≠ [] := by
  decide +kernel

theorem romajiToHiragana_ne_nil {romaji hiragana : Str}
    (h : romajiToHiragana romaji = some hiragana) : hiragana ≠ [] := by
  obtain ⟨rule, hrule, -, rfl⟩ := romajiToHiragana_eq_some h
  exact rules_hiragana_ne_nil rule hrule

/-- The table knows no string with a character outside ASCII. -/
theorem romajiToHiragana_eq_none {romaji : Str} {c : Char} (hc : c ∈ romaji)
    (hascii : 128 ≤ c.toNat) : romajiToHiragana romaji = none := by
  cases h : romajiToHiragana romaji with
  | none => rfl
  | some hiragana =>
      obtain ⟨rule, hrule, rfl, -⟩ := romajiToHiragana_eq_some h
      exact absurd (rules_romaji_ascii rule hrule c hc) (by omega)

end Hachee.Senn.Ja
