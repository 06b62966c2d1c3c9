import Mathlib.Analysis.SpecialFunctions.Log.Basic
import Hachee.Kkc.Impl.ClassNgram.Convert
import Hachee.Kkc.Impl.Mirror.Markov

/-!
# The user dictionary of the two engines

The two builders of an extended dictionary, as instances of `ExDictBuilder.Engine`.  The class
n-gram engine stores logarithms and sums the probabilities of its vocabulary in each build.  The
mirror engine stores costs and has the sum since it was built.

With the logarithm and the exponential function of the real numbers both engines are lawful, so
that both builders work exactly if an item is left (`exDict_builds_iff`).  An empty user
dictionary, or one whose words are all known, is an error of both.
-/

namespace Hachee.Kkc.Impl

open Lisp
open ExDictBuilder (Item Walk Engine sumProbability exists_sumProbability)

/-! ## The class n-gram engine -/

namespace ClassNgram

/-- `kkc`, what the engines for 2-grams and 3-grams have in common. -/
structure BaseKkc (R : Type) where
  classVocab : ClassVocab
  classModel : ClassModel
  unkModel : UnkModel
  unkVocab : UnkVocab
  exDict : HashTable Str (List (ExDictEntry R))

section Builder

variable {R : Type} [Field R] [DecidableEq R] (exp log : R → R)

/-- `kkc-probability` -/
def kkcProbability (kkc : BaseKkc R) (string : Str) : Option R := do
  let logProb ← unkLogProbability (fun p => log p) kkc.unkVocab kkc.unkModel string
  some (exp logProb)

/-- `kkc-contains-p` -/
def kkcContainsP (kkc : BaseKkc R) (item : Item) : Bool :=
  (kkc.classVocab.entries item.pron).any fun entry => entry.form = item.form

/-- `kkc-vocabulary-probability` -/
def kkcVocabularyProbability (kkc : BaseKkc R) (walk : Walk kkc.classVocab.strEntryHash) :
    Option R :=
  sumProbability (kkcProbability exp log kkc) ClassVocabEntry.form
    (walk.table.entries.map Prod.snd)

/-- The engine, for its builder.  An entry has the logarithm of its probability. -/
def exDictEngine (kkc : BaseKkc R) (walk : Walk kkc.classVocab.strEntryHash) :
    Engine R (ExDictEntry R) where
  containsP := kkcContainsP kkc
  probability := kkcProbability exp log kkc
  vocabularyProbability := kkcVocabularyProbability exp log kkc walk
  makeEntry form newProb := if newProb = 0 then none else some ⟨form, log newProb⟩
  entryForm := ExDictEntry.form
  entryProbability entry := exp entry.unkLogProbability

/-- `set-ex-dict` -/
def setExDict (kkc : BaseKkc R) (walk : Walk kkc.classVocab.strEntryHash)
    (exDictSource : List Item) : Option (BaseKkc R) := do
  let exDict ← (exDictEngine exp log kkc walk).build exDictSource
  some { kkc with exDict }

/-- A user dictionary without a new word stops the start of the server. -/
theorem setExDict_eq_none {kkc : BaseKkc R} (walk : Walk kkc.classVocab.strEntryHash)
    {exDictSource : List Item} (h : ∀ item ∈ exDictSource, kkcContainsP kkc item = true) :
    setExDict exp log kkc walk exDictSource = none := by
  rw [setExDict, Engine.build_eq_none (exDictEngine exp log kkc walk) h]
  rfl

end Builder

section Lawful

variable {kkc : BaseKkc ℝ}

/-- The character model has a probability for every string. -/
def DefinedCharModel (kkc : BaseKkc ℝ) : Prop :=
  ∀ string, ∃ logProb, unkLogProbability (fun p => Real.log p) kkc.unkVocab kkc.unkModel string =
    some logProb

theorem DefinedCharModel.kkcProbability (h : DefinedCharModel kkc) (string : Str) :
    ∃ prob, kkcProbability Real.exp Real.log kkc string = some prob ∧ 0 < prob := by
  obtain ⟨logProb, hlogProb⟩ := h string
  refine ⟨Real.exp logProb, ?_, Real.exp_pos logProb⟩
  rw [ClassNgram.kkcProbability, hlogProb]
  rfl

/-- The exponential function gives back the probability of an entry. -/
theorem DefinedCharModel.lawful (h : DefinedCharModel kkc)
    (walk : Walk kkc.classVocab.strEntryHash) :
    (exDictEngine Real.exp Real.log kkc walk).Lawful where
  probability := h.kkcProbability
  vocabularyProbability := exists_sumProbability h.kkcProbability _
  makeEntry form prob hpos := ⟨⟨form, Real.log prob⟩, if_neg hpos.ne', rfl, Real.exp_log hpos⟩

end Lawful

end ClassNgram

/-! ## The mirror engine -/

namespace Mirror

section Builder

variable {R : Type} [Field R] [DecidableEq R] (exp log : R → R)

/-- `in-dict-contains-p` -/
def inDictContainsP (inDict : HashTable Str (List InDictEntry)) (item : Item) : Bool :=
  (listEntries inDict item.pron).any fun entry => entry.form = item.form

/-- The engine, for its builder.  An entry has a cost. -/
def exDictEngine (kkc : MirrorKkc R) : Engine R (ExDictEntry R) where
  containsP := inDictContainsP kkc.inDict
  probability := charProbability exp kkc.charIntStr kkc.charMarkov kkc.charCost0gram
  vocabularyProbability := some kkc.inDictProb
  makeEntry form newProb := do
    let newCost ← fromProbability log newProb
    some ⟨form, newCost⟩
  entryForm := ExDictEntry.form
  entryProbability entry := toProbability exp entry.cost

/-- `kkc-set-ex-dict` -/
def kkcSetExDict (kkc : MirrorKkc R) (exDictSource : List Item) : Option (MirrorKkc R) := do
  let exDict ← (exDictEngine exp log kkc).build exDictSource
  some { kkc with exDict }

end Builder

/-- The engines that are built, and that then get extended dictionaries. -/
inductive Built : MirrorKkc ℝ → Prop
  | buildKkc {charIntStr : IntStr} {charMarkov : Markov}
      {inDict : HashTable Str (List InDictEntry)} {walk : Walk inDict} {kkc : MirrorKkc ℝ} :
      Mirror.buildKkc Real.exp Real.log charIntStr charMarkov walk = some kkc → Built kkc
  | kkcSetExDict {kkc kkc' : MirrorKkc ℝ} {exDictSource : List Item} : Built kkc →
      Mirror.kkcSetExDict Real.exp Real.log kkc exDictSource = some kkc' → Built kkc'

section Lawful

variable {kkc : MirrorKkc ℝ}

/-- An engine has the probability of its own vocabulary. -/
theorem Built.inDictProb (h : Built kkc) : ∃ walk : Walk kkc.inDict,
    inDictProb Real.exp walk kkc.charIntStr kkc.charMarkov kkc.charCost0gram =
      some kkc.inDictProb := by
  induction h with
  | @buildKkc charIntStr charMarkov inDict walk kkc hbuild =>
      obtain ⟨cost, -, hbuild⟩ := bind_inv hbuild
      obtain ⟨prob, hprob, hbuild⟩ := bind_inv hbuild
      obtain rfl := Option.some.inj hbuild
      exact ⟨walk, hprob⟩
  | kkcSetExDict _ hset ih =>
      obtain ⟨exDict, -, hset⟩ := bind_inv hset
      obtain rfl := Option.some.inj hset
      exact ih

/-- The character model has a cost for every string. -/
def DefinedCharModel (kkc : MirrorKkc ℝ) : Prop :=
  ∀ string, ∃ cost, charBasedCost string kkc.charIntStr kkc.charMarkov kkc.charCost0gram =
    some cost

theorem exists_charProbability {charIntStr : IntStr} {charMarkov : Markov} {charCost0gram : ℝ}
    {string : Str}
    (h : ∃ cost, charBasedCost string charIntStr charMarkov charCost0gram = some cost) :
    ∃ prob, charProbability Real.exp charIntStr charMarkov charCost0gram string = some prob ∧
      0 < prob := by
  obtain ⟨cost, hcost⟩ := h
  refine ⟨toProbability Real.exp cost, ?_, Real.exp_pos _⟩
  rw [charProbability, hcost]
  rfl

/-- A cost is the cost of its probability. -/
theorem toProbability_neg_log {prob : ℝ} (hpos : 0 < prob) :
    toProbability Real.exp (-(Real.log prob * logProbabilityToCostMultiple)) = prob := by
  have hne : (logProbabilityToCostMultiple : ℝ) ≠ 0 := by
    rw [logProbabilityToCostMultiple]
    norm_num
  rw [toProbability, neg_neg, mul_div_cancel_right₀ _ hne, Real.exp_log hpos]

theorem Built.lawful (h : Built kkc) (hmodel : DefinedCharModel kkc) :
    (exDictEngine Real.exp Real.log kkc).Lawful where
  probability := fun string => exists_charProbability (hmodel string)
  vocabularyProbability := by
    obtain ⟨walk, hprob⟩ := h.inDictProb
    obtain ⟨total, htotal, hnonneg⟩ := exists_sumProbability
      (fun string => exists_charProbability (hmodel string)) (walk.table.entries.map Prod.snd)
    rw [Mirror.inDictProb, htotal] at hprob
    exact ⟨total, hprob.symm, hnonneg⟩
  makeEntry form prob hpos := by
    refine ⟨⟨form, -(Real.log prob * logProbabilityToCostMultiple)⟩, ?_, rfl,
      toProbability_neg_log hpos⟩
    simp [exDictEngine, fromProbability, hpos.ne']

/-- Files whose tables are in range make an engine with a character model. -/
theorem exists_buildKkc {charIntStr : IntStr} {charMarkov : Markov}
    (hsize : btToken < charMarkov.cost1gram.length)
    (hints : ∀ e ∈ charIntStr.strToInt.entries, e.2 < charMarkov.cost1gram.length)
    (hchars : intStrSize charIntStr < 6880) {inDict : HashTable Str (List InDictEntry)}
    (walk : Walk inDict) :
    ∃ kkc, Mirror.buildKkc Real.exp Real.log charIntStr charMarkov walk = some kkc ∧
      kkc.inDict = inDict ∧ DefinedCharModel kkc := by
  have hpos : (0 : Int) < 6878 - ((intStrSize charIntStr : Int) - 2) := by omega
  have hne : (1 / ((6878 - ((intStrSize charIntStr : Int) - 2) : Int) : ℝ)) ≠ 0 :=
    one_div_ne_zero (Int.cast_ne_zero.mpr hpos.ne')
  have hcost (charCost0gram : ℝ) (string : Str) := exists_charBasedCost hsize hints charCost0gram
    string
  obtain ⟨charCost0gram, hcost0⟩ :
      ∃ c, Mirror.charCost0gram Real.log charIntStr = some c :=
    ⟨_, (if_pos hpos).trans (if_neg hne)⟩
  obtain ⟨prob, hprob, -⟩ := @exists_sumProbability ℝ InDictEntry _ _ _ _ InDictEntry.form
    (fun string => exists_charProbability (hcost charCost0gram string))
    (walk.table.entries.map Prod.snd)
  refine ⟨⟨inDict, prob, .empty, charMarkov, charIntStr, charCost0gram⟩, ?_, rfl,
    hcost charCost0gram⟩
  rw [Mirror.buildKkc, hcost0, Option.bind_eq_bind, Option.bind_some, Mirror.inDictProb, hprob]
  rfl

end Lawful

end Mirror

/-! ## Both engines -/

/-- Each builder makes entries for exactly the items that are not in the vocabulary, with their
own probability and an equal share of that of the vocabulary, if and only if there is such an
item. -/
theorem exDict_builds_iff {kkc : ClassNgram.BaseKkc ℝ} (hmodel : ClassNgram.DefinedCharModel kkc)
    (walk : Walk kkc.classVocab.strEntryHash) {kkc' : Mirror.MirrorKkc ℝ}
    (hbuilt : Mirror.Built kkc') (hmodel' : Mirror.DefinedCharModel kkc')
    (exDictSource : List Item) :
    ((ClassNgram.exDictEngine Real.exp Real.log kkc walk).Builds exDictSource ↔
      ∃ item ∈ exDictSource, ClassNgram.kkcContainsP kkc item = false) ∧
    ((Mirror.exDictEngine Real.exp Real.log kkc').Builds exDictSource ↔
      ∃ item ∈ exDictSource, Mirror.inDictContainsP kkc'.inDict item = false) :=
  ⟨Engine.builds_iff (hmodel.lawful walk) exDictSource,
    Engine.builds_iff (hbuilt.lawful hmodel') exDictSource⟩

/-! ## A vocabulary of one word -/

/-- The walk through a table with one entry. -/
def walkOne {ν : Type} (pron : Str) (value : ν) : Walk (HashTable.empty.puthash pron value) where
  table := Table.empty.puthash pron value
  gethash_eq k := by rw [Table.gethash_puthash, HashTable.gethash_puthash]; rfl

/-- An engine with one word, and no counts of characters. -/
def ClassNgram.oneWord : ClassNgram.BaseKkc ℝ where
  classVocab :=
    { strEntryHash := HashTable.empty.puthash ['あ'] [⟨['亜'], ⟨3, 3⟩⟩]
      unkWord := ⟨0, 0⟩
      bosWord := ⟨1, 1⟩
      eosWord := ⟨2, 2⟩ }
  classModel := ⟨.empty, .empty⟩
  unkModel := ⟨HashTable.empty.puthash [] 0, 6878⟩
  unkVocab := ⟨.empty, 1, 2, 0⟩
  exDict := .empty

theorem ClassNgram.definedCharModel_oneWord :
    ClassNgram.DefinedCharModel ClassNgram.oneWord := by
  intro string
  have hchar : ClassNgram.unkModelCharLogProbability (fun p => Real.log p)
      ClassNgram.oneWord.unkModel = some (Real.log ((1 / 6878 : Rat) : ℝ)) := by
    have hsize : (6878 : Rat) ≠ 0 := by decide
    rw [ClassNgram.unkModelCharLogProbability, ClassNgram.oneWord,
      Lisp.divide_of_ne_zero 1 hsize]
    exact ClassNgram.logarithm_of_ne_zero (fun p : Rat => Real.log p) (one_div_ne_zero hsize)
  rw [ClassNgram.unkLogProbability, hchar]
  exact ⟨_, rfl⟩

/-- The table of characters with the two tokens only. -/
def Mirror.noChars : Mirror.IntStr where
  strToInt := (Table.empty.puthash "UT".toList 0).puthash "BT".toList 1

/-- An engine with one word can be built. -/
theorem Mirror.exists_oneWord : ∃ kkc : Mirror.MirrorKkc ℝ, Mirror.Built kkc ∧
    kkc.inDict = HashTable.empty.puthash ['あ'] [⟨['亜'], 65536, 2⟩] ∧
    Mirror.DefinedCharModel kkc := by
  obtain ⟨kkc, hbuild, hdict, hmodel⟩ := @Mirror.exists_buildKkc Mirror.noChars
    ⟨[65536, 65536], .empty⟩ (by decide) (by decide) (by decide) _
    (walkOne ['あ'] [⟨['亜'], 65536, 2⟩])
  exact ⟨kkc, .buildKkc hbuild, hdict, hmodel⟩

/-- A new word with the same pronunciation. -/
theorem exDict_builds_iff_oneWord :
    (ClassNgram.exDictEngine Real.exp Real.log ClassNgram.oneWord (walkOne _ _)).Builds
      [⟨['あ'], ['亜']⟩, ⟨['あ'], ['阿']⟩] ∧
    ∃ kkc : Mirror.MirrorKkc ℝ, (Mirror.exDictEngine Real.exp Real.log kkc).Builds
      [⟨['あ'], ['亜']⟩, ⟨['あ'], ['阿']⟩] := by
  obtain ⟨kkc, hbuilt, hdict, hmodel⟩ := Mirror.exists_oneWord
  obtain ⟨hclass, hmirror⟩ := exDict_builds_iff ClassNgram.definedCharModel_oneWord (walkOne _ _)
    hbuilt hmodel [⟨['あ'], ['亜']⟩, ⟨['あ'], ['阿']⟩]
  refine ⟨hclass.mpr ⟨⟨['あ'], ['阿']⟩, by simp, by decide⟩, kkc,
    hmirror.mpr ⟨⟨['あ'], ['阿']⟩, by simp, ?_⟩⟩
  rw [hdict]
  decide

/-- An empty user dictionary, and one whose only word is known, are errors of both builders. -/
theorem not_exDict_builds :
    (¬ ∀ (kkc : ClassNgram.BaseKkc ℝ) (walk : Walk kkc.classVocab.strEntryHash),
      ClassNgram.DefinedCharModel kkc → ∀ exDictSource,
        (ClassNgram.exDictEngine Real.exp Real.log kkc walk).Builds exDictSource) ∧
    ¬ ∀ kkc : Mirror.MirrorKkc ℝ, Mirror.Built kkc → Mirror.DefinedCharModel kkc →
      ∀ exDictSource, (Mirror.exDictEngine Real.exp Real.log kkc).Builds exDictSource := by
  constructor
  · intro h
    obtain ⟨exDict, share, hbuild, -⟩ := h ClassNgram.oneWord (walkOne _ _)
      ClassNgram.definedCharModel_oneWord []
    rw [Engine.build_eq_none _ fun item hitem => by cases hitem] at hbuild
    cases hbuild
  · intro h
    obtain ⟨kkc, hbuilt, hdict, hmodel⟩ := Mirror.exists_oneWord
    obtain ⟨exDict, share, hbuild, -⟩ := h kkc hbuilt hmodel [⟨['あ'], ['亜']⟩]
    have hknown : ∀ item ∈ [(⟨['あ'], ['亜']⟩ : Item)],
        (Mirror.exDictEngine Real.exp Real.log kkc).containsP item = true := by
      rw [List.forall_mem_singleton]
      change Mirror.inDictContainsP kkc.inDict _ = true
      rw [hdict]
      decide
    rw [Engine.build_eq_none _ hknown] at hbuild
    cases hbuild

end Hachee.Kkc.Impl
