import Hachee.LanguageModel.Ngram.ClassCounts

/-!
# The probabilities of a class model

A class model gives a token the probability of its class times its share of the
class.  The classes of a corpus continue a history as tokens do, so their
probabilities sum up to one.  The shares of the tokens of one class sum up to one
as well, since the table of the classes counts what the table of the tokens counts.

So the probabilities of the counted tokens sum up to one
(`ClassModel.sum_modelProbability`).
-/

namespace Hachee.LanguageModel.Ngram.ClassModel

open Lisp (Table)
open Probability

variable {K T C : Type} [Field K] [DecidableEq T] [DecidableEq C]

/-! ## The classes of the counted tokens -/

/-- The class of a token, where a token without one gets that of `EOS`. -/
def classOf (classifier : Classifier T C) (cE : C) (t : T) : C :=
  (classToken classifier t).getD cE

/-- The counted tokens: those of the sentences, and an `EOS` for each. -/
def countedTokens (sentences : List (List T)) (EOS : T) : List T :=
  sentences.flatMap (· ++ [EOS])

section

variable {classifier : Classifier T C} {EOS : T} {cE : C}

omit [DecidableEq T] [DecidableEq C] in
theorem map_classOf {tokens : List T} {classTokens : List C}
    (h : tokens.mapM (classToken classifier) = some classTokens) :
    tokens.map (classOf classifier cE) = classTokens := by
  have hmap := congrArg (List.map fun o : Option C => o.getD cE) (Lisp.mapM_eq_some_iff.mp h)
  rw [List.map_map, List.map_map] at hmap
  exact hmap.trans (List.map_id' _)

omit [DecidableEq T] [DecidableEq C] in
/-- The counted classes are those of the counted tokens. -/
theorem map_countedTokens (hcE : classToken classifier EOS = some cE) :
    ∀ {sentences : List (List T)} {classSentences : List (List C)},
      sentences.mapM (·.mapM (classToken classifier)) = some classSentences →
        (countedTokens sentences EOS).map (classOf classifier cE) =
          countedTokens classSentences cE
  | [], _, h => by
      cases h
      rfl
  | tokens :: sentences, _, h => by
      rw [List.mapM_cons] at h
      obtain ⟨classTokens, hclass, h⟩ := Lisp.bind_inv h
      obtain ⟨classSentences, hrest, h⟩ := Lisp.bind_inv h
      cases h
      have ih := map_countedTokens hcE hrest
      have hEOS : classOf classifier cE EOS = cE := by rw [classOf, hcE, Option.getD_some]
      simp only [countedTokens, List.flatMap_cons, List.map_append, List.map_cons,
        List.map_nil] at ih ⊢
      rw [ih, map_classOf hclass, hEOS]

omit [DecidableEq T] [DecidableEq C] in
/-- Every counted token has a class. -/
theorem classToken_of_counted (hcE : classToken classifier EOS = some cE)
    {sentences : List (List T)} {classSentences : List (List C)}
    (hmap : sentences.mapM (·.mapM (classToken classifier)) = some classSentences) {t : T}
    (ht : t ∈ countedTokens sentences EOS) :
    classToken classifier t = some (classOf classifier cE t) := by
  obtain ⟨tokens, htokens, ht⟩ := List.mem_flatMap.mp ht
  obtain ⟨classTokens, -, hclass⟩ := Lisp.exists_of_mapM_eq_some hmap htokens
  cases List.mem_append.mp ht with
  | inl ht =>
      obtain ⟨c, -, hc⟩ := Lisp.exists_of_mapM_eq_some hclass ht
      rw [classOf, hc, Option.getD_some]
  | inr ht => rw [List.mem_singleton.mp ht, classOf, hcE, Option.getD_some]

end

/-- The classes of a corpus that has a sentence. -/
theorem toFinset_countedTokens {sentences : List (List C)} (hne : sentences ≠ []) (cE : C) :
    (countedTokens sentences cE).toFinset = corpusTokens sentences cE := by
  ext c
  simp only [countedTokens, corpusTokens, List.mem_toFinset, List.mem_flatMap, List.mem_append,
    List.mem_cons, List.mem_flatten, List.not_mem_nil, or_false]
  constructor
  · rintro ⟨tokens, htokens, hc | hc⟩
    · exact Or.inr ⟨tokens, htokens, hc⟩
    · exact Or.inl hc
  · rintro (hc | ⟨tokens, htokens, hc⟩)
    · obtain ⟨tokens, htokens⟩ := List.exists_mem_of_ne_nil sentences hne
      exact ⟨tokens, htokens, Or.inr hc⟩
    · exact ⟨tokens, htokens, Or.inl hc⟩

/-! ## Sums -/

/-- The keys of a table of counts are what was counted. -/
theorem toFinset_keys_foldl_inchash {A : Type} [DecidableEq A] (l : List A) :
    (l.foldl Table.inchash Table.empty).keys.toFinset = l.toFinset := by
  ext a
  rw [List.mem_toFinset, List.mem_toFinset, Table.mem_keys_iff, Table.gethash_foldl_inchash_empty]
  constructor
  · rintro ⟨c, hc⟩
    obtain ⟨hcount, hpos⟩ := Table.tally_eq_some_iff.mp hc
    exact List.count_pos_iff.mp (hcount ▸ hpos)
  · intro ha
    exact ⟨_, Table.tally_eq_some_iff.mpr ⟨rfl, List.count_pos_iff.mpr ha⟩⟩

theorem gethash_of_counted {A : Type} [DecidableEq A] {l : List A} {a : A} (ha : a ∈ l) :
    (l.foldl Table.inchash Table.empty).gethash a = some (l.count a) := by
  rw [Table.gethash_foldl_inchash_empty, Table.tally_eq_some_iff]
  exact ⟨rfl, List.count_pos_iff.mpr ha⟩

/-- A counted token has the probability of its class times its share of the class. -/
theorem modelProbability_of_counted {model : ClassModel K T C} {EOS : T} {cE : C}
    {sentences : List (List T)} {classSentences : List (List C)}
    (hcE : classToken model.classifier EOS = some cE)
    (hmap : sentences.mapM (·.mapM (classToken model.classifier)) = some classSentences)
    (htokens : model.tokenFreq = (countedTokens sentences EOS).foldl Table.inchash Table.empty)
    (hclasses : model.classTokenFreq =
      (countedTokens classSentences cE).foldl Table.inchash Table.empty)
    {history : List T} {classHistory : List C}
    (hhistory : history.mapM (classToken model.classifier) = some classHistory) {t : T}
    (ht : t ∈ model.tokenFreq.keys) :
    model.modelProbability t history =
      some (modelInterpolatedProbability model.toModel (classOf model.classifier cE t)
          classHistory *
        (((countedTokens sentences EOS).count t : K) /
          (((countedTokens sentences EOS).map (classOf model.classifier cE)).count
            (classOf model.classifier cE t) : K))) := by
  rw [htokens, ← List.mem_toFinset, toFinset_keys_foldl_inchash, List.mem_toFinset] at ht
  have hclass := classToken_of_counted hcE hmap ht
  have hmem : classOf model.classifier cE t ∈ countedTokens classSentences cE := by
    rw [← map_countedTokens hcE hmap]
    exact List.mem_map_of_mem ht
  simp only [modelProbability, classInterpolatedProbability, tokenProbability, hclass, hhistory,
    htokens, hclasses, Option.bind_eq_bind, Option.bind_some, gethash_of_counted ht,
    gethash_of_counted hmem]
  rw [map_countedTokens hcE hmap]

/-- Train a class model with weights that sum up to one, for a classifier that gives
`BOS` a class of its own.  After a history whose classes were counted and do not end
in that of `EOS`, the probabilities of all counted tokens sum up to one. -/
theorem sum_modelProbability [CharZero K] {BOS EOS : T} {weights : List K}
    {classifier : Classifier T C} {sentences : List (List T)} {trained : ClassModel K T C}
    {history : List T} {classHistory : List C} {count : Nat}
    (htrained : addCounts BOS EOS (make weights classifier) sentences = some trained)
    (hsum : weights.sum = 1) (hsentences : sentences ≠ []) (hne : BOS ≠ EOS)
    (hbos : ∀ tokens ∈ sentences, BOS ∉ tokens)
    (hown : ∀ t, classToken classifier t = classToken classifier BOS → t = BOS)
    (hlen : history.length = weights.length - 1)
    (hhistory : history.mapM (classToken classifier) = some classHistory)
    (hcount : getCount trained.freq classHistory = some count)
    (hlast : classHistory.getLast? ≠ classToken classifier EOS) :
    ∃ probabilities,
      trained.tokenFreq.keys.mapM (fun t => trained.modelProbability t history) =
        some probabilities ∧ probabilities.sum = 1 := by
  obtain ⟨cB, cE, classSentences, hcB, hcE, hmap, rfl⟩ := addCounts_eq_some htrained
  -- The weights are those that were given, since there are some.
  have hweights : initialWeights weights = weights := by
    cases weights with
    | nil => exact absurd hsum (by simp)
    | cons w ws => rfl
  have hn : 1 ≤ weights.length := by
    cases weights with
    | nil => exact absurd hsum (by simp)
    | cons w ws => exact Nat.le_add_left _ _
  rw [hweights] at hcount ⊢
  rw [hcE] at hlast
  have hcne : cB ≠ cE := by
    intro heq
    exact hne (hown EOS (hcE.trans (heq ▸ hcB.symm))).symm
  have hcbos : ∀ classTokens ∈ classSentences, cB ∉ classTokens := by
    intro classTokens hclassTokens hmem
    obtain ⟨tokens, htokens, hclass⟩ := (Lisp.mem_iff_of_mapM_eq_some hmap).mp hclassTokens
    obtain ⟨t, ht, htB⟩ := (Lisp.mem_iff_of_mapM_eq_some hclass).mp hmem
    exact hbos tokens htokens (hown t (htB.trans hcB.symm) ▸ ht)
  have hclassSentences : classSentences ≠ [] := by
    intro hnil
    have hlength := congrArg List.length (Lisp.mapM_eq_some_iff.mp hmap)
    rw [hnil, List.length_map, List.map_nil, List.length_nil, List.length_eq_zero_iff] at hlength
    exact hsentences hlength
  -- The probabilities of the classes sum up to one.
  have hclasses : ∑ c ∈ corpusTokens classSentences cE,
      (weightedList (addCorpusCounts weights.length classSentences cB cE) weights c
        classHistory).sum = 1 := by
    have hlen' : classHistory.length ≤ weights.length - 1 :=
      Nat.le_of_eq ((Lisp.length_of_mapM_eq_some hhistory).trans hlen)
    have hpos : 0 < count := by
      have hc := hcount
      rw [getCount_addCorpusCounts, Table.tally_eq_some_iff] at hc
      exact hc.2
    exact (sum_weightedList (continued_of_suffix hn hcne hcbos hlen' hlast hpos hcount)).trans hsum
  refine ⟨_, Lisp.mapM_eq_some_iff.mpr ((List.map_congr_left fun t ht =>
    modelProbability_of_counted hcE hmap rfl rfl hhistory ht).trans List.map_map.symm), ?_⟩
  have hnodup : ((countedTokens sentences EOS).foldl Table.inchash Table.empty).keys.Nodup :=
    Table.nodup _
  show (((countedTokens sentences EOS).foldl Table.inchash Table.empty).keys.map _).sum = 1
  rw [← List.sum_toFinset _ hnodup, toFinset_keys_foldl_inchash]
  refine (Foundation.sum_shares (countedTokens sentences EOS) (classOf classifier cE) fun c =>
    (weightedList (addCorpusCounts weights.length classSentences cB cE) weights c
      classHistory).sum).trans ?_
  rw [map_countedTokens hcE hmap, toFinset_countedTokens hclassSentences]
  exact hclasses

/-- The classes `0` of `BOS`, `1` of `EOS` and `2` of all other tokens. -/
def threeClasses : Classifier Int Int := ⟨fun t => if t = 0 ∨ t = 1 then some t else some 2⟩

/-- Bigrams of two sentences whose tokens are all of one class. -/
theorem sum_modelProbability_bigrams :
    ∃ (trained : ClassModel Rat Int Int) (probabilities : List Rat),
      addCounts 0 1 (make [1 / 4, 3 / 4] threeClasses) [[3, 4], [3]] = some trained ∧
      trained.tokenFreq.keys.mapM (fun t => trained.modelProbability t [3]) =
        some probabilities ∧ probabilities.sum = 1 := by
  have hsome : (addCounts 0 1 (make [(1 / 4 : Rat), 3 / 4] threeClasses) [[3, 4], [3]]).isSome := by
    decide +kernel
  have hcount : ((addCounts 0 1 (make [(1 / 4 : Rat), 3 / 4] threeClasses) [[3, 4], [3]]).bind
      fun trained => getCount trained.freq [2]) = some 3 := by
    decide +kernel
  obtain ⟨trained, htrained⟩ := Option.isSome_iff_exists.mp hsome
  rw [htrained, Option.bind_some] at hcount
  have hown : ∀ t, classToken threeClasses t = classToken threeClasses 0 → t = 0 := by
    intro t ht
    simp only [classToken, threeClasses, Lisp.HashTable.gethash] at ht
    split at ht
    next => simpa using ht
    next => simp at ht
  have hhistory : [3].mapM (classToken threeClasses) = some [2] := rfl
  obtain ⟨probabilities, hprobabilities, hsum⟩ := sum_modelProbability htrained (by norm_num)
    (by decide) (by decide) (by decide) hown (by rfl) hhistory hcount (by decide)
  exact ⟨trained, probabilities, htrained, hprobabilities, hsum⟩

end Hachee.LanguageModel.Ngram.ClassModel
