import Hachee.LanguageModel.Ngram.Counts

/-!
# What a class model counts

A class model is trained by one walk over the sentences that keeps three tables
in step: the n-grams of the classes, the tokens and the classes.  Each table is
what counting gives for the whole corpus (`ClassModel.addCounts_eq_some`).

The n-grams of one class and the table of the classes are two counts of the same
thing, but for the class of `BOS`: the padding counts as n-grams only.
-/

namespace Hachee.LanguageModel.Ngram

open Lisp (Table HashTable)
open Probability

/-! ## Single tokens -/

section Unigrams

variable {T : Type} {tokens : List T} {n : Nat} {BOS EOS : T}

/-- The positions at which a list has a value. -/
theorem countP_range_getElem? [DecidableEq T] (l : List T) (w : T) :
    (List.range l.length).countP (fun i => decide (l[i]? = some w)) = l.count w := by
  have hmap : (List.range l.length).map (fun i => l[i]?) = l.map some := by
    refine List.ext_getElem (by simp) fun i hi _ => ?_
    rw [List.length_map, List.length_range] at hi
    simp [hi]
  calc (List.range l.length).countP (fun i => decide (l[i]? = some w))
      = ((List.range l.length).map fun i => l[i]?).countP (fun o => decide (o = some w)) := by
        rw [List.countP_map]
        rfl
    _ = l.count w := by
        rw [hmap, List.countP_map, List.count]
        refine List.countP_congr fun x _ => ?_
        simp

/-- Where a single token is counted. -/
theorem countedAt_singleton_iff {extended : List T} {w : T} {start : Nat} :
    CountedAt extended n [w] start ↔ extended[start]? = some w ∧ n - 1 ≤ start + 1 := by
  have hpre := prefix_append_singleton_iff (l := extended.drop start) (h := []) (w := w)
  rw [List.nil_append, List.getElem?_drop, List.length_nil, Nat.add_zero] at hpre
  rw [CountedAt, hpre, List.length_singleton, and_iff_right (List.nil_prefix)]

theorem mem_eachNgramSubseq_of_getElem? {w : T} (hn : 1 ≤ n) (start : Nat)
    (hget : (extendedTokens tokens n BOS EOS)[start]? = some w) (hstart : n - 1 ≤ start + 1) :
    [w] ∈ eachNgramSubseq tokens n BOS EOS := by
  have hlt : start < (extendedTokens tokens n BOS EOS).length :=
    (List.getElem?_eq_some_iff.mp hget).1
  rw [eachNgramSubseq, List.mem_flatMap]
  refine ⟨start, List.mem_range.mpr hlt, (mem_eachFrom_iff ?_ hlt).mpr ?_⟩
  · simpa using hn
  · exact countedAt_singleton_iff.mpr ⟨hget, hstart⟩

/-- Every token of a sentence is counted, and `EOS`. -/
theorem mem_eachNgramSubseq_of_mem {w : T} (hn : 1 ≤ n) (hw : w ∈ tokens ++ [EOS]) :
    [w] ∈ eachNgramSubseq tokens n BOS EOS := by
  obtain ⟨i, hi⟩ := List.mem_iff_getElem?.mp hw
  refine mem_eachNgramSubseq_of_getElem? hn (n - 1 + i) ?_ (by omega)
  rw [extendedTokens, List.append_assoc, List.getElem?_append_right (by simp)]
  simpa using hi

/-- The padding is counted, if there is any. -/
theorem singleton_BOS_mem_eachNgramSubseq (hn : 2 ≤ n) :
    [BOS] ∈ eachNgramSubseq tokens n BOS EOS :=
  mem_eachNgramSubseq_of_getElem? (by omega) (n - 2)
    (getElem?_extendedTokens_lt (by omega)) (by omega)

/-- Every sentence counts the empty n-gram. -/
theorem nil_mem_eachNgramSubseq : [] ∈ eachNgramSubseq tokens n BOS EOS := by
  have hlen : n - 1 < (extendedTokens tokens n BOS EOS).length := by
    simp only [extendedTokens, List.length_append, List.length_replicate, List.length_singleton]
    omega
  rw [eachNgramSubseq, List.mem_flatMap]
  refine ⟨n - 1, List.mem_range.mpr hlen, (mem_eachFrom_iff (Nat.zero_le n) hlen).mpr ?_⟩
  exact ⟨List.nil_prefix, Nat.le_add_right _ _⟩

/-- What a corpus counts as a single token, but for the padding, a sentence has. -/
theorem exists_of_singleton_mem_corpusNgrams {sentences : List (List T)} {w : T} (hw : w ≠ BOS)
    (h : [w] ∈ corpusNgrams n sentences BOS EOS) : ∃ tokens ∈ sentences, w ∈ tokens ++ [EOS] := by
  obtain ⟨tokens, htokens, hmem⟩ := List.mem_flatMap.mp h
  rw [← List.nil_append [w]] at hmem
  exact ⟨tokens, htokens, mem_of_mem_eachNgramSubseq hmem hw⟩

variable [DecidableEq T]

/-- But for the padding, a sentence counts a single token as often as it has it. -/
theorem count_singleton_eachNgramSubseq (tokens : List T) (EOS : T) {w : T} (hn : 1 ≤ n)
    (hw : w ≠ BOS) :
    (eachNgramSubseq tokens n BOS EOS).count [w] = (tokens ++ [EOS]).count w := by
  rw [count_eachNgramSubseq tokens n BOS EOS (by simpa using hn)]
  calc (List.range (extendedTokens tokens n BOS EOS).length).countP
        (fun start => decide (CountedAt (extendedTokens tokens n BOS EOS) n [w] start))
      = (List.range (extendedTokens tokens n BOS EOS).length).countP
          (fun start => decide ((extendedTokens tokens n BOS EOS)[start]? = some w)) := by
        refine List.countP_congr fun start _ => ?_
        rw [decide_eq_true_eq, decide_eq_true_eq, countedAt_singleton_iff, and_iff_left_iff_imp]
        intro hget
        -- in the padding stands only `BOS`
        by_contra hlt
        rw [getElem?_extendedTokens_lt (by omega), Option.some.injEq] at hget
        exact hw hget.symm
    _ = (extendedTokens tokens n BOS EOS).count w := countP_range_getElem? _ _
    _ = (tokens ++ [EOS]).count w := by
        rw [extendedTokens, List.append_assoc, List.count_append,
          List.count_replicate, if_neg (by simpa using hw.symm), Nat.zero_add]

/-- The same for a corpus. -/
theorem count_singleton_corpusNgrams {sentences : List (List T)} {w : T} (hn : 1 ≤ n)
    (hw : w ≠ BOS) :
    (corpusNgrams n sentences BOS EOS).count [w] =
      (sentences.flatMap fun tokens => tokens ++ [EOS]).count w := by
  induction sentences with
  | nil => rfl
  | cons tokens sentences ih =>
      have hhead := count_singleton_eachNgramSubseq tokens EOS hn hw
      simp only [corpusNgrams, List.flatMap_cons, List.count_append] at ih ⊢
      rw [hhead, ih, List.count_append]

end Unigrams

/-! ## The tables of a trained class model -/

namespace ClassModel

variable {K T C : Type} [Field K] [DecidableEq T] [DecidableEq C]

omit [DecidableEq C] in
theorem addTokenCounts_eq (tokenFreq : Table T Nat) (tokens : List T) (EOS : T) :
    addTokenCounts tokenFreq tokens EOS = (tokens ++ [EOS]).foldl Table.inchash tokenFreq := by
  rw [addTokenCounts, List.foldl_append]
  rfl

omit [Field K] in
/-- What the loop over the sentences leaves. -/
theorem foldlM_addSentence {cB cE : C} {EOS : T} : ∀ {sentences : List (List T)}
    {model trained : ClassModel K T C},
    sentences.foldlM (addSentence cB cE EOS) model = some trained →
      ∃ classSentences,
        sentences.mapM (·.mapM (classToken model.classifier)) = some classSentences ∧
        trained = { model with
          freq := classSentences.foldl (fun freq tokens =>
            addNgramCounts freq model.weights.length tokens cB cE) model.freq
          tokenFreq := (sentences.flatMap (· ++ [EOS])).foldl Table.inchash model.tokenFreq
          classTokenFreq :=
            (classSentences.flatMap (· ++ [cE])).foldl Table.inchash model.classTokenFreq }
  | [], model, trained, h => by
      rw [List.foldlM_nil, Option.pure_def, Option.some.injEq] at h
      exact ⟨[], rfl, h.symm⟩
  | tokens :: sentences, model, trained, h => by
      rw [List.foldlM_cons] at h
      obtain ⟨next, hnext, hrest⟩ := Lisp.bind_inv h
      obtain ⟨classTokens, hclass, hsome⟩ := Lisp.bind_inv hnext
      rw [Option.some.injEq] at hsome
      subst hsome
      obtain ⟨classSentences, hmap, htrained⟩ := foldlM_addSentence hrest
      refine ⟨classTokens :: classSentences, ?_, ?_⟩
      · rw [List.mapM_cons, hclass, hmap]
        rfl
      · rw [htrained]
        simp only [addTokenCounts_eq, List.foldl_cons, List.flatMap_cons, List.foldl_append]
        rfl

omit [DecidableEq T] [DecidableEq C] in
/-- The class of a token of a sentence, or of `EOS`, is among the classes of the
sentence. -/
theorem exists_classTokens {classifier : Classifier T C} {EOS : T} {cE : C}
    (hcE : classToken classifier EOS = some cE) {sentences : List (List T)}
    {classSentences : List (List C)}
    (hmap : sentences.mapM (·.mapM (classToken classifier)) = some classSentences)
    {tokens : List T} (htokens : tokens ∈ sentences) {t : T} (ht : t ∈ tokens ++ [EOS]) {c : C}
    (hc : classToken classifier t = some c) :
    ∃ classTokens ∈ classSentences, c ∈ classTokens ++ [cE] := by
  obtain ⟨classTokens, hclassTokens, hclass⟩ := Lisp.exists_of_mapM_eq_some hmap htokens
  refine ⟨classTokens, hclassTokens, ?_⟩
  rw [List.mem_append, List.mem_singleton] at ht ⊢
  cases ht with
  | inl ht => exact Or.inl ((Lisp.mem_iff_of_mapM_eq_some hclass).mpr ⟨t, ht, hc⟩)
  | inr ht =>
      rw [ht, hcE, Option.some.injEq] at hc
      exact Or.inr hc.symm

/-- What is counted when a class model is trained: the n-grams of the classes, the
tokens with an `EOS` for each sentence, and their classes. -/
theorem addCounts_eq_some {BOS EOS : T} {weights : List K} {classifier : Classifier T C}
    {sentences : List (List T)} {trained : ClassModel K T C}
    (h : addCounts BOS EOS (make weights classifier) sentences = some trained) :
    ∃ cB cE classSentences, classToken classifier BOS = some cB ∧
      classToken classifier EOS = some cE ∧
      sentences.mapM (·.mapM (classToken classifier)) = some classSentences ∧
      trained =
        { freq := addCorpusCounts (initialWeights weights).length classSentences cB cE
          weights := initialWeights weights
          classifier := classifier
          tokenFreq := (sentences.flatMap (· ++ [EOS])).foldl Table.inchash Table.empty
          classTokenFreq :=
            (classSentences.flatMap (· ++ [cE])).foldl Table.inchash Table.empty } := by
  obtain ⟨cE, hcE, h⟩ := Lisp.bind_inv h
  obtain ⟨cB, hcB, h⟩ := Lisp.bind_inv h
  obtain ⟨classSentences, hmap, htrained⟩ := foldlM_addSentence h
  exact ⟨cB, cE, classSentences, hcB, hcE, hmap, htrained⟩

end ClassModel

end Hachee.LanguageModel.Ngram
