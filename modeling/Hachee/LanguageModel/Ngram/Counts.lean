import Mathlib.Algebra.BigOperators.Finprod
import Mathlib.Algebra.BigOperators.Field
import Mathlib.Algebra.Order.Ring.Cast
import Mathlib.Tactic.NormNum
import Hachee.LanguageModel.Ngram.Model

/-!
# The counts of the continuations of a history

An n-gram that the walk counts ends beyond the padding.  A history that does not
end in `EOS` is followed by a token wherever it is counted, and that token is
not `BOS`.  So the counts of its continuations by all tokens but `BOS` sum up to
the count of the history, and the quotients of the counts sum up to one.
-/

namespace Hachee.LanguageModel.Ngram

open Lisp (Table)
open Probability

variable {T : Type}

/-! ## The padded sentence -/

section Sentence

variable {tokens : List T} {n : Nat} {BOS EOS : T}

/-- Behind the padding there is no `BOS`. -/
theorem getElem?_extendedTokens_ne {i : Nat} (hne : BOS ≠ EOS) (hbos : BOS ∉ tokens)
    (hi : n - 1 ≤ i) : (extendedTokens tokens n BOS EOS)[i]? ≠ some BOS := by
  intro h
  rw [extendedTokens, List.append_assoc, List.getElem?_append_right (by simpa using hi)] at h
  have hmem := List.mem_of_getElem? h
  rw [List.mem_append, List.mem_singleton] at hmem
  cases hmem with
  | inl h' => exact hbos h'
  | inr h' => exact hne h'

/-- The padding is all `BOS`. -/
theorem getElem?_extendedTokens_lt {i : Nat} (hi : i < n - 1) :
    (extendedTokens tokens n BOS EOS)[i]? = some BOS := by
  rw [extendedTokens, List.append_assoc, List.getElem?_append_left (by simpa using hi)]
  simp [hi]

theorem mem_extendedTokens {w : T} (h : w ∈ extendedTokens tokens n BOS EOS) (hne : w ≠ BOS) :
    w ∈ tokens ++ [EOS] := by
  rw [extendedTokens, List.append_assoc, List.mem_append] at h
  cases h with
  | inl h => exact absurd (List.mem_replicate.mp h).2 hne
  | inr h => exact h

/-- Whatever stands up to the end of the sentence ends in `EOS`. -/
theorem getLast?_of_drop {start : Nat} (h : start < (extendedTokens tokens n BOS EOS).length) :
    ((extendedTokens tokens n BOS EOS).drop start).getLast? = some EOS := by
  rw [List.getLast?_drop, if_neg (by omega)]
  simp [extendedTokens]

/-- An n-gram with one more token. -/
theorem prefix_append_singleton_iff {l h : List T} {w : T} :
    h ++ [w] <+: l ↔ h <+: l ∧ l[h.length]? = some w := by
  constructor
  · intro hpre
    obtain ⟨t, ht⟩ := hpre
    subst ht
    simp
  · intro hpre
    obtain ⟨⟨t, ht⟩, hw⟩ := hpre
    subst ht
    cases t with
    | nil => simp at hw
    | cons v t =>
        have hv : v = w := by simpa using hw
        subst hv
        simp

/-- Where a continuation by another token than `BOS` is counted. -/
theorem countedAt_append_singleton_iff {h : List T} {w : T} {start : Nat} (hw : w ≠ BOS) :
    CountedAt (extendedTokens tokens n BOS EOS) n (h ++ [w]) start ↔
      CountedAt (extendedTokens tokens n BOS EOS) n h start ∧
        (extendedTokens tokens n BOS EOS)[start + h.length]? = some w := by
  simp only [CountedAt, prefix_append_singleton_iff, List.getElem?_drop]
  constructor
  · intro hat
    obtain ⟨⟨hpre, hget⟩, -⟩ := hat
    refine ⟨⟨hpre, Nat.le_of_not_lt fun hlt => hw ?_⟩, hget⟩
    -- in the padding only `BOS` could follow
    rw [getElem?_extendedTokens_lt hlt] at hget
    exact (Option.some.inj hget).symm
  · intro hat
    obtain ⟨⟨hpre, hend⟩, hget⟩ := hat
    exact ⟨⟨hpre, hget⟩, by simp; omega⟩

/-- Where a history that does not end in `EOS` is counted, a token follows. -/
theorem Probability.CountedAt.next {h : List T} {start : Nat}
    (hat : CountedAt (extendedTokens tokens n BOS EOS) n h start)
    (hstart : start < (extendedTokens tokens n BOS EOS).length) (hlast : h.getLast? ≠ some EOS) :
    start + h.length < (extendedTokens tokens n BOS EOS).length := by
  have hle : h.length ≤ (extendedTokens tokens n BOS EOS).length - start := by
    have := hat.1.length_le
    rwa [List.length_drop] at this
  by_contra hnot
  have heq : h = (extendedTokens tokens n BOS EOS).drop start :=
    hat.1.eq_of_length (by rw [List.length_drop]; omega)
  exact hlast (by rw [heq, getLast?_of_drop hstart])

/-- Where a history is counted, the rest of it is counted one token later. -/
theorem Probability.CountedAt.tail {v : T} {h : List T} {start : Nat}
    (hat : CountedAt (extendedTokens tokens n BOS EOS) n (v :: h) start) :
    CountedAt (extendedTokens tokens n BOS EOS) n h (start + 1) := by
  obtain ⟨⟨t, ht⟩, hend⟩ := hat
  refine ⟨⟨t, ?_⟩, by rw [List.length_cons] at hend; omega⟩
  rw [← List.drop_drop, ← ht, List.cons_append, List.drop_one, List.tail_cons]

/-- A sentence that counts a history counts its tail. -/
theorem mem_eachNgramSubseq_tail {v : T} {h : List T} (hlen : (v :: h).length ≤ n)
    (hlast : (v :: h).getLast? ≠ some EOS) (hmem : v :: h ∈ eachNgramSubseq tokens n BOS EOS) :
    h ∈ eachNgramSubseq tokens n BOS EOS := by
  simp only [eachNgramSubseq, List.mem_flatMap, List.mem_range] at hmem ⊢
  obtain ⟨start, hstart, hfrom⟩ := hmem
  have hat := (mem_eachFrom_iff hlen hstart).mp hfrom
  have hlt := hat.next hstart hlast
  rw [List.length_cons] at hlen hlt
  exact ⟨start + 1, by omega, (mem_eachFrom_iff (by omega) (by omega)).mpr hat.tail⟩

/-- Only the tokens of the sentence, `BOS` and `EOS` are counted. -/
theorem mem_of_mem_eachNgramSubseq {h : List T} {w : T}
    (hmem : h ++ [w] ∈ eachNgramSubseq tokens n BOS EOS) (hw : w ≠ BOS) : w ∈ tokens ++ [EOS] := by
  simp only [eachNgramSubseq, eachFrom, List.mem_flatMap, List.mem_map] at hmem
  obtain ⟨start, -, diff, -, heq⟩ := hmem
  refine mem_extendedTokens (n := n) ?_ hw
  have hsub : w ∈ ((extendedTokens tokens n BOS EOS).take (start + diff)).drop start := by
    rw [heq]
    simp
  exact List.mem_of_mem_take (List.mem_of_mem_drop hsub)

variable [DecidableEq T]

/-- A sentence counts the continuations of a history as often as the history. -/
theorem sum_count_eachNgramSubseq {h : List T} {W : Finset T} (hn : 1 ≤ n) (hne : BOS ≠ EOS)
    (hbos : BOS ∉ tokens) (hW : ∀ w ∈ tokens ++ [EOS], w ∈ W) (hWbos : BOS ∉ W)
    (hlen : h.length ≤ n - 1) (hlast : h.getLast? ≠ some EOS) :
    ∑ w ∈ W, (eachNgramSubseq tokens n BOS EOS).count (h ++ [w]) =
      (eachNgramSubseq tokens n BOS EOS).count h := by
  have hnext : ∀ start ∈ List.range (extendedTokens tokens n BOS EOS).length,
      CountedAt (extendedTokens tokens n BOS EOS) n h start →
        ∃ w ∈ W, (extendedTokens tokens n BOS EOS)[start + h.length]? = some w := by
    intro start hmem hat
    have hlt := hat.next (List.mem_range.mp hmem) hlast
    have hget := List.getElem?_eq_getElem hlt
    refine ⟨_, hW _ (mem_extendedTokens (List.getElem_mem hlt) fun hw => ?_), hget⟩
    exact getElem?_extendedTokens_ne hne hbos hat.2 (by rw [hget, hw])
  rw [count_eachNgramSubseq tokens n BOS EOS (by omega), ← Foundation.sum_countP_value _ _ W hnext]
  refine Finset.sum_congr rfl fun w hw => ?_
  have hwne : w ≠ BOS := fun h' => hWbos (h' ▸ hw)
  rw [count_eachNgramSubseq tokens n BOS EOS (by simp; omega)]
  refine List.countP_congr fun start _ => ?_
  rw [decide_eq_true_eq, decide_eq_true_eq, countedAt_append_singleton_iff hwne]

end Sentence

/-! ## The counts of a corpus -/

section Corpus

variable [DecidableEq T] {n : Nat} {BOS EOS : T} {sentences : List (List T)}

/-- All counts of a corpus, from an empty table. -/
def addCorpusCounts (n : Nat) (sentences : List (List T)) (BOS EOS : T) : Freq T :=
  sentences.foldl (fun freq tokens => addNgramCounts freq n tokens BOS EOS) Table.empty

/-- The n-grams that the sentences of a corpus count. -/
def corpusNgrams (n : Nat) (sentences : List (List T)) (BOS EOS : T) : List (List T) :=
  sentences.flatMap fun tokens => eachNgramSubseq tokens n BOS EOS

theorem getCount_addCorpusCounts (h : List T) :
    getCount (addCorpusCounts n sentences BOS EOS) h =
      Table.tally ((corpusNgrams n sentences BOS EOS).count h) :=
  getCount_foldl_addNgramCounts n sentences BOS EOS h

theorem sum_count_corpusNgrams {h : List T} {W : Finset T} (hn : 1 ≤ n) (hne : BOS ≠ EOS)
    (hlen : h.length ≤ n - 1) (hlast : h.getLast? ≠ some EOS) (hWbos : BOS ∉ W) :
    (∀ tokens ∈ sentences, BOS ∉ tokens) →
      (∀ tokens ∈ sentences, ∀ w ∈ tokens ++ [EOS], w ∈ W) →
        ∑ w ∈ W, (corpusNgrams n sentences BOS EOS).count (h ++ [w]) =
          (corpusNgrams n sentences BOS EOS).count h := by
  induction sentences with
  | nil => simp [corpusNgrams]
  | cons tokens sentences ih =>
      intro hbos hW
      have hhead := sum_count_eachNgramSubseq hn hne (hbos tokens List.mem_cons_self)
        (hW tokens List.mem_cons_self) hWbos hlen hlast
      have htail := ih (fun s hs => hbos s (List.mem_cons_of_mem _ hs))
        fun s hs => hW s (List.mem_cons_of_mem _ hs)
      simp only [corpusNgrams, List.flatMap_cons, List.count_append] at htail ⊢
      rw [Finset.sum_add_distrib, hhead, htail]

omit [DecidableEq T] in
/-- A corpus that counts a history counts its tail. -/
theorem mem_corpusNgrams_tail {v : T} {h : List T} (hlen : (v :: h).length ≤ n)
    (hlast : (v :: h).getLast? ≠ some EOS) (hmem : v :: h ∈ corpusNgrams n sentences BOS EOS) :
    h ∈ corpusNgrams n sentences BOS EOS := by
  rw [corpusNgrams, List.mem_flatMap] at hmem ⊢
  obtain ⟨tokens, htokens, hin⟩ := hmem
  exact ⟨tokens, htokens, mem_eachNgramSubseq_tail hlen hlast hin⟩

/-- The tokens of a corpus, and `EOS`. -/
def corpusTokens (sentences : List (List T)) (EOS : T) : Finset T :=
  (EOS :: sentences.flatten).toFinset

theorem mem_corpusTokens_of_mem {tokens : List T} (htokens : tokens ∈ sentences) {w : T}
    (hw : w ∈ tokens ++ [EOS]) : w ∈ corpusTokens sentences EOS := by
  rw [corpusTokens, List.mem_toFinset, List.mem_cons, List.mem_flatten]
  rw [List.mem_append, List.mem_singleton] at hw
  cases hw with
  | inl h => exact Or.inr ⟨tokens, htokens, h⟩
  | inr h => exact Or.inl h

theorem notMem_corpusTokens (hne : BOS ≠ EOS) (hbos : ∀ tokens ∈ sentences, BOS ∉ tokens) :
    BOS ∉ corpusTokens sentences EOS := by
  rw [corpusTokens, List.mem_toFinset, List.mem_cons, List.mem_flatten]
  intro h
  cases h with
  | inl h => exact hne h
  | inr h =>
      obtain ⟨tokens, htokens, hmem⟩ := h
      exact hbos tokens htokens hmem

/-- Only the tokens of the corpus and `BOS` continue a history. -/
theorem mem_corpusTokens_of_count {h : List T} {w : T} (hw : w ≠ BOS)
    (hcount : (corpusNgrams n sentences BOS EOS).count (h ++ [w]) ≠ 0) :
    w ∈ corpusTokens sentences EOS := by
  have hmem := List.count_pos_iff.mp (Nat.pos_of_ne_zero hcount)
  rw [corpusNgrams, List.mem_flatMap] at hmem
  obtain ⟨tokens, htokens, hin⟩ := hmem
  exact mem_corpusTokens_of_mem htokens (mem_of_mem_eachNgramSubseq hin hw)

end Corpus

/-! ## Probabilities sum up to one -/

section Probabilities

variable [DecidableEq T] {K : Type} [Field K] {freq : Freq T} {W : Finset T}

/-- The history is counted, and its continuations in `W` as often. -/
def Continued (freq : Freq T) (W : Finset T) (h : List T) : Prop :=
  ∃ c, 0 < c ∧ getCount freq h = some c ∧ ∑ w ∈ W, (getCount freq (h ++ [w])).getD 0 = c

theorem getD_conditionalProbability {h : List T} {c : Nat} (hc : getCount freq h = some c) (w : T) :
    (conditionalProbability freq w h).getD 0 =
      (((getCount freq (h ++ [w])).getD 0 : Nat) : K) / (c : K) := by
  rw [conditionalProbability, hc]
  cases getCount freq (h ++ [w]) with
  | none => simp
  | some numer => simp

/-- After a history the probabilities sum up to one. -/
theorem Continued.sum_conditionalProbability [CharZero K] {h : List T}
    (hcont : Continued freq W h) :
    ∑ w ∈ W, (conditionalProbability freq w h).getD 0 = (1 : K) := by
  obtain ⟨c, hpos, hc, hsum⟩ := hcont
  have hne : (c : K) ≠ 0 := Nat.cast_ne_zero.mpr (Nat.pos_iff_ne_zero.mp hpos)
  calc ∑ w ∈ W, (conditionalProbability freq w h).getD 0
      = ∑ w ∈ W, (((getCount freq (h ++ [w])).getD 0 : Nat) : K) / (c : K) :=
        Finset.sum_congr rfl fun w _ => getD_conditionalProbability hc w
    _ = ((∑ w ∈ W, (getCount freq (h ++ [w])).getD 0 : Nat) : K) / (c : K) := by
        rw [← Finset.sum_div, Nat.cast_sum]
    _ = 1 := by rw [hsum, div_self hne]

/-- The mixed probabilities sum up to the sum of the weights. -/
theorem sum_weightedList [CharZero K] {weights : List K} : ∀ {h : List T},
    (∀ h', h' <:+ h → Continued freq W h') →
      ∑ w ∈ W, (weightedList freq weights w h).sum = weights.sum := by
  induction weights with
  | nil =>
      intro h _
      simp [weightedList]
  | cons w₀ weights ih =>
      intro h hcont
      have htail := ih (h := h.tail) fun h' hsuf => hcont h' (hsuf.trans (List.tail_suffix h))
      have hhead := (hcont h List.suffix_rfl).sum_conditionalProbability (K := K)
      simp only [weightedList, List.sum_cons, Finset.sum_add_distrib, htail, ← Finset.mul_sum,
        hhead, mul_one]

/-- A token that follows no part of the history has no probability. -/
theorem sum_weightedList_eq_zero {weights : List K} {w : T} : ∀ {h : List T},
    (∀ h', h' <:+ h → getCount freq (h' ++ [w]) = none) →
      (weightedList freq weights w h).sum = 0 := by
  induction weights with
  | nil =>
      intro h _
      rfl
  | cons w₀ weights ih =>
      intro h hnone
      have htail := ih (h := h.tail) fun h' hsuf => hnone h' (hsuf.trans (List.tail_suffix h))
      have hhead := hnone h List.suffix_rfl
      simp [weightedList, conditionalProbability, hhead, htail]

end Probabilities

/-! ## The continuations of a history in a corpus -/

section Continuations

variable [DecidableEq T] {n : Nat} {BOS EOS : T} {sentences : List (List T)}

theorem continued_addCorpusCounts (hn : 1 ≤ n) (hne : BOS ≠ EOS)
    (hbos : ∀ tokens ∈ sentences, BOS ∉ tokens) {h : List T} (hlen : h.length ≤ n - 1)
    (hlast : h.getLast? ≠ some EOS) (hmem : h ∈ corpusNgrams n sentences BOS EOS) :
    Continued (addCorpusCounts n sentences BOS EOS) (corpusTokens sentences EOS) h := by
  have hpos := List.count_pos_iff.mpr hmem
  refine ⟨_, hpos, ?_, ?_⟩
  · rw [getCount_addCorpusCounts, Table.tally_eq_some_iff]
    exact ⟨rfl, hpos⟩
  · simp only [getCount_addCorpusCounts, Table.getD_tally]
    exact sum_count_corpusNgrams hn hne hlen hlast (notMem_corpusTokens hne hbos) hbos
      fun tokens htokens w hw => mem_corpusTokens_of_mem htokens hw

omit [DecidableEq T] in
/-- What holds of a counted history holds of all its ends. -/
theorem mem_corpusNgrams_suffix {h : List T} : h.length ≤ n → h.getLast? ≠ some EOS →
    h ∈ corpusNgrams n sentences BOS EOS → ∀ h', h' <:+ h →
      h' ∈ corpusNgrams n sentences BOS EOS ∧ h'.getLast? ≠ some EOS ∧ h'.length ≤ h.length := by
  induction h with
  | nil =>
      intro _ hlast hmem h' hsuf
      rw [List.suffix_nil.mp hsuf]
      exact ⟨hmem, hlast, Nat.le_refl _⟩
  | cons v h ih =>
      intro hlen hlast hmem h' hsuf
      cases List.suffix_cons_iff.mp hsuf with
      | inl heq =>
          rw [heq]
          exact ⟨hmem, hlast, Nat.le_refl _⟩
      | inr hsuf =>
          have hlen' : h.length ≤ n := Nat.le_of_succ_le hlen
          have hlast' : h.getLast? ≠ some EOS := by
            cases h with
            | nil => simp
            | cons u h => simpa using hlast
          obtain ⟨h1, h2, h3⟩ := ih hlen' hlast' (mem_corpusNgrams_tail hlen hlast hmem) h' hsuf
          exact ⟨h1, h2, h3.trans (Nat.le_succ _)⟩

/-- All the ends of a counted history are continued. -/
theorem continued_of_suffix (hn : 1 ≤ n) (hne : BOS ≠ EOS)
    (hbos : ∀ tokens ∈ sentences, BOS ∉ tokens) {h : List T} {c : Nat} (hlen : h.length ≤ n - 1)
    (hlast : h.getLast? ≠ some EOS) (hpos : 0 < c)
    (hc : getCount (addCorpusCounts n sentences BOS EOS) h = some c) :
    ∀ h', h' <:+ h →
      Continued (addCorpusCounts n sentences BOS EOS) (corpusTokens sentences EOS) h' := by
  intro h' hsuf
  rw [getCount_addCorpusCounts, Table.tally_eq_some_iff] at hc
  have hmem : h ∈ corpusNgrams n sentences BOS EOS := List.count_pos_iff.mp (hc.1 ▸ hpos)
  obtain ⟨hmem', hlast', hlen'⟩ := mem_corpusNgrams_suffix (by omega) hlast hmem h' hsuf
  exact continued_addCorpusCounts hn hne hbos (hlen'.trans hlen) hlast' hmem'

/-- The counts of the continuations of a history by the tokens other than `BOS`
sum up to the count of the history, and the interpolated probabilities of these
tokens sum up to one. -/
theorem sum_continuations {n : Nat} (hn : 1 ≤ n) (BOS EOS : T) (hne : BOS ≠ EOS)
    (sentences : List (List T)) (hs : ∀ tokens ∈ sentences, BOS ∉ tokens ∧ EOS ∉ tokens) :
    (∀ (h : List T) (c : Nat), h.length ≤ n - 1 → h.getLast? ≠ some EOS → 0 < c →
        getCount (addCorpusCounts n sentences BOS EOS) h = some c →
          ∑ᶠ w ∈ ({BOS}ᶜ : Set T),
            (getCount (addCorpusCounts n sentences BOS EOS) (h ++ [w])).getD 0 = c) ∧
      ∀ (K : Type) [Field K] [LinearOrder K] [IsStrictOrderedRing K] (weights : List K)
        (h : List T) (c : Nat), weights.length = n → (∀ w ∈ weights, 0 ≤ w) → weights.sum = 1 →
          h.length = n - 1 → h.getLast? ≠ some EOS → 0 < c →
            getCount (addCorpusCounts n sentences BOS EOS) h = some c →
              ∑ᶠ w ∈ ({BOS}ᶜ : Set T), modelInterpolatedProbability
                { freq := addCorpusCounts n sentences BOS EOS, weights := weights } w h = 1 := by
  have hbos : ∀ tokens ∈ sentences, BOS ∉ tokens := fun tokens htokens => (hs tokens htokens).1
  have hsub : (corpusTokens sentences EOS : Set T) ⊆ {BOS}ᶜ := by
    intro w hw hwbos
    rw [Set.mem_singleton_iff] at hwbos
    exact notMem_corpusTokens hne hbos (hwbos ▸ Finset.mem_coe.mp hw)
  -- behind no history is there a token that the corpus does not have
  have hcount : ∀ (h : List T) (w : T), w ∈ ({BOS}ᶜ : Set T) → w ∉ corpusTokens sentences EOS →
      getCount (addCorpusCounts n sentences BOS EOS) (h ++ [w]) = none := by
    intro h w hw hnot
    rw [getCount_addCorpusCounts]
    by_contra hne'
    have hzero : (corpusNgrams n sentences BOS EOS).count (h ++ [w]) ≠ 0 := by
      intro h0
      exact hne' (by rw [h0, Table.tally_zero])
    exact hnot (mem_corpusTokens_of_count hw hzero)
  constructor
  · intro h c hlen hlast hpos hc
    obtain ⟨c', -, hc', hsum⟩ :=
      continued_of_suffix hn hne hbos hlen hlast hpos hc h List.suffix_rfl
    rw [finsum_mem_eq_sum_of_subset _ ?_ hsub, hsum]
    · exact Option.some.inj (hc'.symm.trans hc)
    · intro w hw
      by_contra hnot
      exact hw.2 (by simp [hcount h w hw.1 (fun h' => hnot (Finset.mem_coe.mpr h'))])
  · intro K _ _ _ weights h c _ _ hone hlen hlast hpos hc
    have hcont := continued_of_suffix hn hne hbos (Nat.le_of_eq hlen) hlast hpos hc
    rw [finsum_mem_eq_sum_of_subset _ ?_ hsub]
    · exact (sum_weightedList hcont).trans hone
    · intro w hw
      by_contra hnot
      exact hw.2 (sum_weightedList_eq_zero fun h' _ =>
        hcount h' w hw.1 fun h'' => hnot (Finset.mem_coe.mpr h''))

/-- The bigrams of two sentences: `3` is followed by `4` once and once by the
end. -/
theorem sum_continuations_bigrams :
    ∑ᶠ w ∈ ({0}ᶜ : Set Int),
        (getCount (addCorpusCounts 2 [[3, 4], [3]] 0 1) ([3] ++ [w])).getD 0 = 2 ∧
      ∑ᶠ w ∈ ({0}ᶜ : Set Int), modelInterpolatedProbability
        (Model.mk (addCorpusCounts 2 [[3, 4], [3]] 0 1) [(1 / 4 : Rat), 3 / 4]) w [3] = 1 := by
  have h := sum_continuations (n := 2) (by decide) (0 : Int) 1 (by decide) [[3, 4], [3]]
    (by decide)
  refine ⟨h.1 [3] 2 (by decide) (by decide) (by decide) (by decide), ?_⟩
  have hweights : ∀ w ∈ [(1 / 4 : Rat), 3 / 4], 0 ≤ w := by
    simp only [List.mem_cons, List.not_mem_nil, or_false, forall_eq_or_imp, forall_eq]
    norm_num
  exact h.2 Rat [1 / 4, 3 / 4] [3] 2 rfl hweights (by norm_num) rfl (by decide) (by decide)
    (by decide)

end Continuations

end Hachee.LanguageModel.Ngram
