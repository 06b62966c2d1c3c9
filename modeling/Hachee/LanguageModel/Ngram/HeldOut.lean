import Hachee.LanguageModel.Ngram.ClassCounts
import Hachee.LanguageModel.Ngram.EstimateWeights

/-!
# When a held-out event has a probability

The interpolated probability of a token is positive, with positive weights, if the token is
counted at all, and zero if it is not.  So at the start of an estimation every held-out event
has a probability exactly if every token of a held-out corpus is in the sentences that were
counted for it.  The steps of the estimation keep this (`Reached.admissible`), though they may
bring a weight down to zero.
-/

namespace Hachee.LanguageModel.Ngram.EstimateWeights

open Probability

/-! ## Iterations -/

/-- The weights that the iterations meet, however long they go on. -/
inductive Reached {T : Type} [DecidableEq T] (n : Nat) (items : List (CrossItem T)) (BOS EOS : T)
    (initial : List ℝ) : List ℝ → Prop
  | initial : Reached n items BOS EOS initial initial
  | improve {weights new : List ℝ} : Reached n items BOS EOS initial weights →
      EstimateWeights.improve n items BOS EOS weights = some new →
      Reached n items BOS EOS initial new

theorem Reached.admissible {T : Type} [DecidableEq T] {n : Nat} {items : List (CrossItem T)}
    {BOS EOS : T} {initial weights : List ℝ} (hne : items ≠ [])
    (hcorpora : ∀ item ∈ items, item.corpus.sentenceList ≠ [])
    (hinitial : Admissible n items BOS EOS initial)
    (h : Reached n items BOS EOS initial weights) : Admissible n items BOS EOS weights := by
  induction h with
  | initial => exact hinitial
  | improve _ hnew ih =>
      obtain ⟨new, hnew', hadmissible, -⟩ := exists_improve hne hcorpora ih
      rw [hnew, Option.some_inj] at hnew'
      rwa [hnew']

/-! ## Tokens and histories of the events -/

section Events

variable {T : Type} {n : Nat} {BOS EOS : T} {item : CrossItem T}

theorem mem_sentenceEvents {event : T × List T} : ∀ {tokens history : List T}, history ≠ [] →
    event ∈ sentenceEvents EOS tokens history →
      event.1 ∈ tokens ++ [EOS] ∧ event.2.length = history.length
  | [], history, _, h => by
      rw [sentenceEvents, List.mem_singleton] at h
      subst h
      exact ⟨List.mem_singleton_self EOS, rfl⟩
  | curr :: tokens, history, hne, h => by
      rw [sentenceEvents] at h
      cases List.mem_cons.mp h with
      | inl h =>
          subst h
          exact ⟨List.mem_cons_self, rfl⟩
      | inr h =>
          have hnext : history.tail ++ [curr] ≠ [] := List.append_ne_nil_of_right_ne_nil _ (by simp)
          obtain ⟨htoken, hlength⟩ := mem_sentenceEvents hnext h
          refine ⟨List.mem_cons_of_mem _ htoken, ?_⟩
          have hpos := List.length_pos_iff.mpr hne
          rw [hlength, List.length_append, List.length_tail, List.length_singleton]
          omega

/-- An event is a token of a sentence or its end, behind a history. -/
theorem mem_heldOutEvents (hn : 2 ≤ n) {event : T × List T}
    (h : event ∈ heldOutEvents n BOS EOS item) :
    (∃ tokens ∈ item.corpus.sentenceList, event.1 ∈ tokens ++ [EOS]) ∧
      event.2.length = n - 1 := by
  obtain ⟨tokens, htokens, hevent⟩ := List.mem_flatMap.mp h
  have hne : List.replicate (n - 1) BOS ≠ [] := by simp; omega
  obtain ⟨htoken, hlength⟩ := mem_sentenceEvents hne hevent
  rw [List.length_replicate] at hlength
  exact ⟨⟨tokens, htokens, htoken⟩, hlength⟩

theorem exists_mem_sentenceEvents {token : T} : ∀ {tokens history : List T}, token ∈ tokens →
    ∃ event ∈ sentenceEvents EOS tokens history, event.1 = token
  | curr :: tokens, history, h => by
      cases List.mem_cons.mp h with
      | inl h => exact ⟨(curr, history), List.mem_cons_self, h.symm⟩
      | inr h =>
          obtain ⟨event, hevent, htoken⟩ := exists_mem_sentenceEvents h
          exact ⟨event, List.mem_cons_of_mem _ hevent, htoken⟩

/-- Every token is in an event. -/
theorem exists_mem_heldOutEvents {tokens : List T} {token : T}
    (htokens : tokens ∈ item.corpus.sentenceList) (htoken : token ∈ tokens) :
    ∃ event ∈ heldOutEvents n BOS EOS item, event.1 = token := by
  obtain ⟨event, hevent, heq⟩ := exists_mem_sentenceEvents htoken
  exact ⟨event, List.mem_flatMap.mpr ⟨tokens, htokens, hevent⟩, heq⟩

end Events

/-! ## Counted tokens -/

section Counted

variable {T : Type} [DecidableEq T] {K : Type} [Field K] [LinearOrder K] [IsStrictOrderedRing K]
  {freq : Freq T} {token : T}

/-- The summand without a history is positive, and no summand is negative. -/
theorem sum_weightedList_pos {numer denom : Nat} (hnumer : 0 < numer)
    (htoken : getCount freq [token] = some numer) (hdenom : 0 < denom)
    (htotal : getCount freq [] = some denom) : ∀ {weights : List K} {history : List T},
    (∀ w ∈ weights, 0 < w) → history.length < weights.length →
      0 < (weightedList freq weights token history).sum
  | w :: weights, [], hweights, _ => by
      rw [List.forall_mem_cons] at hweights
      have hp : (conditionalProbability freq token [] : Option K).getD 0 = numer / denom := by
        rw [conditionalProbability, List.nil_append, htoken, htotal]
        rfl
      have hrest : 0 ≤ modelProbability (Model.mk freq weights) token [] :=
        modelProbability_nonneg (fun v hv => (hweights.2 v hv).le) token []
      rw [weightedList, List.sum_cons, hp]
      exact add_pos_of_pos_of_nonneg (mul_pos hweights.1
        (div_pos (Nat.cast_pos.mpr hnumer) (Nat.cast_pos.mpr hdenom))) hrest
  | w :: weights, prev :: history, hweights, hlength => by
      rw [List.forall_mem_cons] at hweights
      rw [List.length_cons, List.length_cons, Nat.succ_lt_succ_iff] at hlength
      have hrest := sum_weightedList_pos hnumer htoken hdenom htotal hweights.2 hlength
      rw [weightedList, List.sum_cons]
      exact add_pos_of_nonneg_of_pos (mul_nonneg hweights.1.le
        (getD_conditionalProbability_nonneg freq token (prev :: history))) hrest

variable {n : Nat} {BOS EOS : T} {sentences : List (List T)}

theorem exists_getCount_of_mem {h : List T} (hmem : h ∈ corpusNgrams n sentences BOS EOS) :
    ∃ c, 0 < c ∧ getCount (addCorpusCounts n sentences BOS EOS) h = some c := by
  have hpos := List.count_pos_iff.mpr hmem
  exact ⟨_, hpos, by rw [getCount_addCorpusCounts, Lisp.Table.tally_eq_some_iff]; exact ⟨rfl, hpos⟩⟩

/-- A token of the counted sentences has a probability. -/
theorem sum_weightedList_pos_of_mem (hn : 1 ≤ n) {tokens : List T} (htokens : tokens ∈ sentences)
    (htoken : token ∈ tokens ++ [EOS]) {weights : List K} {history : List T}
    (hweights : ∀ w ∈ weights, 0 < w) (hlength : history.length < weights.length) :
    0 < (weightedList (addCorpusCounts n sentences BOS EOS) weights token history).sum := by
  obtain ⟨numer, hnumer, hget⟩ := @exists_getCount_of_mem T _ n BOS EOS sentences _
    (List.mem_flatMap.mpr ⟨tokens, htokens, mem_eachNgramSubseq_of_mem hn htoken⟩)
  obtain ⟨denom, hdenom, htotal⟩ := @exists_getCount_of_mem T _ n BOS EOS sentences _
    (List.mem_flatMap.mpr ⟨tokens, htokens, nil_mem_eachNgramSubseq⟩)
  exact sum_weightedList_pos hnumer hget hdenom htotal hweights hlength

omit [LinearOrder K] [IsStrictOrderedRing K] in
/-- A token that no counted sentence has has none. -/
theorem sum_weightedList_eq_zero_of_notMem (hbos : token ≠ BOS)
    (hnot : ∀ tokens ∈ sentences, token ∉ tokens ++ [EOS]) (weights : List K)
    (history : List T) :
    (weightedList (addCorpusCounts n sentences BOS EOS) weights token history).sum = 0 := by
  refine sum_weightedList_eq_zero fun history' _ => ?_
  rw [getCount_addCorpusCounts, List.count_eq_zero.mpr, Lisp.Table.tally_zero]
  intro hmem
  obtain ⟨tokens, htokens, hin⟩ := List.mem_flatMap.mp hmem
  exact hnot tokens htokens (mem_of_mem_eachNgramSubseq hin hbos)

end Counted

end Hachee.LanguageModel.Ngram.EstimateWeights
