import Mathlib.Algebra.Order.Field.Basic
import Mathlib.Data.Real.Basic
import Hachee.Foundation.Mixture
import Hachee.LanguageModel.Ngram.Model
import Hachee.Lisp.Number

/-!
# The estimation of the weights

A model of `language-model/ngram/esitmate-weights.lisp`.  The weights of a model mix the
probabilities after the histories of all lengths.  They are estimated on held-out corpora,
with a table of counts for each.  A step goes over the tokens of a corpus and sums up the
shares that the summands of `weighted-list` have in a probability.

The functions for two and for three weights differ in the number of their variables.  They
are one function here, with the number of the weights, and the variables are a list.  The
order of the weights is that of `weighted-list`, and `destructuring-bind` fails if there are
more or fewer of them.  Numbers are exact, and a division by zero is an error.

This is a step of expectation maximisation, with the tokens as observations
(`improve_eq`), so it does not decrease the mean log probability of the corpora
(`improve_increases`), and neither does the loop (`exists_estimate`).
-/

namespace Hachee.LanguageModel.Ngram.EstimateWeights

open Lisp (divide)
open Probability

/-! ## The estimation -/

structure Corpus (T : Type) where
  sentenceList : List (List T)

structure CrossItem (T : Type) where
  freq : Freq T
  corpus : Corpus T

section Estimation

variable {K T : Type} [Field K] [LinearOrder K] [DecidableEq T]

/-- `update`: the new weights so far, and the number of the tokens. -/
def update (freq : Freq T) (weights : List K) (curr : T) (history : List T)
    (acc : List K × Nat) : Option (List K × Nat) := do
  let ps := weightedList freq weights curr history
  if ps.length = acc.1.length then
    let shares ← ps.mapM fun p => divide p ps.sum
    some (List.zipWith (· + ·) acc.1 shares, acc.2 + 1)
  else none

/-- The loop over the tokens of a sentence. -/
def updateSentence (freq : Freq T) (weights : List K) (EOS : T) :
    List T → List T → List K × Nat → Option (List K × Nat)
  | [], history, acc => update freq weights EOS history acc
  | curr :: tokens, history, acc => do
      let acc ← update freq weights curr history acc
      updateSentence freq weights EOS tokens (history.tail ++ [curr]) acc

/-- `improve-for-item-2gram`, `improve-for-item-3gram` -/
def improveForItem (n : Nat) (weights : List K) (item : CrossItem T) (BOS EOS : T) :
    Option (List K) := do
  let (news, sum) ← item.corpus.sentenceList.foldlM
    (fun acc tokens =>
      updateSentence item.freq weights EOS tokens (List.replicate (n - 1) BOS) acc)
    (List.replicate n 0, 0)
  let news ← news.mapM fun new => divide new (sum : K)
  let tmp := (news.sum - 1) / n
  some (news.map (· + tmp))

/-- `improve`, the local function of `estimate-2gram` and `estimate-3gram` -/
def improve (n : Nat) (items : List (CrossItem T)) (BOS EOS : T) (weights : List K) :
    Option (List K) := do
  let size := items.length
  let news ← items.foldlM
    (fun news item => do
      let ws ← improveForItem n weights item BOS EOS
      some (List.zipWith (· + ·) news ws))
    (List.replicate n 0)
  news.mapM fun new => divide new (size : K)

def improve2gram (items : List (CrossItem T)) (BOS EOS : T) (weights : List K) :
    Option (List K) :=
  improve 2 items BOS EOS weights

def improve3gram (items : List (CrossItem T)) (BOS EOS : T) (weights : List K) :
    Option (List K) :=
  improve 3 items BOS EOS weights

/-- `is-ok` -/
def isOk (newWeights oldWeights : List K) : Option Bool := do
  let new ← newWeights.head?
  let old ← oldWeights.head?
  some (|new - old| < 1 / 10000)

/-- `improve-iter`, with the turns that are left. -/
def improveIter (improve : List K → Option (List K)) : Nat → List K → Option (List K)
  | 0, oldWeights => do
      let newWeights ← improve oldWeights
      let _ ← isOk newWeights oldWeights
      some newWeights
  | turns + 1, oldWeights => do
      let newWeights ← improve oldWeights
      if ← isOk newWeights oldWeights then some newWeights
      else improveIter improve turns newWeights

/-- `estimate-2gram` -/
def estimate2gram (items : List (CrossItem T)) (BOS EOS : T) : Option (List K) :=
  improveIter (improve2gram items BOS EOS) 30 [8 / 10, 2 / 10]

/-- `estimate-3gram` -/
def estimate3gram (items : List (CrossItem T)) (BOS EOS : T) : Option (List K) :=
  improveIter (improve3gram items BOS EOS) 30 [7 / 10, 2 / 10, 1 / 10]

end Estimation

/-! ## The held-out events -/

section Events

variable {T : Type}

/-- The tokens of a sentence and `EOS`, each with its history. -/
def sentenceEvents (EOS : T) : List T → List T → List (T × List T)
  | [], history => [(EOS, history)]
  | curr :: tokens, history => (curr, history) :: sentenceEvents EOS tokens (history.tail ++ [curr])

/-- The events of a held-out corpus. -/
def heldOutEvents (n : Nat) (BOS EOS : T) (item : CrossItem T) : List (T × List T) :=
  item.corpus.sentenceList.flatMap fun tokens =>
    sentenceEvents EOS tokens (List.replicate (n - 1) BOS)

theorem sentenceEvents_ne_nil (EOS : T) (tokens history : List T) :
    sentenceEvents EOS tokens history ≠ [] := by
  cases tokens with
  | nil => exact List.cons_ne_nil _ _
  | cons curr tokens => exact List.cons_ne_nil _ _

theorem heldOutEvents_ne_nil (n : Nat) (BOS EOS : T) {item : CrossItem T}
    (h : item.corpus.sentenceList ≠ []) : heldOutEvents n BOS EOS item ≠ [] := by
  obtain ⟨tokens, htokens⟩ := List.exists_mem_of_ne_nil _ h
  obtain ⟨event, hevent⟩ :=
    List.exists_mem_of_ne_nil _ (sentenceEvents_ne_nil EOS tokens (List.replicate (n - 1) BOS))
  exact List.ne_nil_of_mem (List.mem_flatMap.mpr ⟨tokens, htokens, hevent⟩)

variable {K : Type} [Field K] [LinearOrder K] [DecidableEq T]

/-- One event after the other. -/
theorem updateSentence_eq (freq : Freq T) (weights : List K) (EOS : T) :
    ∀ (tokens history : List T) (acc : List K × Nat),
      updateSentence freq weights EOS tokens history acc =
        (sentenceEvents EOS tokens history).foldlM
          (fun acc event => update freq weights event.1 event.2 acc) acc
  | [], history, acc => by
      simp [updateSentence, sentenceEvents]
  | curr :: tokens, history, acc => by
      rw [updateSentence, sentenceEvents, List.foldlM_cons]
      exact bind_congr fun acc => updateSentence_eq freq weights EOS tokens _ acc

theorem foldlM_updateSentence (freq : Freq T) (weights : List K) (EOS : T) (history : List T) :
    ∀ (sentences : List (List T)) (acc : List K × Nat),
      sentences.foldlM
          (fun acc tokens => updateSentence freq weights EOS tokens history acc) acc =
        (sentences.flatMap fun tokens => sentenceEvents EOS tokens history).foldlM
          (fun acc event => update freq weights event.1 event.2 acc) acc
  | [], _ => rfl
  | tokens :: sentences, acc => by
      rw [List.foldlM_cons, List.flatMap_cons, List.foldlM_append, updateSentence_eq]
      exact bind_congr fun acc => foldlM_updateSentence freq weights EOS history sentences acc

end Events

/-! ## A step of expectation maximisation -/

open Foundation Mixture

section Step

variable {T : Type} [DecidableEq T] {n : Nat}

/-- The probabilities of a token after the histories of all lengths. -/
noncomputable def density (n : Nat) (freq : Freq T) (event : T × List T) (k : Fin n) : ℝ :=
  (conditionalProbability freq event.1 (event.2.drop k)).getD 0

/-- The held-out events as observations. -/
noncomputable def observations (n : Nat) (BOS EOS : T) (item : CrossItem T) :
    List (Fin n → ℝ) :=
  (heldOutEvents n BOS EOS item).map (density n item.freq)

theorem density_nonneg (freq : Freq T) (event : T × List T) (k : Fin n) :
    0 ≤ density n freq event k :=
  getD_conditionalProbability_nonneg freq event.1 (event.2.drop k)

/-- The summands of the interpolated probability. -/
theorem weightedList_ofFn (freq : Freq T) (token : T) : ∀ {n : Nat} (w : Fin n → ℝ)
    (history : List T), weightedList freq (List.ofFn w) token history =
      List.ofFn fun k => w k * density n freq (token, history) k
  | 0, _, _ => rfl
  | n + 1, w, history => by
      rw [List.ofFn_succ, weightedList, weightedList_ofFn, List.ofFn_succ]
      simp [density]

theorem sum_weightedList (freq : Freq T) (w : Fin n → ℝ) (event : T × List T) :
    (weightedList freq (List.ofFn w) event.1 event.2).sum = mixture w (density n freq event) := by
  rw [weightedList_ofFn, List.sum_ofFn]
  rfl

theorem mapM_divide_ofFn (w : Fin n → ℝ) {c : ℝ} (hc : c ≠ 0) :
    (List.ofFn w).mapM (fun x => divide x c) = some (List.ofFn fun k => w k / c) := by
  have hdivide : ∀ x ∈ List.ofFn w, divide x c = some (x / c) := fun x _ => if_neg hc
  rw [Lisp.mapM_of_forall hdivide, List.map_ofFn]
  rfl

theorem zipWith_add_ofFn (v w : Fin n → ℝ) :
    List.zipWith (· + ·) (List.ofFn v) (List.ofFn w) = List.ofFn fun k => v k + w k :=
  List.ext_getElem (by simp) fun i _ _ => by simp

/-- An event adds its shares. -/
theorem update_ofFn {freq : Freq T} {w : Fin n → ℝ} {event : T × List T}
    (hpos : 0 < mixture w (density n freq event)) (a : Fin n → ℝ) (m : Nat) :
    update freq (List.ofFn w) event.1 event.2 (List.ofFn a, m) =
      some (List.ofFn fun k => a k + posterior w (density n freq event) k, m + 1) := by
  have hlength : (weightedList freq (List.ofFn w) event.1 event.2).length =
      (List.ofFn a).length := by
    rw [weightedList_ofFn, List.length_ofFn, List.length_ofFn]
  rw [update]
  simp only [if_pos hlength, sum_weightedList]
  rw [weightedList_ofFn, mapM_divide_ofFn _ hpos.ne', Option.bind_eq_bind, Option.bind_some,
    zipWith_add_ofFn]
  rfl

/-- The shares of many events are added up. -/
theorem foldlM_update_ofFn {freq : Freq T} {w : Fin n → ℝ} : ∀ {events : List (T × List T)},
    (∀ event ∈ events, 0 < mixture w (density n freq event)) → ∀ (a : Fin n → ℝ) (m : Nat),
    events.foldlM (fun acc event => update freq (List.ofFn w) event.1 event.2 acc)
        (List.ofFn a, m) =
      some (List.ofFn fun k =>
        a k + (events.map fun event => posterior w (density n freq event) k).sum,
        m + events.length)
  | [], _, a, m => by simp
  | event :: events, hpos, a, m => by
      rw [List.foldlM_cons, update_ofFn (hpos event (List.mem_cons_self ..)),
        Option.bind_eq_bind, Option.bind_some,
        foldlM_update_ofFn fun e he => hpos e (List.mem_cons_of_mem event he)]
      simp only [List.map_cons, List.sum_cons, List.length_cons, add_assoc, Nat.add_comm 1]

/-- For a corpus the new weights are the mean shares.  They have the sum one, so there is
nothing to correct. -/
theorem improveForItem_eq {w : Fin n → ℝ} (hw : IsWeights w) {item : CrossItem T} {BOS EOS : T}
    (h : Likely w (observations n BOS EOS item)) :
    improveForItem n (List.ofFn w) item BOS EOS =
      some (List.ofFn (reestimate w (observations n BOS EOS item))) := by
  have hpos : ∀ event ∈ heldOutEvents n BOS EOS item,
      0 < mixture w (density n item.freq event) :=
    fun event hevent => h.pos _ (List.mem_map_of_mem hevent)
  have hlength : ((heldOutEvents n BOS EOS item).length : ℝ) ≠ 0 := by
    have hne := (length_pos h.nonempty).ne'
    rwa [observations, List.length_map] at hne
  have hzero : List.replicate n (0 : ℝ) = List.ofFn fun _ : Fin n => (0 : ℝ) :=
    (List.ofFn_const n 0).symm
  have hmean : (fun k => (0 + ((heldOutEvents n BOS EOS item).map fun event =>
      posterior w (density n item.freq event) k).sum) /
        ((heldOutEvents n BOS EOS item).length : ℝ)) =
      reestimate w (observations n BOS EOS item) := by
    funext k
    rw [reestimate, observations, List.map_map, List.length_map, zero_add]
    rfl
  rw [improveForItem, foldlM_updateSentence, ← heldOutEvents, hzero, foldlM_update_ofFn hpos,
    Option.bind_eq_bind, Option.bind_some]
  simp only [Nat.zero_add]
  rw [mapM_divide_ofFn _ hlength, Option.bind_eq_bind, Option.bind_some, hmean, List.sum_ofFn,
    (isWeights_reestimate hw h).sum, sub_self, zero_div]
  simp only [List.map_ofFn, add_zero]
  rfl

/-- The new weights of many corpora are added up. -/
theorem foldlM_improveForItem {w : Fin n → ℝ} (hw : IsWeights w) {BOS EOS : T} :
    ∀ {items : List (CrossItem T)},
      (∀ item ∈ items, Likely w (observations n BOS EOS item)) → ∀ a : Fin n → ℝ,
      items.foldlM
          (fun news item => do
            let ws ← improveForItem n (List.ofFn w) item BOS EOS
            some (List.zipWith (· + ·) news ws))
          (List.ofFn a) =
        some (List.ofFn fun k =>
          a k + (items.map fun item => reestimate w (observations n BOS EOS item) k).sum) := by
  intro items
  induction items with
  | nil =>
      intro _ a
      simp
  | cons item items ih =>
      intro h a
      simp only [Option.bind_eq_bind] at ih ⊢
      rw [List.foldlM_cons, improveForItem_eq hw (h item (List.mem_cons_self ..)),
        Option.bind_some, Option.bind_eq_bind, Option.bind_some, zipWith_add_ofFn,
        ih fun other hother => h other (List.mem_cons_of_mem item hother)]
      simp only [List.map_cons, List.sum_cons, add_assoc]

/-- The step takes the mean over the corpora. -/
theorem improve_eq {w : Fin n → ℝ} (hw : IsWeights w) {items : List (CrossItem T)} {BOS EOS : T}
    (hne : items ≠ []) (h : ∀ item ∈ items, Likely w (observations n BOS EOS item)) :
    improve n items BOS EOS (List.ofFn w) =
      some (List.ofFn (averaged w (items.map (observations n BOS EOS)))) := by
  have hzero : List.replicate n (0 : ℝ) = List.ofFn fun _ : Fin n => (0 : ℝ) :=
    (List.ofFn_const n 0).symm
  rw [improve, hzero, foldlM_improveForItem hw h, Option.bind_eq_bind, Option.bind_some,
    mapM_divide_ofFn _ (length_pos hne).ne']
  congr 2
  funext k
  rw [averaged, List.map_map, List.length_map, zero_add]
  rfl

end Step

/-! ## The mean log probability -/

section Objective

variable {T : Type} [DecidableEq T] {n : Nat} {items : List (CrossItem T)} {BOS EOS : T}

/-- The mean log probability of the events of a corpus, summed up over the corpora. -/
noncomputable def objective (n : Nat) (items : List (CrossItem T)) (BOS EOS : T)
    (weights : List ℝ) : ℝ :=
  (items.map fun item =>
    ((heldOutEvents n BOS EOS item).map fun event =>
      Real.log (weightedList item.freq weights event.1 event.2).sum).sum /
        (heldOutEvents n BOS EOS item).length).sum

/-- Weights under which every held-out event is possible. -/
structure Admissible (n : Nat) (items : List (CrossItem T)) (BOS EOS : T) (weights : List ℝ) :
    Prop where
  length : weights.length = n
  nonneg : ∀ w ∈ weights, 0 ≤ w
  sum : weights.sum = 1
  pos : ∀ item ∈ items, ∀ event ∈ heldOutEvents n BOS EOS item,
    0 < (weightedList item.freq weights event.1 event.2).sum

theorem objective_ofFn (w : Fin n → ℝ) : objective n items BOS EOS (List.ofFn w) =
    ((items.map (observations n BOS EOS)).map (meanLog w)).sum := by
  simp only [objective, List.map_map, sum_weightedList]
  congr 1
  refine List.map_congr_left fun item _ => ?_
  simp only [Function.comp_apply, meanLog, observations, List.map_map, List.length_map]
  rfl

/-- The two readings of the conditions, for corpora with sentences. -/
theorem admissible_ofFn_iff (hcorpora : ∀ item ∈ items, item.corpus.sentenceList ≠ [])
    (w : Fin n → ℝ) : Admissible n items BOS EOS (List.ofFn w) ↔
      IsWeights w ∧ ∀ item ∈ items, Likely w (observations n BOS EOS item) := by
  constructor
  · intro h
    refine ⟨⟨fun k => h.nonneg _ (List.mem_ofFn.mpr ⟨k, rfl⟩), ?_⟩, fun item hitem => ?_⟩
    · rw [← List.sum_ofFn, h.sum]
    · refine ⟨?_, fun q hq k => ?_, fun q hq => ?_⟩
      · exact fun hnil => heldOutEvents_ne_nil n BOS EOS (hcorpora item hitem)
          (List.map_eq_nil_iff.mp hnil)
      · obtain ⟨event, -, rfl⟩ := List.mem_map.mp hq
        exact density_nonneg item.freq event k
      · obtain ⟨event, hevent, rfl⟩ := List.mem_map.mp hq
        rw [← sum_weightedList]
        exact h.pos item hitem event hevent
  · intro h
    obtain ⟨hw, hlikely⟩ := h
    refine ⟨List.length_ofFn, fun x hx => ?_, ?_, fun item hitem event hevent => ?_⟩
    · obtain ⟨k, rfl⟩ := List.mem_ofFn.mp hx
      exact hw.nonneg k
    · rw [List.sum_ofFn, hw.sum]
    · rw [sum_weightedList]
      exact (hlikely item hitem).pos _ (List.mem_map_of_mem hevent)

/-- A step keeps the conditions, and does not decrease the mean log probability. -/
theorem exists_improve (hne : items ≠ [])
    (hcorpora : ∀ item ∈ items, item.corpus.sentenceList ≠ []) {weights : List ℝ}
    (h : Admissible n items BOS EOS weights) :
    ∃ new, improve n items BOS EOS weights = some new ∧ Admissible n items BOS EOS new ∧
      objective n items BOS EOS weights ≤ objective n items BOS EOS new := by
  obtain ⟨w, rfl⟩ : ∃ w : Fin n → ℝ, weights = List.ofFn w := by
    have hlength := h.length
    subst hlength
    exact ⟨weights.get, (List.ofFn_get weights).symm⟩
  obtain ⟨hw, hlikely⟩ := (admissible_ofFn_iff hcorpora w).mp h
  have hgroups : ∀ group ∈ items.map (observations n BOS EOS), Likely w group := by
    intro group hgroup
    obtain ⟨item, hitem, rfl⟩ := List.mem_map.mp hgroup
    exact hlikely item hitem
  have hne' : items.map (observations n BOS EOS) ≠ [] := List.map_eq_nil_iff.not.mpr hne
  refine ⟨_, improve_eq hw hne hlikely, (admissible_ofFn_iff hcorpora _).mpr ⟨?_, ?_⟩, ?_⟩
  · exact isWeights_averaged hw hne' hgroups
  · exact fun item hitem => likely_averaged hw hgroups (List.mem_map_of_mem hitem)
  · rw [objective_ofFn, objective_ofFn]
    exact sum_meanLog_le hw hne' hgroups

/-- So it is for the whole estimation. -/
theorem exists_improveIter (hn : 0 < n) (hne : items ≠ [])
    (hcorpora : ∀ item ∈ items, item.corpus.sentenceList ≠ []) : ∀ (turns : Nat)
    {weights : List ℝ}, Admissible n items BOS EOS weights →
    ∃ new, improveIter (improve n items BOS EOS) turns weights = some new ∧
      Admissible n items BOS EOS new ∧
      objective n items BOS EOS weights ≤ objective n items BOS EOS new := by
  have hok : ∀ {old new : List ℝ}, old.length = n → new.length = n →
      ∃ ok, isOk new old = some ok := by
    intro old new hold hnew
    obtain ⟨v, _, rfl⟩ := List.exists_cons_of_length_pos (hold ▸ hn)
    obtain ⟨w, _, rfl⟩ := List.exists_cons_of_length_pos (hnew ▸ hn)
    exact ⟨_, rfl⟩
  intro turns
  induction turns with
  | zero =>
      intro weights h
      obtain ⟨new, hnew, hadmissible, hle⟩ := exists_improve hne hcorpora h
      obtain ⟨ok, hisOk⟩ := hok h.length hadmissible.length
      refine ⟨new, ?_, hadmissible, hle⟩
      simp [improveIter, hnew, hisOk]
  | succ turns ih =>
      intro weights h
      obtain ⟨new, hnew, hadmissible, hle⟩ := exists_improve hne hcorpora h
      obtain ⟨ok, hisOk⟩ := hok h.length hadmissible.length
      cases ok with
      | true =>
          refine ⟨new, ?_, hadmissible, hle⟩
          simp [improveIter, hnew, hisOk]
      | false =>
          obtain ⟨last, hlast, hadmissible', hle'⟩ := ih hadmissible
          refine ⟨last, ?_, hadmissible', hle.trans hle'⟩
          simp [improveIter, hnew, hisOk, hlast]

/-- The weights that an estimation starts with are no better than the ones it returns. -/
theorem exists_estimate (hne : items ≠ [])
    (hcorpora : ∀ item ∈ items, item.corpus.sentenceList ≠ []) :
    (Admissible 2 items BOS EOS [8 / 10, 2 / 10] →
      ∃ new, estimate2gram (K := ℝ) items BOS EOS = some new ∧ Admissible 2 items BOS EOS new ∧
        objective 2 items BOS EOS [8 / 10, 2 / 10] ≤ objective 2 items BOS EOS new) ∧
    (Admissible 3 items BOS EOS [7 / 10, 2 / 10, 1 / 10] →
      ∃ new, estimate3gram (K := ℝ) items BOS EOS = some new ∧ Admissible 3 items BOS EOS new ∧
        objective 3 items BOS EOS [7 / 10, 2 / 10, 1 / 10] ≤ objective 3 items BOS EOS new) :=
  ⟨fun h => exists_improveIter (by decide) hne hcorpora 30 h,
    fun h => exists_improveIter (by decide) hne hcorpora 30 h⟩

/-- A step for two or three weights keeps them admissible, and does not decrease the mean log
probability. -/
theorem improve_increases (hne : items ≠ [])
    (hcorpora : ∀ item ∈ items, item.corpus.sentenceList ≠ []) :
    (∀ weights : List ℝ, Admissible 2 items BOS EOS weights →
      ∃ new, improve2gram items BOS EOS weights = some new ∧ Admissible 2 items BOS EOS new ∧
        objective 2 items BOS EOS weights ≤ objective 2 items BOS EOS new) ∧
    (∀ weights : List ℝ, Admissible 3 items BOS EOS weights →
      ∃ new, improve3gram items BOS EOS weights = some new ∧ Admissible 3 items BOS EOS new ∧
        objective 3 items BOS EOS weights ≤ objective 3 items BOS EOS new) :=
  ⟨fun _ h => exists_improve hne hcorpora h, fun _ h => exists_improve hne hcorpora h⟩

/-- A sentence with the counts of itself. -/
def selfItem : CrossItem Nat where
  freq := addNgramCounts Lisp.Table.empty 3 [1] 0 2
  corpus := ⟨[[1]]⟩

theorem improve_increases_self :
    (∃ new, improve2gram [selfItem] 0 2 [8 / 10, 2 / 10] = some new ∧
      Admissible 2 [selfItem] 0 2 new ∧
        objective 2 [selfItem] 0 2 [8 / 10, 2 / 10] ≤ objective 2 [selfItem] 0 2 new) ∧
    (∃ new, improve3gram [selfItem] 0 2 [7 / 10, 2 / 10, 1 / 10] = some new ∧
      Admissible 3 [selfItem] 0 2 new ∧
        objective 3 [selfItem] 0 2 [7 / 10, 2 / 10, 1 / 10] ≤ objective 3 [selfItem] 0 2 new) := by
  obtain ⟨h2, h3⟩ := @improve_increases Nat _ [selfItem] 0 2
    (List.cons_ne_nil _ _) (by simp [selfItem])
  have hevents2 : heldOutEvents 2 0 2 selfItem = [(1, [0]), (2, [1])] := by decide
  have hevents3 : heldOutEvents 3 0 2 selfItem = [(1, [0, 0]), (2, [0, 1])] := by decide
  have hp {token : Nat} {history : List Nat} {numer denom : Nat}
      (hnumer : getCount selfItem.freq (history ++ [token]) = some numer)
      (hdenom : getCount selfItem.freq history = some denom) :
      conditionalProbability (K := ℝ) selfItem.freq token history = some ((numer : ℝ) / denom) := by
    simp [conditionalProbability, hnumer, hdenom]
  have hp001 := @hp 1 [0, 0] 1 1 (by decide) (by decide)
  have hp012 := @hp 2 [0, 1] 1 1 (by decide) (by decide)
  have hp01 := @hp 1 [0] 1 1 (by decide) (by decide)
  have hp12 := @hp 2 [1] 1 1 (by decide) (by decide)
  have hp1 := @hp 1 [] 1 2 (by decide) (by decide)
  have hp2 := @hp 2 [] 1 2 (by decide) (by decide)
  refine ⟨h2 _ ⟨rfl, ?_, ?_, ?_⟩, h3 _ ⟨rfl, ?_, ?_, ?_⟩⟩
  · norm_num
  · norm_num
  · simp only [List.forall_mem_singleton, hevents2, List.forall_mem_cons,
      weightedList, List.tail_cons, hp01, hp12, hp1, hp2]
    norm_num
  · norm_num
  · norm_num
  · simp only [List.forall_mem_singleton, hevents3, List.forall_mem_cons,
      weightedList, List.tail_cons, hp001, hp012, hp01, hp12, hp1, hp2]
    norm_num

end Objective

end Hachee.LanguageModel.Ngram.EstimateWeights
