import Mathlib.Algebra.Field.Basic
import Mathlib.Algebra.BigOperators.Group.List.Basic
import Hachee.Lisp.Sequence
import Hachee.Lisp.Table
import Hachee.Foundation.Counting

/-!
# Counts and probabilities of n-grams

`each-ngram-subseq` walks over the n-grams of a sentence padded with `n - 1`
`BOS` and one `EOS`.  `add-ngram-counts` counts them.  The probability of a
token after a history is the quotient of two counts, and `weighted-list` mixes
the quotients of the history and of its ever shorter tails.

The function given to `each-ngram-subseq` only updates a table, so the walk is
the list of the n-grams it is called with.  Both ends of each of them lie in the
padded sentence, where `(subseq s start end)` is `take` and `drop`.
-/

namespace Hachee.LanguageModel.Ngram.Probability

open Lisp (Table)

variable {T : Type} [DecidableEq T]

/-- `freq`: how often each n-gram was seen. -/
abbrev Freq (T : Type) := Table (List T) Nat

/-- `get-count`. -/
def getCount (freq : Freq T) (tokens : List T) : Option Nat := freq.gethash tokens

/-- `inc-count`. -/
def incCount (freq : Freq T) (tokens : List T) : Freq T := freq.inchash tokens

/-- The sentence with its padding. -/
def extendedTokens (tokens : List T) (n : Nat) (BOS EOS : T) : List T :=
  List.replicate (n - 1) BOS ++ tokens ++ [EOS]

/-- The inner loop, `for diff from (min n (- length start)) downto 0`. -/
def eachFrom (extended : List T) (n start : Nat) : List (List T) :=
  ((List.range (min n (extended.length - start) + 1)).reverse.filter
      fun diff => ¬(start < n - 1 ∧ start + diff < n - 1)).map
    fun diff => (extended.take (start + diff)).drop start

/-- `each-ngram-subseq`: the n-grams the callback is called with, in order. -/
def eachNgramSubseq (tokens : List T) (n : Nat) (BOS EOS : T) : List (List T) :=
  let extended := extendedTokens tokens n BOS EOS
  (List.range extended.length).flatMap (eachFrom extended n)

example : eachNgramSubseq [1, 2, 3, 4] 2 8 9 =
    [[8, 1], [8], [1, 2], [1], [], [2, 3], [2], [], [3, 4], [3], [], [4, 9], [4], [], [9], []] := by
  decide

/-- `add-ngram-counts`. -/
def addNgramCounts (freq : Freq T) (n : Nat) (tokens : List T) (BOS EOS : T) : Freq T :=
  (eachNgramSubseq tokens n BOS EOS).foldl incCount freq

section Probability

variable {K : Type} [Field K]

/-- `conditional-probability`. -/
def conditionalProbability (freq : Freq T) (token : T) (historyTokens : List T) : Option K := do
  let numer ← getCount freq (historyTokens ++ [token])
  let denom ← getCount freq historyTokens
  some ((numer : K) / (denom : K))

/-- `weighted-list`. -/
def weightedList (freq : Freq T) : List K → T → List T → List K
  | [], _, _ => []
  | w :: weights, token, historyTokens =>
      w * (conditionalProbability freq token historyTokens).getD 0 ::
        weightedList freq weights token historyTokens.tail

end Probability

/-! ## Where an n-gram is counted -/

/-- The n-gram `h` is counted at `start`: it stands there, and it reaches beyond
the padding. -/
def CountedAt (extended : List T) (n : Nat) (h : List T) (start : Nat) : Prop :=
  h <+: extended.drop start ∧ n - 1 ≤ start + h.length

instance (extended : List T) (n : Nat) (h : List T) : DecidablePred (CountedAt extended n h) :=
  fun _ => inferInstanceAs (Decidable (_ ∧ _))

omit [DecidableEq T] in
/-- What `(subseq s start (+ start diff))` is. -/
theorem slice_eq_iff {s h : List T} {start diff : Nat} (hle : diff ≤ s.length - start) :
    (s.take (start + diff)).drop start = h ↔ h <+: s.drop start ∧ diff = h.length := by
  have hslice : (s.take (start + diff)).drop start = (s.drop start).take diff := by
    rw [List.drop_take, Nat.add_sub_cancel_left]
  have hlen : ((s.drop start).take diff).length = diff := by
    rw [List.length_take, List.length_drop, Nat.min_eq_left hle]
  rw [hslice]
  constructor
  · intro h'
    subst h'
    exact ⟨List.take_prefix _ _, hlen.symm⟩
  · intro h'
    rw [h'.2]
    exact (List.prefix_iff_eq_take.mp h'.1).symm

omit [DecidableEq T] in
/-- The walk from one start meets the n-grams counted there. -/
theorem mem_eachFrom_iff {extended : List T} {n start : Nat} {h : List T}
    (hlen : h.length ≤ n) (hstart : start < extended.length) :
    h ∈ eachFrom extended n start ↔ CountedAt extended n h start := by
  simp only [eachFrom, List.mem_map, List.mem_filter, List.mem_reverse, List.mem_range,
    Nat.lt_succ_iff, decide_eq_true_eq]
  constructor
  · intro hmem
    obtain ⟨diff, ⟨hdiff, hc⟩, hs⟩ := hmem
    obtain ⟨hpre, hd⟩ := (slice_eq_iff (by omega)).mp hs
    subst hd
    exact ⟨hpre, by omega⟩
  · intro hat
    have hle : h.length ≤ extended.length - start := by
      have := hat.1.length_le
      rwa [List.length_drop] at this
    have hend := hat.2
    exact ⟨h.length, ⟨by omega, by omega⟩, (slice_eq_iff hle).mpr ⟨hat.1, rfl⟩⟩

omit [DecidableEq T] in
/-- The walk from one start meets no n-gram twice: its n-grams differ in length. -/
theorem nodup_eachFrom (extended : List T) (n start : Nat) : (eachFrom extended n start).Nodup := by
  have hnd : (List.range (min n (extended.length - start) + 1)).reverse.Nodup :=
    List.nodup_reverse.mpr List.nodup_range
  refine List.Nodup.map_on (fun d hd d' hd' heq => ?_) (hnd.filter _)
  rw [List.mem_filter, List.mem_reverse, List.mem_range] at hd hd'
  have hpre := (slice_eq_iff (by omega)).mp heq
  have hlen := ((slice_eq_iff (h := (extended.take (start + d')).drop start) (by omega)).mp rfl).2
  exact hpre.2.trans hlen.symm

/-- How often a sentence counts an n-gram. -/
theorem count_eachNgramSubseq (tokens : List T) (n : Nat) (BOS EOS : T) {h : List T}
    (hlen : h.length ≤ n) :
    (eachNgramSubseq tokens n BOS EOS).count h =
      (List.range (extendedTokens tokens n BOS EOS).length).countP
        (fun start => decide (CountedAt (extendedTokens tokens n BOS EOS) n h start)) := by
  rw [eachNgramSubseq, Foundation.count_flatMap_of_nodup h fun i _ => nodup_eachFrom
    (extendedTokens tokens n BOS EOS) n i]
  refine List.countP_congr fun start hmem => ?_
  rw [decide_eq_true_eq, decide_eq_true_eq, mem_eachFrom_iff hlen (List.mem_range.mp hmem)]

/-- The tables hold what the walks over all the sentences met. -/
theorem getCount_foldl_addNgramCounts (n : Nat) (sentences : List (List T)) (BOS EOS : T)
    (h : List T) :
    getCount (sentences.foldl (fun freq tokens => addNgramCounts freq n tokens BOS EOS)
        Table.empty) h =
      Table.tally ((sentences.flatMap fun tokens => eachNgramSubseq tokens n BOS EOS).count h) := by
  have hflat : sentences.foldl (fun freq tokens => addNgramCounts freq n tokens BOS EOS)
      Table.empty = (sentences.flatMap fun tokens => eachNgramSubseq tokens n BOS EOS).foldl
        Table.inchash Table.empty := by
    rw [List.foldl_flatMap]
    rfl
  rw [getCount, hflat, Table.gethash_foldl_inchash_empty]

end Hachee.LanguageModel.Ngram.Probability
