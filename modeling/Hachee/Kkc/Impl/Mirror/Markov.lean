import Mathlib.Algebra.Order.Field.Basic
import Hachee.Kkc.Impl.ExDictBuilder

/-!
# The character model of the mirror engine (`hachee.kkc.impl.mirror`)

The engine works with costs: a cost is the negative logarithm of a probability, as a multiple
of 1/65536.  The cost of a string is the sum of the costs of the transitions between its
characters, from the boundary to the boundary.  A character that the table of the engine does
not have costs as much again as one of all the characters that are not in it.

The costs of the files are integers.  The other numbers are exact, and the logarithm and the
exponential function are parameters.
-/

namespace Hachee.Kkc.Impl.Mirror

open Lisp
open ExDictBuilder (Item Walk sumProbability)

section Cost

variable {R : Type} [Field R] (exp log : R → R)

/-- `*log-probability-to-cost-multiple*` -/
def logProbabilityToCostMultiple : Nat := 0x10000

/-- `<-probability` -/
def fromProbability [DecidableEq R] (prob : R) : Option R :=
  if prob = 0 then none else some (-(log prob * logProbabilityToCostMultiple))

/-- `->probability` -/
def toProbability (cost : R) : R := exp (-cost / logProbabilityToCostMultiple)

end Cost

/-! ## Tokens -/

/-- `+UT+`, the unknown token. -/
def utToken : Nat := 0

/-- `+BT+`, the boundary token. -/
def btToken : Nat := 1

/-- `int-str` -/
structure IntStr where
  strToInt : Table Str Nat

/-- `to-int` -/
def toInt (intStr : IntStr) (str : Str) : Nat := (intStr.strToInt.gethash str).getD utToken

/-- `int-str-size` -/
def intStrSize (intStr : IntStr) : Nat := intStr.strToInt.entries.length

/-! ## Costs of strings -/

/-- `markov` -/
structure Markov where
  cost1gram : List Int
  cost2gram : HashTable (Nat × Nat) Int

/-- `markov-transition-cost` -/
def markovTransitionCost (markov : Markov) (prev curr : Nat) : Option Int :=
  markov.cost2gram.gethash (prev, curr) <|> markov.cost1gram[curr]?

/-- `char-tokens` -/
def charTokens (string : Str) (charIntStr : IntStr) : List Nat :=
  string.map fun ch => toInt charIntStr [ch]

section CharBasedCost

variable {R : Type} [Field R]

/-- What a transition adds to the cost. -/
def transitionCost (charMarkov : Markov) (charCost0gram : R) (prev curr : Nat) : Option R := do
  let transitionCost ← markovTransitionCost charMarkov prev curr
  some (transitionCost + if curr = utToken then charCost0gram else 0)

/-- The loop of `char-based-cost` over a sentence (`do-as-sentence`). -/
def addCosts (charMarkov : Markov) (charCost0gram : R) : Nat → List Nat → R → Option R
  | prev, [], cost => do
      let last ← transitionCost charMarkov charCost0gram prev btToken
      some (cost + last)
  | prev, curr :: tokens, cost => do
      let next ← transitionCost charMarkov charCost0gram prev curr
      addCosts charMarkov charCost0gram curr tokens (cost + next)

/-- `char-based-cost` -/
def charBasedCost (string : Str) (charIntStr : IntStr) (charMarkov : Markov)
    (charCost0gram : R) : Option R :=
  addCosts charMarkov charCost0gram btToken (charTokens string charIntStr) 0

/-- A token that the table of the costs has can come next. -/
theorem exists_transitionCost {charMarkov : Markov} {curr : Nat}
    (hcurr : curr < charMarkov.cost1gram.length) (charCost0gram : R) (prev : Nat) :
    ∃ cost, transitionCost charMarkov charCost0gram prev curr = some cost := by
  rw [transitionCost, markovTransitionCost, List.getElem?_eq_getElem hcurr]
  cases charMarkov.cost2gram.gethash (prev, curr) with
  | none => exact ⟨_, rfl⟩
  | some cost => exact ⟨_, rfl⟩

/-- The token of a string is one of the table or the unknown token. -/
theorem toInt_lt {charIntStr : IntStr} {size : Nat} (hsize : btToken < size)
    (hints : ∀ e ∈ charIntStr.strToInt.entries, e.2 < size) (str : Str) :
    toInt charIntStr str < size := by
  rw [toInt]
  cases hget : charIntStr.strToInt.gethash str with
  | none => exact Nat.lt_of_succ_lt hsize
  | some n => exact hints (str, n) (Table.gethash_eq_some_iff.mp hget)

/-- Every string has a cost if every token of the table has one. -/
theorem exists_charBasedCost {charIntStr : IntStr} {charMarkov : Markov}
    (hsize : btToken < charMarkov.cost1gram.length)
    (hints : ∀ e ∈ charIntStr.strToInt.entries, e.2 < charMarkov.cost1gram.length)
    (charCost0gram : R) (string : Str) :
    ∃ cost, charBasedCost string charIntStr charMarkov charCost0gram = some cost := by
  suffices hloop : ∀ prev (cost : R), ∃ total,
      addCosts charMarkov charCost0gram prev (charTokens string charIntStr) cost = some total from
    hloop btToken 0
  induction string with
  | nil =>
      intro prev cost
      obtain ⟨last, hlast⟩ := exists_transitionCost hsize charCost0gram prev
      exact ⟨cost + last, by rw [charTokens, List.map_nil, addCosts, hlast]; rfl⟩
  | cons ch string ih =>
      intro prev cost
      obtain ⟨next, hnext⟩ :=
        exists_transitionCost (toInt_lt hsize hints [ch]) charCost0gram prev
      obtain ⟨total, htotal⟩ := ih (toInt charIntStr [ch]) (cost + next)
      exact ⟨total, by rw [charTokens, List.map_cons, addCosts, hnext]; exact htotal⟩

end CharBasedCost

/-! ## The engine -/

/-- `hachee.kkc.impl.mirror.in-dict:entry` -/
structure InDictEntry where
  form : Str
  cost : Int
  token : Nat

/-- `hachee.kkc.impl.mirror.in-dict:list-entries` -/
def listEntries (inDict : HashTable Str (List InDictEntry)) (pron : Str) : List InDictEntry :=
  (inDict.gethash pron).getD []

/-- `hachee.kkc.impl.mirror.ex-dict:entry` -/
structure ExDictEntry (R : Type) where
  form : Str
  cost : R

/-- `kkc`, without the models of words, which the extended dictionary does not ask for. -/
structure MirrorKkc (R : Type) where
  inDict : HashTable Str (List InDictEntry)
  inDictProb : R
  exDict : HashTable Str (List (ExDictEntry R))
  charMarkov : Markov
  charIntStr : IntStr
  charCost0gram : R

section Kkc

variable {R : Type} [Field R] (exp log : R → R)

/-- The probability of a string, by its cost. -/
def charProbability (charIntStr : IntStr) (charMarkov : Markov) (charCost0gram : R)
    (string : Str) : Option R := do
  let cost ← charBasedCost string charIntStr charMarkov charCost0gram
  some (toProbability exp cost)

/-- `in-dict-prob` -/
def inDictProb {inDict : HashTable Str (List InDictEntry)} (walk : Walk inDict)
    (charIntStr : IntStr) (charMarkov : Markov) (charCost0gram : R) : Option R :=
  sumProbability (charProbability exp charIntStr charMarkov charCost0gram) InDictEntry.form
    (walk.table.entries.map Prod.snd)

/-- `char-cost-0gram`.  The size of the alphabet is 6878, and two strings of the table are no
characters. -/
def charCost0gram [DecidableEq R] (charIntStr : IntStr) : Option R :=
  let unkCharSize : Int := 6878 - ((intStrSize charIntStr : Int) - 2)
  if 0 < unkCharSize then fromProbability log (1 / (unkCharSize : R)) else none

/-- `build-kkc` -/
def buildKkc [DecidableEq R] (charIntStr : IntStr) (charMarkov : Markov)
    {inDict : HashTable Str (List InDictEntry)} (walk : Walk inDict) : Option (MirrorKkc R) := do
  let charCost0gram ← charCost0gram log charIntStr
  let inDictProb ← inDictProb exp walk charIntStr charMarkov charCost0gram
  some { inDict, inDictProb, exDict := .empty, charMarkov, charIntStr, charCost0gram }

end Kkc

end Hachee.Kkc.Impl.Mirror
