import Hachee.Lisp.Sequence

/-!
# What an input method is given (`senn.im.kkc`, `senn.im.predict` and the mixins)

A kana-kanji converter answers `convert` and `list-candidates`, and a predictor
answers a string with a list of strings.  Both are generic functions of the
source with many methods, so they are functions of the model.  The optional
boundary argument of `convert` is never passed by the input methods.

`Ime` is what the two mixins of the source ask of an input method: a converter,
a predictor and a bound on the number of candidates.  A method that is absent in
the source, like the predictor of an input method without one, answers with
nothing.
-/

namespace Hachee.Senn.Im

open Lisp

namespace Kkc

/-- `(defstruct candidate form)`. -/
structure Candidate where
  form : Str
deriving DecidableEq, Repr

/-- `(defstruct segment pron candidates)` of the converter. -/
structure Segment where
  pron : Str
  candidates : List Candidate
deriving DecidableEq, Repr

end Kkc

/-- A converter: `convert` and `list-candidates`. -/
structure Kkc where
  convert : Str → List Kkc.Segment
  listCandidates : Str → List Kkc.Candidate

/-- The converter answers with segments, and each of them has a candidate. -/
def Kkc.Nonempty (kkc : Kkc) : Prop :=
  ∀ pron, kkc.convert pron ≠ [] ∧ ∀ segment ∈ kkc.convert pron, segment.candidates ≠ []

/-- An input method as the mixins see it. -/
structure Ime where
  kkc : Kkc
  predictor : Str → List Str
  maxCandidateCount : Option Nat

/-- `take-first`. -/
def takeFirst {α : Type*} (list : List α) (n : Nat) : List α :=
  if n < list.length then list.take n else list

theorem mem_of_mem_takeFirst {α : Type*} {list : List α} {n : Nat} {x : α}
    (h : x ∈ takeFirst list n) : x ∈ list := by
  unfold takeFirst at h
  split at h
  next => exact List.mem_of_mem_take h
  next => exact h

/-- A list cut to the candidate bound of the input method, if there is one. -/
def Ime.takeMax {α : Type*} (ime : Ime) (list : List α) : List α :=
  match ime.maxCandidateCount with
  | some maxCount => takeFirst list maxCount
  | none => list

theorem Ime.mem_of_mem_takeMax {α : Type*} {ime : Ime} {list : List α} {x : α}
    (h : x ∈ ime.takeMax list) : x ∈ list := by
  unfold Ime.takeMax at h
  split at h
  next => exact mem_of_mem_takeFirst h
  next => exact h

/-- `ime-list-candidates`. -/
def Ime.listCandidates (ime : Ime) (pron : Str) : List Kkc.Candidate :=
  ime.takeMax (ime.kkc.listCandidates pron)

/-- `ime-list-predictions`. -/
def Ime.listPredictions (ime : Ime) (string : Str) : List Str :=
  if string = [] then [] else ime.takeMax (ime.predictor string)

/-- An input method that answers every string with the string. -/
def Ime.echo : Ime where
  kkc := ⟨fun pron => [⟨pron, [⟨pron⟩]⟩], fun pron => [⟨pron⟩]⟩
  predictor := fun string => [string]
  maxCandidateCount := none

end Hachee.Senn.Im
