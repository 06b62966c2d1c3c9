import Hachee.Lisp.Sequence

/-!
# Requests to a converter in another process (`senn.im.kkc.request`)

A request is sent as a line of JSON, and the answer is one line of JSON.  The
JSON library is not part of the sources: `Yason` is what it does with a value
and with a line.

`send-json` answers `nil` on every error, and `nil` is also what the empty array,
`null` and `false` are read as.  The functions that take the answer apart signal
an error where it does not have the expected shape.
-/

namespace Hachee.Senn.Im.Kkc.Request

open Lisp

/-! ## JSON values -/

/-- What a JSON text is read as.  The empty array, `null` and `false` are
`list []`, which is `nil`.  `t` is `true`. -/
inductive Json where
  | list (items : List Json)
  | object (entries : List (Str × Json))
  | string (text : Str)
  | number (value : Rat)
  | t

namespace Json

/-- `nil`. -/
abbrev nil : Json := .list []

/-- `(null v)`. -/
def isNil : Json → Bool
  | .list [] => true
  | _ => false

/-- `(gethash key hash)`.  A value that is no hash table is an error, and a key that
is missing is `nil`. -/
def gethash (key : String) : Json → Option Json
  | .object entries => some ((entries.lookup key.toList).getD nil)
  | _ => none

/-- `(mapcar f v)`.  A value that is no list is an error. -/
def mapcar {α : Type} (f : Json → Option α) : Json → Option (List α)
  | .list items => items.mapM f
  | _ => none

end Json

/-- `yason:encode` and `yason:parse` on a string. -/
structure Yason where
  encode : Json → Option Str
  parse : Str → Option Json

/-! ## Agents -/

/-- What `send-line` does: it signals an error, or it returns `nil` at the end of
the output, or a line. -/
inductive Reply where
  | error
  | eof
  | line (text : Str)

/-- What an agent does with the next line it is sent. -/
abbrev Agent := Str → Reply

/-- The hash table of a request. -/
def request (op : String) (pron : Str) : Json :=
  .object
    [("op".toList, .string op.toList), ("args".toList, .object [("pron".toList, .string pron)])]

/-- The body of `send-json`.  `(yason:parse nil)` is an error. -/
def exchange (yason : Yason) (agent : Agent) (hash : Json) : Option Json := do
  let line ← yason.encode hash
  match agent line with
  | .error => none
  | .eof => none
  | .line text => yason.parse text

/-- `send-json`. -/
def sendJson (yason : Yason) (agent : Agent) (hash : Json) : Json :=
  (exchange yason agent hash).getD .nil

/-! ## Segments and candidates -/

/-- `(defstruct candidate form)`, whose form is whatever was read. -/
structure Candidate where
  form : Json

/-- `(defstruct segment pron candidates)`, whose pronunciation is whatever was read. -/
structure Segment where
  pron : Json
  candidates : List Candidate

/-- `obj->candidate`. -/
def objToCandidate (hash : Json) : Option Candidate := do
  let form ← hash.gethash "form"
  some ⟨form⟩

/-- `obj->seg`. -/
def objToSeg (hash : Json) : Option Segment := do
  let pron ← hash.gethash "pron"
  let objCands ← hash.gethash "candidates"
  let candidates ← objCands.mapcar objToCandidate
  some ⟨pron, candidates⟩

/-- The segment that displays the pronunciation itself. -/
def pronSegment (pron : Str) : Segment := ⟨.string pron, [⟨.string pron⟩]⟩

/-- `convert`. -/
def convert (yason : Yason) (agent : Agent) (pron : Str) : Option (List Segment) :=
  let array := sendJson yason agent (request "CONVERT" pron)
  if array.isNil then some [pronSegment pron] else array.mapcar objToSeg

/-- `list-candidates`. -/
def listCandidates (yason : Yason) (agent : Agent) (pron : Str) : Option (List Candidate) :=
  (sendJson yason agent (request "LIST_CANDIDATES" pron)).mapcar objToCandidate

/-! ## The shape of an answer -/

/-- A hash table. -/
def Json.IsObject (v : Json) : Prop := ∃ entries, v = .object entries

/-- A list of hash tables. -/
def Json.IsObjects (v : Json) : Prop := ∃ items, v = .list items ∧ ∀ item ∈ items, item.IsObject

/-- A hash table with a list of hash tables under `candidates`. -/
def Json.IsSegment (v : Json) : Prop :=
  ∃ cands, v.gethash "candidates" = some cands ∧ cands.IsObjects

/-- A list of those. -/
def Json.IsSegments (v : Json) : Prop := ∃ items, v = .list items ∧ ∀ item ∈ items, item.IsSegment

/-- A hash table without candidates: the key is missing, or it has the empty array,
`null` or `false`. -/
def Json.LacksCandidates (v : Json) : Prop := v.gethash "candidates" = some .nil

/-- Only hash tables have keys. -/
theorem Json.isObject_of_gethash {v : Json} {key : String} {value : Json}
    (h : v.gethash key = some value) : v.IsObject := by
  cases v with
  | object entries => exact ⟨entries, rfl⟩
  | list items => cases h
  | string text => cases h
  | number value => cases h
  | t => cases h

theorem Json.isObject_iff_gethash {v : Json} (key : String) :
    v.IsObject ↔ ∃ value, v.gethash key = some value := by
  constructor
  · intro h
    obtain ⟨entries, rfl⟩ := h
    exact ⟨_, rfl⟩
  · intro h
    obtain ⟨value, hvalue⟩ := h
    exact isObject_of_gethash hvalue

theorem Json.isNil_iff {v : Json} : v.isNil = true ↔ v = .nil := by
  cases v with
  | list items =>
      cases items with
      | nil => exact ⟨fun _ => rfl, fun _ => rfl⟩
      | cons item items => exact ⟨fun h => (by cases h), fun h => (by cases h)⟩
  | object entries => exact ⟨fun h => (by cases h), fun h => (by cases h)⟩
  | string text => exact ⟨fun h => (by cases h), fun h => (by cases h)⟩
  | number value => exact ⟨fun h => (by cases h), fun h => (by cases h)⟩
  | t => exact ⟨fun h => (by cases h), fun h => (by cases h)⟩

/-- A value is mapped over when it is a list and every item has an image. -/
theorem Json.mapcar_eq_some_iff {α : Type} {f : Json → Option α} {v : Json} {as : List α} :
    v.mapcar f = some as ↔ ∃ items, v = .list items ∧ items.mapM f = some as := by
  constructor
  · intro h
    cases v with
    | list items => exact ⟨items, rfl, h⟩
    | object entries => cases h
    | string text => cases h
    | number value => cases h
    | t => cases h
  · intro h
    obtain ⟨items, rfl, hmap⟩ := h
    exact hmap

theorem objToCandidate_returns_iff {v : Json} : Returns (objToCandidate v) ↔ v.IsObject := by
  rw [Json.isObject_iff_gethash "form"]
  constructor
  · intro h
    obtain ⟨candidate, hcandidate⟩ := h
    obtain ⟨form, hform, -⟩ := bind_inv hcandidate
    exact ⟨form, hform⟩
  · intro h
    obtain ⟨form, hform⟩ := h
    exact ⟨⟨form⟩, by rw [objToCandidate, hform]; rfl⟩

/-- A loop returns when all its turns do. -/
theorem returns_mapcar_iff {α : Type} {f : Json → Option α} {v : Json} :
    Returns (v.mapcar f) ↔ ∃ items, v = .list items ∧ ∀ item ∈ items, Returns (f item) := by
  constructor
  · intro h
    obtain ⟨as, has⟩ := h
    obtain ⟨items, rfl, hmap⟩ := Json.mapcar_eq_some_iff.mp has
    refine ⟨items, rfl, fun item hitem => ?_⟩
    obtain ⟨a, -, ha⟩ := exists_of_mapM_eq_some hmap hitem
    exact ⟨a, ha⟩
  · intro h
    obtain ⟨items, rfl, hall⟩ := h
    exact exists_mapM_eq_some hall

theorem returns_candidates_iff {v : Json} : Returns (v.mapcar objToCandidate) ↔ v.IsObjects := by
  rw [returns_mapcar_iff]
  simp only [objToCandidate_returns_iff, Json.IsObjects]

theorem objToSeg_returns_iff {v : Json} : Returns (objToSeg v) ↔ v.IsSegment := by
  constructor
  · intro h
    obtain ⟨segment, hsegment⟩ := h
    obtain ⟨pron, -, hsegment⟩ := bind_inv hsegment
    obtain ⟨objCands, hcands, hsegment⟩ := bind_inv hsegment
    obtain ⟨candidates, hmap, -⟩ := bind_inv hsegment
    exact ⟨objCands, hcands, returns_candidates_iff.mp ⟨candidates, hmap⟩⟩
  · intro h
    obtain ⟨objCands, hcands, hobjects⟩ := h
    obtain ⟨pron, hpron⟩ := (Json.isObject_iff_gethash "pron").mp (Json.isObject_of_gethash hcands)
    obtain ⟨candidates, hmap⟩ := returns_candidates_iff.mpr hobjects
    exact ⟨⟨pron, candidates⟩, by rw [objToSeg, hpron, hcands]; simp [hmap]⟩

theorem returns_segments_iff {v : Json} : Returns (v.mapcar objToSeg) ↔ v.IsSegments := by
  rw [returns_mapcar_iff]
  simp only [objToSeg_returns_iff, Json.IsSegments]

/-- A segment has no candidates exactly when the hash table lacks them. -/
theorem candidates_eq_nil_iff {v : Json} {segment : Segment} (h : objToSeg v = some segment) :
    segment.candidates = [] ↔ v.LacksCandidates := by
  obtain ⟨pron, hpron, h⟩ := bind_inv h
  obtain ⟨objCands, hcands, h⟩ := bind_inv h
  obtain ⟨candidates, hmap, h⟩ := bind_inv h
  cases h
  obtain ⟨items, rfl, hmap⟩ := Json.mapcar_eq_some_iff.mp hmap
  rw [Json.LacksCandidates, hcands]
  have hlength := length_of_mapM_eq_some hmap
  constructor
  · intro hnil
    have hnil : candidates = [] := hnil
    rw [hnil] at hlength
    rw [List.eq_nil_of_length_eq_zero hlength.symm]
  · intro hitems
    cases hitems
    exact List.eq_nil_of_length_eq_zero hlength

/-- The segments of an answer all have candidates when none of its hash tables lacks
them. -/
theorem forall_candidates_iff {items : List Json} {segments : List Segment}
    (h : items.mapM objToSeg = some segments) :
    (∀ segment ∈ segments, segment.candidates ≠ []) ↔ ∀ item ∈ items, ¬item.LacksCandidates := by
  constructor
  · intro hall item hitem hlacks
    obtain ⟨segment, hsegment, hobj⟩ := exists_of_mapM_eq_some h hitem
    exact hall segment hsegment ((candidates_eq_nil_iff hobj).mpr hlacks)
  · intro hall segment hsegment hnil
    obtain ⟨item, hitem, hobj⟩ := (mem_iff_of_mapM_eq_some h).mp hsegment
    exact hall item hitem ((candidates_eq_nil_iff hobj).mp hnil)

end Hachee.Senn.Im.Kkc.Request
