import Hachee.Foundation.Handler
import Hachee.Senn.Im.Kkc.Request

/-!
# A converter in another process (`senn.im.kkc.engine`)

The converter asks the engine of its store.  If that signals an error, the engine
is restarted and the answer is the pronunciation itself.

The requests already answer the errors of the engine and of the JSON library
with `nil`, so the restart is only reached when the engine answers with JSON of
another shape (`restarts_eq_one_iff`).  An engine that does not answer is never
restarted (`restarted_iff_of_path`), and an answer of the right shape may have a
segment without a candidate (`convert_displayable_iff`).
-/

namespace Hachee.Senn.Im.Kkc.Engine

open Lisp Request Foundation

/-! ## The converter -/

/-- What the methods `store-get-engine` and `store-restart-engine` of a store do:
they return an engine or signal an error. -/
structure EngineStore where
  getEngine : Option Agent
  restartEngine : Option Agent

/-- What a method returns, and how often it restarted the engine. -/
structure Outcome (α : Type) where
  value : Option α
  restarts : Nat

/-- The `handler-case` of both methods. -/
def handlerCase {α : Type} (store : EngineStore) (body : Agent → Option α) (fallback : α) :
    Outcome α :=
  match store.getEngine.bind body with
  | some a => { value := some a, restarts := 0 }
  | none => { value := store.restartEngine.map fun _ => fallback, restarts := 1 }

/-- `senn.im.kkc:convert`. -/
def convert (yason : Yason) (store : EngineStore) (pron : Str) : Outcome (List Request.Segment) :=
  handlerCase store (fun engine => Request.convert yason engine pron) [pronSegment pron]

/-- `senn.im.kkc:list-candidates`. -/
def listCandidates (yason : Yason) (store : EngineStore) (pron : Str) :
    Outcome (List Request.Candidate) :=
  handlerCase store (fun engine => Request.listCandidates yason engine pron) []

theorem handlerCase_of_some {α : Type} {store : EngineStore} {body : Agent → Option α}
    {fallback a : α} (h : store.getEngine.bind body = some a) :
    handlerCase store body fallback = { value := some a, restarts := 0 } := by
  rw [handlerCase, h]

theorem handlerCase_of_none {α : Type} {store : EngineStore} {body : Agent → Option α}
    {fallback : α} (h : store.getEngine.bind body = none) :
    handlerCase store body fallback =
      { value := store.restartEngine.map fun _ => fallback, restarts := 1 } := by
  rw [handlerCase, h]

/-! ## Answers without a candidate -/

/-- A conversion that can be displayed: there are segments, and each has a
candidate. -/
def Displayable (outcome : Outcome (List Request.Segment)) : Prop :=
  ∃ segments, outcome.value = some segments ∧ segments ≠ [] ∧
    ∀ segment ∈ segments, segment.candidates ≠ []

/-- The engine answers the conversion with the value. -/
def Answers (yason : Yason) (store : EngineStore) (pron : Str) (v : Json) : Prop :=
  ∃ engine, store.getEngine = some engine ∧
    exchange yason engine (request "CONVERT" pron) = some v

/-- The engine answers with segments, and one of them has no candidates. -/
def LacksCandidates (yason : Yason) (store : EngineStore) (pron : Str) : Prop :=
  ∃ items, Answers yason store pron (.list items) ∧ (Json.list items).IsSegments ∧
    ∃ item ∈ items, item.LacksCandidates

/-- There is no engine, or it answers with something else than segments. -/
def Misshapen (yason : Yason) (store : EngineStore) (pron : Str) : Prop :=
  store.getEngine = none ∨ ∃ v, Answers yason store pron v ∧ ¬v.IsSegments

theorem candidates_pronSegment {pron : Str} :
    ∀ segment ∈ [pronSegment pron], segment.candidates ≠ [] := by
  intro segment hsegment
  rw [List.mem_singleton.mp hsegment]
  exact List.cons_ne_nil _ _

/-- Without an answer the pronunciation itself is displayed. -/
theorem convert_of_exchange_eq_none {yason : Yason} {engine : Agent} {pron : Str}
    (h : exchange yason engine (request "CONVERT" pron) = none) :
    Request.convert yason engine pron = some [pronSegment pron] := by
  rw [Request.convert, sendJson, h]
  rfl

theorem convert_of_exchange_eq_some {yason : Yason} {engine : Agent} {pron : Str} {v : Json}
    (h : exchange yason engine (request "CONVERT" pron) = some v) :
    Request.convert yason engine pron =
      if v.isNil then some [pronSegment pron] else v.mapcar objToSeg := by
  rw [Request.convert, sendJson, h]
  rfl

/-- With an answer that is no list of segments the error reaches the handler. -/
theorem convert_eq_none_iff {yason : Yason} {engine : Agent} {pron : Str} :
    Request.convert yason engine pron = none ↔
      ∃ v, exchange yason engine (request "CONVERT" pron) = some v ∧ ¬v.IsSegments := by
  cases h : exchange yason engine (request "CONVERT" pron) with
  | none =>
      rw [convert_of_exchange_eq_none h]
      constructor
      · intro h
        cases h
      · intro h
        obtain ⟨v, hv, -⟩ := h
        cases hv
  | some v =>
      rw [convert_of_exchange_eq_some h]
      have hreturns := returns_segments_iff (v := v)
      constructor
      · intro hnone
        refine ⟨v, rfl, fun hsegments => ?_⟩
        obtain ⟨segments, hmap⟩ := hreturns.mpr hsegments
        cases hnil : v.isNil with
        | true => simp [hnil] at hnone
        | false => simp [hnil, hmap] at hnone
      · intro hv
        obtain ⟨v', hv', hnot⟩ := hv
        cases hv'
        cases hnil : v.isNil with
        | true =>
            rw [Json.isNil_iff.mp hnil] at hnot
            exact absurd ⟨[], rfl, fun _ h => (by cases h)⟩ hnot
        | false =>
            cases hmap : v.mapcar objToSeg with
            | none => rfl
            | some segments => exact absurd (hreturns.mp ⟨segments, hmap⟩) hnot

section Conversion

variable {yason : Yason} {store : EngineStore} {engine : Agent} {pron : Str}

/-- An answer is the one of the engine of the store. -/
theorem answers_iff (hengine : store.getEngine = some engine) {v : Json} :
    Answers yason store pron v ↔ exchange yason engine (request "CONVERT" pron) = some v := by
  constructor
  · intro h
    obtain ⟨engine', hengine', hv⟩ := h
    cases hengine.symm.trans hengine'
    exact hv
  · intro hv
    exact ⟨engine, hengine, hv⟩

theorem misshapen_iff (hengine : store.getEngine = some engine) :
    Misshapen yason store pron ↔ Request.convert yason engine pron = none := by
  rw [convert_eq_none_iff]
  constructor
  · intro h
    cases h with
    | inl hnone =>
        rw [hengine] at hnone
        cases hnone
    | inr hv =>
        obtain ⟨v, hanswers, hnot⟩ := hv
        exact ⟨v, (answers_iff hengine).mp hanswers, hnot⟩
  · intro h
    obtain ⟨v, hv, hnot⟩ := h
    exact Or.inr ⟨v, (answers_iff hengine).mpr hv, hnot⟩

/-- When no error reaches the handler, the answer decides. -/
theorem segments_iff (hengine : store.getEngine = some engine) {segments : List Request.Segment}
    (h : Request.convert yason engine pron = some segments) :
    (segments ≠ [] ∧ ∀ segment ∈ segments, segment.candidates ≠ []) ↔
      ¬LacksCandidates yason store pron := by
  simp only [LacksCandidates, answers_iff hengine]
  cases hv : exchange yason engine (request "CONVERT" pron) with
  | none =>
      rw [convert_of_exchange_eq_none hv, Option.some.injEq] at h
      subst h
      constructor
      · intro _ hlacks
        obtain ⟨items, hitems, -⟩ := hlacks
        cases hitems
      · intro _
        exact ⟨List.cons_ne_nil _ _, candidates_pronSegment⟩
  | some v =>
      rw [convert_of_exchange_eq_some hv] at h
      obtain ⟨hnil, hsegments⟩ | ⟨hnil, hmap⟩ := ite_inv h
      · cases hsegments
        rw [Json.isNil_iff] at hnil
        constructor
        · intro _ hlacks
          obtain ⟨items, hitems, -, item, hitem, -⟩ := hlacks
          rw [hnil] at hitems
          cases hitems
          cases hitem
        · intro _
          exact ⟨List.cons_ne_nil _ _, candidates_pronSegment⟩
      · obtain ⟨items, rfl, hitems⟩ := Json.mapcar_eq_some_iff.mp hmap
        have hlength := length_of_mapM_eq_some hitems
        have hne : segments ≠ [] := by
          intro hsegments
          rw [hsegments] at hlength
          exact hnil (Json.isNil_iff.mpr (by rw [List.eq_nil_of_length_eq_zero hlength.symm]))
        rw [and_iff_right hne, forall_candidates_iff hitems]
        constructor
        · intro hall hlacks
          obtain ⟨items', hitems', -, item, hitem, hitemLacks⟩ := hlacks
          cases hitems'
          exact hall item hitem hitemLacks
        · intro hnot item hitem hitemLacks
          exact hnot ⟨items, rfl, returns_segments_iff.mp ⟨segments, hmap⟩, item, hitem, hitemLacks⟩

end Conversion

/-- A conversion can be displayed unless the engine answers with segments one of
which has no candidate, or its answer has another shape and it cannot be
restarted. -/
theorem convert_displayable_iff (yason : Yason) (store : EngineStore) (pron : Str) :
    Displayable (convert yason store pron) ↔
      ¬LacksCandidates yason store pron ∧
        (Misshapen yason store pron → ∃ engine, store.restartEngine = some engine) := by
  -- Behind the handler it depends on the restart only.
  have hrestarted : store.getEngine.bind (fun engine => Request.convert yason engine pron) = none →
      (Displayable (convert yason store pron) ↔ ∃ engine, store.restartEngine = some engine) := by
    intro h
    rw [convert, handlerCase_of_none h]
    cases hrestart : store.restartEngine with
    | none =>
        constructor
        · intro hd
          obtain ⟨_, hvalue, -⟩ := hd
          cases hvalue
        · intro hsome
          obtain ⟨_, hsome⟩ := hsome
          cases hsome
    | some engine => exact ⟨fun _ => ⟨engine, rfl⟩, fun _ =>
        ⟨_, rfl, List.cons_ne_nil _ _, candidates_pronSegment⟩⟩
  cases hengine : store.getEngine with
  | none =>
      rw [hrestarted (by rw [hengine]; rfl)]
      have hlacks : ¬LacksCandidates yason store pron := by
        intro h
        obtain ⟨_, ⟨engine, hsome, -⟩, -⟩ := h
        rw [hengine] at hsome
        cases hsome
      exact ⟨fun h => ⟨hlacks, fun _ => h⟩, fun h => h.2 (Or.inl hengine)⟩
  | some engine =>
      cases hconvert : Request.convert yason engine pron with
      | none =>
          rw [hrestarted (by rw [hengine]; exact hconvert)]
          have hmis := (misshapen_iff hengine).mpr hconvert
          have hlacks : ¬LacksCandidates yason store pron := by
            intro h
            obtain ⟨items, hitems, hsegments, -⟩ := h
            obtain ⟨v, hv, hnot⟩ := convert_eq_none_iff.mp hconvert
            cases ((answers_iff hengine).mp hitems).symm.trans hv
            exact hnot hsegments
          exact ⟨fun h => ⟨hlacks, fun _ => h⟩, fun h => h.2 hmis⟩
      | some segments =>
          have hmis : ¬Misshapen yason store pron := by
            rw [misshapen_iff hengine, hconvert]
            exact Option.some_ne_none _
          rw [convert, handlerCase_of_some (by rw [hengine]; exact hconvert)]
          have hiff := segments_iff hengine hconvert
          constructor
          · intro h
            obtain ⟨segments', hsome, hne, hall⟩ := h
            cases hsome
            exact ⟨hiff.mp ⟨hne, hall⟩, fun h => absurd h hmis⟩
          · intro h
            obtain ⟨hne, hall⟩ := hiff.mpr h.1
            exact ⟨segments, rfl, hne, hall⟩

/-- A string in quotes. -/
def quoted (text : Str) : Str :=
  '"' :: text.flatMap (fun c => if c = '"' ∨ c = '\\' then ['\\', c] else [c]) ++ ['"']

mutual

/-- The text of a hash table of strings and of such tables, as requests are. -/
def encodeTable : Json → Option Str
  | .string text => some (quoted text)
  | .object entries => do
      let text ← encodeEntries entries
      some ('\x7b' :: text ++ ['\x7d'])
  | _ => none

/-- The entries of a table, with commas between them. -/
def encodeEntries : List (Str × Json) → Option Str
  | [] => some []
  | (key, value) :: entries => do
      let text ← encodeTable value
      let rest ← encodeEntries entries
      some (quoted key ++ ':' :: text ++ (if entries.isEmpty then [] else ',' :: rest))

end

/-- A JSON library for requests, and for answers without text. -/
def tableYason : Yason where
  encode := encodeTable
  parse := fun line =>
    if line = "[]".toList then some .nil
    else if line = "[\x7b\x7d]".toList then some (.list [.object []])
    else none

/-- The line of a request. -/
theorem encode_request (pron : Str) :
    tableYason.encode (request "CONVERT" pron) =
      some ("\x7b\"op\":\"CONVERT\",\"args\":\x7b\"pron\":".toList ++ quoted pron ++
        "\x7d\x7d".toList) := by
  simp only [tableYason, request, encodeTable, encodeEntries, Option.bind_eq_bind,
    Option.bind_some, List.isEmpty_nil, List.isEmpty_cons, if_true, Bool.false_eq_true, if_false,
    List.append_nil]
  simp only [List.cons_append, List.append_assoc]
  rfl

/-- An engine that always answers with one line. -/
theorem exchange_line (text pron : Str) :
    exchange tableYason (fun _ => .line text) (request "CONVERT" pron) = tableYason.parse text := by
  rw [exchange, encode_request]
  rfl

/-- An engine that answers with one empty object. -/
theorem convert_not_displayable :
    ¬Displayable (convert tableYason
      { getEngine := some fun _ => .line "[\x7b\x7d]".toList
        restartEngine := some fun _ => .eof } ['a']) := by
  intro h
  obtain ⟨segments, hsegments, -, hall⟩ := h
  have hanswer := exchange_line "[\x7b\x7d]".toList ['a']
  have hvalue : some [(⟨.nil, []⟩ : Request.Segment)] = some segments := by
    rw [← hsegments, convert, handlerCase, Option.bind_some, convert_of_exchange_eq_some hanswer]
    rfl
  cases hvalue
  exact hall _ (List.mem_singleton_self _) rfl

/-! ## Runs -/

/-- The two methods. -/
inductive Op where
  | convert
  | listCandidates

/-- The name of the operation in a request. -/
def Op.name : Op → String
  | .convert => "CONVERT"
  | .listCandidates => "LIST_CANDIDATES"

/-- A call: what is asked, what the current engine does with the next line, and what
restarting it would do. -/
structure Call where
  op : Op
  pron : Str
  engine : Agent
  restart : Option Agent

/-- `engine-store`, whose engine can always be got. -/
def Call.store (call : Call) : EngineStore :=
  { getEngine := some call.engine, restartEngine := call.restart }

/-- What a method returns. -/
inductive Output where
  | segments (value : Option (List Request.Segment))
  | candidates (value : Option (List Request.Candidate))

/-- The converter under a sequence of calls.  The state counts the restarts. -/
def handle (yason : Yason) : Handler Call Nat Output := fun call restarts =>
  match call.op with
  | .convert =>
      let outcome := convert yason call.store call.pron
      some (.segments outcome.value, restarts + outcome.restarts)
  | .listCandidates =>
      let outcome := listCandidates yason call.store call.pron
      some (.candidates outcome.value, restarts + outcome.restarts)

/-- The engine fails to answer: sending signals an error, the output is at its end, or
the answer is not valid JSON. -/
def Unanswered (yason : Yason) (call : Call) : Prop :=
  exchange yason call.engine (request call.op.name call.pron) = none

/-- The engine answers with JSON of another shape. -/
def Rejected (yason : Yason) (call : Call) : Prop :=
  ∃ v, exchange yason call.engine (request call.op.name call.pron) = some v ∧
    match call.op with
    | .convert => ¬v.IsSegments
    | .listCandidates => ¬v.IsObjects

theorem listCandidates_eq_none_iff {yason : Yason} {engine : Agent} {pron : Str} :
    Request.listCandidates yason engine pron = none ↔
      ∃ v, exchange yason engine (request "LIST_CANDIDATES" pron) = some v ∧ ¬v.IsObjects := by
  rw [Request.listCandidates, sendJson]
  cases h : exchange yason engine (request "LIST_CANDIDATES" pron) with
  | none =>
      constructor
      · intro hnone
        cases hnone
      · intro hv
        obtain ⟨v, hv, -⟩ := hv
        cases hv
  | some v =>
      have hreturns := returns_candidates_iff (v := v)
      rw [Option.getD_some]
      constructor
      · intro hnone
        refine ⟨v, rfl, fun hobjects => ?_⟩
        obtain ⟨candidates, hmap⟩ := hreturns.mpr hobjects
        rw [hnone] at hmap
        cases hmap
      · intro hv
        obtain ⟨v', hv', hnot⟩ := hv
        cases hv'
        cases hmap : v.mapcar objToCandidate with
        | none => rfl
        | some candidates => exact absurd (hreturns.mp ⟨candidates, hmap⟩) hnot

/-- An error in the body restarts the engine once. -/
theorem restarts_handlerCase {α : Type} (call : Call) (body : Agent → Option α) (fallback : α) :
    body call.engine = none ∧ (handlerCase call.store body fallback).restarts = 1 ∨
      body call.engine ≠ none ∧ (handlerCase call.store body fallback).restarts = 0 := by
  cases h : body call.engine with
  | none =>
      have hbind : call.store.getEngine.bind body = none := h
      exact Or.inl ⟨rfl, by rw [handlerCase_of_none hbind]⟩
  | some a =>
      have hbind : call.store.getEngine.bind body = some a := h
      exact Or.inr ⟨Option.some_ne_none a, by rw [handlerCase_of_some hbind]⟩

/-- The engine is restarted when it answers with JSON of another shape, and at no
other call. -/
theorem handle_restarts {yason : Yason} {call : Call} {n n' : Nat} {output : Output}
    (h : handle yason call n = some (output, n')) :
    Rejected yason call ∧ n' = n + 1 ∨ ¬Rejected yason call ∧ n' = n := by
  obtain ⟨op, pron, engine, restart⟩ := call
  cases op with
  | convert =>
      have hn : n + (convert yason (Call.store ⟨.convert, pron, engine, restart⟩) pron).restarts =
          n' := congrArg Prod.snd (Option.some.inj h)
      have hrejected : Rejected yason ⟨.convert, pron, engine, restart⟩ ↔
          Request.convert yason engine pron = none := convert_eq_none_iff.symm
      rw [hrejected]
      cases restarts_handlerCase ⟨.convert, pron, engine, restart⟩
          (fun engine => Request.convert yason engine pron) [pronSegment pron] with
      | inl hnone => exact Or.inl ⟨hnone.1, by rw [← hn, convert, hnone.2]⟩
      | inr hsome => exact Or.inr ⟨hsome.1, by rw [← hn, convert, hsome.2, Nat.add_zero]⟩
  | listCandidates =>
      have hn : n + (listCandidates yason (Call.store ⟨.listCandidates, pron, engine, restart⟩)
          pron).restarts = n' := congrArg Prod.snd (Option.some.inj h)
      have hrejected : Rejected yason ⟨.listCandidates, pron, engine, restart⟩ ↔
          Request.listCandidates yason engine pron = none := listCandidates_eq_none_iff.symm
      rw [hrejected]
      cases restarts_handlerCase ⟨.listCandidates, pron, engine, restart⟩
          (fun engine => Request.listCandidates yason engine pron) [] with
      | inl hnone => exact Or.inl ⟨hnone.1, by rw [← hn, listCandidates, hnone.2]⟩
      | inr hsome => exact Or.inr ⟨hsome.1, by rw [← hn, listCandidates, hsome.2, Nat.add_zero]⟩

/-- An engine that fails to answer is not restarted. -/
theorem restarts_of_unanswered {yason : Yason} {call : Call} {n n' : Nat} {output : Output}
    (h : handle yason call n = some (output, n')) (hfail : Unanswered yason call) : n' = n := by
  cases handle_restarts h with
  | inl hrejected =>
      obtain ⟨v, hv, -⟩ := hrejected.1
      rw [Unanswered, hv] at hfail
      cases hfail
  | inr hkept => exact hkept.2

/-- Whenever a call is not answered, the engine is restarted exactly once before the
next call. -/
def RestartedInTime (yason : Yason) (steps : List (Handler.Step Call Nat Output)) : Prop :=
  ∀ before x y after, steps = before ++ x :: y :: after → Unanswered yason x.request →
    y.state = x.state + 1

/-- Every call that another one follows is answered. -/
def AnsweredBeforeNext (yason : Yason) (steps : List (Handler.Step Call Nat Output)) : Prop :=
  ∀ before x y after, steps = before ++ x :: y :: after → ¬Unanswered yason x.request

/-- Engines that fail are restarted in time just in the runs in which none fails
before another call. -/
theorem restarted_iff_of_path {yason : Yason} {n : Nat}
    {steps : List (Handler.Step Call Nat Output)} (hp : Handler.Path (handle yason) n steps) :
    RestartedInTime yason steps ↔ AnsweredBeforeNext yason steps := by
  constructor
  · intro h before x y after hsteps hfail
    have hone := h before x y after hsteps hfail
    rw [hsteps] at hp
    have hmem : x ∈ before ++ x :: y :: after := List.mem_append_right _ List.mem_cons_self
    rw [hp.state_eq_next, restarts_of_unanswered (hp.answer hmem) hfail] at hone
    omega
  · intro h before x y after hsteps hfail
    exact absurd hfail (h before x y after hsteps)

/-- A call of an engine that does `reply` with the next line. -/
def convertCall (reply : Reply) : Call where
  op := .convert
  pron := ['a']
  engine := fun _ => reply
  restart := some fun _ => .line "[]".toList

/-- Two calls that are answered. -/
theorem restarted_of_path_answered :
    RestartedInTime tableYason
      [⟨0, convertCall (.line "[]".toList), .segments (some [pronSegment ['a']]), 0⟩,
        ⟨0, convertCall (.line "[]".toList), .segments (some [pronSegment ['a']]), 0⟩] := by
  have hp : Handler.Path (handle tableYason) 0
      [⟨0, convertCall (.line "[]".toList), .segments (some [pronSegment ['a']]), 0⟩,
        ⟨0, convertCall (.line "[]".toList), .segments (some [pronSegment ['a']]), 0⟩] :=
    .cons rfl (.cons rfl .nil)
  refine (restarted_iff_of_path hp).mpr ?_
  intro before x y after hsteps
  have hmem : x ∈ before ++ x :: y :: after := List.mem_append_right _ List.mem_cons_self
  rw [← hsteps] at hmem
  simp only [List.mem_cons, List.not_mem_nil, or_false, or_self] at hmem
  subst hmem
  exact Option.some_ne_none Json.nil

/-- The output of the engine is at its end at two calls. -/
theorem not_restarted_of_path :
    ∃ steps, Handler.Path (handle tableYason) 0 steps ∧
      ¬RestartedInTime tableYason steps := by
  refine ⟨[⟨0, convertCall .eof, .segments (some [pronSegment ['a']]), 0⟩,
    ⟨0, convertCall .eof, .segments (some [pronSegment ['a']]), 0⟩], .cons rfl (.cons rfl .nil), ?_⟩
  intro h
  exact absurd (h [] _ _ [] rfl rfl) (by decide)

end Hachee.Senn.Im.Kkc.Engine
