import Mathlib.Data.List.DropRight
import Mathlib.Tactic.Common
import Hachee.Lisp.Sequence

/-!
# Requests over a socket that is reconnected (`senn::ipc::socket`)

A response is a line.  `ReadLine` appends the bytes to the caller's string as they
arrive, chunk by chunk, until a chunk ends with a line break.  Then it removes the
white space at the end of the string.  It gives up at a timeout and when the
connection is closed, and what it has appended stays in the string.

`ReconnectableServerRequest` tries three connections, one after the other, with one
string.  So the response begins with what the failed connections received.  It is
the line exactly if they received nothing, or if nothing but white space was
received at all (`execute_eq_iff`).
-/

namespace Hachee.Senn.Ipc.Socket

/-- A string of C++. -/
abbrev Bytes := List UInt8

/-- The line break. -/
def newline : UInt8 := 10

/-- `std::isspace`. -/
def isspace (b : UInt8) : Bool := b = 32 || (9 ≤ b && b ≤ 13)

/-- The size of the buffer that a chunk is read into. -/
def bufferSize : Nat := 1024

/-- The bytes that one call of `read` returns. -/
structure Chunk where
  bytes : Bytes
  bytes_ne_nil : bytes ≠ []
  length_le : bytes.length ≤ bufferSize

/-- The last byte of the chunk is a line break. -/
def Chunk.endsLine (chunk : Chunk) : Bool := chunk.bytes.getLast chunk.bytes_ne_nil = newline

/-- Why no chunk comes any more. -/
inductive Ending where
  | timeout
  | closed
  /-- `read` answers `-1`. -/
  | failed
deriving DecidableEq, Repr

/-- What a connection receives. -/
structure Received where
  chunks : List Chunk
  ending : Ending

/-- The string without the white space at its end. -/
def eraseSpace (output : Bytes) : Bytes := output.rdropWhile isspace

/-- The loop of `ReadLine`.  The program exits when `read` fails. -/
def readLineFrom (ending : Ending) : List Chunk → Bytes → Option (Bool × Bytes)
  | [], output =>
      match ending with
      | .timeout => some (false, output)
      | .closed => some (false, output)
      | .failed => none
  | chunk :: chunks, output =>
      if chunk.endsLine then some (true, eraseSpace (output ++ chunk.bytes))
      else readLineFrom ending chunks (output ++ chunk.bytes)

/-- `Connection::ReadLine`: whether a line was read, and the string. -/
def readLine (received : Received) (output : Bytes) : Option (Bool × Bytes) :=
  readLineFrom received.ending received.chunks output

/-- `TryExecuting`: what is written, once for each connection, and the response.  The
program exits after the third failure. -/
def tryExecuting (request : Bytes) : Nat → List Received → Bytes → Option (List Bytes × Bytes)
  | _, [], _ => none
  | tryCount, received :: connections, response =>
      match readLine received response with
      | some (true, response) => some ([request], response)
      | some (false, response) =>
          if tryCount < 2 then
            (tryExecuting request (tryCount + 1) connections response).map
              fun (written, response) => (request :: written, response)
          else none
      | none => none

/-- `ReconnectableServerRequest::Execute`. -/
def execute (request : Bytes) (connections : List Received) (response : Bytes) :
    Option (List Bytes × Bytes) :=
  tryExecuting request 0 connections response

/-! ## White space at the end -/

/-- White space is removed from the last part only, unless all of that goes. -/
theorem eraseSpace_append_of_not {line : Bytes} (h : ¬∀ b ∈ line, isspace b = true)
    (output : Bytes) : eraseSpace (output ++ line) = output ++ eraseSpace line := by
  induction line using List.reverseRecOn with
  | nil => exact absurd (fun _ hb => by cases hb) h
  | append_singleton line b ih =>
      rw [eraseSpace, eraseSpace, ← List.append_assoc, List.rdropWhile_concat,
        List.rdropWhile_concat]
      split
      next hb =>
        refine ih fun hline => h fun c hc => ?_
        rcases List.mem_append.mp hc with hc | hc
        · exact hline c hc
        · rwa [List.mem_singleton.mp hc]
      next => rw [List.append_assoc]

theorem eraseSpace_append_of_space {line : Bytes} (h : ∀ b ∈ line, isspace b = true)
    (output : Bytes) : eraseSpace (output ++ line) = eraseSpace output := by
  induction line using List.reverseRecOn with
  | nil => rw [List.append_nil]
  | append_singleton line b ih =>
      have hb : isspace b = true := h b (List.mem_append_right _ (List.mem_singleton.mpr rfl))
      rw [eraseSpace, ← List.append_assoc, List.rdropWhile_concat_pos _ _ _ hb]
      exact ih fun c hc => h c (List.mem_append_left _ hc)

/-- The line break goes with the white space. -/
theorem eraseSpace_newline (output : Bytes) :
    eraseSpace (output ++ [newline]) = eraseSpace output :=
  eraseSpace_append_of_space (by simp [isspace, newline]) output

/-- What is put before a line shows, unless all is white space. -/
theorem eraseSpace_append_eq_iff {output line : Bytes} :
    eraseSpace (output ++ line) = eraseSpace line ↔
      output = [] ∨ (∀ b ∈ line, isspace b = true) ∧ ∀ b ∈ output, isspace b = true := by
  by_cases h : ∀ b ∈ line, isspace b = true
  · have hline : eraseSpace line = [] := List.rdropWhile_eq_nil_iff.mpr h
    rw [eraseSpace_append_of_space h, hline, eraseSpace, List.rdropWhile_eq_nil_iff]
    constructor
    · exact fun houtput => Or.inr ⟨h, houtput⟩
    · rintro (rfl | ⟨-, houtput⟩)
      · exact fun _ hb => by cases hb
      · exact houtput
  · rw [eraseSpace_append_of_not h]
    constructor
    · intro heq
      exact Or.inl (List.append_left_eq_self.mp heq)
    · rintro (rfl | ⟨hline, -⟩)
      · rfl
      · exact absurd hline h

/-! ## What a connection does to the string -/

/-- The bytes of chunks, in order. -/
def bytesOf (chunks : List Chunk) : Bytes := chunks.flatMap Chunk.bytes

/-- The connection breaks off: at a timeout, or because it is closed. -/
structure Received.BreaksOff (received : Received) : Prop where
  noLine : ∀ chunk ∈ received.chunks, chunk.endsLine = false
  ending : received.ending ≠ .failed

/-- The connection receives a line, and perhaps more after it. -/
structure Received.Answers (received : Received) (line : Bytes) : Prop where
  split : ∃ before last after, received.chunks = before ++ last :: after ∧
    (∀ chunk ∈ before, chunk.endsLine = false) ∧ last.endsLine = true ∧
    bytesOf (before ++ [last]) = line ++ [newline]

/-- The loop appends the chunks that do not end a line. -/
theorem readLineFrom_append (ending : Ending) (after : List Chunk) :
    ∀ (before : List Chunk) (output : Bytes), (∀ chunk ∈ before, chunk.endsLine = false) →
      readLineFrom ending (before ++ after) output =
        readLineFrom ending after (output ++ bytesOf before)
  | [], output, _ => by rw [bytesOf, List.flatMap_nil, List.append_nil, List.nil_append]
  | chunk :: before, output, h => by
      have hchunk := h chunk (List.mem_cons_self ..)
      rw [List.cons_append, readLineFrom, if_neg (by simp [hchunk]),
        readLineFrom_append ending after before _ fun c hc => h c (List.mem_cons_of_mem _ hc),
        bytesOf, bytesOf, List.flatMap_cons, List.append_assoc]

/-- What was appended stays there. -/
theorem Received.BreaksOff.readLine {received : Received} (h : received.BreaksOff)
    (output : Bytes) :
    Socket.readLine received output = some (false, output ++ bytesOf received.chunks) := by
  have hloop := readLineFrom_append received.ending [] received.chunks output h.noLine
  rw [List.append_nil] at hloop
  rw [Socket.readLine, hloop]
  cases hending : received.ending with
  | timeout => rfl
  | closed => rfl
  | failed => exact absurd hending h.ending

/-- The line comes behind what the string holds. -/
theorem Received.Answers.readLine {received : Received} {line : Bytes} (h : received.Answers line)
    (output : Bytes) :
    Socket.readLine received output = some (true, eraseSpace (output ++ line)) := by
  obtain ⟨before, last, after, hchunks, hbefore, hlast, hline⟩ := h.split
  rw [Socket.readLine, hchunks, readLineFrom_append _ _ before output hbefore, readLineFrom,
    if_pos hlast]
  have hbytes : output ++ bytesOf before ++ last.bytes = output ++ line ++ [newline] := by
    rw [List.append_assoc, List.append_assoc, ← hline]
    simp [bytesOf]
  rw [hbytes, eraseSpace_newline]

/-- The response is the line behind all that the connections before it received. -/
theorem tryExecuting_eq {request : Bytes} {success : Received} {line : Bytes}
    (hsuccess : success.Answers line) (rest : List Received) :
    ∀ (failed : List Received) (tryCount : Nat) (response : Bytes),
      (∀ received ∈ failed, received.BreaksOff) → tryCount + failed.length ≤ 2 →
        tryExecuting request tryCount (failed ++ success :: rest) response =
          some (List.replicate (failed.length + 1) request,
            eraseSpace (response ++ bytesOf (failed.flatMap Received.chunks) ++ line))
  | [], tryCount, response, _, _ => by
      rw [List.nil_append, tryExecuting, hsuccess.readLine]
      simp [bytesOf]
  | received :: failed, tryCount, response, hfailed, hcount => by
      rw [List.length_cons] at hcount
      rw [List.cons_append, tryExecuting, (hfailed received (List.mem_cons_self ..)).readLine]
      simp only
      rw [if_pos (by omega), tryExecuting_eq hsuccess rest failed (tryCount + 1) _
        (fun x hx => hfailed x (List.mem_cons_of_mem _ hx)) (by omega)]
      simp [bytesOf, List.replicate_succ, List.append_assoc]

/-- When up to two connections break off and the next one answers with a line, the
request returns.  The response is the line without white space at its end if and
only if nothing was received before it, or nothing but white space at all. -/
theorem execute_eq_iff {request : Bytes} {failed rest : List Received} {success : Received}
    {line : Bytes} (hfailed : ∀ received ∈ failed, received.BreaksOff)
    (hcount : failed.length ≤ 2) (hsuccess : success.Answers line) :
    ∃ written response,
      execute request (failed ++ success :: rest) [] = some (written, response) ∧
      (response = eraseSpace line ↔
        (∀ received ∈ failed, received.chunks = []) ∨
          (∀ b ∈ line, isspace b = true) ∧
            ∀ received ∈ failed, ∀ chunk ∈ received.chunks, ∀ b ∈ chunk.bytes,
              isspace b = true) := by
  refine ⟨_, _, tryExecuting_eq hsuccess rest failed 0 [] hfailed (by omega), ?_⟩
  rw [List.nil_append, eraseSpace_append_eq_iff]
  have hnil : bytesOf (failed.flatMap Received.chunks) = [] ↔
      ∀ received ∈ failed, received.chunks = [] := by
    rw [bytesOf, List.flatMap_eq_nil_iff]
    constructor
    · intro h received hreceived
      refine List.eq_nil_iff_forall_not_mem.mpr fun chunk hchunk => ?_
      exact chunk.bytes_ne_nil (h chunk (List.mem_flatMap.mpr ⟨received, hreceived, hchunk⟩))
    · intro h chunk hchunk
      obtain ⟨received, hreceived, hchunk⟩ := List.mem_flatMap.mp hchunk
      rw [h received hreceived] at hchunk
      cases hchunk
  have hspace : (∀ b ∈ bytesOf (failed.flatMap Received.chunks), isspace b = true) ↔
      ∀ received ∈ failed, ∀ chunk ∈ received.chunks, ∀ b ∈ chunk.bytes, isspace b = true := by
    simp only [bytesOf, List.mem_flatMap]
    constructor
    · intro h received hreceived chunk hchunk b hb
      exact h b ⟨chunk, ⟨received, hreceived, hchunk⟩, hb⟩
    · rintro h b ⟨chunk, ⟨received, hreceived, hchunk⟩, hb⟩
      exact h received hreceived chunk hchunk b hb
  rw [hnil, hspace]

/-- A chunk of one byte, which may end a line. -/
def chunkOf (b : UInt8) (ends : Bool) : Chunk :=
  ⟨b :: if ends then [newline] else [], List.cons_ne_nil _ _, by
    cases ends <;> simp [bufferSize]⟩

/-- A connection that answers with `ok` in two chunks. -/
def answersOk : Received := ⟨[chunkOf 111 false, chunkOf 107 true], .timeout⟩

theorem answersOk_answers : answersOk.Answers [111, 107] :=
  ⟨⟨[chunkOf 111 false], chunkOf 107 true, [], rfl, by decide, by decide, rfl⟩⟩

/-- The first connection is closed before anything arrives. -/
theorem execute_eq_iff_closed :
    ∃ written response,
      execute [113] ([⟨[], .closed⟩] ++ answersOk :: []) [] = some (written, response) ∧
      (response = eraseSpace [111, 107] ↔
        (∀ received ∈ [Received.mk [] .closed], received.chunks = []) ∨
          (∀ b ∈ [111, 107], isspace b = true) ∧
            ∀ received ∈ [Received.mk [] .closed], ∀ chunk ∈ received.chunks,
              ∀ b ∈ chunk.bytes, isspace b = true) := by
  refine execute_eq_iff ?_ (by decide) answersOk_answers
  intro received hreceived
  rw [List.mem_singleton.mp hreceived]
  exact ⟨by simp, by decide⟩

/-- The first connection breaks off after the byte `o`, which stays in the response. -/
theorem execute_ne_line :
    (⟨[chunkOf 111 false], .timeout⟩ : Received).BreaksOff ∧ answersOk.Answers [111, 107] ∧
      execute [113] [⟨[chunkOf 111 false], .timeout⟩, answersOk] [] =
        some ([[113], [113]], [111, 111, 107]) ∧
      eraseSpace [111, 107] ≠ [111, 111, 107] :=
  ⟨⟨by decide, by decide⟩, answersOk_answers, by decide, by decide⟩

end Hachee.Senn.Ipc.Socket
