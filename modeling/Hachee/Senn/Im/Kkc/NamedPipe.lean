import Hachee.Senn.Im.Kkc.Request
import Hachee.Senn.Ipc.NamedPipe

/-!
# Requests over a named pipe (`senn.im.kkc.named-pipe`)

`send-line` writes a line, and takes what one `read-file` returns for the answer.  Nothing
in the pipe tells where a response ends.  A response that is not delivered by a single read
is cut off, and the rest of it is the beginning of the next answer.

The server reads a request and writes a response with `client-send-line`.  An exchange here
is a request, its response, and the number of the bytes that are delivered to the client.
The answers are the responses exactly if every read delivers the bytes of one response, none
of them empty (`answers_eq_iff`).
-/

namespace Hachee.Senn.Im.Kkc.NamedPipe

open Lisp
open Request (Reply)
open Ipc.NamedPipe

section

variable [Babel]

/-- The unread bytes in both directions. -/
structure Pipe where
  toServer : Octets
  toClient : Octets

structure Exchange where
  line : Str
  response : Str
  bytesRead : Nat

/-- The server takes the request and writes a response. -/
def serve (resp : Str) (pipe : Pipe) : Pipe := ⟨[], clientSendLine pipe.toClient resp⟩

/-- The answer that `send-line` makes of the octets it read. -/
def answer : Option Octets → Reply
  | none => .eof
  | some octets =>
      match Babel.octetsToString octets with
      | none => .error
      | some text => .line text

/-- `send-line`, the method of the client.  The server works between the two calls. -/
def sendLine (pipe : Pipe) (line : Str) (server : Pipe → Pipe) (bytesRead : Nat) : Reply × Pipe :=
  let pipe := server { pipe with toServer := writeFile pipe.toServer (Babel.stringToOctets line) }
  let (octets, unread) := readFile pipe.toClient bytesRead
  (answer octets, { pipe with toClient := unread })

/-- A request and its response. -/
def Exchange.run (e : Exchange) (pipe : Pipe) : Reply × Pipe :=
  sendLine pipe e.line (serve e.response) e.bytesRead

/-- The answers to the requests that are sent over a connection. -/
def answers : Pipe → List Exchange → List Reply
  | _, [] => []
  | pipe, e :: exchanges => (e.run pipe).1 :: answers (e.run pipe).2 exchanges

/-- Every read is one that `ReadFile` allows. -/
def Delivered : Pipe → List Exchange → Prop
  | _, [] => True
  | pipe, e :: exchanges =>
      Delivers bufSize (pipe.toClient ++ utf8Octets e.response) e.bytesRead ∧
        Delivered (e.run pipe).2 exchanges

/-! ## The answers -/

theorem answer_eq_line_iff {octets : Option Octets} {text : Str} :
    answer octets = .line text ↔ octets = some (utf8Octets text) := by
  cases octets with
  | none => simp [answer]
  | some octets =>
      rw [Option.some_inj, ← utf8String_eq_some_iff, answer, Babel.octetsToString_eq]
      cases utf8String octets with
      | none => simp
      | some s => simp

omit [Babel] in
/-- The first bytes of a response are a whole one only if they are all of it. -/
theorem readFile_eq_iff {octets : Octets} {bytesRead : Nat} (hle : bytesRead ≤ octets.length) :
    (readFile octets bytesRead).1 = some octets ↔ octets ≠ [] ∧ bytesRead = octets.length := by
  constructor
  · intro h
    have hpos : bytesRead ≠ 0 := fun hzero => by simp [readFile, hzero] at h
    have htake : octets.take bytesRead = octets := by simpa [readFile, hpos] using h
    have hlength := congrArg List.length htake
    rw [List.length_take_of_le hle] at hlength
    refine ⟨fun hnil => hpos ?_, hlength⟩
    rw [hlength, hnil, List.length_nil]
  · intro h
    obtain ⟨hne, rfl⟩ := h
    simp [readFile, hne]

section Answers

variable {pipe : Pipe} {e : Exchange}

/-- When nothing is left of the responses before, the answer is the response exactly if it is
delivered at once. -/
theorem Exchange.run_eq_iff (hpipe : pipe.toClient = [])
    (h : Delivers bufSize (pipe.toClient ++ utf8Octets e.response) e.bytesRead) :
    (e.run pipe).1 = .line e.response ↔
      e.response ≠ [] ∧ e.bytesRead = (utf8Octets e.response).length := by
  have hle := h.le_length
  rw [hpipe, List.nil_append] at hle
  have hrun : (e.run pipe).1 = answer (readFile (utf8Octets e.response) e.bytesRead).1 := by
    simp [Exchange.run, sendLine, serve, clientSendLine, writeFile, hpipe,
      Babel.stringToOctets_eq]
  rw [hrun, answer_eq_line_iff, readFile_eq_iff hle, Ne, utf8Octets_eq_nil_iff]

/-- Then nothing is left of this response either. -/
theorem Exchange.toClient_run (hpipe : pipe.toClient = [])
    (h : e.bytesRead = (utf8Octets e.response).length) : (e.run pipe).2.toClient = [] := by
  simp [Exchange.run, sendLine, serve, clientSendLine, writeFile, readFile, hpipe, h,
    Babel.stringToOctets_eq]

end Answers

/-- A response is answered exactly if the reads for it and for all those before it deliver one
response each. -/
theorem answers_eq_iff_of_empty : ∀ {exchanges : List Exchange} {pipe : Pipe},
    pipe.toClient = [] → Delivered pipe exchanges →
    (answers pipe exchanges = exchanges.map (fun e => Reply.line e.response) ↔
      ∀ e ∈ exchanges, e.response ≠ [] ∧ e.bytesRead = (utf8Octets e.response).length)
  | [], _, _, _ => by simp [answers]
  | e :: exchanges, pipe, hpipe, h => by
      obtain ⟨hdelivers, hrest⟩ := h
      rw [answers, List.map_cons, List.cons_eq_cons, List.forall_mem_cons,
        e.run_eq_iff hpipe hdelivers]
      exact and_congr_right fun hwhole =>
        answers_eq_iff_of_empty (e.toClient_run hpipe hwhole.2) hrest

/-- Over a new connection every answer is the response to its request if and only if no
response is empty and every read delivers just the bytes of one response. -/
theorem answers_eq_iff {exchanges : List Exchange} (h : Delivered ⟨[], []⟩ exchanges) :
    answers ⟨[], []⟩ exchanges = exchanges.map (fun e => Reply.line e.response) ↔
      ∀ e ∈ exchanges, e.response ≠ [] ∧ e.bytesRead = (utf8Octets e.response).length :=
  answers_eq_iff_of_empty rfl h

end

theorem answers_eq_iff_two :
    answers ⟨[], []⟩ [⟨"q".toList, "ok".toList, 2⟩, ⟨"r".toList, "no".toList, 1⟩] =
        [Reply.line "ok".toList, Reply.line "no".toList] ↔
      ∀ e ∈ [Exchange.mk "q".toList "ok".toList 2, ⟨"r".toList, "no".toList, 1⟩],
        e.response ≠ [] ∧ e.bytesRead = (utf8Octets e.response).length :=
  answers_eq_iff
    ⟨⟨by decide, by decide, by decide⟩, ⟨by decide, by decide, by decide⟩, trivial⟩

/-- A response that is longer than the buffer is cut off, even if the buffer is filled. -/
theorem answers_ne_of_long [Babel] {response : Str} (h : bufSize < (utf8Octets response).length) :
    Delivered ⟨[], []⟩ [⟨"q".toList, response, bufSize⟩] ∧
      answers ⟨[], []⟩ [⟨"q".toList, response, bufSize⟩] ≠ [Reply.line response] := by
  have hdelivered : Delivered ⟨[], []⟩ [⟨"q".toList, response, bufSize⟩] :=
    ⟨⟨Nat.le_refl _, Nat.le_of_lt h, fun _ => Nat.succ_pos _⟩, trivial⟩
  refine ⟨hdelivered, fun heq => ?_⟩
  have hwhole := (answers_eq_iff_of_empty rfl hdelivered).mp heq _ (List.mem_singleton.mpr rfl)
  exact Nat.ne_of_lt h hwhole.2

theorem not_answers : ¬ ∀ exchanges : List Exchange, Delivered ⟨[], []⟩ exchanges →
    answers ⟨[], []⟩ exchanges = exchanges.map (fun e => Reply.line e.response) := by
  intro h
  have hle := length_le_length_utf8Octets (List.replicate 4097 'a')
  rw [List.length_replicate] at hle
  obtain ⟨hdelivered, hne⟩ := @answers_ne_of_long _ (List.replicate 4097 'a') hle
  exact hne (h _ hdelivered)

end Hachee.Senn.Im.Kkc.NamedPipe
