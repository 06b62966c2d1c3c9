import Hachee.Senn.Ipc.NamedPipe
import Hachee.Senn.Ipc.Socket
import Hachee.Senn.Win.Server

/-!
# The Windows server at the other end of a named pipe (`ConnectionIPC`)

The server writes the text of its response to the pipe, and nothing after it.  The client is
written in C++.  It reads chunks until one of them ends with a line break.

No response of `handle-request` ends with a line break: a response is a word, a digit, or a
digit with a view, and a view ends with an object of JSON.  So the client never returns at the
end of a response, however the response comes in chunks (`readLine_not_exact`).  The server
for sockets does write the line break.
-/

namespace Hachee.Senn.Win

open Lisp
open Ipc.NamedPipe
open Ipc.Socket (Bytes Chunk bytesOf newline)

/-! ## The texts of the responses -/

/-- What a JSON text is written from. -/
inductive Js where
  | object (entries : List (Str × Js))
  | array (items : List Js)
  | string (s : Str)
  | number (n : Nat)

/-- `jsown:to-json`.  The text of an object ends with a brace. -/
structure Jsown where
  toJson : Js → Str
  toJson_object : ∀ entries, (toJson (.object entries)).getLast? = some '}'

/-- The views as `editing-view`, `converting-view` and `committed-view` write them. -/
def View.text (jsown : Jsown) : View → Str
  | .editing input predictions =>
      "EDITING ".toList ++ jsown.toJson (.object
        [("input".toList, .string input),
          ("predictions".toList, .array (predictions.map .string))])
  | .converting forms cursorFormIndex candidates candidateIndex =>
      "CONVERTING ".toList ++ jsown.toJson (.object
        [("forms".toList, .array (forms.map .string)),
          ("cursor-form-index".toList, .number cursorFormIndex),
          ("cursor-form".toList, .object
            [("candidates".toList, .array (candidates.map .string)),
              ("candidate-index".toList, .number candidateIndex)])])
  | .committed input =>
      "COMMITTED ".toList ++ jsown.toJson (.object [("input".toList, .string input)])

/-- `1` or `0` -/
def digit (one : Bool) : Str := if one then ['1'] else ['0']

/-- What `toggle-input-mode` and `process-input` return. -/
def Output.text (jsown : Jsown) : Output → Str
  | .ok => "OK".toList
  | .processed one view => digit one ++ [' '] ++ (view.map (View.text jsown)).getD []

/-- The string that `handle-request` returns. -/
def ServerResponse.text (jsown : Jsown) : ServerResponse → Str
  | .inputMode name => name
  | .canProcess one => digit one
  | .changed output => output.text jsown

/-! ## The client -/

/-- The loop of `ConnectionIPC::ReadLine`: what it read, and the chunks after it.  Without a
chunk it waits for one. -/
def readLineFrom : List Chunk → Bytes → Option (Bytes × List Chunk)
  | [], _ => none
  | chunk :: chunks, output =>
      if chunk.endsLine then some (output ++ chunk.bytes, chunks)
      else readLineFrom chunks (output ++ chunk.bytes)

/-- `ConnectionIPC::ReadLine` -/
def readLine (chunks : List Chunk) : Option (Bytes × List Chunk) := readLineFrom chunks []

/-- The loop returns after just these chunks if the last of them is the first one that ends
with a line break. -/
theorem readLineFrom_exact_iff : ∀ {chunks : List Chunk} {output : Bytes},
    (∃ line, readLineFrom chunks output = some (line, [])) ↔
      ∃ front last, chunks = front ++ [last] ∧ (∀ chunk ∈ front, chunk.endsLine = false) ∧
        last.endsLine = true
  | [], output => by simp [readLineFrom]
  | chunk :: chunks, output => by
      rw [readLineFrom]
      cases hends : chunk.endsLine with
      | true =>
          constructor
          · intro h
            obtain ⟨line, h⟩ := h
            simp only [if_true, Option.some_inj, Prod.mk.injEq] at h
            exact ⟨[], chunk, by rw [h.2, List.nil_append], by simp, hends⟩
          · intro h
            obtain ⟨front, last, heq, hfront, hlast⟩ := h
            cases front with
            | nil =>
                cases heq
                exact ⟨_, rfl⟩
            | cons c front =>
                cases heq
                rw [hfront _ (List.mem_cons_self ..)] at hends
                cases hends
      | false =>
          rw [if_neg (by simp), readLineFrom_exact_iff]
          constructor
          · intro h
            obtain ⟨front, last, rfl, hfront, hlast⟩ := h
            exact ⟨chunk :: front, last, rfl, by simpa [hends] using hfront, hlast⟩
          · intro h
            obtain ⟨front, last, heq, hfront, hlast⟩ := h
            cases front with
            | nil =>
                cases heq
                rw [hlast] at hends
                cases hends
            | cons c front =>
                cases heq
                exact ⟨front, last, rfl, fun d hd => hfront d (List.mem_cons_of_mem _ hd), hlast⟩

/-- Then the bytes end with a line break. -/
theorem getLast?_bytesOf {chunks : List Chunk} {line : Bytes}
    (h : readLine chunks = some (line, [])) : (bytesOf chunks).getLast? = some newline := by
  obtain ⟨front, last, rfl, -, hlast⟩ := readLineFrom_exact_iff.mp ⟨line, h⟩
  have hbyte : last.bytes.getLast last.bytes_ne_nil = newline := by
    simpa [Chunk.endsLine] using hlast
  rw [bytesOf, List.flatMap_append, List.flatMap_singleton,
    List.getLast?_append_of_ne_nil _ last.bytes_ne_nil, List.getLast?_eq_getLast_of_ne_nil
      last.bytes_ne_nil, hbyte]

/-! ## No response ends with a line break -/

/-- The octets of the string do not end with a line break. -/
def EndsPlain (s : Str) : Prop :=
  ∃ c, s.getLast? = some c ∧ (String.utf8EncodeChar c).getLast? ≠ some newline

section EndsPlain

variable {s t : Str}

theorem EndsPlain.append (h : EndsPlain t) (s : Str) : EndsPlain (s ++ t) := by
  obtain ⟨c, hc, hplain⟩ := h
  exact ⟨c, by rw [List.getLast?_append, hc]; rfl, hplain⟩

/-- The last octet is one of the last character. -/
theorem EndsPlain.getLast?_ne (h : EndsPlain s) :
    (utf8Octets s).getLast? ≠ some newline := by
  obtain ⟨c, hc, hplain⟩ := h
  obtain ⟨front, rfl⟩ := List.getLast?_eq_some_iff.mp hc
  rwa [utf8Octets_append, utf8Octets, utf8Octets, List.flatMap_singleton,
    List.getLast?_append_of_ne_nil _ String.utf8EncodeChar_ne_nil]

theorem endsPlain_digit (one : Bool) : EndsPlain (digit one) := by
  cases one with
  | true => exact ⟨'1', rfl, by decide⟩
  | false => exact ⟨'0', rfl, by decide⟩

theorem endsPlain_name (mode : InputMode) : EndsPlain mode.name := by
  cases mode with
  | hiragana => exact ⟨'A', by decide, by decide⟩
  | direct => exact ⟨'T', by decide, by decide⟩

theorem endsPlain_view (jsown : Jsown) (view : View) : EndsPlain (view.text jsown) := by
  have hobject : ∀ entries, EndsPlain (jsown.toJson (.object entries)) := fun entries =>
    ⟨'}', jsown.toJson_object entries, by decide⟩
  cases view with
  | editing input predictions => exact (hobject _).append _
  | converting forms cursorFormIndex candidates candidateIndex => exact (hobject _).append _
  | committed input => exact (hobject _).append _

theorem endsPlain_output (jsown : Jsown) (output : Output) : EndsPlain (output.text jsown) := by
  cases output with
  | ok => exact ⟨'K', rfl, by decide⟩
  | processed one view =>
      cases view with
      | none =>
          have hspace : EndsPlain [' '] := ⟨' ', rfl, by decide⟩
          simpa [Output.text] using hspace.append (digit one)
      | some view => exact (endsPlain_view jsown view).append _

/-- No request is answered with a line break at the end. -/
theorem endsPlain_handleRequest (jsown : Jsown) {stateful : StatefulIme} {request : ServerRequest}
    {s s' : State} {response : ServerResponse}
    (h : handleRequest (stateful, request) s = some (response, s')) :
    EndsPlain (response.text jsown) := by
  cases request with
  | getInputMode =>
      cases h
      exact endsPlain_name s.inputMode
  | toggleInputMode =>
      obtain ⟨⟨output, t⟩, -, h⟩ := bind_inv h
      cases h
      exact endsPlain_output jsown output
  | canProcess key =>
      obtain ⟨one, -, h⟩ := bind_inv h
      cases h
      exact endsPlain_digit one
  | processInput key =>
      obtain ⟨⟨output, t⟩, -, h⟩ := bind_inv h
      cases h
      exact endsPlain_output jsown output

end EndsPlain

/-- However the bytes of a response come in chunks, the client does not return after reading
just these. -/
theorem readLine_not_exact [Babel] (jsown : Jsown) {stateful : StatefulIme}
    {request : ServerRequest} {s s' : State} {response : ServerResponse}
    (h : handleRequest (stateful, request) s = some (response, s')) {chunks : List Chunk}
    (hchunks : bytesOf chunks = clientSendLine [] (response.text jsown)) :
    ¬ ∃ line, readLine chunks = some (line, []) := by
  intro hline
  obtain ⟨line, hline⟩ := hline
  have hlast := getLast?_bytesOf hline
  rw [hchunks, clientSendLine, writeFile, List.nil_append, Babel.stringToOctets_eq] at hlast
  exact (endsPlain_handleRequest jsown h).getLast?_ne hlast

/-- A string within quotation marks. -/
def quote (s : Str) : Str :=
  '"' :: s.flatMap (fun c =>
    if c = '\r' then "\\r".toList else if c = '\n' then "\\n".toList
    else if c = '"' || c = '\\' then ['\\', c] else [c]) ++ ['"']

/-- The texts of objects with one key, whose value is a string. -/
def committedJsown : Jsown where
  toJson
    | .object [(key, .string s)] => '{' :: (quote key ++ ':' :: quote s) ++ ['}']
    | .object _ => ['{', '}']
    | _ => []
  toJson_object := by
    intro entries
    split
    · rename_i heq
      cases heq
      exact List.getLast?_concat
    · rfl
    · rename_i heq
      exact absurd rfl (heq entries)

/-- The enter key on an empty buffer commits a line break, within quotation marks. -/
def enterChunk : Chunk :=
  ⟨utf8Octets "1 COMMITTED \x7b\"input\":\"\\r\\n\"\x7d".toList, by decide, by decide⟩

theorem readLine_not_exact_enter : ¬ ∃ line, readLine [enterChunk] = some (line, []) :=
  @readLine_not_exact _ committedJsown .echo (.processInput ⟨13, false⟩)
    ⟨.hiragana, .inputting {}, .empty⟩ ⟨.hiragana, .inputting {}, .empty⟩
    (.changed (.processed true (some (.committed crlf)))) rfl [enterChunk] (by decide)

/-- The name of the direct mode in one chunk. -/
def directChunk : Chunk := ⟨utf8Octets "DIRECT".toList, by decide, by decide⟩

/-- The client that asks for the input mode waits for more. -/
theorem not_readLine_exact : ¬ ∀ (jsown : Jsown) (stateful : StatefulIme)
    (request : ServerRequest) (s s' : State) (response : ServerResponse) (chunks : List Chunk),
    handleRequest (stateful, request) s = some (response, s') →
      bytesOf chunks = clientSendLine [] (response.text jsown) →
        ∃ line, readLine chunks = some (line, []) := by
  intro h
  obtain ⟨line, hline⟩ := h committedJsown .echo .getInputMode makeInitialState makeInitialState
    (.inputMode "DIRECT".toList) [directChunk] rfl (by decide)
  have hnone : readLine [directChunk] = none := by decide
  rw [hnone] at hline
  cases hline

end Hachee.Senn.Win
