import Hachee.Senn.Ipc.Socket

/-!
# Reading a line from a socket of Windows (`ConnectionTCP::ReadLine`)

The loop calls `recv`, appends what came and ends when the last byte is a line break or
`recv` has failed.  When the peer has closed the connection, `recv` answers 0 each time.
That is no failure to the loop, which then compares the byte *before* its buffer with a line
break.  What is there is not for the program to say, so it is arbitrary here (`outside`).

So an orderly shutdown is never reported.  `ReadLine` does what it should exactly if a chunk
ends with a line break (`readLine_returns_iff`).
-/

namespace Hachee.Senn.Win.ConnectionTCP

open Lisp (ite_inv)
open Ipc.Socket (Bytes Chunk bytesOf newline)

/-- What a call of `recv` answers: bytes, 0 or a negative number. -/
inductive Recv where
  | data (chunk : Chunk)
  | closed
  | failed

/-- The loop of `ReadLine`, given the answers to the calls of `recv` and the byte before the
buffer at each of them.  Its result after at most so many calls, and nothing while it has
none. -/
def readLineFrom (recv : Nat → Recv) (outside : Nat → UInt8) :
    Nat → Nat → Bytes → Option (Bool × Bytes)
  | 0, _, _ => none
  | calls + 1, k, output =>
      match recv k with
      | .failed => some (false, output)
      | .closed =>
          -- Nothing is appended, and `buf[bytes_read - 1]` is outside the buffer.
          if outside k = newline then some (true, output)
          else readLineFrom recv outside calls (k + 1) output
      | .data chunk =>
          if chunk.endsLine then some (true, output ++ chunk.bytes)
          else readLineFrom recv outside calls (k + 1) (output ++ chunk.bytes)

/-- `ConnectionTCP::ReadLine` with an empty string. -/
def readLine (recv : Nat → Recv) (outside : Nat → UInt8) (calls : Nat) : Option (Bool × Bytes) :=
  readLineFrom recv outside calls 0 []

/-- The answers of `recv` when the peer sends these chunks and closes the connection. -/
def delivered (chunks : List Chunk) (k : Nat) : Recv :=
  match chunks[k]? with
  | some chunk => .data chunk
  | none => .closed

section

variable {recv : Nat → Recv} {outside : Nat → UInt8}

/-- Chunks that do not end a line are appended. -/
theorem readLineFrom_append (calls : Nat) (before : List Chunk) {k : Nat} {output : Bytes}
    (hrecv : ∀ (i : Nat) chunk, before[i]? = some chunk → recv (k + i) = .data chunk)
    (hends : ∀ chunk ∈ before, chunk.endsLine = false) :
    readLineFrom recv outside (before.length + calls) k output =
      readLineFrom recv outside calls (k + before.length) (output ++ bytesOf before) := by
  induction before generalizing k output with
  | nil => rw [List.length_nil, Nat.zero_add, Nat.add_zero, bytesOf, List.flatMap_nil,
      List.append_nil]
  | cons chunk before ih =>
      have hfirst : recv k = .data chunk := hrecv 0 chunk rfl
      have hrest : ∀ (i : Nat) c, before[i]? = some c → recv (k + 1 + i) = .data c := by
        intro i c hc
        rw [Nat.add_assoc, Nat.add_comm 1 i]
        exact hrecv (i + 1) c hc
      have hchunk := hends chunk List.mem_cons_self
      rw [List.length_cons, Nat.add_right_comm, readLineFrom, hfirst]
      simp only [hchunk, Bool.false_eq_true, if_false]
      rw [ih hrest fun c hc => hends c (List.mem_cons_of_mem _ hc), bytesOf, bytesOf,
        List.flatMap_cons, List.append_assoc, Nat.add_assoc, Nat.add_comm 1]

/-- The answer is no failure and no chunk that ends a line. -/
def Quiet (answer : Recv) : Prop :=
  answer = .closed ∨ ∃ chunk, answer = .data chunk ∧ chunk.endsLine = false

/-- While nothing else comes, the loop does not return false, and it returns only if it finds
a line break outside the buffer. -/
theorem readLineFrom_quiet {calls k : Nat} {output : Bytes} {returned : Bool × Bytes}
    (hrecv : ∀ i, k ≤ i → Quiet (recv i))
    (h : readLineFrom recv outside calls k output = some returned) :
    returned.1 = true ∧ ∃ i, outside i = newline := by
  induction calls generalizing k output with
  | zero => cases h
  | succ calls ih =>
      have hrest : ∀ i, k + 1 ≤ i → Quiet (recv i) := fun i hi => hrecv i (by omega)
      rw [readLineFrom] at h
      rcases hrecv k (Nat.le_refl k) with hclosed | ⟨chunk, hdata, hends⟩
      · rw [hclosed] at h
        rcases ite_inv h with ⟨houtside, h⟩ | ⟨-, h⟩
        · cases h
          exact ⟨rfl, k, houtside⟩
        · exact ih hrest h
      · rw [hdata] at h
        simp only [hends, Bool.false_eq_true, if_false] at h
        exact ih hrest h

end

/-- What `ReadLine` should do with these chunks.  It returns true at the first of them that
ends with a line break, and if there is none it returns false. -/
def Returns (outside : Nat → UInt8) (chunks : List Chunk) : Prop :=
  (∀ before last after, chunks = before ++ last :: after →
    (∀ chunk ∈ before, chunk.endsLine = false) → last.endsLine = true →
      readLine (delivered chunks) outside before.length = none ∧
      readLine (delivered chunks) outside (before.length + 1) =
        some (true, bytesOf (before ++ [last]))) ∧
  ((∀ chunk ∈ chunks, chunk.endsLine = false) →
    ∃ calls output, readLine (delivered chunks) outside calls = some (false, output))

theorem delivered_append {before after : List Chunk} {i : Nat} {chunk : Chunk}
    (h : before[i]? = some chunk) : delivered (before ++ after) (0 + i) = .data chunk := by
  rw [Nat.zero_add, delivered, List.getElem?_append_left (List.getElem?_eq_some_iff.mp h).1, h]

/-- The first chunk that ends a line ends the loop. -/
theorem readLine_of_endsLine (outside : Nat → UInt8) {before after : List Chunk} {last : Chunk}
    (hbefore : ∀ chunk ∈ before, chunk.endsLine = false) (hlast : last.endsLine = true) :
    readLine (delivered (before ++ last :: after)) outside before.length = none ∧
      readLine (delivered (before ++ last :: after)) outside (before.length + 1) =
        some (true, bytesOf (before ++ [last])) := by
  have happend := fun calls =>
    @readLineFrom_append (delivered (before ++ last :: after)) outside calls before 0 []
      (fun i chunk hchunk => delivered_append hchunk) hbefore
  have hrecv : delivered (before ++ last :: after) (0 + before.length) = .data last := by
    rw [Nat.zero_add, delivered, List.getElem?_append_right (Nat.le_refl _), Nat.sub_self]
    rfl
  constructor
  · exact happend 0
  · rw [readLine, happend 1, readLineFrom, hrecv]
    simp [hlast, bytesOf]

/-- Without such a chunk there is never anything else. -/
theorem quiet_delivered {chunks : List Chunk} (h : ∀ chunk ∈ chunks, chunk.endsLine = false)
    (k : Nat) : Quiet (delivered chunks k) := by
  unfold delivered
  cases hchunk : chunks[k]? with
  | none => exact .inl rfl
  | some chunk => exact .inr ⟨chunk, rfl, h chunk (List.mem_of_getElem? hchunk)⟩

/-- `ReadLine` does what it should exactly if one of the chunks ends with a line break. -/
theorem readLine_returns_iff (outside : Nat → UInt8) (chunks : List Chunk) :
    Returns outside chunks ↔ ∃ chunk ∈ chunks, chunk.endsLine = true := by
  constructor
  · intro hreturns
    by_contra hnone
    have hends : ∀ chunk ∈ chunks, chunk.endsLine = false := fun chunk hchunk =>
      Bool.eq_false_iff.mpr fun h => hnone ⟨chunk, hchunk, h⟩
    obtain ⟨calls, output, hfalse⟩ := hreturns.2 hends
    have htrue := (readLineFrom_quiet (fun k _ => quiet_delivered hends k) hfalse).1
    cases htrue
  · rintro ⟨chunk, hchunk, hends⟩
    refine ⟨fun before last after heq hbefore hlast => ?_, fun h => ?_⟩
    · rw [heq]
      exact readLine_of_endsLine outside hbefore hlast
    · rw [h chunk hchunk] at hends
      cases hends

/-- The peer closes the connection before it sends anything, and the byte before the buffer
is 0.  Then the loop goes on for ever. -/
theorem not_readLine_returns :
    (∀ calls, readLine (delivered []) (fun _ => 0) calls = none) ∧
      ¬∀ (outside : Nat → UInt8) (chunks : List Chunk), Returns outside chunks := by
  have hnone : ∀ calls, readLine (delivered []) (fun _ => 0) calls = none := by
    intro calls
    cases h : readLine (delivered []) (fun _ => 0) calls with
    | none => rfl
    | some returned =>
        obtain ⟨-, k, hk⟩ :=
          readLineFrom_quiet (fun k _ => quiet_delivered (by simp) k) h
        exact absurd hk (by decide)
  refine ⟨hnone, fun h => ?_⟩
  obtain ⟨calls, output, hfalse⟩ := (h (fun _ => 0) []).2 (by simp)
  rw [hnone] at hfalse
  cases hfalse

end Hachee.Senn.Win.ConnectionTCP
