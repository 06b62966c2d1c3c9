import Hachee.Lisp.Octets

/-!
# Named pipes (`senn-ipc.named-pipe`)

A pipe carries bytes in each direction.  It is created with `+pipe-type-byte+`, so what is
written with one call is not kept together: the unread bytes are those of all the writes, one
after the other.

`ReadFile` of Windows delivers unread bytes from the front, at most as many as the buffer
has room for, and at least one if there are any.  How many it delivers is up to the system,
and is a parameter here.  With no unread bytes it delivers nothing: it waits, or it answers
a write of no bytes.
-/

namespace Hachee.Senn.Ipc.NamedPipe

open Lisp

/-- The size of the buffer of `read-file`. -/
def bufSize : Nat := 4096

/-- The numbers of bytes that `ReadFile` may deliver. -/
structure Delivers (size : Nat) (unread : Octets) (bytesRead : Nat) : Prop where
  le_size : bytesRead ≤ size
  le_length : bytesRead ≤ unread.length
  pos : unread ≠ [] → 0 < bytesRead

/-- `write-file` -/
def writeFile (unread octets : Octets) : Octets := unread ++ octets

/-- `read-file`: what it returns, and the bytes that are still unread. -/
def readFile (unread : Octets) (bytesRead : Nat) : Option Octets × Octets :=
  (if bytesRead = 0 then none else some (unread.take bytesRead), unread.drop bytesRead)

/-- `client-send-line`, the method of the server, on the bytes that the client has not read. -/
def clientSendLine [Babel] (unread : Octets) (resp : Str) : Octets :=
  writeFile unread (Babel.stringToOctets resp)

end Hachee.Senn.Ipc.NamedPipe
