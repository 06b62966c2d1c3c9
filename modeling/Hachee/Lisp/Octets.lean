import Hachee.Lisp.Text

/-!
# Strings as octets

A string is encoded in UTF-8, and octets that are not the encoding of a string have none.  The
library babel converts in both directions, and is a parameter (`Babel`).
-/

namespace Hachee.Lisp

/-- A vector of octets. -/
abbrev Octets := List UInt8

/-- The encoding of a string. -/
def utf8Octets (s : Str) : Octets := s.flatMap String.utf8EncodeChar

/-- The string that the octets are the encoding of. -/
def utf8String (octets : Octets) : Option Str :=
  octets.toByteArray.utf8Decode?.map Array.toList

/-- The library babel, with what is documented of its functions for the encoding UTF-8: octets
that are no encoding signal an error. -/
class Babel where
  stringToOctets : Str → Octets
  octetsToString : Octets → Option Str
  stringToOctets_eq : ∀ s, stringToOctets s = utf8Octets s
  octetsToString_eq : ∀ octets, octetsToString octets = utf8String octets

instance : Babel where
  stringToOctets := utf8Octets
  octetsToString := utf8String
  stringToOctets_eq _ := rfl
  octetsToString_eq _ := rfl

theorem utf8String_utf8Octets (s : Str) :
    utf8String (utf8Octets s) = some s := by
  have h : (utf8Octets s).toByteArray = s.utf8Encode := rfl
  rw [utf8String, h, List.utf8Decode?_utf8Encode]
  rfl

/-- A string is read from its own encoding only. -/
theorem utf8String_eq_some_iff {octets : Octets} {s : Str} :
    utf8String octets = some s ↔ octets = utf8Octets s := by
  constructor
  · intro h
    obtain ⟨chars, hchars, rfl⟩ := Option.map_eq_some_iff.mp h
    have hencode := @ByteArray.utf8Encode_get_utf8Decode? octets.toByteArray
      (by rw [hchars]; rfl)
    simp only [hchars, Option.get_some] at hencode
    have hdata := congrArg (fun bytes => bytes.data.toList) hencode
    simpa [utf8Octets, List.utf8Encode] using hdata.symm
  · intro h
    rw [h, utf8String_utf8Octets]

theorem utf8Octets_inj {s t : Str} : utf8Octets s = utf8Octets t ↔ s = t := by
  rw [← utf8String_eq_some_iff, utf8String_utf8Octets, Option.some_inj]

theorem utf8Octets_eq_nil_iff {s : Str} : utf8Octets s = [] ↔ s = [] := by
  cases s with
  | nil => simp [utf8Octets]
  | cons c s => simp [utf8Octets]

theorem utf8Octets_append (s t : Str) :
    utf8Octets (s ++ t) = utf8Octets s ++ utf8Octets t :=
  List.flatMap_append

/-- A character has at least one octet. -/
theorem length_le_length_utf8Octets (s : Str) : s.length ≤ (utf8Octets s).length := by
  induction s with
  | nil => exact Nat.zero_le _
  | cons c s ih =>
      have hpos := c.utf8Size_pos
      have hlength : (utf8Octets (c :: s)).length = c.utf8Size + (utf8Octets s).length := by
        simp [utf8Octets]
      rw [hlength, List.length_cons]
      omega

/-! ## Single octets -/

/-- A character of ASCII is one octet, and the octets of the others are no ASCII. -/
theorem toNat_of_mem_utf8EncodeChar {c : Char} {b : UInt8} (h : b ∈ String.utf8EncodeChar c) :
    (c.toNat < 128 ∧ b.toNat = c.toNat) ∨ (128 ≤ c.toNat ∧ 128 ≤ b.toNat) := by
  have hc : c.val.toNat = c.toNat := rfl
  simp only [String.utf8EncodeChar, hc] at h
  split at h
  next hle =>
    rw [List.mem_singleton] at h
    rw [h, UInt8.toNat_ofNat']
    omega
  next hlt =>
    refine .inr ⟨by omega, ?_⟩
    split at h
    next =>
      simp only [List.mem_cons, List.not_mem_nil, or_false] at h
      rcases h with rfl | rfl <;> rw [UInt8.toNat_ofNat'] <;> omega
    next =>
      split at h
      next =>
        simp only [List.mem_cons, List.not_mem_nil, or_false] at h
        rcases h with rfl | rfl | rfl <;> rw [UInt8.toNat_ofNat'] <;> omega
      next =>
        simp only [List.mem_cons, List.not_mem_nil, or_false] at h
        rcases h with rfl | rfl | rfl | rfl <;> rw [UInt8.toNat_ofNat'] <;> omega

theorem head?_utf8Octets_cons (c : Char) (s : Str) :
    (utf8Octets (c :: s)).head? = (String.utf8EncodeChar c).head? := by
  rw [utf8Octets, List.flatMap_cons,
    List.head?_append_of_ne_nil _ String.utf8EncodeChar_ne_nil]

/-- Only a character of ASCII has its octet. -/
theorem eq_of_mem_utf8EncodeChar {c d : Char} (hd : d.toNat < 128)
    (h : UInt8.ofNat d.toNat ∈ String.utf8EncodeChar c) : c = d := by
  have hoctet : (UInt8.ofNat d.toNat).toNat = d.toNat := by
    rw [UInt8.toNat_ofNat']
    omega
  refine Char.toNat_inj.mp ?_
  cases toNat_of_mem_utf8EncodeChar h with
  | inl h => rw [← h.2, hoctet]
  | inr h => omega

theorem utf8Octets_intercalate (sep : Str) (lines : List Str) :
    utf8Octets (sep.intercalate lines) =
      (utf8Octets sep).intercalate (lines.map utf8Octets) := by
  induction lines with
  | nil => rfl
  | cons line lines ih =>
      cases lines with
      | nil => simp
      | cons next lines =>
          rw [List.intercalate_cons_cons, utf8Octets_append, utf8Octets_append, ih]
          simp [List.intercalate_cons_cons]

/-- The lines of the octets are those of the text. -/
theorem splitOn_utf8Octets (text : Str) :
    (utf8Octets text).splitOn 10 = (text.splitOn '\n').map utf8Octets := by
  have hjoin : utf8Octets text =
      List.intercalate [10] ((text.splitOn '\n').map utf8Octets) := by
    have htext : List.intercalate ['\n'] (text.splitOn '\n') = text :=
      List.intercalate_splitOn '\n'
    conv_lhs => rw [← htext, utf8Octets_intercalate]
    rfl
  rw [hjoin, List.splitOn_intercalate]
  · intro line hline h
    obtain ⟨part, hpart, rfl⟩ := List.mem_map.mp hline
    obtain ⟨c, hc, hb⟩ := List.mem_flatMap.mp h
    have heq : c = '\n' := eq_of_mem_utf8EncodeChar (by decide) hb
    exact (of_mem_splitOn hpart).1 (heq ▸ hc)
  · simp [List.splitOn_ne_nil]

end Hachee.Lisp
