import Hachee.Foundation.Fields
import Hachee.Foundation.FirstOccurrence
import Hachee.Lisp.Octets
import Hachee.Senn.Ipc.Socket

/-!
# The two readers of the user dictionary

The user dictionary is a text file with a form and a pronunciation on each line.  One engine
reads it in Lisp, with `cl-ppcre:split` and `destructuring-bind` (`readUserDict`).  The other
one has it read by a library in C++, from streams (`userDictLoad`), and fetches the entries
through `cffi` (`readFile`).

The reader in Lisp signals an error on a line that has not exactly two fields.  The library
takes the first two words of a line, and keeps the first entry of each form only.  On files
whose lines have two fields, its entries are those of the reader in Lisp without the later
ones of a form (`readFile_eq`).

The library works on octets.  It takes a vertical tab for a blank, which `\s` of `cl-ppcre`
does not match, and the strings it hands out end at a zero.  `cffi` has them read by babel.
-/

namespace Hachee.Senn.KkcEngine.UserDict

open Lisp Foundation
open Ipc.Socket (Bytes isspace newline)

structure Entry where
  form : Str
  pron : Str
deriving DecidableEq, Repr

/-! ## The reader in Lisp -/

/-- A turn of the loop of `read-user-dict`. -/
def pushLine [ClPpcre] (entries : List Entry) (line : Str) : Option (List Entry) :=
  if line = [] ∨ line.head? = some '#' then some entries
  else
    match ClPpcre.split .space line with
    | [form, pron] =>
        if form ≠ [] ∧ pron ≠ [] then some (⟨form, pron⟩ :: entries) else some entries
    | _ => none

/-- `read-user-dict`, for a file with these octets. -/
def readUserDict [ClPpcre] (content : Octets) : Option (List Entry) := do
  let text ← utf8String content
  let entries ← (readLines text).foldlM pushLine []
  some entries.reverse

/-! ## The library in C++ -/

/-- The vector and the set of `user_dict_load`. -/
structure Loaded where
  entries : List (Bytes × Bytes)
  addedForms : List Bytes

/-- The lines that a loop over `std::getline` meets. -/
def getlines (content : Bytes) : List Bytes :=
  let parts := content.splitOn newline
  if parts.getLast? = some [] then parts.dropLast else parts

/-- A turn of the loop of `user_dict_load`. -/
def loadLine (loaded : Loaded) (line : Bytes) : Loaded :=
  if line = [] then loaded
  else if line.head? = some 35 then loaded
  else
    let (form, rest) := Fields.extract isspace line
    let (pron, _) := Fields.extract isspace rest
    if form = [] ∨ pron = [] then loaded
    else if form ∈ loaded.addedForms then loaded
    else ⟨loaded.entries ++ [(form, pron)], form :: loaded.addedForms⟩

/-- `user_dict_load` -/
def userDictLoad (content : Bytes) : List (Bytes × Bytes) :=
  ((getlines content).foldl loadLine ⟨[], []⟩).entries

/-- `c_str`, as it is read. -/
def cStr (s : Bytes) : Bytes := s.takeWhile (· ≠ 0)

/-- `read-file-internal`, with `user_dict_entry`, `entry_form` and `entry_pron`. -/
def readFile [Babel] (content : Octets) : Option (List Entry) :=
  (userDictLoad content).mapM fun entry => do
    let form ← Babel.octetsToString (cStr entry.1)
    let pron ← Babel.octetsToString (cStr entry.2)
    some ⟨form, pron⟩

/-! ## A line -/

theorem split_space [ClPpcre] (line : Str) :
    ClPpcre.split .space line = Fields.split isBlank line :=
  ClPpcre.split_eq .space line

/-- A line that both readers skip, or a line with two fields, without zeros and vertical
tabs. -/
def Regular (line : Str) : Prop :=
  line = [] ∨ line.head? = some '#' ∨
    (Fields.split isBlank line).length = 2 ∧ ∀ c ∈ line, c.toNat ≠ 0 ∧ c.toNat ≠ 11

instance (line : Str) : Decidable (Regular line) :=
  decidable_of_iff (line = [] ∨ line.head? = some '#' ∨ (Fields.split isBlank line).length = 2 ∧
      (line.all fun c => c.toNat ≠ 0 ∧ c.toNat ≠ 11) = true)
    (by simp [Regular])

/-- What the loop of `user_dict_load` does with an entry. -/
def Loaded.add (loaded : Loaded) (e : Entry) : Loaded :=
  if utf8Octets e.form ∈ loaded.addedForms then loaded
  else
    ⟨loaded.entries ++ [(utf8Octets e.form, utf8Octets e.pron)],
      utf8Octets e.form :: loaded.addedForms⟩

section Line

variable {line first second blanks : Str} {c : Char}

/-- But for the vertical tab, the two readers have the same blanks. -/
theorem isspace_eq_isBlank {b : UInt8} (hb : b ∈ String.utf8EncodeChar c) (hc : c.toNat ≠ 11) :
    isspace b = isBlank c := by
  have hspace : isspace b = true ↔ b.toNat = 32 ∨ 9 ≤ b.toNat ∧ b.toNat ≤ 13 := by
    simp [isspace, ← UInt8.toNat_inj, UInt8.le_iff_toNat_le]
  have hblank : isBlank c = true ↔ c.toNat = 32 ∨ c.toNat = 9 ∨ c.toNat = 10 ∨ c.toNat = 13 ∨
      c.toNat = 12 := by
    simp [isBlank, ← Char.toNat_inj, or_assoc]
  rw [Bool.eq_iff_iff, hspace, hblank]
  have hoctet := toNat_of_mem_utf8EncodeChar hb
  omega

theorem isspace_of_isBlank {s : Str} {blank : Bool} (h : ∀ c ∈ s, isBlank c = blank)
    (htab : ∀ c ∈ s, c.toNat ≠ 11) : ∀ b ∈ utf8Octets s, isspace b = blank := by
  intro b hb
  obtain ⟨c, hc, hb⟩ := List.mem_flatMap.mp hb
  rw [isspace_eq_isBlank hb (htab c hc), h c hc]

/-- A word between blanks, in octets. -/
theorem extract_utf8Octets {before word after : Str} (hbefore : ∀ x ∈ before, isBlank x = true)
    (hword : ∀ x ∈ word, isBlank x = false) (hne : word ≠ [])
    (hafter : ∀ x ∈ after.head?, isBlank x = true)
    (htab : ∀ x ∈ before ++ word ++ after, x.toNat ≠ 11) :
    Fields.extract isspace (utf8Octets (before ++ word ++ after)) =
      (utf8Octets word, utf8Octets after) := by
  simp only [List.forall_mem_append] at htab
  obtain ⟨⟨htabBefore, htabWord⟩, htabAfter⟩ := htab
  have hafter' : ∀ b ∈ (utf8Octets after).head?, isspace b = true := by
    cases after with
    | nil => exact fun b hb => by cases hb
    | cons x after =>
        intro b hb
        rw [head?_utf8Octets_cons] at hb
        rw [isspace_eq_isBlank (List.mem_of_mem_head? hb) (htabAfter x (List.mem_cons_self ..))]
        exact hafter x rfl
  rw [utf8Octets_append, utf8Octets_append]
  exact Fields.extract_append (isspace_of_isBlank hbefore htabBefore)
    (isspace_of_isBlank hword htabWord) (utf8Octets_eq_nil_iff.not.mpr hne) hafter'

/-- The sign of a comment is one octet. -/
theorem head?_utf8Octets_eq_iff :
    (utf8Octets line).head? = some 35 ↔ line.head? = some '#' := by
  cases line with
  | nil => simp [utf8Octets]
  | cons x line =>
      rw [head?_utf8Octets_cons, List.head?_cons, Option.some_inj]
      constructor
      · exact fun h => eq_of_mem_utf8EncodeChar (by decide) (List.mem_of_mem_head? h)
      · intro h
        subst h
        decide

/-- The library reads the two fields.  With an empty first field it finds one word only. -/
theorem loadLine_fields (hfirst : ∀ x ∈ first, isBlank x = false)
    (hsecond : ∀ x ∈ second, isBlank x = false) (hne : second ≠ []) (hc : isBlank c = true)
    (hblanks : ∀ x ∈ blanks, isBlank x = true)
    (htab : ∀ x ∈ first ++ c :: (second ++ blanks), x.toNat ≠ 11)
    (hcomment : (first ++ c :: (second ++ blanks)).head? ≠ some '#') (loaded : Loaded) :
    loadLine loaded (utf8Octets (first ++ c :: (second ++ blanks))) =
      if first = [] then loaded else loaded.add ⟨first, second⟩ := by
  have htab' := List.forall_mem_append.mp htab
  have htabBlanks : ∀ x ∈ blanks, x.toNat ≠ 11 := fun x hx => htab'.2 x (by simp [hx])
  have hextract : Fields.extract isspace (utf8Octets (c :: (second ++ blanks))) =
      (utf8Octets second, utf8Octets blanks) :=
    @extract_utf8Octets [c] second blanks (by simpa using hc) hsecond hne
      (fun x hx => hblanks x (List.mem_of_mem_head? hx)) htab'.2
  rw [loadLine, if_neg (by rw [utf8Octets_eq_nil_iff]; simp),
    if_neg (by rwa [head?_utf8Octets_eq_iff])]
  by_cases hnil : first = []
  · subst hnil
    simp [hextract, Fields.extract_blanks (isspace_of_isBlank hblanks htabBlanks)]
  · have hextractFirst :
        Fields.extract isspace (utf8Octets (first ++ c :: (second ++ blanks))) =
          (utf8Octets first, utf8Octets (c :: (second ++ blanks))) :=
      @extract_utf8Octets [] first _ (by simp) hfirst hnil (by simpa using hc) htab
    simp [hextractFirst, hextract, utf8Octets_eq_nil_iff, hne, hnil, Loaded.add]

end Line

/-! ## All lines -/

/-- An entry as the library keeps it. -/
def octetsOf (e : Entry) : Bytes × Bytes := (utf8Octets e.form, utf8Octets e.pron)

/-- The library has the first entry of each form that the reader in Lisp has pushed. -/
structure Matches (pushed : List Entry) (loaded : Loaded) : Prop where
  entries : loaded.entries = (FirstOccurrence.firstBy Entry.form pushed.reverse).map octetsOf
  addedForms : ∀ form, utf8Octets form ∈ loaded.addedForms ↔ ∃ e ∈ pushed, e.form = form
  zeros : ∀ e ∈ pushed, ∀ c ∈ e.form ++ e.pron, c.toNat ≠ 0

section Lines

variable {entries : List Entry} {loaded : Loaded} {line : Str}

theorem Matches.add (h : Matches entries loaded) {e : Entry}
    (he : ∀ c ∈ e.form ++ e.pron, c.toNat ≠ 0) : Matches (e :: entries) (loaded.add e) where
  entries := by
    have hmem : (∃ e' ∈ entries.reverse, e'.form = e.form) ↔
        utf8Octets e.form ∈ loaded.addedForms := by
      rw [h.addedForms]
      simp only [List.mem_reverse]
    rw [List.reverse_cons, FirstOccurrence.firstBy_concat, if_congr hmem rfl rfl, Loaded.add]
    split
    next => exact h.entries
    next => rw [List.map_append, ← h.entries]; rfl
  addedForms := by
    intro form
    have hold := h.addedForms form
    rw [List.exists_mem_cons_iff, Loaded.add]
    split
    next hin =>
      rw [hold]
      refine ⟨.inr, fun hform => ?_⟩
      cases hform with
      | inl hform => exact (h.addedForms form).mp (hform ▸ hin)
      | inr hform => exact hform
    next => rw [List.mem_cons, hold, utf8Octets_inj, eq_comm]
  zeros := by
    rw [List.forall_mem_cons]
    exact ⟨he, h.zeros⟩

/-- A line is read alike. -/
theorem Matches.pushLine [ClPpcre] (h : Matches entries loaded) (hline : Regular line) :
    ∃ entries', UserDict.pushLine entries line = some entries' ∧
      Matches entries' (loadLine loaded (utf8Octets line)) := by
  by_cases hskip : line = [] ∨ line.head? = some '#'
  · refine ⟨entries, if_pos hskip, ?_⟩
    have hload : loadLine loaded (utf8Octets line) = loaded := by
      cases hskip with
      | inl hnil => rw [loadLine, if_pos (utf8Octets_eq_nil_iff.mpr hnil)]
      | inr hcomment =>
          have hhead := head?_utf8Octets_eq_iff.mpr hcomment
          rw [loadLine, if_neg (fun hnil => by simp [hnil] at hhead), if_pos hhead]
    rwa [hload]
  · rw [not_or] at hskip
    obtain hnil | hcomment | ⟨hlength, hclean⟩ := hline
    · exact absurd hnil hskip.1
    · exact absurd hcomment hskip.2
    obtain ⟨first, second, hsplit⟩ := List.length_eq_two.mp hlength
    obtain ⟨hne, hfirst, hsecond, c, blanks, hc, hblanks, rfl⟩ := Fields.split_eq_pair hsplit
    have hload := loadLine_fields hfirst hsecond hne hc hblanks (fun x hx => (hclean x hx).2)
      hskip.2 loaded
    rw [UserDict.pushLine, if_neg (not_or.mpr hskip), split_space, hsplit]
    by_cases hnil : first = []
    · exact ⟨entries, by simp [hnil], by rwa [hload, if_pos hnil]⟩
    · refine ⟨⟨first, second⟩ :: entries, by simp [hnil, hne], ?_⟩
      rw [hload, if_neg hnil]
      refine h.add fun x hx => (hclean x ?_).1
      rw [List.mem_append] at hx
      simp only [List.mem_append, List.mem_cons]
      cases hx with
      | inl hx => exact .inl hx
      | inr hx => exact .inr (.inr (.inl hx))

theorem Matches.foldlM [ClPpcre] (h : Matches entries loaded) {lines : List Str}
    (hlines : ∀ line ∈ lines, Regular line) :
    ∃ entries', lines.foldlM UserDict.pushLine entries = some entries' ∧
      Matches entries' ((lines.map utf8Octets).foldl loadLine loaded) := by
  induction lines generalizing entries loaded with
  | nil => exact ⟨entries, rfl, h⟩
  | cons line lines ih =>
      rw [List.forall_mem_cons] at hlines
      obtain ⟨entries', hpush, h'⟩ := h.pushLine hlines.1
      obtain ⟨entries'', hloop, h''⟩ := ih h' hlines.2
      exact ⟨entries'', by rw [List.foldlM_cons, hpush]; exact hloop, h''⟩

/-- The library meets the same lines. -/
theorem getlines_utf8Octets (text : Str) :
    getlines (utf8Octets text) = (readLines text).map utf8Octets := by
  have hsplit : (utf8Octets text).splitOn newline = (text.splitOn '\n').map utf8Octets :=
    splitOn_utf8Octets text
  have hlast : ((text.splitOn '\n').map utf8Octets).getLast? = some [] ↔
      (text.splitOn '\n').getLast? = some [] := by
    rw [List.getLast?_map]
    simp [utf8Octets_eq_nil_iff]
  rw [getlines, readLines]
  simp only [hsplit, hlast]
  split
  next => rw [List.map_dropLast]
  next => rfl

end Lines

/-- A string without zeros is handed out whole. -/
theorem utf8String_cStr {s : Str} (h : ∀ c ∈ s, c.toNat ≠ 0) :
    utf8String (cStr (utf8Octets s)) = some s := by
  have hzero : ∀ b ∈ utf8Octets s, b ≠ 0 := by
    intro b hb hzero
    obtain ⟨c, hc, hb⟩ := List.mem_flatMap.mp hb
    have hoctet := toNat_of_mem_utf8EncodeChar hb
    rw [hzero] at hoctet
    have hne := h c hc
    simp at hoctet
    omega
  rw [cStr, List.takeWhile_eq_self_iff.mpr (by simpa using hzero), utf8String_utf8Octets]

/-- On a file whose lines are all regular, the reader in Lisp signals no error, and the entries
of the library are the first ones of each form.  They are all of them exactly if no form is
repeated. -/
theorem readFile_eq [ClPpcre] [Babel] {content : Octets} {text : Str}
    (htext : utf8String content = some text) (hlines : ∀ line ∈ readLines text, Regular line) :
    ∃ entries, readUserDict content = some entries ∧
      readFile content = some (FirstOccurrence.firstBy Entry.form entries) ∧
      (readFile content = some entries ↔ (entries.map Entry.form).Nodup) := by
  have hstart : Matches [] ⟨[], []⟩ := ⟨rfl, by simp, by simp⟩
  obtain ⟨entries, hloop, hmatches⟩ := hstart.foldlM hlines
  have hread : readUserDict content = some entries.reverse := by
    rw [readUserDict, htext]
    simp [hloop]
  have hload : userDictLoad content =
      (FirstOccurrence.firstBy Entry.form entries.reverse).map octetsOf := by
    rw [userDictLoad, utf8String_eq_some_iff.mp htext, getlines_utf8Octets,
      hmatches.entries]
  have hfile : readFile content = some (FirstOccurrence.firstBy Entry.form entries.reverse) := by
    rw [readFile, hload, mapM_eq_some_iff, List.map_map]
    refine List.map_congr_left fun e he => ?_
    have hzeros := hmatches.zeros e
      (List.mem_reverse.mp ((FirstOccurrence.firstBy_sublist entries.reverse).subset he))
    rw [List.forall_mem_append] at hzeros
    simp [octetsOf, Babel.octetsToString_eq, utf8String_cStr hzeros.1,
      utf8String_cStr hzeros.2]
  refine ⟨entries.reverse, hread, hfile, ?_⟩
  rw [hfile, Option.some_inj, FirstOccurrence.firstBy_eq_self_iff]

/-- A comment, an empty line, an entry and a repeated form. -/
theorem readFile_eq_words :
    ∃ entries, readUserDict (utf8Octets "#\n\na b\na c\n".toList) = some entries ∧
      readFile (utf8Octets "#\n\na b\na c\n".toList) =
        some (FirstOccurrence.firstBy Entry.form entries) ∧
      (readFile (utf8Octets "#\n\na b\na c\n".toList) = some entries ↔
        (entries.map Entry.form).Nodup) :=
  readFile_eq (utf8String_utf8Octets _) (by decide)

/-- The library leaves out the second entry of a form. -/
theorem not_readFile_eq : ¬ ∀ content : Octets,
    ∃ entries, readUserDict content = some entries ∧ readFile content = some entries := by
  intro h
  obtain ⟨entries, hread, hfile⟩ := h (utf8Octets "a b\na c\n".toList)
  have htwo : (readLines "a b\na c\n".toList).foldlM pushLine [] =
      some [⟨['a'], ['c']⟩, ⟨['a'], ['b']⟩] := by decide
  rw [readUserDict, utf8String_utf8Octets, Option.bind_eq_bind, Option.bind_some,
    htwo] at hread
  have hone : (userDictLoad (utf8Octets "a b\na c\n".toList)).length = 1 := by decide
  have hlength := length_of_mapM_eq_some hfile
  rw [hone, ← Option.some.inj hread] at hlength
  cases hlength

end Hachee.Senn.KkcEngine.UserDict
