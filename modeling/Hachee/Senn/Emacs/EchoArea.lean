import Hachee.Senn.Emacs.Commands

/-!
# The options in the echo area

The text of a page is given to `message` as the format string, without arguments.  The text
around the forms has no `%`.  So it can be shown if and only if each form can
(`messageSelect_iff`).
-/

namespace Hachee.Senn.Emacs

open Lisp (Str)

/-- A text that `message` shows: each `%` is written twice. -/
def Plain (string : Str) : Prop := ∃ text, formatString string = some text

section Plain

variable {char : Char} {string rest : Str}

@[simp] theorem plain_nil : Plain [] := ⟨[], rfl⟩

theorem plain_percent_percent : Plain ('%' :: '%' :: string) ↔ Plain string := by
  simp [Plain, formatString, Option.bind_eq_some_iff]

theorem plain_cons (h : char ≠ '%') : Plain (char :: string) ↔ Plain string := by
  rw [Plain, formatString.eq_4 _ _ (fun _ heq => absurd heq h) h]
  simp [Plain, Option.bind_eq_some_iff]

theorem not_plain_percent (h : ∀ string', string ≠ '%' :: string') : ¬Plain ('%' :: string) := by
  rw [Plain, formatString.eq_3 _ h]
  simp

/-- Two `%` do not meet over another character. -/
theorem plain_append_cons (h : char ≠ '%') :
    Plain (string ++ char :: rest) ↔ Plain string ∧ Plain rest := by
  fun_induction formatString string with
  | case1 => simp [plain_cons h]
  | case2 string ih => rw [List.cons_append, List.cons_append, plain_percent_percent,
      plain_percent_percent, ih]
  | case3 string hne =>
      have hleft : ¬Plain ('%' :: string) := not_plain_percent fun _ heq => hne _ heq
      have hright : ¬Plain ('%' :: (string ++ char :: rest)) := by
        refine not_plain_percent fun string' heq => ?_
        cases string with
        | nil => exact h (List.cons.inj heq).1
        | cons char' string => 
          exact hne _ (congrArg₂ List.cons (List.cons.inj heq).1 rfl)
      simp only [List.cons_append, hleft, hright, false_and]
  | case4 char' string hne hne' ih => 
      have hne'' : char' ≠ '%' := hne'
      rw [List.cons_append, plain_cons hne'', plain_cons hne'', ih]

/-- What follows the form in a message. -/
theorem originString_append (org : Option Origin) (string : Str) :
    ∃ tail, originString org ++ ' ' :: string = ' ' :: tail ∧ (Plain tail ↔ Plain string) := by
  rw [originString]
  split
  · rename_i pair hfind
    have hmem := List.mem_of_find?_eq_some hfind
    refine ⟨_, rfl, ?_⟩
    simp only [originStringAlist, List.mem_cons, List.not_mem_nil, or_false] at hmem
    obtain rfl | rfl | rfl := hmem
    · simp [plain_cons]
    · simp [plain_cons]
    · simp [plain_cons]
  · exact ⟨string, rfl, Iff.rfl⟩

theorem plain_optionMessage (option : SennOption) {selectorChar : Char} (h : selectorChar ≠ '%')
    (focusedp : Bool) : Plain (optionMessage option selectorChar focusedp ++ rest) ↔
      Plain option.form ∧ Plain rest := by
  obtain ⟨tail, htail, hplain⟩ := originString_append option.origin rest
  rw [optionMessage]
  cases focusedp with
  | true =>
      simp [plain_cons, plain_cons h, plain_append_cons, htail, hplain]
  | false =>
      simp [plain_cons, plain_cons h, plain_append_cons, htail, hplain]

theorem selectorChar_ne {i : Nat} {selectorChar : Char}
    (h : selectorChars[i]? = some selectorChar) : selectorChar ≠ '%' := by
  have hmem := List.mem_of_getElem? h
  rintro rfl
  exact absurd hmem (by decide)

/-- There is a selector character for each option of a page, and the text of the page is plain
if all forms are. -/
theorem mapM_messages (index : Int) (options : List SennOption) (n : Nat)
    (h : n + options.length ≤ optionOutputSize) :
    ∃ messages, ((options.zipIdx n).mapM fun (option, i) => do
        let selectorChar ← selectorChars[i]?
        some (optionMessage option selectorChar ((i : Int) = index))) = some messages ∧
      (Plain messages.flatten ↔ ∀ option ∈ options, Plain option.form) := by
  induction options generalizing n with
  | nil => exact ⟨[], rfl, by simp⟩
  | cons option options ih =>
      rw [List.length_cons] at h
      obtain ⟨messages, hmessages, hplain⟩ := ih (n + 1) (by omega)
      have hn : n < selectorChars.length := by
        show n < optionOutputSize
        omega
      have hchar : selectorChars[n]? = some selectorChars[n] := List.getElem?_eq_getElem hn
      refine ⟨optionMessage option selectorChars[n] ((n : Int) = index) :: messages, ?_, ?_⟩
      · rw [List.zipIdx_cons, List.mapM_cons, hmessages]
        simp only [hchar, Option.bind_eq_bind, Option.bind_some, Option.pure_def]
      · rw [List.flatten_cons, plain_optionMessage option (selectorChar_ne hchar), hplain,
          List.forall_mem_cons]

end Plain

/-- Every form on the page of an index is plain. -/
def ShownPlain (select : Select) (index : Int) : Prop :=
  ∀ selector, findSelector index select.selectors = some selector →
    ∀ option ∈ selector.options, Plain option.form

/-- The echo area shows a page of at most ten options if its forms are plain. -/
theorem messageSelect_iff {select : Select} {selector : Selector}
    (hfound : findSelector select.currOptionIdx select.selectors = some selector)
    (hsize : selector.options.length ≤ optionOutputSize) :
    (∃ message, messageSelect select = some message) ↔ ShownPlain select select.currOptionIdx := by
  have hnil : select.selectors ≠ [] := List.ne_nil_of_mem (List.mem_of_find?_eq_some hfound)
  obtain ⟨messages, hmessages, hplain⟩ :=
    mapM_messages (select.currOptionIdx - selector.region.1) selector.options 0 (by omega)
  have hminibuf : minibufString select = some (some messages.flatten) := by
    rw [minibufString, if_neg hnil, hfound, Option.bind_eq_bind, Option.bind_some,
      collectOptionMessages, hmessages]
    rfl
  have hshown : ShownPlain select select.currOptionIdx ↔ Plain messages.flatten := by
    rw [hplain, ShownPlain]
    simp [hfound]
  rw [hshown, messageSelect, hminibuf, Option.bind_eq_bind, Option.bind_some]
  simp [Plain, Option.map_eq_some_iff]

end Hachee.Senn.Emacs
