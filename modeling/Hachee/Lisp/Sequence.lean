import Mathlib.Data.List.Nodup
import Mathlib.Tactic.Common

/-!
# Sequences and hash tables of the source language

The programs modelled here are written in Common Lisp.  This module fixes how
its built-in data are read.

* A string is the list of its characters.  `(subseq s i j)` signals an error
  unless `i ≤ j ≤ (length s)`, so it returns an option.  `(elt s i)` and
  `(aref s i)` are `s[i]?`, and `none` is the signalled error.
* A hash table is the function that `gethash` computes.  `(setf gethash)` is
  `puthash`, and the empty table has no key.  Tables here are never traversed
  except where the order of the traversal is a parameter of the model.
* `(mod a n)` rounds towards minus infinity.  For a positive `n` this is `%`
  on integers.

An error signalled by the source is `none` throughout.
-/

namespace Hachee.Lisp

/-! ## Errors -/

section Errors

variable {α β : Type}

/-- What a conditional returns is returned by one of its branches. -/
theorem ite_inv {c : Prop} [Decidable c] {x y : Option α} {a : α}
    (h : (if c then x else y) = some a) : c ∧ x = some a ∨ ¬c ∧ y = some a := by
  by_cases hc : c
  · exact Or.inl ⟨hc, by rwa [if_pos hc] at h⟩
  · exact Or.inr ⟨hc, by rwa [if_neg hc] at h⟩

/-- What is returned after an intermediate result has one. -/
theorem bind_inv {x : Option α} {f : α → Option β} {b : β}
    (h : (do let a ← x; f a) = some b) : ∃ a, x = some a ∧ f a = some b :=
  Option.bind_eq_some_iff.mp h

/-- A value is returned and no error is signalled. -/
def Returns (x : Option α) : Prop := ∃ a, x = some a

namespace Returns

theorem pure (a : α) : Returns (some a) := ⟨a, rfl⟩

/-- Whichever branch is taken. -/
theorem ite {c : Prop} [Decidable c] {x y : Option α} (hx : c → Returns x) (hy : ¬c → Returns y) :
    Returns (if c then x else y) := by
  by_cases hc : c
  · rw [if_pos hc]
    exact hx hc
  · rw [if_neg hc]
    exact hy hc

/-- After a result that is there. -/
theorem bind {x : Option α} {f : α → Option β} (hx : Returns x)
    (hf : ∀ a, x = some a → Returns (f a)) : Returns (do let a ← x; f a) := by
  obtain ⟨a, ha⟩ := hx
  obtain ⟨b, hb⟩ := hf a ha
  exact ⟨b, by rw [ha]; exact hb⟩

end Returns

end Errors

/-! ## Conditionals -/

section Cond

variable {α : Type*}

/-- `cond`, where no clause computes more than a value: the value of the first
clause whose test is true, or `nil`. -/
def cond : List (Bool × α) → Option α
  | [] => none
  | (test, value) :: clauses => if test then some value else cond clauses

/-- A value is found when a test is true. -/
@[simp] theorem isSome_cond : ∀ clauses : List (Bool × α),
    (cond clauses).isSome = clauses.any Prod.fst
  | [] => rfl
  | (test, value) :: clauses => by
      cases test with
      | true => rfl
      | false => exact isSome_cond clauses

/-- Two clauses with one value are one clause. -/
theorem cond_merge (test test' : Bool) (value : α) (clauses : List (Bool × α)) :
    cond ((test, value) :: (test', value) :: clauses) =
      cond ((test || test', value) :: clauses) := by
  cases test with
  | true => rfl
  | false => rfl

end Cond

/-! ## Strings -/

/-- A string, as the sequence of its characters. -/
abbrev Str := List Char

section Subseq

variable {α : Type*}

/-- `(subseq s start stop)`. -/
def subseq (s : List α) (start stop : Nat) : Option (List α) :=
  if start ≤ stop ∧ stop ≤ s.length then some ((s.take stop).drop start) else none

theorem subseq_of_le {s : List α} {start stop : Nat} (h : start ≤ stop) (h' : stop ≤ s.length) :
    subseq s start stop = some ((s.take stop).drop start) :=
  if_pos ⟨h, h'⟩

/-- A prefix of a concatenation. -/
@[simp] theorem subseq_append_left (l r : List α) :
    subseq (l ++ r) 0 l.length = some l := by
  rw [subseq_of_le (Nat.zero_le _) (by simp)]
  simp

/-- The rest of a concatenation. -/
@[simp] theorem subseq_append_right (l r : List α) :
    subseq (l ++ r) l.length (l ++ r).length = some r := by
  rw [subseq_of_le (by simp) (Nat.le_refl _), List.take_length, List.drop_left]

/-- The last `d` elements of the left part of a concatenation. -/
theorem subseq_append_suffix (l r : List α) {d : Nat} (h : d ≤ l.length) :
    subseq (l ++ r) (l.length - d) l.length = some (l.drop (l.length - d)) := by
  rw [subseq_of_le (by omega) (by simp)]
  simp

/-- All but the last `d` elements of the left part of a concatenation. -/
theorem subseq_append_front (l r : List α) (d : Nat) :
    subseq (l ++ r) 0 (l.length - d) = some (l.take (l.length - d)) := by
  rw [subseq_of_le (Nat.zero_le _) (by rw [List.length_append]; omega)]
  simp [List.take_append_of_le_length (Nat.sub_le l.length d)]

/-- Everything before the position `i`. -/
theorem subseq_zero {s : List α} {i : Nat} (h : i ≤ s.length) : subseq s 0 i = some (s.take i) := by
  rw [subseq_of_le (Nat.zero_le i) h, List.drop_zero]

end Subseq

section MapM

variable {α β : Type*} {f : α → Option β}

/-- `mapcar` of a function that may signal an error. -/
theorem mapM_eq_some_iff : ∀ {xs : List α} {ys : List β},
    xs.mapM f = some ys ↔ xs.map f = ys.map some
  | [], ys => by cases ys <;> simp
  | x :: xs, ys => by
      rw [List.mapM_cons, List.map_cons]
      cases hx : f x with
      | none => cases ys <;> simp
      | some y =>
          simp only [Option.bind_eq_bind, Option.bind_some, Option.bind_eq_some_iff,
            Option.pure_def, Option.some.injEq, mapM_eq_some_iff]
          constructor
          · rintro ⟨zs, hzs, rfl⟩
            rw [hzs, List.map_cons]
          · cases ys with
            | nil => intro h; cases h
            | cons z zs =>
                intro h
                rw [List.map_cons, List.cons.injEq, Option.some.injEq] at h
                exact ⟨zs, h.2, by rw [h.1]⟩

theorem length_of_mapM_eq_some {xs : List α} {ys : List β} (h : xs.mapM f = some ys) :
    ys.length = xs.length := by
  have hlength := congrArg List.length (mapM_eq_some_iff.mp h)
  rw [List.length_map, List.length_map] at hlength
  exact hlength.symm

/-- It signals none when no call does. -/
theorem exists_mapM_eq_some : ∀ {xs : List α}, (∀ x ∈ xs, ∃ y, f x = some y) →
    ∃ ys, xs.mapM f = some ys
  | [], _ => ⟨[], rfl⟩
  | x :: xs, h => by
      obtain ⟨y, hy⟩ := h x (List.mem_cons_self ..)
      obtain ⟨ys, hys⟩ := exists_mapM_eq_some fun z hz => h z (List.mem_cons_of_mem _ hz)
      exact ⟨y :: ys, by simp [List.mapM_cons, hy, hys]⟩

/-- Every element has its value among the results. -/
theorem exists_of_mapM_eq_some {xs : List α} {ys : List β} (h : xs.mapM f = some ys) {x : α}
    (hx : x ∈ xs) : ∃ y ∈ ys, f x = some y := by
  have hmem : f x ∈ ys.map some := mapM_eq_some_iff.mp h ▸ List.mem_map_of_mem hx
  obtain ⟨y, hy, hfx⟩ := List.mem_map.mp hmem
  exact ⟨y, hy, hfx.symm⟩

/-- The results are the values of the elements. -/
theorem mem_iff_of_mapM_eq_some {xs : List α} {ys : List β} (h : xs.mapM f = some ys) {y : β} :
    y ∈ ys ↔ ∃ x ∈ xs, f x = some y := by
  constructor
  · intro hy
    have hmem : some y ∈ xs.map f := mapM_eq_some_iff.mp h ▸ List.mem_map_of_mem hy
    exact List.mem_map.mp hmem
  · intro hex
    obtain ⟨x, hx, hxy⟩ := hex
    obtain ⟨y', hy', hxy'⟩ := exists_of_mapM_eq_some h hx
    rw [hxy, Option.some.injEq] at hxy'
    rw [hxy']
    exact hy'

/-- As many results have a property as elements whose value has it. -/
theorem countP_of_mapM_eq_some {xs : List α} {ys : List β} (h : xs.mapM f = some ys)
    {p : α → Bool} {q : β → Bool} (hpq : ∀ x ∈ xs, ∀ y, f x = some y → (q y = true ↔ p x = true)) :
    ys.countP q = xs.countP p := by
  rw [mapM_eq_some_iff] at h
  induction xs generalizing ys with
  | nil =>
      rw [List.map_eq_nil_iff.mp h.symm]
      rfl
  | cons x xs ih =>
      cases ys with
      | nil => cases h
      | cons y ys =>
          rw [List.map_cons, List.map_cons, List.cons.injEq] at h
          rw [List.countP_cons, List.countP_cons,
            ih h.2 fun x' hx' => hpq x' (List.mem_cons_of_mem _ hx')]
          simp only [hpq x List.mem_cons_self y h.1]

/-- `mapcar` where the value of every element is known. -/
theorem mapM_of_forall {h : α → β} {xs : List α} (hf : ∀ x ∈ xs, f x = some (h x)) :
    xs.mapM f = some (xs.map h) := by
  rw [mapM_eq_some_iff, List.map_map]
  exact List.map_congr_left hf

/-- `mapcar` over a list of values that were made from others. -/
theorem mapM_map {γ : Type*} {g : γ → α} {h : γ → β} {xs : List γ}
    (hfg : ∀ x ∈ xs, f (g x) = some (h x)) : (xs.map g).mapM f = some (xs.map h) := by
  rw [mapM_eq_some_iff, List.map_map, List.map_map]
  exact List.map_congr_left hfg

/-- What undoes a function undoes it for a list. -/
theorem mapM_map_of_inverse {g : β → α} {xs : List β} (hfg : ∀ x ∈ xs, f (g x) = some x) :
    (xs.map g).mapM f = some xs := by
  have hmap := mapM_map (h := id) hfg
  rwa [List.map_id] at hmap

end MapM

/-- Whether all numbers of a list differ, by a program the kernel runs fast. -/
def distinct : List Nat → Bool
  | [] => true
  | n :: ns => ns.all (fun m => !(Nat.beq n m)) && distinct ns

theorem nodup_of_distinct : ∀ {ns : List Nat}, distinct ns = true → ns.Nodup
  | [], _ => List.nodup_nil
  | n :: ns, h => by
      simp only [distinct, Bool.and_eq_true, List.all_eq_true, Bool.not_eq_true'] at h
      refine List.nodup_cons.mpr ⟨fun hmem => ?_, nodup_of_distinct h.2⟩
      exact absurd (h.1 n hmem) (by simp [Nat.beq_refl])

/-! ## Hash tables -/

/-- A hash table, as the function `gethash` computes. -/
def HashTable (κ ν : Type*) := κ → Option ν

namespace HashTable

variable {κ ν : Type*} [DecidableEq κ]

/-- `(make-hash-table)`. -/
def empty : HashTable κ ν := fun _ => none

/-- `(gethash k table)`. -/
def gethash (table : HashTable κ ν) (k : κ) : Option ν := table k

/-- `(setf (gethash k table) v)`. -/
def puthash (table : HashTable κ ν) (k : κ) (v : ν) : HashTable κ ν :=
  fun k' => if k' = k then some v else table k'

omit [DecidableEq κ] in
@[simp] theorem gethash_empty (k : κ) : (empty : HashTable κ ν).gethash k = none := rfl

@[simp] theorem gethash_puthash_self (table : HashTable κ ν) (k : κ) (v : ν) :
    (table.puthash k v).gethash k = some v := if_pos rfl

theorem gethash_puthash_ne (table : HashTable κ ν) {k k' : κ} (v : ν) (h : k' ≠ k) :
    (table.puthash k v).gethash k' = table.gethash k' := if_neg h

theorem gethash_puthash (table : HashTable κ ν) (k k' : κ) (v : ν) :
    (table.puthash k v).gethash k' = if k' = k then some v else table.gethash k' := rfl

/-- The value of the last write to a key. -/
def lastWrite (k : κ) (writes : List (κ × ν)) : Option ν :=
  (writes.filter fun e => e.1 = k).getLast?.map Prod.snd

theorem lastWrite_concat (k k' : κ) (v : ν) (writes : List (κ × ν)) :
    lastWrite k' (writes ++ [(k, v)]) = if k' = k then some v else lastWrite k' writes := by
  by_cases h : k' = k
  · simp [lastWrite, List.filter_append, h]
  · simp [lastWrite, List.filter_append, h, Ne.symm h]

/-- A table that holds the last writes goes on to hold them. -/
theorem gethash_puthash_lastWrite {table : HashTable κ ν} {writes : List (κ × ν)}
    (h : ∀ k, table.gethash k = lastWrite k writes) (k : κ) (v : ν) (k' : κ) :
    (table.puthash k v).gethash k' = lastWrite k' (writes ++ [(k, v)]) := by
  rw [gethash_puthash, lastWrite_concat, ← h k']

/-- A table filled in a loop holds what it held before and what the loop put. -/
theorem gethash_foldl_puthash {ι : Type*} (key : ι → κ) (value : ι → ν) {k : κ} {v : ν} :
    ∀ (xs : List ι) (table : HashTable κ ν),
      (xs.foldl (fun t x => t.puthash (key x) (value x)) table).gethash k = some v →
        table.gethash k = some v ∨ ∃ x ∈ xs, key x = k ∧ value x = v
  | [], _, h => Or.inl h
  | x :: xs, table, h => by
      cases gethash_foldl_puthash key value xs _ h with
      | inr h' =>
          obtain ⟨y, hy, hky, hvy⟩ := h'
          exact Or.inr ⟨y, List.mem_cons_of_mem _ hy, hky, hvy⟩
      | inl h' =>
          by_cases hk : k = key x
          · subst hk
            rw [gethash_puthash_self, Option.some.injEq] at h'
            exact Or.inr ⟨x, List.mem_cons_self .., rfl, h'⟩
          · rw [gethash_puthash_ne table (value x) hk] at h'
            exact Or.inl h'

/-- A loop leaves the keys it does not put. -/
theorem gethash_foldl_puthash_of_notMem {ι : Type*} (key : ι → κ) (value : ι → ν) {k : κ} :
    ∀ (xs : List ι) (table : HashTable κ ν), k ∉ xs.map key →
      (xs.foldl (fun t x => t.puthash (key x) (value x)) table).gethash k = table.gethash k
  | [], _, _ => rfl
  | x :: xs, table, h => by
      rw [List.map_cons, List.mem_cons, not_or] at h
      rw [List.foldl_cons, gethash_foldl_puthash_of_notMem key value xs _ h.2,
        gethash_puthash_ne table (value x) h.1]

/-- A loop over distinct keys leaves all that it puts. -/
theorem gethash_foldl_puthash_of_mem {ι : Type*} (key : ι → κ) (value : ι → ν) {x : ι} :
    ∀ (xs : List ι) (table : HashTable κ ν), (xs.map key).Nodup → x ∈ xs →
      (xs.foldl (fun t x => t.puthash (key x) (value x)) table).gethash (key x) = some (value x)
  | [], _, _, h => by cases h
  | y :: xs, table, hnd, h => by
      rw [List.map_cons, List.nodup_cons] at hnd
      cases List.mem_cons.mp h with
      | inl h' =>
          subst h'
          rw [List.foldl_cons, gethash_foldl_puthash_of_notMem key value xs _ hnd.1,
            gethash_puthash_self]
      | inr h' => exact gethash_foldl_puthash_of_mem key value xs _ hnd.2 h'

/-- A table filled from pairs of distinct keys holds the pairs. -/
theorem gethash_foldl_puthash_iff {es : List (κ × ν)} (hnd : (es.map Prod.fst).Nodup) {k : κ}
    {v : ν} : (es.foldl (fun t e => t.puthash e.1 e.2) empty).gethash k = some v ↔ (k, v) ∈ es := by
  constructor
  · intro h
    cases gethash_foldl_puthash Prod.fst Prod.snd es empty h with
    | inl h => cases h
    | inr h =>
        obtain ⟨e, he, rfl, rfl⟩ := h
        exact he
  · exact gethash_foldl_puthash_of_mem Prod.fst Prod.snd es empty hnd

/-- `(push v (gethash k table))`. -/
def pushhash {α : Type*} (table : HashTable κ (List α)) (k : κ) (v : α) : HashTable κ (List α) :=
  table.puthash k (v :: (table.gethash k).getD [])

/-- A loop that pushes leaves the values of each key, the last one first. -/
theorem getD_foldl_pushhash {α : Type*} (k : κ) : ∀ (es : List (κ × α))
    (table : HashTable κ (List α)),
    ((es.foldl (fun t e => t.pushhash e.1 e.2) table).gethash k).getD [] =
      ((es.filter fun e => e.1 = k).map Prod.snd).reverse ++ (table.gethash k).getD []
  | [], table => rfl
  | e :: es, table => by
      rw [List.foldl_cons, getD_foldl_pushhash k es, pushhash, gethash_puthash]
      by_cases h : k = e.1
      · rw [if_pos h, List.filter_cons_of_pos (by simpa using h.symm), List.map_cons,
          List.reverse_cons, List.append_assoc, h]
        rfl
      · rw [if_neg h, List.filter_cons_of_neg (by simpa using Ne.symm h)]

end HashTable

end Hachee.Lisp
