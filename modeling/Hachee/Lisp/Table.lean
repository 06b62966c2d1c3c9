import Mathlib.Data.List.Induction
import Mathlib.Data.List.Nodup
import Mathlib.Data.List.Count
import Mathlib.Data.List.Sort
import Mathlib.Tactic.Common

/-!
# Hash tables that are traversed

`Lisp.HashTable` is enough for a table that is only asked for its keys.  A table
that the source also walks through (`maphash`, `hash-table-keys`) is the list of
its entries, no two of them under one key.

The order in which a walk meets the entries is left open by the language.  A walk
by `maphash` takes it as a parameter (`WalkOrder`).  What the library alexandria does between
tables and association lists is a parameter too (`Alexandria`).
-/

namespace Hachee.Lisp

/-- A hash table with its entries. -/
structure Table (κ ν : Type*) where
  entries : List (κ × ν)
  nodup : (entries.map Prod.fst).Nodup

namespace Table

variable {κ ν : Type*} [DecidableEq κ]

omit [DecidableEq κ] in
@[ext] theorem ext {t t' : Table κ ν} (h : t.entries = t'.entries) : t = t' := by
  cases t
  cases t'
  cases h
  rfl

/-- `(make-hash-table)`. -/
def empty : Table κ ν := ⟨[], List.nodup_nil⟩

/-- `(hash-table-keys table)`. -/
def keys (t : Table κ ν) : List κ := t.entries.map Prod.fst

/-- `(gethash k table)`. -/
def gethash (t : Table κ ν) (k : κ) : Option ν := t.entries.lookup k

/-- The entries after `(setf (gethash k table) v)`. -/
def putEntry (k : κ) (v : ν) : List (κ × ν) → List (κ × ν)
  | [] => [(k, v)]
  | e :: es => if e.1 = k then (k, v) :: es else e :: putEntry k v es

theorem fst_mem_putEntry {k k' : κ} {v : ν} : ∀ {es : List (κ × ν)},
    k' ∈ (putEntry k v es).map Prod.fst ↔ k' = k ∨ k' ∈ es.map Prod.fst
  | [] => by simp [putEntry]
  | e :: es => by
      by_cases h : e.1 = k
      · simp [putEntry, h]
      · simp only [putEntry, if_neg h, List.map_cons, List.mem_cons, fst_mem_putEntry]
        exact or_left_comm

theorem nodup_putEntry {k : κ} {v : ν} : ∀ {es : List (κ × ν)}, (es.map Prod.fst).Nodup →
    ((putEntry k v es).map Prod.fst).Nodup
  | [], _ => by simp [putEntry]
  | e :: es, h => by
      rw [List.map_cons, List.nodup_cons] at h
      by_cases hk : e.1 = k
      · rw [putEntry, if_pos hk, List.map_cons, ← hk]
        exact List.nodup_cons.mpr h
      · rw [putEntry, if_neg hk, List.map_cons]
        refine List.nodup_cons.mpr ⟨fun hmem => ?_, nodup_putEntry h.2⟩
        cases fst_mem_putEntry.mp hmem with
        | inl h' => exact hk h'
        | inr h' => exact h.1 h'

/-- `(setf (gethash k table) v)`. -/
def puthash (t : Table κ ν) (k : κ) (v : ν) : Table κ ν :=
  ⟨putEntry k v t.entries, nodup_putEntry t.nodup⟩

/-! ## Reading what was put -/

@[simp] theorem gethash_empty (k : κ) : (empty : Table κ ν).gethash k = none := rfl

theorem lookup_entry (k : κ) (e : κ × ν) (es : List (κ × ν)) :
    (e :: es).lookup k = if k = e.1 then some e.2 else es.lookup k := by
  obtain ⟨k', v⟩ := e
  rw [List.lookup_cons]
  by_cases h : k = k'
  · rw [if_pos h, h, beq_self_eq_true]
  · rw [if_neg h, beq_false_of_ne h]

theorem lookup_putEntry (k k' : κ) (v : ν) : ∀ es : List (κ × ν),
    (putEntry k v es).lookup k' = if k' = k then some v else es.lookup k'
  | [] => by rw [putEntry, lookup_entry]
  | e :: es => by
      by_cases he : e.1 = k
      · rw [putEntry, if_pos he, lookup_entry, lookup_entry, he]
        by_cases h : k' = k
        · rw [if_pos h, if_pos h]
        · rw [if_neg h, if_neg h, if_neg h]
      · rw [putEntry, if_neg he, lookup_entry, lookup_entry, lookup_putEntry k k' v es]
        by_cases h : k' = e.1
        · have hk : k' ≠ k := fun hk => he (h.symm.trans hk)
          rw [if_pos h, if_neg hk, if_pos h]
        · rw [if_neg h, if_neg h]

theorem gethash_puthash (t : Table κ ν) (k k' : κ) (v : ν) :
    (t.puthash k v).gethash k' = if k' = k then some v else t.gethash k' :=
  lookup_putEntry k k' v t.entries

@[simp] theorem gethash_puthash_self (t : Table κ ν) (k : κ) (v : ν) :
    (t.puthash k v).gethash k = some v := by
  rw [gethash_puthash, if_pos rfl]

theorem gethash_puthash_ne (t : Table κ ν) {k k' : κ} (v : ν) (h : k' ≠ k) :
    (t.puthash k v).gethash k' = t.gethash k' := by
  rw [gethash_puthash, if_neg h]

/-! ## Entries and keys -/

theorem lookup_eq_some_iff_mem {k : κ} {v : ν} : ∀ {es : List (κ × ν)}, (es.map Prod.fst).Nodup →
    (es.lookup k = some v ↔ (k, v) ∈ es)
  | [], _ => by simp
  | e :: es, h => by
      rw [List.map_cons, List.nodup_cons] at h
      have ih := lookup_eq_some_iff_mem (k := k) (v := v) h.2
      by_cases hk : k = e.1
      · subst hk
        have hnot : (e.1, v) ∉ es := fun hmem => h.1 (List.mem_map.mpr ⟨_, hmem, rfl⟩)
        rw [lookup_entry, if_pos rfl, Option.some.injEq, List.mem_cons, or_iff_left hnot]
        constructor
        · intro hv
          rw [← hv]
        · intro hv
          rw [← hv]
      · rw [lookup_entry, if_neg hk, ih, List.mem_cons]
        constructor
        · exact Or.inr
        · intro hmem
          cases hmem with
          | inl he => exact absurd (congrArg Prod.fst he) hk
          | inr hmem => exact hmem

/-- The entries are what `gethash` finds. -/
theorem gethash_eq_some_iff {t : Table κ ν} {k : κ} {v : ν} :
    t.gethash k = some v ↔ (k, v) ∈ t.entries :=
  lookup_eq_some_iff_mem t.nodup

theorem mem_keys_iff {t : Table κ ν} {k : κ} : k ∈ t.keys ↔ ∃ v, t.gethash k = some v := by
  simp only [keys, List.mem_map, gethash_eq_some_iff]
  constructor
  · intro h
    obtain ⟨e, he, hk⟩ := h
    exact ⟨e.2, by rw [← hk]; exact he⟩
  · intro h
    obtain ⟨v, hv⟩ := h
    exact ⟨(k, v), hv, rfl⟩

theorem gethash_eq_none_iff {t : Table κ ν} {k : κ} : t.gethash k = none ↔ k ∉ t.keys := by
  rw [mem_keys_iff]
  cases t.gethash k with
  | none => simp
  | some v => simp

@[simp] theorem mem_keys_puthash {t : Table κ ν} {k k' : κ} {v : ν} :
    k' ∈ (t.puthash k v).keys ↔ k' = k ∨ k' ∈ t.keys :=
  fst_mem_putEntry

/-- A new key is walked to last. -/
theorem entries_puthash_of_notMem {t : Table κ ν} {k : κ} (v : ν) (h : k ∉ t.keys) :
    (t.puthash k v).entries = t.entries ++ [(k, v)] := by
  suffices hput : ∀ es : List (κ × ν), k ∉ es.map Prod.fst → putEntry k v es = es ++ [(k, v)] from
    hput t.entries h
  intro es
  induction es with
  | nil => intro _; rfl
  | cons e es ih =>
      intro hmem
      rw [List.map_cons, List.mem_cons, not_or] at hmem
      rw [putEntry, if_neg (Ne.symm hmem.1), ih hmem.2, List.cons_append]

/-! ## Walks -/

end Table

/-- The order in which `maphash` meets the entries of a table. -/
structure WalkOrder where
  walk : {κ ν : Type} → List (κ × ν) → List (κ × ν)
  perm : ∀ {κ ν : Type} (entries : List (κ × ν)), (walk entries).Perm entries

/-- The keys in the order in which they were first put. -/
def WalkOrder.firstPut : WalkOrder where
  walk entries := entries
  perm entries := List.Perm.refl entries

namespace Table

/-- `maphash`, with the state that the function changes. -/
def maphash {κ ν σ : Type} (order : WalkOrder) (f : σ → κ → ν → σ) (t : Table κ ν) (state : σ) :
    σ :=
  (order.walk t.entries).foldl (fun s e => f s e.1 e.2) state

/-- What every step of a walk keeps holds at its end. -/
theorem maphash_induction {κ ν σ : Type} {order : WalkOrder} {f : σ → κ → ν → σ} {t : Table κ ν}
    {state : σ} (P : σ → Prop) (hstate : P state)
    (hstep : ∀ s k v, (k, v) ∈ t.entries → P s → P (f s k v)) : P (t.maphash order f state) := by
  rw [maphash]
  refine List.foldlRecOn _ _ hstate fun s hs e he => ?_
  exact hstep s e.1 e.2 ((order.perm t.entries).mem_iff.mp he) hs

variable {κ ν : Type*} [DecidableEq κ]

/-! ## Sorted walks -/

/-- The walk over `(sort (hash-table-keys table) less)`, with the value of each key. -/
def sortedEntries (less : κ → κ → Bool) (t : Table κ ν) : List (κ × ν) :=
  (t.keys.insertionSort fun k k' => less k' k = false).filterMap fun k =>
    (t.gethash k).map fun v => (k, v)

/-- It meets the entries of the table. -/
theorem mem_sortedEntries_iff {less : κ → κ → Bool} {t : Table κ ν} {k : κ} {v : ν} :
    (k, v) ∈ t.sortedEntries less ↔ t.gethash k = some v := by
  simp only [sortedEntries, List.mem_filterMap, List.mem_insertionSort, Option.map_eq_some_iff,
    Prod.mk.injEq]
  constructor
  · intro h
    obtain ⟨k', -, v', hv', rfl, rfl⟩ := h
    exact hv'
  · intro h
    exact ⟨k, mem_keys_iff.mpr ⟨v, h⟩, v, h, rfl, rfl⟩

theorem map_fst_filterMap {t : Table κ ν} : ∀ {ks : List κ}, (∀ k ∈ ks, k ∈ t.keys) →
    (ks.filterMap fun k => (t.gethash k).map fun v => (k, v)).map Prod.fst = ks
  | [], _ => rfl
  | k :: ks, h => by
      obtain ⟨v, hv⟩ := mem_keys_iff.mp (h k List.mem_cons_self)
      have ih := map_fst_filterMap fun k' hk' => h k' (List.mem_cons_of_mem _ hk')
      rw [List.filterMap_cons_some (b := (k, v)) (by rw [hv]; rfl), List.map_cons, ih]

/-- It meets no key twice. -/
theorem nodup_sortedEntries (less : κ → κ → Bool) (t : Table κ ν) :
    ((t.sortedEntries less).map Prod.fst).Nodup := by
  rw [sortedEntries, map_fst_filterMap fun k hk => (List.mem_insertionSort _).mp hk]
  exact (List.perm_insertionSort _ _).nodup_iff.mpr t.nodup

/-! ## Counting -/

/-- `(incf (gethash k table 0))`. -/
def inchash (t : Table κ Nat) (k : κ) : Table κ Nat :=
  t.puthash k ((t.gethash k).getD 0 + 1)

/-- How often a key was counted, where a key never counted has no entry. -/
def tally (n : Nat) : Option Nat := if n = 0 then none else some n

@[simp] theorem tally_zero : tally 0 = none := rfl

theorem getD_tally (n : Nat) : (tally n).getD 0 = n := by
  cases n with
  | zero => rfl
  | succ n => rfl

theorem tally_eq_some_iff {n c : Nat} : tally n = some c ↔ n = c ∧ 0 < c := by
  cases n with
  | zero =>
      rw [tally_zero]
      exact ⟨fun h => (by cases h), fun h => absurd h.2 (by rw [← h.1]; exact Nat.lt_irrefl 0)⟩
  | succ n =>
      rw [tally, if_neg (Nat.succ_ne_zero n), Option.some.injEq]
      exact ⟨fun h => ⟨h, h ▸ Nat.succ_pos n⟩, fun h => h.1⟩

/-- A counting loop adds to every key the number of times it meets the key. -/
theorem gethash_foldl_inchash [BEq κ] [LawfulBEq κ] (k : κ) :
    ∀ (ks : List κ) (t : Table κ Nat) {m : Nat}, t.gethash k = tally m →
      (ks.foldl inchash t).gethash k = tally (m + ks.count k)
  | [], t, m, h => by simpa using h
  | k' :: ks, t, m, h => by
      have hstep : (t.inchash k').gethash k = tally (m + if k' = k then 1 else 0) := by
        by_cases hk : k = k'
        · subst hk
          rw [inchash, gethash_puthash_self, h, getD_tally, if_pos rfl]
          rfl
        · rw [inchash, gethash_puthash_ne t _ hk, h, if_neg (Ne.symm hk), Nat.add_zero]
      rw [List.foldl_cons, gethash_foldl_inchash k ks _ hstep, List.count_cons, Nat.add_assoc]
      congr 2
      rw [Nat.add_comm]
      simp [beq_iff_eq]

/-- Counting into an empty table. -/
theorem gethash_foldl_inchash_empty [BEq κ] [LawfulBEq κ] (k : κ) (ks : List κ) :
    (ks.foldl inchash empty).gethash k = tally (ks.count k) := by
  rw [gethash_foldl_inchash k ks empty (m := 0) rfl, Nat.zero_add]

end Table

/-! ## Tables and association lists -/

/-- `alexandria:hash-table-alist` and `alexandria:alist-hash-table`, with what is documented of
them: the keys and values are those of the table, and those of the list. -/
structure Alexandria where
  hashTableAlist : {κ ν : Type} → Table κ ν → List (κ × ν)
  alistHashTable : {κ ν : Type} → [DecidableEq κ] → List (κ × ν) → Table κ ν
  perm_hashTableAlist : ∀ {κ ν : Type} (table : Table κ ν),
    (hashTableAlist table).Perm table.entries
  perm_alistHashTable : ∀ {κ ν : Type} [DecidableEq κ] (alist : List (κ × ν)),
    (alist.map Prod.fst).Nodup → (alistHashTable alist).entries.Perm alist

namespace Alexandria

variable {κ ν : Type}

/-- A turn over an association list.  The first value of a key is kept. -/
def ensureGethash [DecidableEq κ] (table : Table κ ν) (cons : κ × ν) : Table κ ν :=
  match table.gethash cons.1 with
  | some _ => table
  | none => table.puthash cons.1 cons.2

/-- The table of a list with different keys has the entries of the list. -/
theorem entries_foldl_ensureGethash [DecidableEq κ] (alist : List (κ × ν))
    (h : (alist.map Prod.fst).Nodup) :
    (alist.foldl ensureGethash Table.empty).entries = alist := by
  induction alist using List.reverseRecOn with
  | nil => rfl
  | append_singleton alist cons ih =>
      rw [List.map_append, List.nodup_append] at h
      obtain ⟨hnodup, -, hdisjoint⟩ := h
      have hentries := ih hnodup
      have hnew : cons.1 ∉ (alist.foldl ensureGethash Table.empty).keys := by
        rw [Table.keys, hentries]
        exact fun hmem => hdisjoint _ hmem _ (List.mem_singleton_self _) rfl
      rw [List.foldl_append, List.foldl_cons, List.foldl_nil, ensureGethash,
        Table.gethash_eq_none_iff.mpr hnew]
      exact (Table.entries_puthash_of_notMem cons.2 hnew).trans (by rw [hentries])

/-- The entries that a walk meets are pushed, and the list is put into an empty table. -/
def pushing (order : WalkOrder) : Alexandria where
  hashTableAlist table := (order.walk table.entries).reverse
  alistHashTable alist := alist.foldl ensureGethash Table.empty
  perm_hashTableAlist table := (List.reverse_perm _).trans (order.perm table.entries)
  perm_alistHashTable alist h := List.Perm.of_eq (entries_foldl_ensureGethash alist h)

end Alexandria

end Hachee.Lisp
