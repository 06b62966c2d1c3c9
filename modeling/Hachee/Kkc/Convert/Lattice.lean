import Mathlib.Order.Defs.LinearOrder
import Mathlib.Data.List.Basic
import Hachee.Foundation.Loop
import Hachee.Foundation.Segmentation
import Hachee.Lisp.Sequence

/-!
# The table of nodes (`hachee.kkc.convert.viterbi-2gram`, `viterbi-3gram`)

Both converters fill a table with nodes before they compare any scores.  The
nodes are changed in place later, so they live in a heap, and the table holds
their addresses.  The table maps the end of a substring to groups: the start of
the substring, and the addresses of the nodes for it.

The two sources differ in the fields of a node and in the groups for the ends of
the sentence.  The loop over the substrings is the same, and is `createNodes`
here for any kind of node.  An address is given to a node when its group is put
in the table.

`Lattice.Holds` says which groups a table holds.  Every address lies in one group
only, so no change to a node can be seen from two places.
-/

namespace Hachee.Kkc.Convert

open Lisp Foundation

variable {ν ε : Type}

/-- The heap, and the table that holds addresses. -/
structure Lattice (ν : Type) where
  heap : List ν
  table : HashTable Int (List (Int × List Nat))

namespace Lattice

/-- `(make-hash-table)`, before any node is made. -/
def empty : Lattice ν := ⟨[], .empty⟩

/-- `(gethash end table)`. -/
def groups (lattice : Lattice ν) (stop : Int) : List (Int × List Nat) :=
  (lattice.table.gethash stop).getD []

/-- Make the nodes and `(push (cons start nodes) (gethash end table))`. -/
def push (lattice : Lattice ν) (start stop : Int) (nodes : List ν) : Lattice ν where
  heap := lattice.heap ++ nodes
  table := lattice.table.puthash stop
    ((start, List.range' lattice.heap.length nodes.length) :: lattice.groups stop)

end Lattice

/-- The condition on a substring: nothing is known of the boundaries, or the
substring ends at the first one, or it lies behind it. -/
def boundaryP (firstBoundaryIndex : Option Nat) (start stop : Nat) : Bool :=
  match firstBoundaryIndex with
  | none => true
  | some boundary => (start = 0 && stop = boundary) || boundary ≤ start

/-- `(setq 1st-boundary-index 7)`, if it is greater. -/
def clipBoundaryIndex (firstBoundaryIndex : Option Nat) : Option Nat :=
  firstBoundaryIndex.map fun boundary => if 8 ≤ boundary then 7 else boundary

/-- The loop that creates the table. -/
def createNodes (makeNode : ε → ν) (listEntries : Str → List ε) (firstBoundaryIndex : Option Nat)
    (pronunciation : Str) (lattice : Lattice ν) : Option (Lattice ν) :=
  (List.range' 1 pronunciation.length).foldlM
    (fun lattice stop =>
      (List.range stop).foldlM
        (fun lattice start =>
          if boundaryP firstBoundaryIndex start stop then do
            let subPron ← subseq pronunciation start stop
            return lattice.push start stop ((listEntries subPron).map makeNode)
          else return lattice)
        lattice)
    lattice

/-- `(or (null old) (< old new))`. -/
def betterP {G : Type} [LinearOrder G] (old : Option G) (new : G) : Bool :=
  match old with
  | none => true
  | some old => old < new

/-! ## What a table holds -/

/-- A group: where its nodes start and end, and the nodes as they were made. -/
abbrev Group (ν : Type) := Int × Int × List ν

namespace Lattice

/-- The lattice was filled with the groups. -/
structure Holds (lattice : Lattice ν) (made : List (Group ν)) : Prop where
  /-- Every group is in the table. -/
  of_mem : ∀ {start stop nodes}, (start, stop, nodes) ∈ made →
    ∃ refs, (start, refs) ∈ lattice.groups stop ∧
      refs.map (lattice.heap[·]?) = nodes.map some
  /-- Nothing else is. -/
  mem_of : ∀ {start stop refs}, (start, refs) ∈ lattice.groups stop →
    ∃ nodes, (start, stop, nodes) ∈ made ∧ refs.map (lattice.heap[·]?) = nodes.map some
  /-- An address lies in one group. -/
  disjoint : ∀ {start stop refs start' stop' refs' ref}, (start, refs) ∈ lattice.groups stop →
    (start', refs') ∈ lattice.groups stop' → ref ∈ refs → ref ∈ refs' →
      start = start' ∧ stop = stop'

theorem groups_push (lattice : Lattice ν) (start stop : Int) (nodes : List ν) (stop' : Int) :
    (lattice.push start stop nodes).groups stop' =
      if stop' = stop then
        (start, List.range' lattice.heap.length nodes.length) :: lattice.groups stop'
      else lattice.groups stop' := by
  simp only [groups, push, HashTable.gethash_puthash]
  split
  next h => rw [h]; rfl
  next => rfl

theorem mem_groups_push {lattice : Lattice ν} {start stop : Int} {nodes : List ν}
    {start' stop' : Int} {refs : List Nat} :
    (start', refs) ∈ (lattice.push start stop nodes).groups stop' ↔
      (start' = start ∧ stop' = stop ∧ refs = List.range' lattice.heap.length nodes.length) ∨
        (start', refs) ∈ lattice.groups stop' := by
  rw [groups_push]
  by_cases h : stop' = stop
  · simp [h]
  · simp [h]

/-- The addresses of a group are old. -/
theorem Holds.lt_length {lattice : Lattice ν} {made : List (Group ν)} (h : lattice.Holds made)
    {start stop : Int} {refs : List Nat} (hrefs : (start, refs) ∈ lattice.groups stop) {ref : Nat}
    (href : ref ∈ refs) : ref < lattice.heap.length := by
  obtain ⟨nodes, -, hnodes⟩ := h.mem_of hrefs
  have hmem : lattice.heap[ref]? ∈ nodes.map some := hnodes ▸ List.mem_map_of_mem href
  obtain ⟨node, -, hnode⟩ := List.mem_map.mp hmem
  exact (List.getElem?_eq_some_iff.mp hnode.symm).1

theorem holds_empty : (empty : Lattice ν).Holds [] where
  of_mem := by
    intro start stop nodes h
    cases h
  mem_of := by
    intro start stop refs h
    cases h
  disjoint := by
    intro start stop refs start' stop' refs' ref h
    cases h

/-- One more group is pushed. -/
theorem Holds.push {lattice : Lattice ν} {made : List (Group ν)} (h : lattice.Holds made)
    (start stop : Int) (nodes : List ν) :
    (lattice.push start stop nodes).Holds (made ++ [(start, stop, nodes)]) := by
  -- The old addresses still hold the same nodes, and the new ones hold the new nodes.
  have hold : ∀ {start' stop' : Int} {refs : List Nat}, (start', refs) ∈ lattice.groups stop' →
      refs.map ((lattice.push start stop nodes).heap[·]?) = refs.map (lattice.heap[·]?) := by
    intro start' stop' refs hrefs
    refine List.map_congr_left fun ref href => ?_
    exact List.getElem?_append_left (h.lt_length hrefs href)
  have hnew : (List.range' lattice.heap.length nodes.length).map
      ((lattice.push start stop nodes).heap[·]?) = nodes.map some := by
    refine List.ext_getElem (by simp) fun i _ hi => ?_
    rw [List.length_map] at hi
    rw [List.getElem_map, List.getElem_map, List.getElem_range', Lattice.push, Nat.one_mul,
      List.getElem?_append_right (by omega), Nat.add_sub_cancel_left, List.getElem?_eq_getElem hi]
  constructor
  · intro start' stop' nodes' hmem
    cases List.mem_append.mp hmem with
    | inl hmade =>
        obtain ⟨refs, hrefs, hnodes⟩ := h.of_mem hmade
        exact ⟨refs, mem_groups_push.mpr (Or.inr hrefs), (hold hrefs).trans hnodes⟩
    | inr hlast =>
        cases List.mem_singleton.mp hlast
        exact ⟨_, mem_groups_push.mpr (Or.inl ⟨rfl, rfl, rfl⟩), hnew⟩
  · intro start' stop' refs hrefs
    rcases mem_groups_push.mp hrefs with ⟨rfl, rfl, rfl⟩ | hrefs
    · exact ⟨nodes, by simp, hnew⟩
    · obtain ⟨nodes', hmade, hnodes⟩ := h.mem_of hrefs
      exact ⟨nodes', List.mem_append_left _ hmade, (hold hrefs).trans hnodes⟩
  · intro start₁ stop₁ refs₁ start₂ stop₂ refs₂ ref h₁ h₂ href₁ href₂
    rcases mem_groups_push.mp h₁ with ⟨rfl, rfl, rfl⟩ | hold₁
    · rcases mem_groups_push.mp h₂ with ⟨rfl, rfl, rfl⟩ | hold₂
      · exact ⟨rfl, rfl⟩
      · have hlt := h.lt_length hold₂ href₂
        rw [List.mem_range'_1] at href₁
        omega
    · rcases mem_groups_push.mp h₂ with ⟨rfl, rfl, rfl⟩ | hold₂
      · have hlt := h.lt_length hold₁ href₁
        rw [List.mem_range'_1] at href₂
        omega
      · exact h.disjoint hold₁ hold₂ href₁ href₂

/-- Many groups are pushed. -/
theorem Holds.foldl_push : ∀ (new : List (Group ν)) {lattice : Lattice ν} {made : List (Group ν)},
    lattice.Holds made →
      (new.foldl (fun l g => l.push g.1 g.2.1 g.2.2) lattice).Holds (made ++ new)
  | [], _, _, h => by simpa using h
  | g :: new, lattice, made, h => by
      have hpush := foldl_push new (h.push g.1 g.2.1 g.2.2)
      rwa [List.append_assoc] at hpush

/-- The address lies in a group between the two positions. -/
def Cell (lattice : Lattice ν) (start stop : Int) (ref : Nat) : Prop :=
  ∃ refs, (start, refs) ∈ lattice.groups stop ∧ ref ∈ refs

/-- There is a node at the address, as it was made. -/
theorem Holds.node_of_cell {lattice : Lattice ν} {made : List (Group ν)} (h : lattice.Holds made)
    {start stop : Int} {ref : Nat} (hcell : lattice.Cell start stop ref) :
    ∃ node nodes, lattice.heap[ref]? = some node ∧ (start, stop, nodes) ∈ made ∧ node ∈ nodes := by
  obtain ⟨refs, hrefs, href⟩ := hcell
  obtain ⟨nodes, hmade, hnodes⟩ := h.mem_of hrefs
  have hmem : lattice.heap[ref]? ∈ nodes.map some := hnodes ▸ List.mem_map_of_mem href
  obtain ⟨node, hnode, heq⟩ := List.mem_map.mp hmem
  exact ⟨node, nodes, heq.symm, hmade, hnode⟩

/-- Every node that was made has an address. -/
theorem Holds.cell_of_node {lattice : Lattice ν} {made : List (Group ν)} (h : lattice.Holds made)
    {start stop : Int} {nodes : List ν} (hmade : (start, stop, nodes) ∈ made) {node : ν}
    (hnode : node ∈ nodes) :
    ∃ ref, lattice.Cell start stop ref ∧ lattice.heap[ref]? = some node := by
  obtain ⟨refs, hrefs, hnodes⟩ := h.of_mem hmade
  have hmem : some node ∈ refs.map (lattice.heap[·]?) := hnodes ▸ List.mem_map_of_mem hnode
  obtain ⟨ref, href, heq⟩ := List.mem_map.mp hmem
  exact ⟨ref, ⟨refs, hrefs, href⟩, heq⟩

/-- Groups were pushed on a table: what it held before is still there. -/
structure Extends (lattice lattice' : Lattice ν) : Prop where
  cell : ∀ {start stop ref}, lattice.Cell start stop ref → lattice'.Cell start stop ref
  heap : ∀ {ref : Nat} {node}, lattice.heap[ref]? = some node → lattice'.heap[ref]? = some node

theorem Extends.refl (lattice : Lattice ν) : Extends lattice lattice where
  cell := id
  heap := id

theorem Extends.trans {lattice lattice' lattice'' : Lattice ν} (h : Extends lattice lattice')
    (h' : Extends lattice' lattice'') : Extends lattice lattice'' :=
  ⟨fun hcell => h'.cell (h.cell hcell), fun hnode => h'.heap (h.heap hnode)⟩

theorem extends_push (lattice : Lattice ν) (start stop : Int) (nodes : List ν) :
    Extends lattice (lattice.push start stop nodes) where
  cell := fun ⟨refs, hrefs, href⟩ => ⟨refs, mem_groups_push.mpr (Or.inr hrefs), href⟩
  heap := fun hnode =>
    (List.getElem?_append_left (List.getElem?_eq_some_iff.mp hnode).1).trans hnode

theorem extends_foldl_push : ∀ (new : List (Group ν)) (lattice : Lattice ν),
    Extends lattice (new.foldl (fun l g => l.push g.1 g.2.1 g.2.2) lattice)
  | [], lattice => .refl lattice
  | g :: new, lattice => (extends_push lattice g.1 g.2.1 g.2.2).trans (extends_foldl_push new _)

/-- An address lies in one place, and every group starts before it ends. -/
structure Graded (lattice : Lattice ν) : Prop where
  unique : ∀ {start stop start' stop' ref}, lattice.Cell start stop ref →
    lattice.Cell start' stop' ref → start = start' ∧ stop = stop'
  lt : ∀ {start stop ref}, lattice.Cell start stop ref → start < stop

theorem Holds.graded {lattice : Lattice ν} {made : List (Group ν)} (h : lattice.Holds made)
    (hlt : ∀ {start stop nodes}, (start, stop, nodes) ∈ made → start < stop) : lattice.Graded where
  unique := by
    rintro start stop start' stop' ref ⟨refs, hrefs, href⟩ ⟨refs', hrefs', href'⟩
    exact h.disjoint hrefs hrefs' href href'
  lt := by
    intro start stop ref hcell
    obtain ⟨node, nodes, -, hmade, -⟩ := h.node_of_cell hcell
    exact hlt hmade

/-- Nodes that end at different positions are different. -/
theorem Graded.ne_of_cell {lattice : Lattice ν} (h : lattice.Graded)
    {start stop start' stop' : Int} {ref ref' : Nat} (hcell : lattice.Cell start stop ref)
    (hcell' : lattice.Cell start' stop' ref') (hne : stop' ≠ stop) : ref ≠ ref' := by
  rintro rfl
  exact hne (h.unique hcell' hcell).2

/-- The heap after one node is written. -/
structure Written (heap heap' : List ν) (ref : Nat) (node : ν) : Prop where
  self : heap'[ref]? = some node
  other : ∀ {ref'}, ref ≠ ref' → heap'[ref']? = heap[ref']?

theorem Written.of_set {heap : List ν} {ref : Nat} {n : ν} (hn : heap[ref]? = some n) (node : ν) :
    Written heap (heap.set ref node) ref node where
  self := List.getElem?_set_self (List.getElem?_eq_some_iff.mp hn).1
  other := fun hne => List.getElem?_set_ne hne

end Lattice

/-! ## What the loop creates -/

/-- The groups that the loop puts in the table, in its order. -/
def createdGroups (makeNode : ε → ν) (listEntries : Str → List ε)
    (firstBoundaryIndex : Option Nat) (pronunciation : Str) : List (Group ν) :=
  (List.range' 1 pronunciation.length).flatMap fun stop =>
    ((List.range stop).filter fun start => boundaryP firstBoundaryIndex start stop).map
      fun start : Nat => ((start : Int), (stop : Int),
        (listEntries ((pronunciation.take stop).drop start)).map makeNode)

theorem mem_createdGroups {makeNode : ε → ν} {listEntries : Str → List ε}
    {firstBoundaryIndex : Option Nat} {pronunciation : Str} {start stop : Int} {nodes : List ν} :
    (start, stop, nodes) ∈
        createdGroups makeNode listEntries firstBoundaryIndex pronunciation ↔
      ∃ i j : Nat, start = i ∧ stop = j ∧ i < j ∧ j ≤ pronunciation.length ∧
        boundaryP firstBoundaryIndex i j ∧
        nodes = (listEntries ((pronunciation.take j).drop i)).map makeNode := by
  simp only [createdGroups, List.mem_flatMap, List.mem_map, List.mem_filter, List.mem_range,
    List.mem_range'_1, Prod.mk.injEq]
  constructor
  · rintro ⟨j, hj, i, ⟨hi, hboundary⟩, rfl, rfl, rfl⟩
    exact ⟨i, j, rfl, rfl, hi, by omega, hboundary, rfl⟩
  · rintro ⟨i, j, rfl, rfl, hi, hj, hboundary, rfl⟩
    exact ⟨j, by omega, i, ⟨hi, hboundary⟩, rfl, rfl, rfl⟩

/-- The loop signals no error and pushes its groups. -/
theorem createNodes_holds (makeNode : ε → ν) (listEntries : Str → List ε)
    (firstBoundaryIndex : Option Nat) (pronunciation : Str) {lattice : Lattice ν}
    {made : List (Group ν)} (h : lattice.Holds made) :
    ∃ lattice', createNodes makeNode listEntries firstBoundaryIndex pronunciation lattice =
        some lattice' ∧
      lattice'.Holds
        (made ++ createdGroups makeNode listEntries firstBoundaryIndex pronunciation) ∧
      Lattice.Extends lattice lattice' := by
  refine ⟨_, ?_, h.foldl_push _, Lattice.extends_foldl_push _ lattice⟩
  rw [createdGroups, List.foldl_flatMap]
  refine Loop.foldlM_eq_some _ (fun stop hstop lattice => ?_) lattice
  rw [List.foldl_map, List.foldl_filter]
  refine Loop.foldlM_eq_some _ (fun start hstart lattice => ?_) lattice
  rw [List.mem_range'_1] at hstop
  rw [List.mem_range] at hstart
  rw [subseq_of_le (by omega) (by omega)]
  split
  next => rfl
  next => rfl

/-! ## Substrings with entries -/

/-- Every substring of length 1 to 7 has an entry. -/
def HasEntries (listEntriesFn : Str → List ε) (pronunciation : Str) : Prop :=
  ∀ subPron, subPron <:+: pronunciation → 1 ≤ subPron.length → subPron.length ≤ 7 →
    listEntriesFn subPron ≠ []

/-- A single character has an entry. -/
theorem HasEntries.exists_entry {listEntriesFn : Str → List ε} {pronunciation : Str}
    (h : HasEntries listEntriesFn pronunciation) {i : Nat} (hi : i < pronunciation.length) :
    ∃ entry, entry ∈ listEntriesFn ((pronunciation.take (i + 1)).drop i) := by
  refine List.exists_mem_of_ne_nil _ (h _ ?_ ?_ ?_)
  · exact (List.drop_suffix _ _).isInfix.trans (List.take_prefix _ _).isInfix
  · rw [length_drop_take (by omega)]
    omega
  · rw [length_drop_take (by omega)]
    omega

/-- The pronunciations of the entries of a segmentation make up the string. -/
theorem exists_prons_of_segmentation {pron : ε → Option Str} {listEntriesFn : Str → List ε}
    {pronunciation : Str} {entries : List ε}
    (h : Segmentation listEntriesFn pronunciation entries)
    (hpron : ∀ segment, segment <:+: pronunciation → segment ≠ [] →
      ∀ e ∈ listEntriesFn segment, pron e = some segment) :
    ∃ prons, entries.mapM pron = some prons ∧ prons.flatten = pronunciation := by
  obtain ⟨segments, hflatten, hne, hentries⟩ := h
  refine ⟨segments, mapM_eq_some_iff.mpr ?_, hflatten⟩
  have hpart : ∀ segment ∈ segments, segment <:+: pronunciation := fun segment hsegment =>
    hflatten ▸ List.infix_of_mem_flatten hsegment
  clear hflatten
  induction hentries with
  | nil => rfl
  | @cons segment entry segments entries hentry _ ih =>
      have hhead := hpron segment (hpart segment List.mem_cons_self)
        (hne segment List.mem_cons_self) entry hentry
      have htail := ih (fun s hs => hne s (List.mem_cons_of_mem _ hs))
        fun s hs => hpart s (List.mem_cons_of_mem _ hs)
      rw [List.map_cons, List.map_cons, hhead, htail]

end Hachee.Kkc.Convert
