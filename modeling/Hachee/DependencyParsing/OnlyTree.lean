import Hachee.DependencyParsing.GoldTree
import Mathlib.Data.List.TakeWhile

/-!
# The arcs of a tree out of those of a graph

A model of `select-only-tree-arborescence-arc-list`.  The arcs of a graph without cycles
are walked in order, and what two vertices share is walked again each time.  The callback
removes an arc if its child has been called already and its parent has not.  So the arc
to a greater child is never removed, since its parent has been called before
(`count_before`), and the arc to a smaller child is removed unless the child is met over
it first (`removed_iff`).

Thus a tree is left if and only if every vertex but the root has no smaller parent, or has
one smaller parent and is not met from a greater one first (`selectOnlyTree_iff`).
-/

namespace Hachee.DependencyParsing.ShiftReduce

open Foundation Arborescence InOrder Relation

/-! ## The function -/

/-- A call of the callback of `call/vertex-in-order`. -/
abbrev Call := Vertex × Option Vertex

/-- The callback.  To look for the parent `nil` among vertices is an error. -/
def selectCallback : List Vertex × List Arc → Call → Option (List Vertex × List Arc)
  | (visited, removed), (vertex, parent) =>
      if vertex ∈ visited then
        match parent with
        | none => none
        | some parent =>
            if parent ∉ visited then
              some (visited, { parent := parent, child := vertex } :: removed)
            else some (vertex :: visited, removed)
      else some (vertex :: visited, removed)

/-- `select-only-tree-arborescence-arc-list` -/
def selectOnlyTreeArborescenceArcList (fuel : Nat) (arcs : List Arc) : Option (List Arc) := do
  let root ← findRoot arcs
  let calls ← callVertexInOrder fuel arcs root
  let (_, removed) ← calls.foldlM selectCallback ([], [])
  some (arcs.filter fun arc => arc ∉ removed)

/-! ## The callback over the calls -/

/-- The arc is removed at some call. -/
def RemovedAt (calls : List Call) (visited : List Vertex) (p v : Vertex) : Prop :=
  ∃ pre post, calls = pre ++ (v, some p) :: post ∧ v ∈ pre.map Prod.fst ++ visited ∧
    p ∉ pre.map Prod.fst ++ visited

theorem removedAt_cons {call : Call} {calls : List Call} {visited visited' : List Vertex}
    {p v : Vertex} (hvisited : ∀ w, w ∈ visited' ↔ w = call.1 ∨ w ∈ visited) :
    RemovedAt (call :: calls) visited p v ↔
      call = (v, some p) ∧ v ∈ visited ∧ p ∉ visited ∨ RemovedAt calls visited' p v := by
  have hmem : ∀ (pre : List Call) w, w ∈ (call :: pre).map Prod.fst ++ visited ↔
      w ∈ pre.map Prod.fst ++ visited' := by
    intro pre w
    simp only [List.map_cons, List.cons_append, List.mem_cons, List.mem_append, hvisited]
    exact or_left_comm
  constructor
  · rintro ⟨pre, post, heq, hv, hp⟩
    cases pre with
    | nil =>
        cases heq
        exact Or.inl ⟨rfl, hv, hp⟩
    | cons first pre =>
        cases heq
        exact Or.inr ⟨pre, post, rfl, (hmem pre v).mp hv, fun hmemp => hp ((hmem pre p).mpr hmemp)⟩
  · rintro (⟨rfl, hv, hp⟩ | ⟨pre, post, rfl, hv, hp⟩)
    · exact ⟨[], calls, rfl, hv, hp⟩
    · exact ⟨call :: pre, post, rfl, (hmem pre v).mpr hv, fun hmemp => hp ((hmem pre p).mp hmemp)⟩

/-- The callback removes the arcs of the calls whose child has been called, and whose parent
has not.  There is no error if a vertex without a parent has not been called before. -/
theorem foldlM_selectCallback : ∀ {calls : List Call} {visited : List Vertex} {removed : List Arc},
    (∀ pre v post, calls = pre ++ (v, none) :: post → v ∉ pre.map Prod.fst ++ visited) →
    ∃ visited' removed', calls.foldlM selectCallback (visited, removed) =
        some (visited', removed') ∧
      ∀ p v, ⟨p, v⟩ ∈ removed' ↔ ⟨p, v⟩ ∈ removed ∨ RemovedAt calls visited p v
  | [], visited, removed, _ => by
      refine ⟨visited, removed, rfl, fun p v => ⟨Or.inl, ?_⟩⟩
      rintro (h | ⟨pre, post, heq, -⟩)
      · exact h
      · simp at heq
  | (w, parent) :: calls, visited, removed, hnone => by
      obtain ⟨visited₁, removed₁, hturn, hvisited, hremoved⟩ :
          ∃ visited₁ removed₁, selectCallback (visited, removed) (w, parent) =
              some (visited₁, removed₁) ∧ (∀ u, u ∈ visited₁ ↔ u = w ∨ u ∈ visited) ∧
            ∀ p v, ⟨p, v⟩ ∈ removed₁ ↔
              (w, parent) = (v, some p) ∧ v ∈ visited ∧ p ∉ visited ∨ ⟨p, v⟩ ∈ removed := by
        by_cases hw : w ∈ visited
        · cases parent with
          | none => exact absurd hw (hnone [] w calls rfl)
          | some q =>
              by_cases hq : q ∈ visited
              · refine ⟨w :: visited, removed, ?_, fun u => List.mem_cons, fun p v => ?_⟩
                · simp [selectCallback, hw, hq]
                · grind
              · refine ⟨visited, ⟨q, w⟩ :: removed, ?_, fun u => ?_, fun p v => ?_⟩
                · simp [selectCallback, hw, hq]
                · grind
                · grind
        · refine ⟨w :: visited, removed, ?_, fun u => List.mem_cons, fun p v => ?_⟩
          · simp [selectCallback, hw]
          · grind
      have hrest : ∀ pre v post, calls = pre ++ (v, none) :: post →
          v ∉ pre.map Prod.fst ++ visited₁ := by
        intro pre v post heq hv
        refine hnone ((w, parent) :: pre) v post (heq ▸ rfl) ?_
        simp only [List.mem_append, hvisited] at hv
        simp only [List.map_cons, List.cons_append, List.mem_cons, List.mem_append]
        exact or_left_comm.mp hv
      obtain ⟨visited', removed', hfold, hremoved'⟩ := foldlM_selectCallback hrest
      refine ⟨visited', removed', ?_, fun p v => ?_⟩
      · rw [List.foldlM_cons, hturn]
        exact hfold
      · rw [hremoved', hremoved, removedAt_cons hvisited, or_right_comm]
        exact or_comm

/-! ## The calls of a walk -/

section Calls

variable {arcs : List Arc}

theorem visit_eq_some {fuel : Nat} {u : Vertex} {parent : Option Vertex} {calls : List Call}
    (h : visit arcs fuel u parent = some calls) :
    ∃ fuel' left right, fuel = fuel' + 1 ∧
      gather (fun child => visit arcs fuel' child (some u)) (leftChildren arcs u) = some left ∧
      gather (fun child => visit arcs fuel' child (some u)) (rightChildren arcs u) = some right ∧
      calls = left ++ (u, parent) :: right := by
  cases fuel with
  | zero => cases h
  | succ fuel =>
      obtain ⟨left, hleft, h⟩ := Lisp.bind_inv h
      obtain ⟨right, hright, h⟩ := Lisp.bind_inv h
      cases h
      exact ⟨fuel, left, right, rfl, hleft, hright, rfl⟩

theorem mem_leftChildren {u v : Vertex} : v ∈ leftChildren arcs u ↔ edge arcs u v ∧ v < u := by
  rw [leftChildren, List.mem_filter, mem_outgoing, decide_eq_true_eq]

theorem mem_rightChildren {u v : Vertex} : v ∈ rightChildren arcs u ↔ edge arcs u v ∧ u < v := by
  rw [rightChildren, List.mem_filter, mem_outgoing, decide_eq_true_eq]

/-- The vertices that are called are those that can be reached. -/
theorem mem_visit_fst (hac : Acyclic (edge arcs)) {fuel : Nat} {u : Vertex}
    {parent : Option Vertex} {calls : List Call} (h : visit arcs fuel u parent = some calls)
    {x : Vertex} : x ∈ calls.map Prod.fst ↔ ReflTransGen (edge arcs) u x := by
  have hbelow : Below (leftChildren arcs) (rightChildren arcs) = edge arcs := by
    funext u v
    exact propext (below_iff hac)
  have hwalk : (visit arcs fuel u parent).map (List.map Prod.fst) =
      walk (leftChildren arcs) (rightChildren arcs) fuel u := visit_map_fst fuel u parent
  rw [h] at hwalk
  rw [mem_walk hwalk.symm, hbelow]

theorem mem_gather_fst (hac : Acyclic (edge arcs)) {fuel : Nat} {u : Vertex} {cs : List Vertex}
    {n : List Call} (h : gather (fun child => visit arcs fuel child (some u)) cs = some n)
    {x : Vertex} : x ∈ n.map Prod.fst ↔ ∃ c ∈ cs, ReflTransGen (edge arcs) c x := by
  rw [List.mem_map]
  constructor
  · rintro ⟨call, hcall, rfl⟩
    obtain ⟨c, hc, l, hl, hcall⟩ := (mem_gather h).mp hcall
    exact ⟨c, hc, (mem_visit_fst hac hl).mp (List.mem_map_of_mem hcall)⟩
  · rintro ⟨c, hc, hpath⟩
    obtain ⟨l, hl⟩ := exists_of_gather h hc
    obtain ⟨call, hcall, rfl⟩ := List.mem_map.mp ((mem_visit_fst hac hl).mpr hpath)
    exact ⟨call, (mem_gather h).mpr ⟨c, hc, l, hl, hcall⟩, rfl⟩

/-- Every call but that of the vertex itself comes from a vertex that is called. -/
theorem parent_of_mem_visit : ∀ {fuel : Nat} {u : Vertex}
    {parent : Option Vertex} {calls : List Call}, visit arcs fuel u parent = some calls →
    ∀ {call : Call}, call ∈ calls → call = (u, parent) ∨
      ∃ p, call.2 = some p ∧ ReflTransGen (edge arcs) u p ∧ edge arcs p call.1 := by
  intro fuel
  induction fuel with
  | zero =>
      intro u parent calls h
      cases h
  | succ fuel ih =>
      intro u parent calls h call hcall
      obtain ⟨_, left, right, hfuel, hleft, hright, rfl⟩ := visit_eq_some h
      cases hfuel
      have hside : ∀ {cs : List Vertex} {n : List Call}, (∀ c ∈ cs, edge arcs u c) →
          gather (fun child => visit arcs fuel child (some u)) cs = some n → call ∈ n →
          ∃ p, call.2 = some p ∧ ReflTransGen (edge arcs) u p ∧ edge arcs p call.1 := by
        intro cs n hcs hn hmem
        obtain ⟨c, hc, l, hl, hcall⟩ := (mem_gather hn).mp hmem
        cases ih hl hcall with
        | inl heq => exact ⟨u, heq ▸ rfl, .refl, heq ▸ hcs c hc⟩
        | inr hbelow =>
            obtain ⟨p, hp, hpath, hedge⟩ := hbelow
            exact ⟨p, hp, .head (hcs c hc) hpath, hedge⟩
      rcases List.mem_append.mp hcall with hmem | hmem
      · exact Or.inr (hside (fun c hc => (mem_leftChildren.mp hc).1) hleft hmem)
      · rcases List.mem_cons.mp hmem with rfl | hmem
        · exact Or.inl rfl
        · exact Or.inr (hside (fun c hc => (mem_rightChildren.mp hc).1) hright hmem)

/-- A call from `p` is below `p`. -/
theorem reach_of_mem_visit {fuel : Nat} {u : Vertex} {parent : Option Vertex}
    {calls : List Call} (h : visit arcs fuel u parent = some calls)
    {p v : Vertex} (hmem : (v, some p) ∈ calls) (hne : (v, some p) ≠ (u, parent)) :
    ReflTransGen (edge arcs) u p := by
  obtain heq | ⟨q, hq, hpath, -⟩ := parent_of_mem_visit h hmem
  · exact absurd heq hne
  · cases hq
    exact hpath

/-! ## The first call of a vertex -/

/-- On the way down from a vertex, always to the smallest child from which `v` can be
reached, the last vertex before `v` is the other one. -/
inductive FirstMet (arcs : List Arc) (v : Vertex) : Vertex → Vertex → Prop
  | here {u : Vertex} : edge arcs u v →
      (∀ c, edge arcs u c → ReflTransGen (edge arcs) c v → v ≤ c) → FirstMet arcs v u u
  | down {u c p : Vertex} : edge arcs u c → c ≠ v → ReflTransGen (edge arcs) c v →
      (∀ d, edge arcs u d → ReflTransGen (edge arcs) d v → c ≤ d) →
      FirstMet arcs v c p → FirstMet arcs v u p

theorem FirstMet.edge {v u p : Vertex} (h : FirstMet arcs v u p) :
    ShiftReduce.edge arcs p v := by
  induction h with
  | here huv _ => exact huv
  | down _ _ _ _ _ ih => exact ih

theorem FirstMet.unique {v u p q : Vertex} (h : FirstMet arcs v u p) (h' : FirstMet arcs v u q) :
    p = q := by
  induction h with
  | here huv hleast =>
      cases h' with
      | here _ _ => rfl
      | down huc hne hcv hleast' _ =>
          exact absurd (le_antisymm (hleast' _ huv .refl) (hleast _ huc hcv)) hne
  | down huc hne hcv hleast _ ih =>
      cases h' with
      | here huv hleast' =>
          exact absurd (le_antisymm (hleast _ huv .refl) (hleast' _ huc hcv)) hne
      | down hud _ hdv hleast' hrest =>
          rw [le_antisymm (hleast' _ huc hcv) (hleast _ hud hdv)] at hrest
          exact ih hrest

/-- The children of a vertex in the order of the walk. -/
theorem children_pairwise (arcs : List Arc) (u : Vertex) :
    (leftChildren arcs u ++ rightChildren arcs u).Pairwise (· ≤ ·) := by
  have hsorted : ((outgoingArcs arcs u).map Arc.child).Pairwise (· ≤ ·) := by
    have htotal : Std.Total fun a b : Arc => a.child ≤ b.child :=
      ⟨fun a b => le_total a.child b.child⟩
    have htrans : IsTrans Arc fun a b => a.child ≤ b.child := ⟨fun _ _ _ hab hbc => hab.trans hbc⟩
    exact List.pairwise_map.mpr (List.pairwise_insertionSort _ _)
  refine List.pairwise_append.mpr ⟨hsorted.filter _, hsorted.filter _, fun a ha b hb => ?_⟩
  exact ((mem_leftChildren.mp ha).2.trans (mem_rightChildren.mp hb).2).le

theorem find?_eq_none_iff {calls : List Call} {v : Vertex} :
    calls.find? (fun call => call.1 = v) = none ↔ v ∉ calls.map Prod.fst := by
  simp only [List.find?_eq_none, decide_eq_true_eq, List.mem_map, not_exists, not_and]

/-- Among the walks from the children, a vertex is called first in the walk from the smallest
child from which it can be reached. -/
theorem find?_gather (hac : Acyclic (edge arcs)) {fuel : Nat} {u v : Vertex} :
    ∀ {cs : List Vertex} {n : List Call},
      gather (fun child => visit arcs fuel child (some u)) cs = some n → cs.Pairwise (· ≤ ·) →
      (∃ c ∈ cs, ReflTransGen (edge arcs) c v) →
      ∃ c ∈ cs, ReflTransGen (edge arcs) c v ∧
        (∀ d ∈ cs, ReflTransGen (edge arcs) d v → c ≤ d) ∧
        ∃ l, visit arcs fuel c (some u) = some l ∧
          n.find? (fun call => call.1 = v) = l.find? fun call => call.1 = v
  | [], _, _, _, hreach => by
      obtain ⟨_, hc, -⟩ := hreach
      cases hc
  | c :: cs, n, h, hsorted, hreach => by
      obtain ⟨l, m, hl, hm, rfl⟩ := gather_cons_eq_some.mp h
      obtain ⟨hleast, hsorted⟩ := List.pairwise_cons.mp hsorted
      by_cases hcv : ReflTransGen (edge arcs) c v
      · refine ⟨c, List.mem_cons_self .., hcv, fun d hd _ => ?_, l, hl, ?_⟩
        · cases List.mem_cons.mp hd with
          | inl heq => exact heq ▸ le_rfl
          | inr hmem => exact hleast d hmem
        · have hfound : l.find? (fun call => call.1 = v) ≠ none := fun hnone =>
            find?_eq_none_iff.mp hnone ((mem_visit_fst hac hl).mpr hcv)
          obtain ⟨call, hcall⟩ := Option.ne_none_iff_exists'.mp hfound
          rw [List.find?_append, hcall]
          rfl
      · have hnone : l.find? (fun call => call.1 = v) = none :=
          find?_eq_none_iff.mpr fun hmem => hcv ((mem_visit_fst hac hl).mp hmem)
        obtain ⟨d, hd, hdv⟩ := hreach
        have hdcs : d ∈ cs := (List.mem_cons.mp hd).resolve_left fun heq => hcv (heq ▸ hdv)
        obtain ⟨e, he, hev, hleast', k, hk, hfind⟩ := find?_gather hac hm hsorted ⟨d, hdcs, hdv⟩
        refine ⟨e, List.mem_cons_of_mem c he, hev, fun d hd hdv => ?_, k, hk, ?_⟩
        · exact hleast' d ((List.mem_cons.mp hd).resolve_left fun heq => hcv (heq ▸ hdv)) hdv
        · rw [List.find?_append, hnone, Option.none_or, hfind]

/-- The first call of a vertex comes from where it is first met. -/
theorem first_call (hac : Acyclic (edge arcs)) {v : Vertex} : ∀ {fuel : Nat} {u : Vertex}
    {parent : Option Vertex} {calls : List Call}, visit arcs fuel u parent = some calls →
    u ≠ v → ReflTransGen (edge arcs) u v →
    ∃ p, FirstMet arcs v u p ∧ calls.find? (fun call => call.1 = v) = some (v, some p) := by
  intro fuel
  induction fuel with
  | zero =>
      intro u parent calls h
      cases h
  | succ fuel ih =>
      intro u parent calls h hne hreach
      obtain ⟨_, left, right, hfuel, hleft, hright, rfl⟩ := visit_eq_some h
      cases hfuel
      have hchild : ∀ {c}, c ∈ leftChildren arcs u ++ rightChildren arcs u ↔ edge arcs u c :=
        fun {c} => List.mem_append.trans (below_iff hac)
      obtain ⟨c, hc, hcv, hleast, l, hl, hfind⟩ :=
        find?_gather hac (gather_append_eq_some hleft hright) (children_pairwise arcs u) <| by
          obtain heq | ⟨c, huc, hcv⟩ := hreach.cases_head
          · exact absurd heq hne
          · exact ⟨c, hchild.mpr huc, hcv⟩
      have hskip : (left ++ (u, parent) :: right).find? (fun call => call.1 = v) =
          (left ++ right).find? fun call => call.1 = v := by
        rw [List.find?_append, List.find?_append, List.find?_cons_of_neg (by simpa using hne)]
      have hleast' : ∀ d, edge arcs u d → ReflTransGen (edge arcs) d v → c ≤ d :=
        fun d hud => hleast d (hchild.mpr hud)
      rw [hskip, hfind]
      by_cases hcv' : c = v
      · subst hcv'
        refine ⟨u, .here (hchild.mp hc) hleast', ?_⟩
        obtain ⟨_, left', right', -, hleft', -, rfl⟩ := visit_eq_some hl
        have hnone : left'.find? (fun call => call.1 = c) = none := by
          refine find?_eq_none_iff.mpr fun hmem => ?_
          obtain ⟨d, hd, hdc⟩ := (mem_gather_fst hac hleft').mp hmem
          exact hac c (.head' (mem_leftChildren.mp hd).1 hdc)
        rw [List.find?_append, hnone, Option.none_or]
        exact List.find?_cons_of_pos (decide_eq_true rfl)
      · obtain ⟨p, hmet, hfirst⟩ := ih hl hcv' hcv
        exact ⟨p, .down (hchild.mp hc) hcv' hcv hleast' hmet, hfirst⟩

/-! ## The calls before a vertex -/

/-- The calls before the first one of the vertex. -/
def callsBefore (p : Vertex) (calls : List Call) : List Call :=
  calls.takeWhile fun call => call.1 ≠ p

theorem callsBefore_cons_self (p : Vertex) (parent : Option Vertex) (m : List Call) :
    callsBefore p ((p, parent) :: m) = [] :=
  List.takeWhile_cons_of_neg (by simp)

theorem callsBefore_cons_of_ne {p : Vertex} {call : Call} (h : call.1 ≠ p) (m : List Call) :
    callsBefore p (call :: m) = call :: callsBefore p m :=
  List.takeWhile_cons_of_pos (decide_eq_true h)

theorem callsBefore_append_of_mem {p : Vertex} : ∀ {l : List Call} (m : List Call),
    p ∈ l.map Prod.fst → callsBefore p (l ++ m) = callsBefore p l
  | [], _, h => by cases h
  | (w, parent) :: l, m, h => by
      rw [List.cons_append]
      by_cases hw : w = p
      · rw [hw, callsBefore_cons_self, callsBefore_cons_self]
      · have hmem : p ∈ l.map Prod.fst := (List.mem_cons.mp h).resolve_left fun heq => hw heq.symm
        rw [callsBefore_cons_of_ne hw, callsBefore_cons_of_ne hw,
          callsBefore_append_of_mem m hmem]

theorem callsBefore_append_of_notMem {p : Vertex} {l : List Call} (m : List Call)
    (h : p ∉ l.map Prod.fst) : callsBefore p (l ++ m) = l ++ callsBefore p m := by
  refine List.takeWhile_append_of_pos fun call hcall => decide_eq_true fun heq => ?_
  exact h (heq ▸ List.mem_map_of_mem hcall)

/-- There are no calls from `p` where `p` is not reached. -/
theorem notMem_gather {fuel : Nat} {u p : Vertex} {cs : List Vertex} {n : List Call}
    (h : gather (fun child => visit arcs fuel child (some u)) cs = some n) (hne : u ≠ p)
    (hreach : ∀ c ∈ cs, ¬ReflTransGen (edge arcs) c p) (v : Vertex) : (v, some p) ∉ n := by
  intro hmem
  obtain ⟨c, hc, l, hl, hmem⟩ := (mem_gather h).mp hmem
  refine hreach c hc (reach_of_mem_visit hl hmem fun heq => hne ?_)
  exact Option.some.inj (congrArg Prod.snd heq).symm

/-- In the walk from a child of `p`, the child itself is the only call from `p`. -/
theorem count_visit_child (hac : Acyclic (edge arcs)) {fuel : Nat} {p c v : Vertex}
    {calls : List Call} (hpc : edge arcs p c) (h : visit arcs fuel c (some p) = some calls) :
    calls.count (v, some p) = if c = v then 1 else 0 := by
  obtain ⟨_, left, right, -, hleft, hright, rfl⟩ := visit_eq_some h
  have hne : c ≠ p := (hac.ne hpc).symm
  have hback : ∀ d, edge arcs c d → ¬ReflTransGen (edge arcs) d p :=
    fun d hcd hdp => hac p (.head hpc (.head' hcd hdp))
  have hleftNone := notMem_gather hleft hne (fun d hd => hback d (mem_leftChildren.mp hd).1) v
  have hrightNone := notMem_gather hright hne (fun d hd => hback d (mem_rightChildren.mp hd).1) v
  rw [List.count_append, List.count_cons, List.count_eq_zero.mpr hleftNone,
    List.count_eq_zero.mpr hrightNone]
  simp

/-- In the walks from children of `p`, the calls from `p` are those of the children. -/
theorem count_gather_children (hac : Acyclic (edge arcs)) {fuel : Nat} {p v : Vertex} :
    ∀ {cs : List Vertex} {n : List Call}, (∀ c ∈ cs, edge arcs p c) →
      gather (fun child => visit arcs fuel child (some p)) cs = some n →
      n.count (v, some p) = cs.count v
  | [], _, _, h => by
      cases h
      rfl
  | c :: cs, n, hcs, h => by
      obtain ⟨l, m, hl, hm, rfl⟩ := gather_cons_eq_some.mp h
      rw [List.count_append, count_visit_child hac (hcs c (List.mem_cons_self ..)) hl,
        count_gather_children hac (fun d hd => hcs d (List.mem_cons_of_mem c hd)) hm,
        List.count_cons, Nat.add_comm]
      simp

/-- Among the walks from the children of another vertex, the first one that reaches `p` has
the calls before `p`. -/
theorem count_callsBefore_gather (hac : Acyclic (edge arcs)) {fuel k : Nat} {u p v : Vertex}
    (hne : u ≠ p) : ∀ {cs : List Vertex} {n : List Call},
      gather (fun child => visit arcs fuel child (some u)) cs = some n →
      (∀ c ∈ cs, ReflTransGen (edge arcs) c p → ∀ l, visit arcs fuel c (some u) = some l →
        (callsBefore p l).count (v, some p) = k) →
      p ∈ n.map Prod.fst → (callsBefore p n).count (v, some p) = k
  | [], _, h, _, hp => by
      cases h
      cases hp
  | c :: cs, n, h, hcs, hp => by
      obtain ⟨l, m, hl, hm, rfl⟩ := gather_cons_eq_some.mp h
      by_cases hcp : ReflTransGen (edge arcs) c p
      · rw [callsBefore_append_of_mem m ((mem_visit_fst hac hl).mpr hcp)]
        exact hcs c (List.mem_cons_self ..) hcp l hl
      · have hpl : p ∉ l.map Prod.fst := fun hmem => hcp ((mem_visit_fst hac hl).mp hmem)
        have hnone : (v, some p) ∉ l := fun hmem => hcp <|
          reach_of_mem_visit hl hmem fun heq => hne (Option.some.inj (congrArg Prod.snd heq).symm)
        have hpm : p ∈ m.map Prod.fst := by
          rw [List.map_append] at hp
          exact (List.mem_append.mp hp).resolve_left hpl
        rw [callsBefore_append_of_notMem m hpl, List.count_append, List.count_eq_zero.mpr hnone,
          Nat.zero_add]
        exact count_callsBefore_gather hac hne hm
          (fun d hd => hcs d (List.mem_cons_of_mem c hd)) hpm

/-- Before `p` is called, its smaller children are called from it, each as often as its arc is
listed, and none of the greater ones. -/
theorem count_callsBefore (hac : Acyclic (edge arcs)) {p v : Vertex} (hpv : edge arcs p v) :
    ∀ {fuel : Nat} {u : Vertex} {parent : Option Vertex} {calls : List Call},
      visit arcs fuel u parent = some calls → ReflTransGen (edge arcs) u p →
      (callsBefore p calls).count (v, some p) = (leftChildren arcs p).count v := by
  intro fuel
  induction fuel with
  | zero =>
      intro u parent calls h
      cases h
  | succ fuel ih =>
      intro u parent calls h hreach
      obtain ⟨_, left, right, hfuel, hleft, hright, rfl⟩ := visit_eq_some h
      cases hfuel
      by_cases hup : u = p
      · subst hup
        have hnone : u ∉ left.map Prod.fst := by
          intro hmem
          obtain ⟨c, hc, hcu⟩ := (mem_gather_fst hac hleft).mp hmem
          exact hac u (.head' (mem_leftChildren.mp hc).1 hcu)
        rw [callsBefore_append_of_notMem _ hnone, callsBefore_cons_self, List.append_nil]
        exact count_gather_children hac (fun c hc => (mem_leftChildren.mp hc).1) hleft
      · by_cases hpleft : p ∈ left.map Prod.fst
        · rw [callsBefore_append_of_mem _ hpleft]
          exact count_callsBefore_gather hac hup hleft (fun c _ hcp l hl => ih hl hcp) hpleft
        · -- The vertex itself is not `v`, from which `p` is not reached.
          have hself : (v, some p) ≠ (u, parent) := by
            rintro heq
            obtain ⟨rfl, -⟩ := Prod.mk.inj heq
            exact hac p (.head' hpv hreach)
          have hleftNone : (v, some p) ∉ left := by
            refine notMem_gather hleft hup (fun c hc hcp => hpleft ?_) v
            exact (mem_gather_fst hac hleft).mpr ⟨c, hc, hcp⟩
          have hpright : p ∈ right.map Prod.fst := by
            have hmem := (mem_visit_fst hac h).mpr hreach
            rw [List.map_append, List.map_cons] at hmem
            cases List.mem_append.mp hmem with
            | inl hl => exact absurd hl hpleft
            | inr hr => exact (List.mem_cons.mp hr).resolve_left fun heq => hup heq.symm
          rw [callsBefore_append_of_notMem _ hpleft, callsBefore_cons_of_ne hup, List.count_append,
            List.count_cons_of_ne hself.symm, List.count_eq_zero.mpr hleftNone, Nat.zero_add]
          exact count_callsBefore_gather hac hup hright (fun c _ hcp l hl => ih hl hcp) hpright

/-! ## The removed arcs -/

/-- An arc is removed if it leads to a smaller child, unless the child is first met over it and
it is listed once. -/
theorem removedAt_iff (hac : Acyclic (edge arcs)) {r p v : Vertex} {fuel : Nat}
    {calls : List Call} (hcalls : visit arcs fuel r none = some calls) (hne : r ≠ v)
    (hrp : ReflTransGen (edge arcs) r p) (hpv : edge arcs p v) :
    RemovedAt calls [] p v ↔
      v ∈ leftChildren arcs p ∧ ¬((leftChildren arcs p).count v = 1 ∧ FirstMet arcs v r p) := by
  have hcount := count_callsBefore hac hpv hcalls hrp
  obtain ⟨q, hmet, hfirst⟩ := first_call hac hcalls hne (hrp.tail hpv)
  constructor
  · rintro ⟨pre, post, rfl, hv, hp⟩
    rw [List.append_nil] at hv hp
    have hvp : v ≠ p := (hac.ne hpv).symm
    rw [callsBefore_append_of_notMem _ hp, callsBefore_cons_of_ne hvp, List.count_append,
      List.count_cons_self] at hcount
    refine ⟨List.count_pos_iff.mp (by omega), fun ⟨hone, hmet'⟩ => ?_⟩
    -- Then the call before, which comes from `p` as well, would be a second one.
    have hfound : pre.find? (fun call => call.1 = v) = some (v, some p) := by
      obtain ⟨call, hcall⟩ :=
        Option.ne_none_iff_exists'.mp fun hnone => find?_eq_none_iff.mp hnone hv
      rw [List.find?_append, hcall, Option.some_or] at hfirst
      rw [hcall, hfirst, hmet.unique hmet']
    have hpos := List.count_pos_iff.mpr (List.mem_of_find?_eq_some hfound)
    omega
  · rintro ⟨hleft, hnot⟩
    have hpos := List.count_pos_iff.mpr hleft
    have hmem : (v, some p) ∈ callsBefore p calls := List.count_pos_iff.mp (hcount ▸ hpos)
    obtain ⟨pre, post, hsplit, hnew⟩ := List.eq_append_cons_of_mem hmem
    obtain ⟨rest, hrest⟩ : ∃ rest, calls = callsBefore p calls ++ rest :=
      ⟨_, List.takeWhile_append_dropWhile.symm⟩
    have hbefore : ∀ call ∈ callsBefore p calls, call.1 ≠ p := by
      intro call hcall
      have htest := List.mem_takeWhile_imp hcall
      exact of_decide_eq_true htest
    by_cases hv : v ∈ pre.map Prod.fst
    · refine ⟨pre, post ++ rest, ?_, by simpa using hv, ?_⟩
      · calc calls = callsBefore p calls ++ rest := hrest
          _ = pre ++ (v, some p) :: (post ++ rest) := by
            rw [hsplit, List.append_assoc, List.cons_append]
      · intro hp
        rw [List.append_nil] at hp
        obtain ⟨call, hcall, heq⟩ := List.mem_map.mp hp
        exact hbefore call (hsplit ▸ List.mem_append_left _ hcall) heq
    · -- It is the first call of `v`, so there is a second one before `p` is called.
      have hqp : q = p := by
        rw [hrest, hsplit, List.append_assoc, List.find?_append, find?_eq_none_iff.mpr hv,
          Option.none_or, List.cons_append, List.find?_cons_of_pos (by simp)] at hfirst
        cases hfirst
        rfl
      have htwo : (leftChildren arcs p).count v ≠ 1 := fun hone => hnot ⟨hone, hqp ▸ hmet⟩
      rw [hsplit, List.count_append, List.count_eq_zero.mpr hnew, List.count_cons_self] at hcount
      have hagain : (v, some p) ∈ post := List.count_pos_iff.mp (by omega)
      obtain ⟨pre', post', rfl⟩ := List.append_of_mem hagain
      refine ⟨pre ++ (v, some p) :: pre', post' ++ rest, ?_, by simp, ?_⟩
      · calc calls = callsBefore p calls ++ rest := hrest
          _ = pre ++ (v, some p) :: pre' ++ (v, some p) :: (post' ++ rest) := by
            rw [hsplit]
            simp
      · intro hp
        rw [List.append_nil] at hp
        obtain ⟨call, hcall, heq⟩ := List.mem_map.mp hp
        refine hbefore call (hsplit ▸ ?_) heq
        simp only [List.mem_append, List.mem_cons] at hcall ⊢
        tauto

/-- A smaller child is listed as often as its arc. -/
theorem count_leftChildren {p v : Vertex} (hlt : v < p) :
    (leftChildren arcs p).count v = arcs.count ⟨p, v⟩ := by
  have hperm : ((outgoingArcs arcs p).map Arc.child).Perm
      ((arcs.filter fun arc => arc.parent = p).map Arc.child) :=
    (List.perm_insertionSort _ _).map Arc.child
  rw [leftChildren, List.count_filter (by simpa using hlt), hperm.count_eq]
  clear hperm
  induction arcs with
  | nil => rfl
  | cons arc arcs ih =>
      obtain ⟨q, w⟩ := arc
      rw [List.count_cons, ← ih]
      by_cases hq : q = p
      · subst hq
        simp [List.count_cons]
      · simp [hq]

end Calls

/-! ## The arcs that are left -/

/-- A graph without cycles in which the root is the only vertex without a parent. -/
structure RootedDag (arcs : List Arc) (r : Vertex) : Prop where
  acyclic : Acyclic (edge arcs)
  root_mem : r ∈ listVertices arcs
  root_notMem : r ∉ arcs.map Arc.child
  unique : ∀ v ∈ listVertices arcs, v ∉ arcs.map Arc.child → v = r

/-- What is to be left: some of the arcs, one into every vertex but the root, and paths from
the root to all of them. -/
def LeavesTree (arcs : List Arc) (r : Vertex) (tree : List Arc) : Prop :=
  (∀ arc ∈ tree, arc ∈ arcs) ∧
    ∀ v ∈ listVertices arcs, v ≠ r → (∃! p, edge tree p v) ∧ TransGen (edge tree) r v

/-- Either all parents are greater, and the vertex is met first over an arc that is listed
once.  Or one parent is smaller, and the vertex is met first from it, or over an arc that is
listed more than once. -/
def MetOnce (arcs : List Arc) (r v : Vertex) : Prop :=
  (∀ p, edge arcs p v → v < p) ∧ (∀ p, FirstMet arcs v r p → arcs.count ⟨p, v⟩ = 1) ∨
    (∃! p, edge arcs p v ∧ p < v) ∧ ∀ p, FirstMet arcs v r p → p < v ∨ arcs.count ⟨p, v⟩ ≠ 1

namespace RootedDag

variable {arcs tree : List Arc} {r : Vertex}

theorem root_ne (h : RootedDag arcs r) {p v : Vertex} (hpv : edge arcs p v) : r ≠ v :=
  fun heq => h.root_notMem (heq ▸ hpv.child_mem)

theorem reach (h : RootedDag arcs r) :
    ∀ v ∈ listVertices arcs, ReflTransGen (edge arcs) r v := by
  refine h.acyclic.induction_on (List.finite_toSet (listVertices arcs)) fun v hv ih => ?_
  by_cases hchild : v ∈ arcs.map Arc.child
  · obtain ⟨u, hu⟩ := exists_edge hchild
    exact (ih u hu.parent_mem hu).tail hu
  · exact h.unique v hv hchild ▸ .refl

/-- The root is called once. -/
theorem count_root (hac : Acyclic (edge arcs)) {fuel : Nat} {calls : List Call}
    (h : visit arcs fuel r none = some calls) : (calls.map Prod.fst).count r = 1 := by
  obtain ⟨_, left, right, -, hleft, hright, rfl⟩ := visit_eq_some h
  have hback : ∀ c, edge arcs r c → ¬ReflTransGen (edge arcs) c r :=
    fun c hrc hcr => hac r (.head' hrc hcr)
  have hleftNone : r ∉ left.map Prod.fst := fun hmem =>
    have ⟨c, hc, hcr⟩ := (mem_gather_fst hac hleft).mp hmem
    hback c (mem_leftChildren.mp hc).1 hcr
  have hrightNone : r ∉ right.map Prod.fst := fun hmem =>
    have ⟨c, hc, hcr⟩ := (mem_gather_fst hac hright).mp hmem
    hback c (mem_rightChildren.mp hc).1 hcr
  rw [List.map_append, List.map_cons, List.count_append, List.count_cons_self,
    List.count_eq_zero.mpr hleftNone, List.count_eq_zero.mpr hrightNone]

/-- Only the root is called without a parent, so the callback signals no error. -/
theorem notMem_of_split (hac : Acyclic (edge arcs)) {fuel : Nat} {pre post : List Call}
    {v : Vertex} (h : visit arcs fuel r none = some (pre ++ (v, none) :: post)) :
    v ∉ pre.map Prod.fst := by
  obtain heq | ⟨p, hp, -⟩ := parent_of_mem_visit h (List.mem_append_right _ (List.mem_cons_self ..))
  · cases heq
    have hcount := count_root hac h
    rw [List.map_append, List.map_cons, List.count_append, List.count_cons_self] at hcount
    exact List.count_eq_zero.mp (by omega)
  · cases hp

/-- The walk ends, and removes the arcs that are not left. -/
theorem exists_select (h : RootedDag arcs r) :
    ∃ tree n, (∀ fuel, n ≤ fuel → selectOnlyTreeArborescenceArcList fuel arcs = some tree) ∧
      (∀ p v, edge tree p v ↔
        edge arcs p v ∧ (p < v ∨ arcs.count ⟨p, v⟩ = 1 ∧ FirstMet arcs v r p)) ∧
      ∃ fuel calls, visit arcs fuel r none = some calls := by
  have hbelow : Below (leftChildren arcs) (rightChildren arcs) = edge arcs := by
    funext u v
    exact propext (below_iff h.acyclic)
  have hac : Acyclic (Below (leftChildren arcs) (rightChildren arcs)) := hbelow ▸ h.acyclic
  obtain ⟨n, order, hwalk⟩ := exists_walk hac (List.finite_toSet (listVertices arcs))
    (fun u _ v huv => edge.mem (hbelow ▸ huv)) r h.root_mem
  -- With any fuel that is enough, the same arcs are removed.
  have hturn : ∀ fuel, n ≤ fuel → ∃ calls visited removed, visit arcs fuel r none = some calls ∧
      calls.foldlM selectCallback ([], []) = some (visited, removed) ∧
      ∀ p v, edge arcs p v →
        (⟨p, v⟩ ∉ removed ↔ p < v ∨ arcs.count ⟨p, v⟩ = 1 ∧ FirstMet arcs v r p) := by
    intro fuel hfuel
    have hvisit : (visit arcs fuel r none).map (List.map Prod.fst) = some order := by
      rw [visit_map_fst, hwalk fuel hfuel]
    obtain ⟨calls, hcalls, -⟩ := Option.map_eq_some_iff.mp hvisit
    obtain ⟨visited, removed, hfold, hremoved⟩ :=
      @foldlM_selectCallback calls [] [] <| by
        rintro pre v post rfl
        rw [List.append_nil]
        exact notMem_of_split h.acyclic hcalls
    refine ⟨calls, visited, removed, hcalls, hfold, fun p v hpv => ?_⟩
    have hnew : (⟨p, v⟩ : Arc) ∉ ([] : List Arc) := List.not_mem_nil
    rw [hremoved p v, or_iff_right hnew,
      removedAt_iff h.acyclic hcalls (h.root_ne hpv) (h.reach p hpv.parent_mem) hpv,
      mem_leftChildren]
    cases lt_or_gt_of_ne (h.acyclic.ne hpv) with
    | inl hlt => simp [hlt, hlt.le]
    | inr hgt =>
        rw [count_leftChildren hgt]
        simp [hpv, hgt, hgt.le]
  obtain ⟨calls, visited, removed, hcalls, hfold, hremoved⟩ := hturn n le_rfl
  refine ⟨arcs.filter fun arc => arc ∉ removed, n, fun fuel hfuel => ?_, fun p v => ?_,
    n, calls, hcalls⟩
  · obtain ⟨calls', visited', removed', hcalls', hfold', hremoved'⟩ := hturn fuel hfuel
    have hsame : arcs.filter (fun arc => arc ∉ removed') = arcs.filter fun arc => arc ∉ removed :=
      List.filter_congr fun arc harc => decide_eq_decide.mpr <|
        (hremoved' arc.parent arc.child harc).trans (hremoved arc.parent arc.child harc).symm
    simp only [selectOnlyTreeArborescenceArcList, callVertexInOrder,
      findRoot_eq h.root_mem h.root_notMem h.unique, hcalls', hfold', Option.bind_eq_bind,
      Option.bind_some, hsame]
  · rw [edge, List.mem_filter, decide_eq_true_eq]
    exact and_congr_right fun hpv => hremoved p v hpv

/-- One arc is left into a vertex if and only if the vertex is met once in this sense. -/
theorem existsUnique_iff (hac : Acyclic (edge arcs)) {v : Vertex}
    (hmet : ∃ p, FirstMet arcs v r p)
    (htree : ∀ p, edge tree p v ↔
      edge arcs p v ∧ (p < v ∨ arcs.count ⟨p, v⟩ = 1 ∧ FirstMet arcs v r p)) :
    (∃! p, edge tree p v) ↔ MetOnce arcs r v := by
  obtain ⟨p₀, hp₀⟩ := hmet
  constructor
  · rintro ⟨q, hq, hunique⟩
    have hleft : ∀ p, edge arcs p v → p < v → p = q :=
      fun p hpv hlt => hunique p ((htree p).mpr ⟨hpv, Or.inl hlt⟩)
    have honce : ∀ p, FirstMet arcs v r p → arcs.count ⟨p, v⟩ = 1 → p = q :=
      fun p hp hone => hunique p ((htree p).mpr ⟨hp.edge, Or.inr ⟨hone, hp⟩⟩)
    obtain ⟨hqv, hlt | ⟨hone, hqmet⟩⟩ := (htree q).mp hq
    · refine Or.inr ⟨⟨q, ⟨hqv, hlt⟩, fun p hp => hleft p hp.1 hp.2⟩, fun p hp => ?_⟩
      by_cases hcount : arcs.count ⟨p, v⟩ = 1
      · exact Or.inl (honce p hp hcount ▸ hlt)
      · exact Or.inr hcount
    · by_cases hqlt : q < v
      · refine Or.inr ⟨⟨q, ⟨hqv, hqlt⟩, fun p hp => hleft p hp.1 hp.2⟩, fun p hp => ?_⟩
        exact Or.inl (hp.unique hqmet ▸ hqlt)
      · refine Or.inl ⟨fun p hpv => ?_, fun p hp => hp.unique hqmet ▸ hone⟩
        refine (lt_or_gt_of_ne (hac.ne hpv)).resolve_left fun hlt => hqlt ?_
        exact hleft p hpv hlt ▸ hlt
  · rintro (⟨hgreater, honce⟩ | ⟨⟨q, ⟨hqv, hlt⟩, hunique⟩, hmet⟩)
    · refine ⟨p₀, (htree p₀).mpr ⟨hp₀.edge, Or.inr ⟨honce p₀ hp₀, hp₀⟩⟩, fun p hp => ?_⟩
      obtain ⟨hpv, hlt | ⟨-, hpmet⟩⟩ := (htree p).mp hp
      · exact absurd (hgreater p hpv) (not_lt_of_gt hlt)
      · exact hpmet.unique hp₀
    · refine ⟨q, (htree q).mpr ⟨hqv, Or.inl hlt⟩, fun p hp => ?_⟩
      obtain ⟨hpv, hplt | ⟨hone, hpmet⟩⟩ := (htree p).mp hp
      · exact hunique p ⟨hpv, hplt⟩
      · exact hunique p ⟨hpv, (hmet p hpmet).resolve_right fun hne => hne hone⟩

/-- With one arc into every vertex but the root, all of them are reached. -/
theorem reach_of_existsUnique (h : RootedDag arcs r) (hsub : ∀ arc ∈ tree, arc ∈ arcs)
    (hparent : ∀ v ∈ listVertices arcs, v ≠ r → ∃! p, edge tree p v) {v : Vertex}
    (hv : v ∈ listVertices arcs) (hne : v ≠ r) : TransGen (edge tree) r v := by
  have hedge : ∀ {p v}, edge tree p v → edge arcs p v := fun hpv => hsub _ hpv
  let others : Set Vertex := {v | v ∈ listVertices arcs ∧ v ≠ r}
  have hspanning : Spanning (edge tree) r others := by
    refine Spanning.of_acyclic ((List.finite_toSet (listVertices arcs)).subset fun v hv => hv.1)
      (fun hr => hr.2 rfl) (h.acyclic.mono fun p v hpv => hedge hpv) ?_ ?_ ?_ ?_
    · intro p v hpv
      by_cases hp : p = r
      · exact Or.inl hp
      · exact Or.inr ⟨(hedge hpv).parent_mem, hp⟩
    · exact fun {p v} hpv => ⟨(hedge hpv).mem, (h.root_ne (hedge hpv)).symm⟩
    · exact fun {v} hv => (hparent v hv.1 hv.2).exists
    · intro p q v hpv hqv
      exact (hparent v (hedge hpv).mem (h.root_ne (hedge hpv)).symm).unique hpv hqv
  exact hspanning.reach ⟨hv, hne⟩

end RootedDag

/-- The function returns, and what it returns is a tree if and only if every vertex but the
root is met once in this sense. -/
theorem selectOnlyTree_iff {arcs : List Arc} {r : Vertex} (h : RootedDag arcs r) :
    ∃ tree n, (∀ fuel, n ≤ fuel → selectOnlyTreeArborescenceArcList fuel arcs = some tree) ∧
      (LeavesTree arcs r tree ↔ ∀ v ∈ listVertices arcs, v ≠ r → MetOnce arcs r v) := by
  obtain ⟨tree, n, hselect, htree, fuel, calls, hcalls⟩ := h.exists_select
  have hmet : ∀ v ∈ listVertices arcs, v ≠ r → ∃ p, FirstMet arcs v r p := fun v hv hne =>
    have ⟨p, hp, _⟩ := first_call h.acyclic hcalls hne.symm (h.reach v hv)
    ⟨p, hp⟩
  have hunique : ∀ v ∈ listVertices arcs, v ≠ r → ((∃! p, edge tree p v) ↔ MetOnce arcs r v) :=
    fun v hv hne => RootedDag.existsUnique_iff h.acyclic (hmet v hv hne) fun p => htree p v
  have hsub : ∀ arc ∈ tree, arc ∈ arcs := fun arc harc => ((htree arc.parent arc.child).mp harc).1
  refine ⟨tree, n, hselect, fun hleaves v hv hne => ?_, fun honce => ⟨hsub, fun v hv hne => ?_⟩⟩
  · exact (hunique v hv hne).mp (hleaves.2 v hv hne).1
  · have hparent : ∀ v ∈ listVertices arcs, v ≠ r → ∃! p, edge tree p v :=
      fun v hv hne => (hunique v hv hne).mpr (honce v hv hne)
    exact ⟨hparent v hv hne, h.reach_of_existsUnique hsub hparent hv hne⟩

/-- A vertex with two smaller parents. -/
def triangle : List Arc := [⟨0, 1⟩, ⟨0, 2⟩, ⟨1, 2⟩]

theorem rootedDag_triangle : RootedDag triangle 0 where
  acyclic := by
    refine Acyclic.of_rank (fun v => v) fun u v huv => ?_
    simp only [edge, triangle, List.mem_cons, List.not_mem_nil, or_false, Arc.mk.injEq] at huv
    rcases huv with ⟨rfl, rfl⟩ | ⟨rfl, rfl⟩ | ⟨rfl, rfl⟩
    · decide
    · decide
    · decide
  root_mem := by decide
  root_notMem := by decide
  unique := by
    have hvertices : listVertices triangle = [0, 1, 2] := by decide
    rw [hvertices]
    decide

/-- No arc is removed from it. -/
example : selectOnlyTreeArborescenceArcList 4 triangle = some triangle := by decide

theorem selectOnlyTree_iff_triangle : ∃ tree n,
    (∀ fuel, n ≤ fuel → selectOnlyTreeArborescenceArcList fuel triangle = some tree) ∧
      (LeavesTree triangle 0 tree ↔
        ∀ v ∈ listVertices triangle, v ≠ 0 → MetOnce triangle 0 v) :=
  selectOnlyTree_iff rootedDag_triangle

/-- Two arcs are left into the vertex with two smaller parents. -/
theorem not_selectOnlyTree :
    ¬∀ (arcs : List Arc) (r : Vertex), RootedDag arcs r →
      ∃ tree n, (∀ fuel, n ≤ fuel → selectOnlyTreeArborescenceArcList fuel arcs = some tree) ∧
        LeavesTree arcs r tree := by
  intro h
  obtain ⟨tree, n, hselect, -, hleaves⟩ := h triangle 0 rootedDag_triangle
  obtain ⟨tree', m, hselect', htree, -⟩ := rootedDag_triangle.exists_select
  have heq : tree' = tree := by
    have hleft := hselect' (max n m) (Nat.le_max_right n m)
    rw [hselect (max n m) (Nat.le_max_left n m)] at hleft
    exact (Option.some.inj hleft).symm
  subst heq
  have hunique := (hleaves 2 (by decide) (by decide)).1
  have hzero : edge tree' 0 2 := (htree 0 2).mpr
    ⟨show (⟨0, 2⟩ : Arc) ∈ triangle by decide, Or.inl (by decide)⟩
  have hone : edge tree' 1 2 := (htree 1 2).mpr
    ⟨show (⟨1, 2⟩ : Arc) ∈ triangle by decide, Or.inl (by decide)⟩
  exact absurd (hunique.unique hzero hone) (by decide)

end Hachee.DependencyParsing.ShiftReduce
