import Hachee.DependencyParsing.EasyFirst
import Hachee.Foundation.Arborescence
import Hachee.Foundation.Ascents
import Hachee.Foundation.Loop
import Mathlib.Algebra.Order.Ring.Int

/-!
# What the easy-first parser returns

The pending nodes and the sources of the arcs are the nodes of the input, and each
turn keeps this (`Invariant.step`).  The target of a new arc is pending, so it is the
source of no arc, and the arcs stay without cycles.

A move keeps the number of pending nodes.  But it exchanges two neighbours in
increasing order, so it removes an ascent of the list of pending nodes, and an
attachment makes no new one.  Thus the ascents and the pending nodes together bound
the number of turns (`Change.potential_lt`).

`parse` returns the arcs of the configuration before the last one.  One node is still
pending there besides the root, and the only action is to attach it to the root.
Hence the arcs and this one are a tree (`parse_spanning`).
-/

namespace Hachee.DependencyParsing.EasyFirst

open Foundation Arborescence Ascents

/-! ## Edges -/

/-- The graph whose edges lead from the target of an arc to its source. -/
def edge (arcs : List Arc) (u v : Node) : Prop := { source := v, target := u } ∈ arcs

theorem edge_cons {arcs : List Arc} {s t u v : Node} :
    edge (⟨s, t⟩ :: arcs) u v ↔ u = t ∧ v = s ∨ edge arcs u v := by
  simp [edge, and_comm]

theorem edge.source_mem {arcs : List Arc} {u v : Node} (h : edge arcs u v) :
    v ∈ arcs.map Arc.source :=
  List.mem_map.mpr ⟨_, h, rfl⟩

theorem exists_edge {arcs : List Arc} {v : Node} (h : v ∈ arcs.map Arc.source) :
    ∃ u, edge arcs u v := by
  obtain ⟨⟨_, u⟩, harc, rfl⟩ := List.mem_map.mp h
  exact ⟨u, harc⟩

/-- When no node is the source of two arcs, it has at most one target. -/
theorem edge.unique {arcs : List Arc} (h : (arcs.map Arc.source).Nodup) {u u' v : Node}
    (hu : edge arcs u v) (hu' : edge arcs u' v) : u = u' :=
  congrArg Arc.target (List.inj_on_of_nodup_map h hu hu' rfl)

/-! ## The actions to choose from -/

theorem mem_neighbours {a b : Node} : ∀ {l : List Node},
    (a, b) ∈ neighbours l ↔ ∃ pre post, l = pre ++ a :: b :: post
  | [] => by simp [neighbours]
  | [x] => by
      constructor
      · intro h
        cases h
      · rintro ⟨pre, post, h⟩
        cases pre with
        | nil => cases h
        | cons _ pre => simp at h
  | x :: y :: l => by
      show (a, b) ∈ (x, y) :: neighbours (y :: l) ↔ _
      rw [List.mem_cons, mem_neighbours]
      constructor
      · rintro (h | ⟨pre, post, h⟩)
        · cases h
          exact ⟨[], l, rfl⟩
        · exact ⟨x :: pre, post, by rw [h]; rfl⟩
      · rintro ⟨pre, post, h⟩
        cases pre with
        | nil =>
            cases h
            exact Or.inl rfl
        | cons z pre =>
            rw [List.cons_append] at h
            injection h with _ h
            exact Or.inr ⟨pre, post, h⟩

/-- The actions that a turn of the loop in `collect-attaches` pushes. -/
def pushAttaches (actions : List Action) (pair : Node × Node) : List Action :=
  .attach pair.2 pair.1 ::
    if pair.1 ≠ root then .attach pair.1 pair.2 :: actions else actions

theorem mem_foldl_pushAttaches {action : Action} : ∀ {pairs : List (Node × Node)}
    {actions : List Action}, action ∈ pairs.foldl pushAttaches actions ↔
      action ∈ actions ∨ ∃ l r, (l, r) ∈ pairs ∧
        (action = .attach r l ∨ l ≠ root ∧ action = .attach l r)
  | [], actions => by simp
  | (a, b) :: pairs, actions => by
      have hturn : action ∈ pushAttaches actions (a, b) ↔
          action ∈ actions ∨ action = .attach b a ∨ a ≠ root ∧ action = .attach a b := by
        by_cases ha : a = root
        · simp [pushAttaches, ha, or_comm]
        · simp only [pushAttaches, ne_eq, ha, not_false_eq_true, if_true, List.mem_cons, true_and]
          rw [← or_assoc, or_comm]
      rw [List.foldl_cons, mem_foldl_pushAttaches, hturn]
      constructor
      · rintro ((h | h) | ⟨l, r, hmem, h⟩)
        · exact Or.inl h
        · exact Or.inr ⟨a, b, List.mem_cons_self .., h⟩
        · exact Or.inr ⟨l, r, List.mem_cons_of_mem _ hmem, h⟩
      · rintro (h | ⟨l, r, hmem, h⟩)
        · exact Or.inl (Or.inl h)
        · cases List.mem_cons.mp hmem with
          | inl heq =>
              cases heq
              exact Or.inl (Or.inr h)
          | inr hmem => exact Or.inr ⟨l, r, hmem, h⟩

section Collect

variable {rest : List Node}

/-- No assertion fails when the root is the first of the pending nodes only. -/
theorem collectAttaches_eq (hroot : root ∉ rest) :
    collectAttaches (root :: rest) = some ((neighbours (root :: rest)).foldl pushAttaches []) := by
  refine Loop.foldlM_eq_some _ ?_ []
  rintro ⟨l, r⟩ hmem actions
  have hr : r ≠ root := by
    rintro rfl
    exact hroot (List.of_mem_zip hmem).2
  by_cases hl : l = root
  · simp [makeAttach, pushAttaches, hl, hr]
  · simp [makeAttach, pushAttaches, hl, hr]

theorem collectMoves_eq (hroot : root ∉ rest) :
    collectMoves (root :: rest) =
      some (((neighbours rest).filter fun (l, r) => l < r).map fun (l, r) => .move l r) := by
  refine Lisp.mapM_of_forall ?_
  rintro ⟨l, r⟩ hmem
  obtain ⟨hpair, hlt⟩ := List.mem_filter.mp hmem
  have hl : l ≠ root := by
    rintro rfl
    exact hroot (List.of_mem_zip hpair).1
  exact if_pos ⟨of_decide_eq_true hlt, hl⟩

theorem collectActions_eq {arcs : List Arc} (hroot : root ∉ rest) :
    collectActions ⟨root :: rest, arcs⟩ = some ((neighbours (root :: rest)).foldl pushAttaches [] ++
      ((neighbours rest).filter fun (l, r) => l < r).map fun (l, r) => .move l r) := by
  show (collectAttaches (root :: rest)).bind _ = _
  rw [collectAttaches_eq hroot]
  show (collectMoves (root :: rest)).bind _ = _
  rw [collectMoves_eq hroot]
  rfl

end Collect

/-! ## Changes -/

/-- What an attachment and a move do, the root being the first of the pending nodes. -/
inductive Change : Configuration → Action → Configuration → Prop
  | attach {l m : List Node} {arcs : List Arc} {source target : Node} :
      target ∈ root :: (l ++ m) →
      Change ⟨root :: (l ++ source :: m), arcs⟩ (.attach source target)
        ⟨root :: (l ++ m), ⟨source, target⟩ :: arcs⟩
  | move {l m : List Node} {arcs : List Arc} {v1 v2 : Node} : v1 < v2 →
      Change ⟨root :: (l ++ v1 :: v2 :: m), arcs⟩ (.move v1 v2)
        ⟨root :: (l ++ v2 :: v1 :: m), arcs⟩

section Collect

variable {rest : List Node} {arcs : List Arc}

theorem change_attach (hroot : root ∉ rest) (hnodup : rest.Nodup) {source target : Node}
    (hsource : source ∈ rest) (htarget : target ∈ root :: rest) (hne : target ≠ source) :
    Change ⟨root :: rest, arcs⟩ (.attach source target)
      (configurationAttach ⟨root :: rest, arcs⟩ source target) := by
  obtain ⟨l, m, rfl⟩ := List.append_of_mem hsource
  obtain ⟨hl, hm⟩ : source ∉ l ∧ source ∉ m := by
    have hmiddle := List.nodup_middle.mp hnodup
    exact not_or.mp fun h => (List.nodup_cons.mp hmiddle).1 (List.mem_append.mpr h)
  have hrootne : root ≠ source := fun heq => hroot (heq ▸ hsource)
  have hfilter : (root :: (l ++ source :: m)).filter (fun v => v ≠ source) = root :: (l ++ m) := by
    have hkeep : ∀ xs : List Node, source ∉ xs → xs.filter (fun v => v ≠ source) = xs :=
      fun xs hxs => List.filter_eq_self.mpr fun v hv => by
        simpa using fun heq : v = source => hxs (heq ▸ hv)
    rw [← List.cons_append, List.filter_append, hkeep (root :: l) (by simp [hrootne.symm, hl]),
      List.filter_cons_of_neg (by simp), hkeep m hm, List.cons_append]
  rw [configurationAttach, hfilter]
  refine Change.attach ?_
  simpa [hne] using htarget

/-- The position of an element that is not in the first part of the list. -/
theorem idxOf?_append_cons {a : Node} {m : List Node} :
    ∀ {l : List Node}, a ∉ l → (l ++ a :: m).idxOf? a = some l.length
  | [], _ => by simp [List.idxOf?_cons]
  | b :: l, h => by
      obtain ⟨hne, hl⟩ := not_or.mp (mt List.mem_cons.mpr h)
      have hba : (b == a) = false := beq_false_of_ne (Ne.symm hne)
      rw [List.cons_append, List.idxOf?_cons, hba, idxOf?_append_cons hl]
      rfl

/-- Two neighbours change places. -/
theorem listSwap_append {l m : List Node} {a b : Node} (hnodup : (l ++ a :: b :: m).Nodup) :
    listSwap (l ++ a :: b :: m) a b = some (l ++ b :: a :: m) := by
  have hperm : (l ++ a :: b :: m).Perm (a :: b :: (l ++ m)) :=
    List.perm_middle.trans (List.perm_middle.cons a)
  have hn := List.nodup_cons.mp (hperm.nodup_iff.mp hnodup)
  have hab : a ≠ b := fun h => hn.1 (h ▸ List.mem_cons_self ..)
  have ha : a ∉ l := fun h => hn.1 (List.mem_cons_of_mem b (List.mem_append_left m h))
  have hb : b ∉ l ++ [a] := by
    have hbl : b ∉ l := fun h => (List.nodup_cons.mp hn.2).1 (List.mem_append_left m h)
    simp [hbl, hab.symm]
  have hindex2 : (l ++ a :: b :: m).idxOf? b = some (l.length + 1) := by
    have h := idxOf?_append_cons (m := m) hb
    rwa [List.append_assoc, List.length_append] at h
  rw [listSwap, idxOf?_append_cons ha, hindex2]
  simp

theorem change_move (hroot : root ∉ rest) (hnodup : rest.Nodup) {v1 v2 : Node}
    (hpair : (v1, v2) ∈ neighbours rest) (hlt : v1 < v2) :
    ∃ next, configurationMove ⟨root :: rest, arcs⟩ v1 v2 = some next ∧
      Change ⟨root :: rest, arcs⟩ (.move v1 v2) next := by
  obtain ⟨l, m, rfl⟩ := mem_neighbours.mp hpair
  have hswap : listSwap ((root :: l) ++ v1 :: v2 :: m) v1 v2 =
      some ((root :: l) ++ v2 :: v1 :: m) :=
    listSwap_append (List.nodup_cons.mpr ⟨hroot, hnodup⟩)
  refine ⟨_, ?_, Change.move hlt⟩
  show (listSwap ((root :: l) ++ v1 :: v2 :: m) v1 v2).bind _ = _
  rw [hswap]
  rfl

/-- Neighbours are attached to each other. -/
theorem change_of_mem_attaches (hroot : root ∉ rest) (hnodup : rest.Nodup) {action : Action}
    (haction : action ∈ (neighbours (root :: rest)).foldl pushAttaches []) :
    ∃ next, transitioned ⟨root :: rest, arcs⟩ action = some next ∧
      Change ⟨root :: rest, arcs⟩ action next := by
  obtain ⟨l, r, hpair, haction⟩ := (mem_foldl_pushAttaches.mp haction).resolve_left nofun
  obtain ⟨hl, hr⟩ := List.of_mem_zip hpair
  have hne : l ≠ r := by
    obtain ⟨pre, post, hsplit⟩ := mem_neighbours.mp hpair
    have hall : (root :: rest).Nodup := List.nodup_cons.mpr ⟨hroot, hnodup⟩
    rw [hsplit] at hall
    have hlr := (List.nodup_append.mp hall).2.1
    exact fun heq => (List.nodup_cons.mp hlr).1 (heq ▸ List.mem_cons_self ..)
  cases haction with
  | inl heq =>
      subst heq
      exact ⟨_, rfl, change_attach hroot hnodup hr hl hne⟩
  | inr hright =>
      obtain ⟨hlroot, rfl⟩ := hright
      have hlrest := (List.mem_cons.mp hl).resolve_left hlroot
      exact ⟨_, rfl, change_attach hroot hnodup hlrest (List.mem_cons_of_mem _ hr) hne.symm⟩

end Collect

/-! ## The invariant -/

/-- What holds of every configuration that is reached on the nodes. -/
structure Invariant (nodes : List Node) (c : Configuration) : Prop where
  pendings : ∃ rest, c.pendings = root :: rest ∧ (rest ++ c.arcs.map Arc.source).Perm nodes
  acyclic : Acyclic (edge c.arcs)
  targets : ∀ arc ∈ c.arcs, arc.target = root ∨ arc.target ∈ nodes

theorem invariant_initial (nodes : List Node) : Invariant nodes (initialConfiguration nodes) where
  pendings := ⟨nodes, rfl, by simp [initialConfiguration]⟩
  acyclic := Acyclic.of_empty fun _ _ h => by cases h
  targets := fun _ h => by cases h

namespace Invariant

variable {nodes : List Node} {c next : Configuration} {action : Action}

/-- The pending nodes besides the root. -/
theorem rest (h : Invariant nodes c) (hnodup : nodes.Nodup) (hroot : root ∉ nodes) :
    ∃ rest, c.pendings = root :: rest ∧ rest.Nodup ∧ root ∉ rest ∧
      (rest ++ c.arcs.map Arc.source).Perm nodes := by
  obtain ⟨rest, hrest, hperm⟩ := h.pendings
  refine ⟨rest, hrest, ?_, fun hmem => ?_, hperm⟩
  · exact (List.nodup_append.mp (hperm.nodup_iff.mpr hnodup)).1
  · exact hroot (hperm.mem_iff.mp (List.mem_append_left _ hmem))

/-- Every turn keeps the invariant. -/
theorem step (h : Invariant nodes c) (hnodup : nodes.Nodup) (hroot : root ∉ nodes)
    (hchange : Change c action next) : Invariant nodes next := by
  obtain ⟨rest, hrest, -, -, hperm⟩ := h.rest hnodup hroot
  cases hchange with
  | @move l m arcs v1 v2 hlt =>
      injection hrest with _ hrest
      subst hrest
      refine ⟨⟨l ++ v2 :: v1 :: m, rfl, ?_⟩, h.acyclic, h.targets⟩
      exact (((List.Perm.swap v1 v2 m).append_left l).append_right _).trans hperm
  | @attach l m arcs source target htarget =>
      injection hrest with _ hrest
      subst hrest
      have hmiddle : (source :: (l ++ m ++ arcs.map Arc.source)).Perm nodes := by
        refine List.Perm.trans ?_ hperm
        rw [List.append_assoc, List.append_assoc]
        exact List.perm_middle.symm
      have hn := List.nodup_cons.mp (hmiddle.nodup_iff.mpr hnodup)
      have hmem : ∀ v ∈ l ++ m, v ∈ nodes ∧ v ≠ source ∧ v ∉ arcs.map Arc.source := by
        intro v hv
        refine ⟨hmiddle.mem_iff.mp (List.mem_cons_of_mem _ (List.mem_append_left _ hv)), ?_, ?_⟩
        · rintro rfl
          exact hn.1 (List.mem_append_left _ hv)
        · exact fun hsource => (List.disjoint_of_nodup_append hn.2) hv hsource
      have hsourcenodes : source ∈ nodes := hmiddle.mem_iff.mp (List.mem_cons_self ..)
      have henter : target ≠ source ∧ ∀ u, ¬edge arcs u target := by
        cases List.mem_cons.mp htarget with
        | inr htarget =>
            obtain ⟨-, hne, hfree⟩ := hmem target htarget
            exact ⟨hne, fun u hu => hfree hu.source_mem⟩
        | inl heq =>
            rw [heq]
            refine ⟨fun heq => hroot (heq ▸ hsourcenodes), fun u hu => hroot ?_⟩
            exact hmiddle.mem_iff.mp
              (List.mem_cons_of_mem _ (List.mem_append_right _ hu.source_mem))
      refine ⟨⟨l ++ m, rfl, List.perm_middle.trans hmiddle⟩, ?_, ?_⟩
      · exact (h.acyclic.insert henter.2 henter.1).mono fun u v huv => edge_cons.mp huv
      · intro arc harc
        cases List.mem_cons.mp harc with
        | inr hold => exact h.targets arc hold
        | inl heq =>
            rw [heq]
            cases List.mem_cons.mp htarget with
            | inl heq => exact Or.inl heq
            | inr htarget => exact Or.inr (hmem target htarget).1

/-- There is an action to choose, and every one of them is a change. -/
theorem collectActions (h : Invariant nodes c) (hnodup : nodes.Nodup) (hroot : root ∉ nodes)
    (hrun : terminatedP c = some false) :
    ∃ actions, EasyFirst.collectActions c = some actions ∧ actions ≠ [] ∧
      ∀ action ∈ actions, ∃ next, transitioned c action = some next ∧ Change c action next := by
  obtain ⟨rest, hrest, hrestnodup, hrestroot, -⟩ := h.rest hnodup hroot
  obtain ⟨pendings, arcs⟩ := c
  cases hrest
  refine ⟨_, collectActions_eq hrestroot, fun hnil => ?_, fun action haction => ?_⟩
  · cases rest with
    | nil => cases hrun
    | cons v rest =>
        have hmem : Action.attach v root ∈ (neighbours (root :: v :: rest)).foldl pushAttaches [] :=
          mem_foldl_pushAttaches.mpr (Or.inr ⟨root, v, List.mem_cons_self .., Or.inl rfl⟩)
        rw [(List.append_eq_nil_iff.mp hnil).1] at hmem
        cases hmem
  · cases List.mem_append.mp haction with
    | inl hattach => exact change_of_mem_attaches hrestroot hrestnodup hattach
    | inr hmove =>
        obtain ⟨⟨v1, v2⟩, hpair, rfl⟩ := List.mem_map.mp hmove
        obtain ⟨hpair, hlt⟩ := List.mem_filter.mp hpair
        exact change_move hrestroot hrestnodup hpair (of_decide_eq_true hlt)

end Invariant

/-! ## The number of turns -/

/-- It bounds the number of turns that are still possible. -/
def potential (c : Configuration) : Nat := ascents c.pendings.tail + c.pendings.tail.length

/-- Every turn makes the potential smaller. -/
theorem Change.potential_lt {c next : Configuration} {action : Action} (h : Change c action next) :
    potential next < potential c := by
  cases h with
  | @attach l m arcs source target _ =>
      have hascents := ascents_sublist ((List.sublist_cons_self source m).append_left l)
      simp only [potential, List.tail_cons, List.length_append, List.length_cons]
      omega
  | @move l m arcs v1 v2 hlt =>
      have hascents := ascents_swap hlt l m
      simp only [potential, List.tail_cons, List.length_append, List.length_cons]
      omega

theorem potential_initial_le (nodes : List Node) : potential (initialConfiguration nodes) ≤
    nodes.length + nodes.length * (nodes.length - 1) / 2 := by
  have hascents := two_mul_ascents_le nodes
  have hhalf : ascents nodes ≤ nodes.length * (nodes.length - 1) / 2 := by
    rw [Nat.le_div_iff_mul_le (by decide), Nat.mul_sub_one]
    omega
  show ascents nodes + nodes.length ≤ _
  omega

/-! ## Streams -/

section Streams

variable {nodes : List Node} {actionFn : ActionFn}

/-- The function chooses one of the actions. -/
def Picks (actionFn : ActionFn) : Prop :=
  ∀ c actions, actions ≠ [] → ∃ action ∈ actions, actionFn c actions = some action

theorem Invariant.terminatedP {c : Configuration} (h : Invariant nodes c) :
    ∃ b, EasyFirst.terminatedP c = some b := by
  obtain ⟨rest, hrest, -⟩ := h.pendings
  rw [EasyFirst.terminatedP, hrest]
  cases rest with
  | nil => exact ⟨true, rfl⟩
  | cons v rest => exact ⟨false, rfl⟩

/-- Only the root is pending at the end. -/
theorem Invariant.pendings_of_terminatedP {c : Configuration} (h : Invariant nodes c)
    (hend : EasyFirst.terminatedP c = some true) : c.pendings = [root] := by
  obtain ⟨rest, hrest, -⟩ := h.pendings
  rw [EasyFirst.terminatedP, hrest] at hend
  cases rest with
  | nil => exact hrest
  | cons v rest => cases hend

/-- A turn that is not the last one leaves a change to the rest of the stream. -/
theorem Invariant.turn (hpicks : Picks actionFn) (hnodup : nodes.Nodup) (hroot : root ∉ nodes)
    {c : Configuration} (h : Invariant nodes c) (hrun : EasyFirst.terminatedP c = some false) :
    ∃ action next, Change c action next ∧ ∀ fuel,
      configurationStream actionFn (fuel + 1) c =
        (configurationStream actionFn fuel next).bind fun configurations =>
          some (c :: configurations) := by
  obtain ⟨actions, hactions, hne, hchange⟩ := h.collectActions hnodup hroot hrun
  obtain ⟨action, hmem, hpick⟩ := hpicks c actions hne
  obtain ⟨next, htransition, hnext⟩ := hchange action hmem
  refine ⟨action, next, hnext, fun fuel => ?_⟩
  have hselect : selectAction c actionFn = some action := by
    rw [selectAction, hactions]
    exact hpick
  rw [configurationStream, hrun]
  show (selectAction c actionFn).bind _ = _
  rw [hselect]
  show (transitioned c action).bind _ = _
  rw [htransition]
  rfl

/-- The stream ends, and one node is left to attach in its last configuration. -/
theorem configurationStream_of_picks (hpicks : Picks actionFn) (hnodup : nodes.Nodup)
    (hroot : root ∉ nodes) (bound : Nat) :
    ∀ {c : Configuration}, potential c ≤ bound → Invariant nodes c →
      terminatedP c = some false →
      ∃ configurations last v,
        (∀ fuel, bound < fuel → configurationStream actionFn fuel c = some configurations) ∧
        configurations.length ≤ bound ∧ configurations.getLast? = some last ∧
        Invariant nodes last ∧ last.pendings = [root, v] := by
  induction bound with
  | zero =>
      intro c hle h hrun
      obtain ⟨_, next, hchange, -⟩ := h.turn hpicks hnodup hroot hrun
      exact absurd (Nat.lt_of_lt_of_le hchange.potential_lt hle) (Nat.not_lt_zero _)
  | succ bound ih =>
      intro c hle h hrun
      obtain ⟨action, next, hchange, hturn⟩ := h.turn hpicks hnodup hroot hrun
      have hnext := h.step hnodup hroot hchange
      have hlt := hchange.potential_lt
      obtain ⟨b, hterminated⟩ := hnext.terminatedP
      cases b with
      | false =>
          obtain ⟨configurations, last, v, hstream, hlength, hlast, hinv, hv⟩ :=
            ih (by omega) hnext hterminated
          refine ⟨c :: configurations, last, v, fun fuel hfuel => ?_, ?_, ?_, hinv, hv⟩
          · cases fuel with
            | zero => omega
            | succ fuel =>
                rw [hturn, hstream fuel (by omega)]
                rfl
          · rw [List.length_cons]
            omega
          · rw [List.getLast?_cons, hlast]
            rfl
      | true =>
          have hend := hnext.pendings_of_terminatedP hterminated
          obtain ⟨v, hv⟩ : ∃ v, c.pendings = [root, v] := by
            cases hchange with
            | @attach l m arcs source target _ =>
                injection hend with _ hnil
                obtain ⟨rfl, rfl⟩ := List.append_eq_nil_iff.mp hnil
                exact ⟨source, rfl⟩
            | @move l m arcs v1 v2 _ => simp at hend
          refine ⟨[c], c, v, fun fuel hfuel => ?_, Nat.succ_le_succ (Nat.zero_le _), rfl, h, hv⟩
          cases fuel with
          | zero => omega
          | succ fuel =>
              cases fuel with
              | zero => omega
              | succ fuel =>
                  rw [hturn, configurationStream, hterminated]
                  rfl

/-- The arcs before the last turn, together with the last one, are a tree. -/
theorem Invariant.spanning (hnodup : nodes.Nodup) (hroot : root ∉ nodes) {c : Configuration}
    (h : Invariant nodes c) {v : Node} (hv : c.pendings = [root, v]) :
    (v :: c.arcs.map Arc.source).Perm nodes ∧
      Spanning (edge (⟨v, root⟩ :: c.arcs)) root {u | u ∈ nodes} := by
  obtain ⟨pendings, arcs⟩ := c
  cases hv
  have hchange : Change ⟨[root, v], arcs⟩ (.attach v root) ⟨[root], ⟨v, root⟩ :: arcs⟩ :=
    Change.attach (l := []) (m := []) (List.mem_cons_self ..)
  have hlast : Invariant nodes ⟨[root], ⟨v, root⟩ :: arcs⟩ := h.step hnodup hroot hchange
  have hsources : ((⟨v, root⟩ :: arcs : List Arc).map Arc.source).Perm nodes := by
    obtain ⟨rest, hrest, hperm⟩ := hlast.pendings
    cases hrest
    exact hperm
  refine ⟨hsources, ?_⟩
  refine Spanning.of_acyclic (List.finite_toSet nodes) hroot hlast.acyclic ?_ ?_ ?_ ?_
  · exact fun {u w} huw => hlast.targets _ huw
  · exact fun {u w} huw => hsources.mem_iff.mp huw.source_mem
  · exact fun {w} hw => exists_edge (hsources.mem_iff.mpr hw)
  · exact fun {u u' w} hu hu' => hu.unique (hsources.nodup_iff.mpr hnodup) hu'

end Streams

/-! ## Parsing -/

section Parse

variable {R : Type} [LinearOrder R]

theorem picks_makeActionFn (sorting : DescendingSort R) (score : Action → Configuration → R) :
    Picks (makeActionFn sorting score) := by
  intro c actions hne
  have hperm := sorting.perm Prod.fst ((actions.map fun action => score action c).zip actions)
  cases hsorted : sorting.sort Prod.fst
      ((actions.map fun action => score action c).zip actions) with
  | nil =>
      rw [hsorted] at hperm
      cases actions with
      | nil => exact absurd rfl hne
      | cons action actions => cases hperm.nil_eq
  | cons first alist =>
      refine ⟨first.2, ?_, ?_⟩
      · have hfirst := hperm.mem_iff.mp (hsorted ▸ List.mem_cons_self ..)
        exact (List.of_mem_zip (a := first.1) (b := first.2) hfirst).2
      · show (sorting.sort Prod.fst _).head?.map Prod.snd = _
        rw [hsorted]
        rfl

/-- Whatever the scores are, `parse` returns after few turns.  Together with an arc from
the node that is no source to the root, what it returns is a tree. -/
theorem parse_spanning (sorting : DescendingSort R) (score : Action → Configuration → R)
    {nodes : List Node} (hne : nodes ≠ []) (hnodup : nodes.Nodup)
    (hnonneg : ∀ node ∈ nodes, 0 ≤ node) :
    ∃ configurations arcs v,
      (∀ fuel, nodes.length + nodes.length * (nodes.length - 1) / 2 < fuel →
        configurationStream (makeActionFn sorting score) fuel
            (initialConfiguration (nodes.insertionSort (· ≤ ·))) = some configurations ∧
          parse sorting score fuel nodes = some arcs) ∧
      configurations.length ≤ nodes.length + nodes.length * (nodes.length - 1) / 2 ∧
      arcs.length = nodes.length - 1 ∧
      (v :: arcs.map Arc.source).Perm nodes ∧
      Spanning (edge (⟨v, root⟩ :: arcs)) root {u | u ∈ nodes} := by
  have hroot : root ∉ nodes := fun hmem => absurd (hnonneg root hmem) (by decide)
  have hsort : (nodes.insertionSort (· ≤ ·)).Perm nodes := List.perm_insertionSort _ nodes
  have hinitial : Invariant nodes (initialConfiguration (nodes.insertionSort (· ≤ ·))) :=
    { invariant_initial nodes with
      pendings := ⟨_, rfl, by simpa [initialConfiguration] using hsort⟩ }
  have hbound : potential (initialConfiguration (nodes.insertionSort (· ≤ ·))) ≤
      nodes.length + nodes.length * (nodes.length - 1) / 2 := by
    have h := potential_initial_le (nodes.insertionSort (· ≤ ·))
    rwa [hsort.length_eq] at h
  have hrun : terminatedP (initialConfiguration (nodes.insertionSort (· ≤ ·))) = some false := by
    cases hsorted : nodes.insertionSort (· ≤ ·) with
    | nil =>
        rw [hsorted] at hsort
        exact absurd hsort.nil_eq.symm hne
    | cons v rest => rfl
  obtain ⟨configurations, last, v, hstream, hlength, hlast, hinv, hv⟩ :=
    configurationStream_of_picks (picks_makeActionFn sorting score) hnodup hroot _ hbound
      hinitial hrun
  obtain ⟨hsources, hspanning⟩ := hinv.spanning hnodup hroot hv
  refine ⟨configurations, last.arcs, v, fun fuel hfuel => ⟨hstream fuel hfuel, ?_⟩, hlength, ?_,
    hsources, hspanning⟩
  · have hassert : assertNodes nodes = some () := if_pos hnonneg
    rw [parse, hassert]
    show (configurationStream _ fuel _).bind _ = _
    rw [hstream fuel hfuel]
    show configurations.getLast?.bind _ = _
    rw [hlast]
    rfl
  · have hcount := hsources.length_eq
    rw [List.length_cons, List.length_map] at hcount
    omega

/-- A scorer that moves nodes as long as it can. -/
def preferMoves : Action → Configuration → Int
  | .move _ _, _ => 1
  | _, _ => 0

theorem parse_spanning_preferMoves : ∃ configurations arcs v,
    (∀ fuel, 6 < fuel →
      configurationStream (makeActionFn .stable preferMoves) fuel (initialConfiguration [0, 1, 2]) =
          some configurations ∧
        parse .stable preferMoves fuel [2, 0, 1] = some arcs) ∧
    configurations.length ≤ 6 ∧ arcs.length = 2 ∧
    (v :: arcs.map Arc.source).Perm [2, 0, 1] ∧
    Spanning (edge (⟨v, root⟩ :: arcs)) root {u | u ∈ ([2, 0, 1] : List Node)} :=
  parse_spanning .stable preferMoves (show ([2, 0, 1] : List Node) ≠ [] by decide) (by decide)
    (by decide)

/-- It reaches the bound. -/
example : (configurationStream (makeActionFn .stable preferMoves) 7
    (initialConfiguration [0, 1, 2])).map List.length = some 6 := by decide +kernel

end Parse

end Hachee.DependencyParsing.EasyFirst
