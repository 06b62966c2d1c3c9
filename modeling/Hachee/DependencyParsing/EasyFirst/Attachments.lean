import Hachee.DependencyParsing.EasyFirst.Progress

/-!
# What the training of the easy-first parser attaches

The learner chooses by score, but an attachment is carried out only if the oracle
allows it, so the arcs are gold and a node is attached after its children
(`Taught.attach`).  The nodes that are not pending any more are the sources of the
arcs.  When the root is the only pending node, everything has been attached, and every
gold arc has been taken once (`train_attaches`).

Nothing is assumed about the list of the nodes here: a node may be in it twice, and
both leave it together.
-/

namespace Hachee.DependencyParsing.EasyFirst

open Foundation Arborescence Relation

/-! ## The attach actions of a run -/

/-- The arc of an attach action. -/
def Action.arc? : Action → Option Arc
  | .attach source target => some { source := source, target := target }
  | .move _ _ => none
  | .nop => none

/-- The arcs of the attach actions. -/
def attachedArcs (actions : List Action) : List Arc := actions.filterMap Action.arc?

theorem reverse_attachedArcs_cons (action : Action) (actions : List Action) :
    (attachedArcs (action :: actions)).reverse =
      (attachedArcs actions).reverse ++ action.arc?.toList := by
  cases action with
  | attach source target => exact List.reverse_cons
  | move _ _ => exact (List.append_nil _).symm
  | nop => exact (List.append_nil _).symm

/-! ## What an allowed action keeps -/

/-- The arcs are gold, and a node is attached after its children.  Besides the root, the
nodes without an arc are pending. -/
structure Taught (nodes : List Node) (arcs : List Arc) (c : Configuration) : Prop where
  pendings : ∀ v, v ∈ c.pendings ↔ v = root ∨ v ∈ nodes ∧ v ∉ c.arcs.map Arc.source
  gold : ∀ {u v}, edge c.arcs u v → edge arcs u v ∧ (u = root ∨ u ∈ nodes)
  sources : (c.arcs.map Arc.source).Nodup
  finished : ∀ {u v}, edge arcs u v → u ∈ c.arcs.map Arc.source → edge c.arcs u v

namespace Taught

variable {treeNodes nodes : List Node} {arcs : List Arc} {c next : Configuration}
  {action : Action}

theorem initial (nodes : List Node) (arcs : List Arc) :
    Taught nodes arcs (initialConfiguration nodes) where
  pendings := fun v => by simp [initialConfiguration]
  gold := fun h => by cases h
  sources := List.nodup_nil
  finished := fun _ h => by cases h

/-- An allowed attachment takes a gold arc that has not been taken yet. -/
theorem attach (tree : Tree treeNodes arcs) (h : Taught nodes arcs c) {s t : Node}
    (hs : s ∈ c.pendings) (ht : t ∈ c.pendings) (hgold : edge arcs t s)
    (hchildren : ∀ g, edge arcs s g → edge c.arcs s g) :
    Taught nodes arcs (configurationAttach c s t) := by
  have hsroot : s ≠ root := fun heq => tree.root_notMem (heq ▸ tree.spanning.target hgold)
  have hsnew : s ∉ c.arcs.map Arc.source := (((h.pendings s).mp hs).resolve_left hsroot).2
  refine ⟨fun v => ?_, fun {u v} huv => ?_, ?_, fun {u v} huv hu => ?_⟩
  · show v ∈ c.pendings.filter (fun v => v ≠ s) ↔
      v = root ∨ v ∈ nodes ∧ v ∉ s :: c.arcs.map Arc.source
    rw [List.mem_filter, h.pendings, List.mem_cons, not_or, decide_eq_true_eq]
    constructor
    · rintro ⟨hroot | ⟨hv, hsource⟩, hne⟩
      · exact Or.inl hroot
      · exact Or.inr ⟨hv, hne, hsource⟩
    · rintro (hroot | ⟨hv, hne, hsource⟩)
      · exact ⟨Or.inl hroot, fun heq => hsroot (heq ▸ hroot)⟩
      · exact ⟨Or.inr ⟨hv, hsource⟩, hne⟩
  · cases edge_cons.mp huv with
    | inl hnew =>
        obtain ⟨rfl, rfl⟩ := hnew
        exact ⟨hgold, ((h.pendings u).mp ht).imp_right And.left⟩
    | inr hold => exact h.gold hold
  · exact List.nodup_cons.mpr ⟨hsnew, h.sources⟩
  · cases List.mem_cons.mp hu with
    | inl heq =>
        have hus : u = s := heq
        exact edge_cons.mpr (Or.inr (hus ▸ hchildren v (hus ▸ huv)))
    | inr hold => exact edge_cons.mpr (Or.inr (h.finished huv hold))

/-- A move only changes the order of the pending nodes. -/
theorem move (h : Taught nodes arcs c) {v1 v2 : Node}
    (htransition : configurationMove c v1 v2 = some next) :
    Taught nodes arcs next ∧ next.arcs = c.arcs := by
  obtain ⟨pendings, hswap, heq⟩ := Lisp.bind_inv htransition
  cases heq
  obtain ⟨index1, hindex1, hswap⟩ := Lisp.bind_inv hswap
  obtain ⟨index2, hindex2, heq⟩ := Lisp.bind_inv hswap
  cases heq
  obtain ⟨hlt1, hget1, -⟩ := List.idxOf?_eq_some_iff.mp hindex1
  obtain ⟨hlt2, hget2, -⟩ := List.idxOf?_eq_some_iff.mp hindex2
  have hperm : ((c.pendings.set index2 v1).set index1 v2).Perm c.pendings := by
    have hset := List.set_set_perm hlt2 hlt1
    rwa [hget1, hget2] at hset
  exact ⟨{ h with pendings := fun v => hperm.mem_iff.trans (h.pendings v) }, rfl⟩

/-- What the oracle allows keeps all of it, and the arcs are those of the attach actions. -/
theorem step (tree : Tree treeNodes arcs) (h : Taught nodes arcs c)
    {attaches moves : List Action} (hattaches : oracleAllowedAttaches ⟨arcs⟩ c = some attaches)
    (hmoves : oracleAllowedMoves ⟨arcs⟩ c = some moves)
    (haction : action = .nop ∨ action ∈ attaches ∨ action ∈ moves)
    (htransition : transitioned c action = some next) :
    Taught nodes arcs next ∧ next.arcs = action.arc?.toList ++ c.arcs := by
  rcases haction with rfl | haction | haction
  · cases htransition
    exact ⟨h, rfl⟩
  · obtain ⟨_, hattaches', hmem⟩ := oracleAllowedAttaches_eq tree c
    cases hattaches.symm.trans hattaches'
    obtain ⟨s, t, rfl, hpair, hgold, hchildren⟩ := (hmem action).mp haction
    cases htransition
    have hpending : s ∈ c.pendings ∧ t ∈ c.pendings := by
      cases hpair with
      | inl hst => exact ⟨(List.of_mem_zip hst).1, List.mem_of_mem_tail (List.of_mem_zip hst).2⟩
      | inr hts => exact ⟨List.mem_of_mem_tail (List.of_mem_zip hts).2, (List.of_mem_zip hts).1⟩
    exact ⟨h.attach tree hpending.1 hpending.2 hgold hchildren, rfl⟩
  · cases hmoves.symm.trans (oracleAllowedMoves_eq ⟨arcs⟩ c)
    obtain ⟨⟨v1, v2⟩, -, rfl⟩ := List.mem_map.mp haction
    exact h.move htransition

/-- What is kept over a run. -/
theorem run (tree : Tree treeNodes arcs) {sorting : DescendingSort Int} :
    ∀ {fuel : Nat} {scorer scorer' : Scorer} {c : Configuration} {actions : List Action},
      Taught nodes arcs c →
      transitCollectingActions (actionFnUpdatingScore sorting ⟨arcs⟩) fuel scorer c =
          .ok (actions, scorer') →
        ∃ final, Taught nodes arcs final ∧ terminatedP final = some true ∧
          final.arcs = (attachedArcs actions).reverse ++ c.arcs
  | 0, _, _, _, _, _, hrun => by cases hrun
  | fuel + 1, scorer, scorer', c, actions, h, hrun => by
      obtain ⟨terminated, hterminated, hrun⟩ := orStop_bind_eq hrun nofun
      cases terminated with
      | true =>
          cases hrun
          exact ⟨c, h, hterminated, rfl⟩
      | false =>
          obtain ⟨_, -, hrun⟩ := orStop_bind_eq hrun nofun
          cases hturn : actionFnUpdatingScore sorting ⟨arcs⟩ scorer c with
          | error stop =>
              rw [hturn] at hrun
              cases hrun
          | ok result =>
              obtain ⟨action, middle⟩ := result
              rw [hturn] at hrun
              obtain ⟨next, hnext, hrun⟩ := orStop_bind_eq hrun nofun
              obtain ⟨moves, attaches, hmoves, hattaches, ⟨-, -, herror⟩ | ⟨_, _, hok, haction⟩⟩ :=
                actionFnUpdatingScore_inv hturn nofun
              · cases herror
              · cases hok
                obtain ⟨hstep, harcs⟩ := h.step tree hattaches hmoves haction hnext
                cases hrest : transitCollectingActions (actionFnUpdatingScore sorting ⟨arcs⟩) fuel
                    middle next with
                | error stop =>
                    rw [hrest] at hrun
                    cases hrun
                | ok result =>
                    rw [hrest] at hrun
                    cases hrun
                    obtain ⟨final, hfinal, hend, hfinalArcs⟩ := run tree hstep hrest
                    refine ⟨final, hfinal, hend, ?_⟩
                    rw [hfinalArcs, harcs, reverse_attachedArcs_cons, List.append_assoc]

/-! ## The end of the training -/

/-- The gold parents of the nodes are attached up to the root. -/
theorem root_attached (tree : Tree treeNodes arcs) (h : Taught nodes arcs c)
    (hall : ∀ v ∈ nodes, v ∈ c.arcs.map Arc.source) {v : Node} (hv : v ∈ nodes) :
    ∃ r, edge c.arcs root r := by
  have hclimb : ∀ v ∈ treeNodes, v ∈ nodes → ∃ r, edge c.arcs root r := by
    refine tree.spanning.acyclic.induction_on (List.finite_toSet treeNodes) fun v _ ih hv => ?_
    obtain ⟨u, hu⟩ := exists_edge (hall v hv)
    cases (h.gold hu).2 with
    | inl hroot => exact ⟨v, hroot ▸ hu⟩
    | inr hnodes =>
        have huTree : u ∈ treeNodes := by
          obtain ⟨w, hw⟩ := exists_edge (hall u hnodes)
          exact tree.spanning.target (h.gold hw).1
        exact ih u huTree (h.gold hu).1 hnodes
  obtain ⟨u, hu⟩ := exists_edge (hall v hv)
  exact hclimb v (tree.spanning.target (h.gold hu).1) hv

/-- From the root down, everything is attached. -/
theorem attached (tree : Tree treeNodes arcs) (h : Taught nodes arcs c) {r u v : Node}
    (hr : edge c.arcs root r) (hunique : ∀ v, edge arcs root v → v = r) (huv : edge arcs u v) :
    edge c.arcs u v := by
  have hdown : ∀ v, TransGen (edge arcs) root v → v ∈ c.arcs.map Arc.source := by
    intro v hpath
    induction hpath with
    | single hrv => exact hunique _ hrv ▸ hr.source_mem
    | tail _ hyz ih => exact (h.finished hyz ih).source_mem
  cases tree.spanning.source huv with
  | inl hroot =>
      rw [hroot] at huv ⊢
      exact hunique v huv ▸ hr
  | inr hu => exact h.finished huv (hdown u (tree.spanning.reach hu))

/-- When only the root is pending, the arcs are the gold arcs. -/
theorem arcs_perm (tree : Tree treeNodes arcs) (h : Taught nodes arcs c) (hne : nodes ≠ [])
    (hroot : root ∉ nodes) {r : Node} (hunique : ∀ v, edge arcs root v → v = r)
    (hend : terminatedP c = some true) : c.arcs.Nodup ∧ c.arcs.Perm arcs := by
  have hpendings : ∀ v ∈ c.pendings, v = root := by
    obtain ⟨pendings, attached⟩ := c
    cases pendings with
    | nil => cases hend
    | cons w rest =>
        cases rest with
        | nil =>
            have hw : w = root := by simpa [terminatedP] using hend
            intro v hv
            exact (List.mem_singleton.mp hv).trans hw
        | cons _ _ => cases hend
  have hall : ∀ v ∈ nodes, v ∈ c.arcs.map Arc.source := by
    intro v hv
    by_contra hsource
    exact hroot (hpendings v ((h.pendings v).mpr (Or.inr ⟨hv, hsource⟩)) ▸ hv)
  obtain ⟨v, hv⟩ := List.exists_mem_of_ne_nil nodes hne
  obtain ⟨r', hr'⟩ := h.root_attached tree hall hv
  have hr : edge c.arcs root r := hunique r' (h.gold hr').1 ▸ hr'
  have hnodup : c.arcs.Nodup := h.sources.of_map _
  refine ⟨hnodup, (List.perm_ext_iff_of_nodup hnodup (tree.sources.of_map _)).mpr ?_⟩
  rintro ⟨s, t⟩
  constructor
  · exact fun harc => (h.gold harc).1
  · exact fun harc => h.attached tree hr hunique harc

end Taught

/-- When `train!` returns, its attach actions are the gold arcs and an attachment of the gold
root to the root, each of them once. -/
theorem train_attaches {treeNodes nodes : List Node} {gold : List Arc}
    (h : GoldTree treeNodes gold) (hne : nodes ≠ []) {sorting : DescendingSort Int} {fuel : Nat}
    {scorer scorer' : Scorer} {actions : List Action}
    (htrain : train sorting fuel nodes gold scorer = .ok (actions, scorer')) :
    ∃ r ∈ treeNodes, r ∉ gold.map Arc.source ∧
      (attachedArcs actions).Perm (⟨r, root⟩ :: gold) ∧ (attachedArcs actions).Nodup := by
  obtain ⟨_, hassert, hrun⟩ := orStop_bind_eq htrain nofun
  have hnonneg : ∀ node ∈ nodes, 0 ≤ node := (Option.ite_none_right_eq_some.mp hassert).1
  have hroot : root ∉ nodes := fun hmem => absurd (hnonneg _ hmem) (by decide)
  by_cases hgold : gold = []
  · -- The first turn compares a node with `nil`.
    subst hgold
    cases fuel with
    | zero => cases hrun
    | succ fuel =>
        obtain ⟨terminated, hterminated, hrun⟩ := orStop_bind_eq hrun nofun
        obtain ⟨v, rest, rfl⟩ := List.exists_cons_of_ne_nil hne
        cases hterminated
        obtain ⟨_, -, hrun⟩ := orStop_bind_eq hrun nofun
        cases hrun
  · obtain ⟨r, hr, hfound, hsource⟩ := h.findRoot hgold
    have tree : Tree treeNodes (⟨r, root⟩ :: gold) := h.tree hr hsource
    have hunique : ∀ v, edge (⟨r, root⟩ :: gold) root v → v = r := by
      intro v hv
      cases edge_cons.mp hv with
      | inl hnew => exact hnew.2
      | inr hold => exact absurd (h.ends _ hold).2 h.root_notMem
    rw [hfound] at hrun
    obtain ⟨final, hfinal, hend, harcs⟩ := Taught.run tree (Taught.initial nodes _) hrun
    obtain ⟨hnodup, hperm⟩ := hfinal.arcs_perm tree hne hroot hunique hend
    have hattached : final.arcs.Perm (attachedArcs actions) := by
      rw [harcs]
      show ((attachedArcs actions).reverse ++ []).Perm _
      rw [List.append_nil]
      exact List.reverse_perm _
    exact ⟨r, hr, hsource, hattached.symm.trans hperm, hattached.nodup_iff.mp hnodup⟩

/-- The attachment of `1` to `0` has a feature. -/
def wrongScorer : Scorer where
  weights := .empty
  featureStringExtractor _ action := if action = .attach 1 0 then ["1 0"] else []

/-- The first choice is wrong and changes the weights. -/
theorem train_attaches_pair : ∃ r ∈ ([0, 1] : List Node),
    r ∉ ([⟨0, 1⟩] : List Arc).map Arc.source ∧
      (attachedArcs [.nop, .attach 0 1, .attach 1 root]).Perm ([⟨r, root⟩, ⟨0, 1⟩] : List Arc) ∧
      (attachedArcs [.nop, .attach 0 1, .attach 1 root]).Nodup :=
  train_attaches goldTree_pair (show ([0, 1] : List Node) ≠ [] by decide)
    (show train .stable 5 [0, 1] [⟨0, 1⟩] wrongScorer =
      .ok ([.nop, .attach 0 1, .attach 1 root], _) from rfl)

end Hachee.DependencyParsing.EasyFirst
