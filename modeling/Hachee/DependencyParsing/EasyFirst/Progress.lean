import Hachee.DependencyParsing.EasyFirst.Runs
import Hachee.DependencyParsing.EasyFirst.Training

/-!
# Where the training of the easy-first parser stops

A list of nodes is in *projective* order if only descendants of a node stand between
it and one of its children.  In such an order the oracle allows an attachment
(`Tree.exists_allowed`): some pending node has pending children, but no pending
grandchildren, and what stands next to it on the side of a child is a child.  What is
attached leaves the list, and the rest of it is still in projective order.

A move may destroy this order, and the order of a gold tree need not be projective
from the start.  Then it may be that the oracle allows nothing, and the training stops
(`training_stops`).
-/

namespace Hachee.DependencyParsing.EasyFirst

open Foundation Arborescence Relation

/-! ## Gold trees -/

/-- A tree over sorted nodes. -/
structure GoldTree (nodes : List Node) (gold : List Arc) : Prop where
  nonneg : ∀ v ∈ nodes, 0 ≤ v
  sorted : nodes.Pairwise (· < ·)
  ends : ∀ arc ∈ gold, arc.source ∈ nodes ∧ arc.target ∈ nodes
  sources : (gold.map Arc.source).Nodup
  acyclic : Acyclic (edge gold)
  root : ∃! r, r ∈ nodes ∧ r ∉ gold.map Arc.source

/-- The arcs of the oracle are a tree under the root that is pending from the start. -/
structure Tree (nodes : List Node) (arcs : List Arc) : Prop where
  nodup : nodes.Nodup
  root_notMem : root ∉ nodes
  sources : (arcs.map Arc.source).Nodup
  spanning : Spanning (edge arcs) root {v | v ∈ nodes}

namespace GoldTree

variable {nodes : List Node} {gold : List Arc}

theorem root_notMem (h : GoldTree nodes gold) : EasyFirst.root ∉ nodes :=
  fun hmem => absurd (h.nonneg _ hmem) (by decide)

/-- The root of a tree with an arc is found. -/
theorem findRoot (h : GoldTree nodes gold) (hne : gold ≠ []) :
    ∃ r ∈ nodes, EasyFirst.findRoot gold = some r ∧ r ∉ gold.map Arc.source := by
  obtain ⟨arc, harc⟩ := List.exists_mem_of_ne_nil gold hne
  have hfinite : {v | v ∈ nodes}.Finite := List.finite_toSet nodes
  -- The target of an arc without a target of its own, found by going up the arcs.
  have htop : ∃ v ∈ gold.map Arc.target, v ∉ gold.map Arc.source := by
    by_contra hall
    have hclimb : ∀ v ∈ nodes, v ∉ gold.map Arc.target := by
      refine h.acyclic.induction_on hfinite fun v hv ih htarget => ?_
      by_cases hsource : v ∈ gold.map Arc.source
      · obtain ⟨u, hu⟩ := exists_edge hsource
        exact ih u (h.ends _ hu).2 hu (List.mem_map.mpr ⟨_, hu, rfl⟩)
      · exact hall ⟨v, htarget, hsource⟩
    exact hclimb arc.target (h.ends arc harc).2 (List.mem_map_of_mem harc)
  obtain ⟨v, hv, hvsource⟩ := htop
  have hfound : (EasyFirst.findRoot gold).isSome := by
    rw [EasyFirst.findRoot, List.find?_isSome]
    exact ⟨v, hv, by simpa using hvsource⟩
  obtain ⟨r, hr⟩ := Option.isSome_iff_exists.mp hfound
  have hr' := hr
  rw [EasyFirst.findRoot] at hr'
  obtain ⟨arc', harc', heq⟩ := List.mem_map.mp (List.mem_of_find?_eq_some hr')
  exact ⟨r, heq ▸ (h.ends arc' harc').2, hr, by simpa using List.find?_some hr'⟩

/-- The oracle's arcs are a tree under the root. -/
theorem tree (h : GoldTree nodes gold) {r : Node} (hr : r ∈ nodes)
    (hsource : r ∉ gold.map Arc.source) : Tree nodes (⟨r, EasyFirst.root⟩ :: gold) := by
  have hsources : ((⟨r, EasyFirst.root⟩ :: gold : List Arc).map Arc.source).Nodup :=
    List.nodup_cons.mpr ⟨hsource, h.sources⟩
  have henter : ∀ u, ¬edge gold u EasyFirst.root := fun u hu => h.root_notMem (h.ends _ hu).1
  have hne : EasyFirst.root ≠ r := fun heq => h.root_notMem (heq ▸ hr)
  have hacyclic : Acyclic (edge (⟨r, EasyFirst.root⟩ :: gold)) :=
    (h.acyclic.insert henter hne).mono fun u v huv => edge_cons.mp huv
  refine ⟨h.sorted.imp (fun hlt => ne_of_lt hlt), h.root_notMem, hsources, ?_⟩
  refine Spanning.of_acyclic (List.finite_toSet nodes) h.root_notMem hacyclic ?_ ?_ ?_ ?_
  · intro u v huv
    cases edge_cons.mp huv with
    | inl hnew => exact Or.inl hnew.1
    | inr hold => exact Or.inr (h.ends _ hold).2
  · intro u v huv
    cases edge_cons.mp huv with
    | inl hnew => exact hnew.2 ▸ hr
    | inr hold => exact (h.ends _ hold).1
  · intro v hv
    refine exists_edge (List.mem_cons.mpr ?_)
    by_cases hv' : v ∈ gold.map Arc.source
    · exact Or.inr hv'
    · exact Or.inl (h.root.unique ⟨hv, hv'⟩ ⟨hr, hsource⟩)
  · exact fun {u u' v} hu hu' => hu.unique hsources hu'

end GoldTree

/-! ## Projective orders -/

/-- Between a node and a child of it there are only descendants of the node. -/
def Projective (arcs : List Arc) (order : List Node) : Prop :=
  ∀ u x v, [u, x, v].Sublist order →
    (edge arcs u v → TransGen (edge arcs) u x) ∧ (edge arcs v u → TransGen (edge arcs) v x)

theorem Projective.sublist {arcs : List Arc} {order part : List Node}
    (h : Projective arcs order) (hpart : part.Sublist order) : Projective arcs part :=
  fun u x v huxv => h u x v (huxv.trans hpart)

/-- The order stays projective with the root in front. -/
theorem Projective.rooted {nodes : List Node} {gold : List Arc} {r : Node}
    (tree : Tree nodes (⟨r, root⟩ :: gold)) {rest : List Node} (hrest : ∀ v ∈ rest, v ∈ nodes)
    (h : Projective gold (root :: rest)) : Projective (⟨r, root⟩ :: gold) (root :: rest) := by
  have hpath : ∀ {u v}, TransGen (edge gold) u v → TransGen (edge (⟨r, root⟩ :: gold)) u v :=
    fun {u v} hpath => TransGen.mono (fun _ _ huv => edge_cons.mpr (Or.inr huv)) u v hpath
  intro u x v huxv
  have hlater : x ∈ rest ∧ v ∈ rest := by
    have hxv : [x, v].Sublist rest := huxv.tail
    exact ⟨hxv.subset (by simp), hxv.subset (by simp)⟩
  constructor
  · intro huv
    cases edge_cons.mp huv with
    | inl hnew =>
        rw [hnew.1]
        exact tree.spanning.reach (hrest x hlater.1)
    | inr hold => exact hpath ((h u x v huxv).1 hold)
  · intro hvu
    cases edge_cons.mp hvu with
    | inl hnew => exact absurd (hnew.1 ▸ hrest v hlater.2) tree.root_notMem
    | inr hold => exact hpath ((h u x v huxv).2 hold)

/-! ## Reached configurations -/

/-- The configurations that are reached by actions the oracle allows. -/
inductive Reached (oracle : Oracle) (nodes : List Node) : Configuration → Prop
  | start : Reached oracle nodes (initialConfiguration nodes)
  | attach {c next : Configuration} {action : Action} {actions : List Action} :
      Reached oracle nodes c → oracleAllowedAttaches oracle c = some actions → action ∈ actions →
      transitioned c action = some next → Reached oracle nodes next
  | move {c next : Configuration} {action : Action} {actions : List Action} :
      Reached oracle nodes c → oracleAllowedMoves oracle c = some actions → action ∈ actions →
      transitioned c action = some next → Reached oracle nodes next

section Oracle

variable {nodes : List Node} {arcs : List Arc} {c next : Configuration} {action : Action}
  {actions : List Action}

theorem oracleGoldAttachP_iff {s t : Node} :
    oracleGoldAttachP ⟨arcs⟩ s t = true ↔ edge arcs t s := by
  simp only [oracleGoldAttachP, isArcOf, List.any_eq_true, Option.all_some, Bool.and_eq_true,
    decide_eq_true_eq, edge]
  constructor
  · rintro ⟨⟨s', t'⟩, harc, rfl, rfl⟩
    exact harc
  · exact fun harc => ⟨_, harc, rfl, rfl⟩

/-- An attachment is allowed if it is in the tree and the source has got its children. -/
theorem oracleValidAttachP_iff {s t : Node} {attached : List Arc} :
    oracleValidAttachP ⟨arcs⟩ s t attached = true ↔
      edge arcs t s ∧ ∀ g, edge arcs s g → edge attached s g := by
  simp only [oracleValidAttachP, Bool.and_eq_true, oracleGoldAttachP_iff,
    oracleAttachToChildFinishedP, isArcOf, List.all_eq_true, List.any_eq_true, List.mem_map,
    List.mem_filter, Option.all_none, Option.all_some, Bool.true_and, decide_eq_true_eq]
  refine and_congr_right fun _ => ⟨fun h g hg => ?_, ?_⟩
  · obtain ⟨⟨g', s'⟩, harc, rfl, rfl⟩ := h g ⟨_, ⟨hg, rfl⟩, rfl⟩
    exact harc
  · rintro h _ ⟨⟨g, s'⟩, ⟨harc, rfl⟩, rfl⟩
    exact ⟨_, h g harc, rfl, rfl⟩

/-- The attachments that the oracle allows. -/
theorem oracleAllowedAttaches_eq (tree : Tree nodes arcs) (c : Configuration) :
    ∃ actions, oracleAllowedAttaches ⟨arcs⟩ c = some actions ∧ ∀ action, action ∈ actions ↔
      ∃ s t, action = .attach s t ∧
        ((s, t) ∈ neighbours c.pendings ∨ (t, s) ∈ neighbours c.pendings) ∧
        edge arcs t s ∧ ∀ g, edge arcs s g → edge c.arcs s g := by
  refine ⟨_, Lisp.mapM_of_forall (h := fun pair => .attach pair.1 pair.2) ?_, fun action => ?_⟩
  · rintro ⟨s, t⟩ hmem
    have hvalid := oracleValidAttachP_iff.mp (List.mem_filter.mp hmem).2
    have hs : s ≠ root := fun heq => tree.root_notMem (heq ▸ tree.spanning.target hvalid.1)
    exact if_pos hs
  · simp only [List.mem_map, List.mem_filter, List.mem_flatMap, Prod.exists,
      oracleValidAttachP_iff]
    constructor
    · rintro ⟨s, t, ⟨⟨a, b, hab, hst⟩, hvalid⟩, rfl⟩
      refine ⟨s, t, rfl, ?_, hvalid⟩
      cases List.mem_cons.mp hst with
      | inl heq =>
          cases heq
          exact Or.inl hab
      | inr hlast =>
          cases List.mem_singleton.mp hlast
          exact Or.inr hab
    · rintro ⟨s, t, rfl, hpair, hvalid⟩
      refine ⟨s, t, ⟨?_, hvalid⟩, rfl⟩
      cases hpair with
      | inl hst => exact ⟨s, t, hst, List.mem_cons_self ..⟩
      | inr hts => exact ⟨t, s, hts, List.mem_cons_of_mem _ (List.mem_singleton_self _)⟩

/-- The oracle allows the moves of all the pairs that `oracle-valid-move-p` accepts. -/
theorem mem_allowedPairs_iff {oracle : Oracle} {pendings : List Node} {v1 v2 : Node} :
    (v1, v2) ∈ allowedPairs oracle pendings ↔
      ∃ i, pendings[i]? = some v1 ∧ pendings[i + 1]? = some v2 ∧
        oracleValidMoveP oracle i pendings = true := by
  rw [allowedPairs, List.mem_filterMap]
  constructor
  · rintro ⟨i, -, hi⟩
    obtain ⟨v, hv, hi⟩ := Lisp.bind_inv hi
    obtain ⟨next, hnext, hi⟩ := Lisp.bind_inv hi
    obtain ⟨hvalid, heq⟩ := Option.ite_none_right_eq_some.mp hi
    cases heq
    exact ⟨i, hv, hnext, (Bool.and_eq_true_iff.mp hvalid).2⟩
  · rintro ⟨i, hv, hnext, hvalid⟩
    refine ⟨i, List.mem_range.mpr (List.getElem?_eq_some_iff.mp hv).1, ?_⟩
    show (pendings[i]?.bind _) = _
    rw [hv]
    show (pendings[i + 1]?.bind _) = _
    rw [hnext]
    exact if_pos (Bool.and_eq_true_iff.mpr ⟨rfl, hvalid⟩)

/-- The moves that the oracle allows exchange neighbours in increasing order. -/
theorem mem_allowedPairs {oracle : Oracle} {pendings : List Node} {v1 v2 : Node}
    (h : (v1, v2) ∈ allowedPairs oracle pendings) :
    v1 < v2 ∧ v1 ≠ root ∧ (v1, v2) ∈ neighbours pendings := by
  obtain ⟨i, hv, hnext, hmove⟩ := mem_allowedPairs_iff.mp h
  rw [oracleValidMoveP, hv, hnext] at hmove
  have horder := (Bool.and_eq_true_iff.mp (Bool.and_eq_true_iff.mp hmove).1)
  refine ⟨of_decide_eq_true horder.1, of_decide_eq_true horder.2, ?_⟩
  refine List.mem_of_getElem? (i := i) ?_
  rw [neighbours, List.getElem?_zip_eq_some, List.getElem?_tail]
  exact ⟨hv, hnext⟩

theorem oracleAllowedMoves_eq (oracle : Oracle) (c : Configuration) :
    oracleAllowedMoves oracle c =
      some ((allowedPairs oracle c.pendings).map fun (v1, v2) => .move v1 v2) := by
  refine Lisp.mapM_of_forall ?_
  rintro ⟨v1, v2⟩ hmem
  obtain ⟨hlt, hne, -⟩ := mem_allowedPairs hmem
  exact if_pos ⟨hlt, hne⟩

/-- A node that is pending besides `v` and has `v` as its gold parent. -/
def PendingChild (oracle : Oracle) (pendings : List Node) (v child : Node) : Prop :=
  child ∈ pendings ∧ child ≠ v ∧ oracleGoldAttachP oracle child v = true

theorem mem_oracleAllowedMoves_iff {oracle : Oracle} {moves : List Action} {v1 v2 : Node}
    (h : oracleAllowedMoves oracle c = some moves) :
    .move v1 v2 ∈ moves ↔ (v1, v2) ∈ allowedPairs oracle c.pendings := by
  cases h.symm.trans (oracleAllowedMoves_eq oracle c)
  rw [List.mem_map]
  constructor
  · rintro ⟨⟨_, _⟩, hpair, heq⟩
    cases heq
    exact hpair
  · exact fun hpair => ⟨(v1, v2), hpair, rfl⟩

/-- A gold arc connects the two nodes, in one direction or the other. -/
def Linked (gold : List Arc) (u v : Node) : Prop := (⟨u, v⟩ : Arc) ∈ gold ∨ ⟨v, u⟩ ∈ gold

/-- No gold child of `v`, but possibly `v` itself, is pending. -/
def Childless (gold : List Arc) (pendings : List Node) (v : Node) : Prop :=
  ∀ arc ∈ gold, arc.target = v → arc.source ∈ pendings → arc.source = v

/-- Wherever an exchange of `v1` and `v2` would bring the ends of a gold arc together, no child
of `v1` is pending. -/
structure MovesChildless (gold : List Arc) (pendings : List Node) : Prop where
  child : ∀ v1 v2 v3, [v1, v2, v3] <:+: pendings → v1 < v2 → v1 ≠ root →
    (⟨v3, v1⟩ : Arc) ∈ gold → v3 = v1
  parent : ∀ v1 v2 v3, [v1, v2, v3] <:+: pendings → v1 < v2 → v1 ≠ root →
    (⟨v1, v3⟩ : Arc) ∈ gold → Childless gold pendings v1
  left : ∀ v0 v1 v2, [v0, v1, v2] <:+: pendings.tail → v1 < v2 → v1 ≠ root →
    Linked gold v0 v2 → Childless gold pendings v1

/-- Three neighbours by their positions. -/
theorem triple_infix_iff {pendings : List Node} {a b c : Node} :
    [a, b, c] <:+: pendings ↔
      ∃ i : Nat, pendings[i]? = some a ∧ pendings[i + 1]? = some b ∧
        pendings[i + 2]? = some c := by
  rw [List.infix_iff_getElem?]
  constructor
  · rintro ⟨k, -, hget⟩
    refine ⟨k, ?_, ?_, ?_⟩
    · simpa using hget 0 (by simp)
    · simpa [Nat.add_comm] using hget 1 (by simp)
    · simpa [Nat.add_comm] using hget 2 (by simp)
  · rintro ⟨k, ha, hb, hc⟩
    have hlt := (List.getElem?_eq_some_iff.mp hc).1
    refine ⟨k, by simp only [List.length_cons, List.length_nil]; omega, fun i hi => ?_⟩
    match i, hi with
    | 0, _ => simpa using ha
    | 1, _ => simpa [Nat.add_comm] using hb
    | 2, _ => simpa [Nat.add_comm] using hc

theorem oracleGoldAttachP_iff_mem {gold : List Arc} {s t : Node} :
    oracleGoldAttachP ⟨gold⟩ s t = true ↔ (⟨s, t⟩ : Arc) ∈ gold := oracleGoldAttachP_iff

theorem childless_iff {gold : List Arc} {pendings : List Node} {v : Node} :
    Childless gold pendings v ↔ ∀ child, ¬PendingChild ⟨gold⟩ pendings v child := by
  constructor
  · rintro h child ⟨hmem, hne, hgold⟩
    exact hne (h _ (oracleGoldAttachP_iff_mem.mp hgold) rfl hmem)
  · rintro h ⟨s, t⟩ harc rfl hmem
    by_contra hne
    exact h s ⟨hmem, hne, oracleGoldAttachP_iff_mem.mpr harc⟩

/-- `oracle-valid-move-p` at the place of `v1` and `v2`. -/
theorem oracleValidMoveP_iff {gold : List Arc} {pendings : List Node} {i : Nat} {v1 v2 : Node}
    (hv1 : pendings[i]? = some v1) (hv2 : pendings[i + 1]? = some v2) :
    oracleValidMoveP ⟨gold⟩ i pendings = true ↔ (v1 < v2 ∧ v1 ≠ root) ∧
      ((1 < i ∧ ∃ v0, pendings[i - 1]? = some v0 ∧ Linked gold v0 v2) ∨
        ∃ v3, pendings[i + 2]? = some v3 ∧ Linked gold v1 v3) := by
  have hside : ∀ (x : Option Node) (v : Node),
      ((x.any fun w => oracleGoldAttachP ⟨gold⟩ v w) = true ∨
        (x.any fun w => oracleGoldAttachP ⟨gold⟩ w v) = true) ↔
      ∃ w, x = some w ∧ Linked gold v w := by
    intro x v
    cases x with
    | none => simp
    | some w => simp [oracleGoldAttachP_iff_mem, Linked]
  have hleft : ∀ v0, Linked gold v0 v2 ↔ Linked gold v2 v0 := fun v0 => or_comm
  have hguard : ∀ v0, (if 1 < i then pendings[i - 1]? else none) = some v0 ↔
      1 < i ∧ pendings[i - 1]? = some v0 := fun v0 => Option.ite_none_right_eq_some
  simp only [oracleValidMoveP, hv1, hv2, Bool.and_eq_true, decide_eq_true_eq, Bool.or_eq_true]
  rw [or_assoc, hside, hside]
  simp only [hguard, hleft, and_assoc, exists_and_left]

/-- The moves that are allowed, by the three nodes that stand next to each other. -/
theorem mem_allowedPairs_iff_adjacent {gold : List Arc} {pendings : List Node} {v1 v2 : Node} :
    (v1, v2) ∈ allowedPairs ⟨gold⟩ pendings ↔ (v1 < v2 ∧ v1 ≠ root) ∧
      ((∃ v0, [v0, v1, v2] <:+: pendings.tail ∧ Linked gold v0 v2) ∨
        ∃ v3, [v1, v2, v3] <:+: pendings ∧ Linked gold v1 v3) := by
  rw [mem_allowedPairs_iff]
  constructor
  · rintro ⟨i, hv1, hv2, hvalid⟩
    obtain ⟨horder, ⟨hi, v0, hv0, hlinked⟩ | ⟨v3, hv3, hlinked⟩⟩ :=
      (oracleValidMoveP_iff hv1 hv2).mp hvalid
    · obtain ⟨k, rfl⟩ := Nat.exists_eq_add_of_le hi
      refine ⟨horder, Or.inl ⟨v0, triple_infix_iff.mpr ⟨k, ?_, ?_, ?_⟩, hlinked⟩⟩
      · rw [List.getElem?_tail, ← hv0]
        congr 1
        omega
      · rw [List.getElem?_tail, ← hv1]
        congr 1
        omega
      · rw [List.getElem?_tail, ← hv2]
        congr 1
        omega
    · exact ⟨horder, Or.inr ⟨v3, triple_infix_iff.mpr ⟨i, hv1, hv2, hv3⟩, hlinked⟩⟩
  · rintro ⟨horder, ⟨v0, hadjacent, hlinked⟩ | ⟨v3, hadjacent, hlinked⟩⟩
    · obtain ⟨k, hv0, hv1, hv2⟩ := triple_infix_iff.mp hadjacent
      rw [List.getElem?_tail] at hv0 hv1 hv2
      refine ⟨k + 2, hv1, hv2, (oracleValidMoveP_iff hv1 hv2).mpr ⟨horder, Or.inl ?_⟩⟩
      exact ⟨by omega, v0, hv0, hlinked⟩
    · obtain ⟨i, hv1, hv2, hv3⟩ := triple_infix_iff.mp hadjacent
      exact ⟨i, hv1, hv2, (oracleValidMoveP_iff hv1 hv2).mpr ⟨horder, Or.inr ⟨v3, hv3, hlinked⟩⟩⟩

/-- Nodes with pending children are in no allowed pair on the left exactly if this holds of the
gold arcs and the pending nodes. -/
theorem movesChildless_iff {gold : List Arc} {pendings : List Node} :
    MovesChildless gold pendings ↔
      ∀ v1 v2, (v1, v2) ∈ allowedPairs ⟨gold⟩ pendings → Childless gold pendings v1 := by
  simp only [mem_allowedPairs_iff_adjacent]
  constructor
  · rintro h v1 v2 ⟨⟨hlt, hne⟩, ⟨v0, hadjacent, hlinked⟩ | ⟨v3, hadjacent, harc | harc⟩⟩
    · exact h.left v0 v1 v2 hadjacent hlt hne hlinked
    · exact h.parent v1 v2 v3 hadjacent hlt hne harc
    · obtain rfl := h.child v1 v2 v3 hadjacent hlt hne harc
      exact h.parent v3 v2 v3 hadjacent hlt hne harc
  · intro h
    constructor
    case child =>
      -- The child next to `v2` is pending itself.
      intro v1 v2 v3 hadjacent hlt hne harc
      have hnone := h v1 v2 ⟨⟨hlt, hne⟩, Or.inr ⟨v3, hadjacent, Or.inr harc⟩⟩
      exact hnone _ harc rfl (hadjacent.subset (by simp))
    case parent =>
      intro v1 v2 v3 hadjacent hlt hne harc
      exact h v1 v2 ⟨⟨hlt, hne⟩, Or.inr ⟨v3, hadjacent, Or.inl harc⟩⟩
    case left =>
      intro v0 v1 v2 hadjacent hlt hne hlinked
      exact h v1 v2 ⟨⟨hlt, hne⟩, Or.inl ⟨v0, hadjacent, hlinked⟩⟩

/-- The allowed moves move nodes without pending children if and only if the gold arcs and the
pending nodes are such that `MovesChildless` holds.  `oracle-no-children-p` has the value that
its name says on every node if and only if no pending node has a gold parent, other than
itself. -/
theorem oracleAllowedMoves_childless_iff (oracle : Oracle) (c : Configuration) :
    ((∀ moves, oracleAllowedMoves oracle c = some moves →
        ∀ v1 v2, .move v1 v2 ∈ moves → ∀ child, ¬PendingChild oracle c.pendings v1 child) ↔
      MovesChildless oracle.goldArcList c.pendings) ∧
    ((∀ v, oracleNoChildrenP oracle v c.pendings = true ↔
        ∀ child, ¬PendingChild oracle c.pendings v child) ↔
      ∀ arc ∈ oracle.goldArcList, arc.source ∈ c.pendings → arc.source = arc.target) := by
  obtain ⟨gold⟩ := oracle
  refine ⟨?_, ?_⟩
  · rw [movesChildless_iff]
    have hmoves := oracleAllowedMoves_eq ⟨gold⟩ c
    constructor
    · intro h v1 v2 hpair
      exact childless_iff.mpr (h _ hmoves v1 v2 ((mem_oracleAllowedMoves_iff hmoves).mpr hpair))
    · intro h moves heq v1 v2 hmem
      exact childless_iff.mp (h v1 v2 ((mem_oracleAllowedMoves_iff heq).mp hmem))
  · constructor
    · intro h arc harc hsource
      exact childless_iff.mpr ((h arc.target).mp rfl) arc harc rfl hsource
    · intro h v
      refine iff_of_true rfl (childless_iff.mp ?_)
      rintro arc harc rfl hsource
      exact h arc harc hsource

/-- In the first turn over the nodes `1`, `2`, `3`, the oracle lets `1` move away from its
child `3`. -/
theorem not_oracleAllowedMoves_childless :
    ¬∀ (oracle : Oracle) (c : Configuration) (moves : List Action),
      oracleAllowedMoves oracle c = some moves →
        ∀ v1 v2, .move v1 v2 ∈ moves → ∀ child, ¬PendingChild oracle c.pendings v1 child := by
  intro h
  refine h (trainingOracle [⟨3, 1⟩, ⟨1, 2⟩] 2) (initialConfiguration [1, 2, 3])
    [.move 1 2, .move 2 3] (by decide) 1 2 (by decide) 3 ?_
  exact ⟨by decide, by decide, by decide⟩

/-! ## What the reached configurations have in common -/

/-- The arcs are of the tree, and a node is attached after its children. -/
structure OracleInvariant (nodes : List Node) (arcs : List Arc) (c : Configuration) : Prop where
  base : Invariant nodes c
  gold : ∀ {u v}, edge c.arcs u v → edge arcs u v
  finished : ∀ {u v}, edge arcs u v → u ∈ c.arcs.map Arc.source → v ∈ c.arcs.map Arc.source

namespace OracleInvariant

theorem initial (nodes : List Node) (arcs : List Arc) :
    OracleInvariant nodes arcs (initialConfiguration nodes) where
  base := invariant_initial nodes
  gold := fun h => by cases h
  finished := fun _ h => by cases h

/-- An allowed attachment is a change that keeps the invariant. -/
theorem attach (tree : Tree nodes arcs) (h : OracleInvariant nodes arcs c) {s t : Node}
    (hpair : (s, t) ∈ neighbours c.pendings ∨ (t, s) ∈ neighbours c.pendings)
    (hgold : edge arcs t s) (hchildren : ∀ g, edge arcs s g → edge c.arcs s g) :
    OracleInvariant nodes arcs (configurationAttach c s t) := by
  obtain ⟨rest, hrest, hnodup, hroot, -⟩ := h.base.rest tree.nodup tree.root_notMem
  obtain ⟨pendings, attached⟩ := c
  cases hrest
  have hmem : s ∈ root :: rest ∧ t ∈ root :: rest := by
    cases hpair with
    | inl hst => exact ⟨(List.of_mem_zip hst).1, List.mem_of_mem_tail (List.of_mem_zip hst).2⟩
    | inr hts => exact ⟨List.mem_of_mem_tail (List.of_mem_zip hts).2, (List.of_mem_zip hts).1⟩
  have hs : s ≠ root := fun heq => tree.root_notMem (heq ▸ tree.spanning.target hgold)
  have hchange : Change ⟨root :: rest, attached⟩ (.attach s t)
      (configurationAttach ⟨root :: rest, attached⟩ s t) :=
    change_attach hroot hnodup ((List.mem_cons.mp hmem.1).resolve_left hs) hmem.2
      (tree.spanning.acyclic.ne hgold)
  refine ⟨h.base.step tree.nodup tree.root_notMem hchange, ?_, ?_⟩
  · intro u v huv
    cases edge_cons.mp huv with
    | inl hnew => exact hnew.1 ▸ hnew.2 ▸ hgold
    | inr hold => exact h.gold hold
  · intro u v huv hu
    cases List.mem_cons.mp hu with
    | inl heq =>
        have hus : u = s := heq
        exact List.mem_cons_of_mem _ (hchildren v (hus ▸ huv)).source_mem
    | inr hold => exact List.mem_cons_of_mem _ (h.finished huv hold)

/-- A move keeps the arcs. -/
theorem move (tree : Tree nodes arcs) (h : OracleInvariant nodes arcs c) {v1 v2 : Node}
    (hpair : (v1, v2) ∈ neighbours c.pendings) (hlt : v1 < v2) (hv1 : v1 ≠ root)
    (htransition : configurationMove c v1 v2 = some next) : OracleInvariant nodes arcs next := by
  obtain ⟨rest, hrest, hnodup, hroot, -⟩ := h.base.rest tree.nodup tree.root_notMem
  obtain ⟨pendings, attached⟩ := c
  cases hrest
  have hpair' : (v1, v2) ∈ neighbours rest := by
    cases rest with
    | nil => cases hpair
    | cons v rest =>
        refine (List.mem_cons.mp hpair).resolve_left fun heq => hv1 ?_
        exact congrArg Prod.fst heq
  obtain ⟨next', hnext', hchange⟩ :
      ∃ next, configurationMove ⟨root :: rest, attached⟩ v1 v2 = some next ∧
        Change ⟨root :: rest, attached⟩ (.move v1 v2) next :=
    change_move hroot hnodup hpair' hlt
  cases htransition.symm.trans hnext'
  have harcs : next.arcs = attached := by
    obtain ⟨pendings, -, heq⟩ := Lisp.bind_inv htransition
    cases heq
    rfl
  exact ⟨h.base.step tree.nodup tree.root_notMem hchange, harcs ▸ h.gold, harcs ▸ h.finished⟩

theorem reached (tree : Tree nodes arcs) (hc : Reached ⟨arcs⟩ nodes c) :
    OracleInvariant nodes arcs c := by
  induction hc with
  | start => exact initial nodes arcs
  | @attach c next action actions _ hactions haction htransition ih =>
      obtain ⟨_, hactions', hmem⟩ := oracleAllowedAttaches_eq tree c
      cases hactions.symm.trans hactions'
      obtain ⟨s, t, rfl, hpair, hgold, hchildren⟩ := (hmem action).mp haction
      cases htransition
      exact ih.attach tree hpair hgold hchildren
  | @move c next action actions _ hactions haction htransition ih =>
      cases hactions.symm.trans (oracleAllowedMoves_eq ⟨arcs⟩ c)
      obtain ⟨⟨v1, v2⟩, hpair, rfl⟩ := List.mem_map.mp haction
      obtain ⟨hlt, hne, hpair⟩ := mem_allowedPairs hpair
      exact ih.move tree hpair hlt hne htransition

/-- With a node, its parent is pending. -/
theorem parent_pending (tree : Tree nodes arcs) (h : OracleInvariant nodes arcs c) {u v : Node}
    (huv : edge arcs u v) (hv : v ∈ c.pendings) : u ∈ c.pendings := by
  obtain ⟨rest, hrest, -, -, hperm⟩ := h.base.rest tree.nodup tree.root_notMem
  rw [hrest] at hv ⊢
  cases tree.spanning.source huv with
  | inl hroot => exact hroot ▸ List.mem_cons_self ..
  | inr hu =>
      cases List.mem_append.mp (hperm.mem_iff.mpr hu) with
      | inl hu => exact List.mem_cons_of_mem _ hu
      | inr hu =>
          have hvnodes : v ∈ nodes := tree.spanning.target huv
          have hvroot : v ≠ root := fun heq => tree.root_notMem (heq ▸ hvnodes)
          have hvrest := (List.mem_cons.mp hv).resolve_left hvroot
          have hdisjoint := List.disjoint_of_nodup_append (hperm.nodup_iff.mpr tree.nodup)
          exact absurd (h.finished huv hu) (hdisjoint hvrest)

/-- A child that is not pending has been attached to its parent. -/
theorem attached (tree : Tree nodes arcs) (h : OracleInvariant nodes arcs c) {u v : Node}
    (huv : edge arcs u v) (hv : v ∉ c.pendings) : edge c.arcs u v := by
  obtain ⟨rest, hrest, hperm⟩ := h.base.pendings
  have hsource : v ∈ c.arcs.map Arc.source := by
    refine (List.mem_append.mp (hperm.mem_iff.mpr (tree.spanning.target huv))).resolve_left ?_
    exact fun hmem => hv (hrest ▸ List.mem_cons_of_mem _ hmem)
  obtain ⟨w, hw⟩ := exists_edge hsource
  rw [(h.gold hw).unique tree.sources huv] at hw
  exact hw

/-- Some pending node has pending children, but no pending grandchildren. -/
theorem exists_innermost (tree : Tree nodes arcs) (h : OracleInvariant nodes arcs c)
    (hrun : terminatedP c = some false) :
    ∃ p ∈ c.pendings, (∃ v ∈ c.pendings, edge arcs p v) ∧
      ∀ v ∈ c.pendings, edge arcs p v → ∀ w ∈ c.pendings, ¬edge arcs v w := by
  obtain ⟨rest, hrest, hperm⟩ := h.base.pendings
  cases rest with
  | nil =>
      rw [terminatedP, hrest] at hrun
      cases hrun
  | cons v rest =>
      have hv : v ∈ c.pendings := by simp [hrest]
      obtain ⟨u, hu⟩ := tree.spanning.parent (hperm.mem_iff.mp (by simp : v ∈ v :: rest ++ _))
      exact tree.spanning.acyclic.exists_innermost (List.finite_toSet c.pendings)
        (h.parent_pending tree hu hv) hv hu

/-- In a projective order, a node without pending grandchildren has a pending child next
to it, if it has one. -/
theorem exists_neighbour (tree : Tree nodes arcs) (h : OracleInvariant nodes arcs c)
    (hprojective : Projective arcs c.pendings) {p v : Node} (hp : p ∈ c.pendings)
    (hv : v ∈ c.pendings) (hpv : edge arcs p v)
    (hinner : ∀ v ∈ c.pendings, edge arcs p v → ∀ w ∈ c.pendings, ¬edge arcs v w) :
    ∃ x ∈ c.pendings, edge arcs p x ∧
      ((x, p) ∈ neighbours c.pendings ∨ (p, x) ∈ neighbours c.pendings) := by
  have hchild : ∀ x, TransGen (edge arcs) p x → x ∈ c.pendings → edge arcs p x := by
    intro x hpath
    induction hpath with
    | single hpx => exact fun _ => hpx
    | tail _ hyx ih =>
        intro hx
        have hy := h.parent_pending tree hyx hx
        exact absurd hyx (hinner _ hy (ih hy) _ hx)
  obtain ⟨l, m, hsplit⟩ := List.append_of_mem hp
  have hne : v ≠ p := (tree.spanning.acyclic.ne hpv).symm
  have hside : v ∈ l ∨ v ∈ m := by
    rw [hsplit] at hv
    simpa [hne] using hv
  cases hside with
  | inr hvm =>
      -- What follows `p` is a child: it is `v`, or it stands between `p` and `v`.
      cases m with
      | nil => cases hvm
      | cons x m =>
          have hx : x ∈ c.pendings := by simp [hsplit]
          refine ⟨x, hx, ?_, Or.inr (mem_neighbours.mpr ⟨l, m, hsplit⟩)⟩
          cases List.mem_cons.mp hvm with
          | inl heq => exact heq ▸ hpv
          | inr hvm =>
              have hbetween : [p, x, v].Sublist c.pendings := by
                rw [hsplit]
                refine List.Sublist.trans ?_ (List.sublist_append_right l _)
                exact ((List.singleton_sublist.mpr hvm).cons_cons x).cons_cons p
              exact hchild x ((hprojective p x v hbetween).1 hpv) hx
  | inl hvl =>
      cases List.eq_nil_or_concat l with
      | inl hnil =>
          rw [hnil] at hvl
          cases hvl
      | inr hconcat =>
          obtain ⟨l, x, rfl⟩ := hconcat
          rw [List.concat_eq_append, List.append_assoc] at hsplit
          have hx : x ∈ c.pendings := by simp [hsplit]
          refine ⟨x, hx, ?_, Or.inl (mem_neighbours.mpr ⟨l, m, hsplit⟩)⟩
          cases List.mem_append.mp (List.concat_eq_append ▸ hvl) with
          | inr heq => exact List.mem_singleton.mp heq ▸ hpv
          | inl hvl =>
              have hbetween : [v, x, p].Sublist c.pendings := by
                rw [hsplit]
                refine List.Sublist.append (List.singleton_sublist.mpr hvl) ?_
                exact ((List.nil_sublist m).cons_cons p).cons_cons x
              exact hchild x ((hprojective v x p hbetween).2 hpv) hx

end OracleInvariant

/-- In a projective order the oracle allows an attachment. -/
theorem Tree.exists_allowed (tree : Tree nodes arcs) (h : OracleInvariant nodes arcs c)
    (hrun : terminatedP c = some false) (hprojective : Projective arcs c.pendings) :
    ∃ actions, oracleAllowedAttaches ⟨arcs⟩ c = some actions ∧ actions ≠ [] := by
  obtain ⟨actions, hactions, hmem⟩ := oracleAllowedAttaches_eq tree c
  obtain ⟨p, hp, ⟨v, hv, hpv⟩, hinner⟩ := h.exists_innermost tree hrun
  obtain ⟨x, hx, hpx, hpair⟩ := h.exists_neighbour tree hprojective hp hv hpv hinner
  refine ⟨actions, hactions, List.ne_nil_of_mem ((hmem (.attach x p)).mpr ?_)⟩
  exact ⟨x, p, rfl, hpair, hpx, fun g hg => h.attached tree hg fun hpending =>
    hinner x hx hpx g hpending hg⟩

/-- An allowed attachment leaves a part of the order. -/
theorem Tree.sublist_of_allowed (tree : Tree nodes arcs)
    (hactions : oracleAllowedAttaches ⟨arcs⟩ c = some actions) (haction : action ∈ actions) :
    ∃ next, transitioned c action = some next ∧ next.pendings.Sublist c.pendings := by
  obtain ⟨_, hactions', hmem⟩ := oracleAllowedAttaches_eq tree c
  cases hactions.symm.trans hactions'
  obtain ⟨s, t, rfl, -⟩ := (hmem action).mp haction
  exact ⟨_, rfl, List.filter_sublist⟩

end Oracle

/-! ## Training -/

section Train

variable {sorting : DescendingSort Int} {oracle : Oracle} {nodes : List Node}

/-- A turn of the training stops where the oracle allows nothing.  Otherwise it follows an
allowed action or none. -/
theorem actionFnUpdatingScore_inv {scorer : Scorer} {c : Configuration}
    {result : Except Stop (Action × Scorer)}
    (h : actionFnUpdatingScore sorting oracle scorer c = result)
    (hresult : result ≠ .error .otherError) :
    ∃ moves attaches, oracleAllowedMoves oracle c = some moves ∧
      oracleAllowedAttaches oracle c = some attaches ∧
      (attaches = [] ∧ moves = [] ∧ result = .error .noAllowedActions ∨
        ∃ action scorer', result = .ok (action, scorer') ∧
          (action = .nop ∨ action ∈ attaches ∨ action ∈ moves)) := by
  obtain ⟨moves, hmoves, h⟩ := orStop_bind_eq h hresult
  obtain ⟨attaches, hattaches, h⟩ := orStop_bind_eq h hresult
  refine ⟨moves, attaches, hmoves, hattaches, ?_⟩
  by_cases hnone : attaches = [] ∧ moves = []
  · rw [if_pos hnone] at h
    exact Or.inl ⟨hnone.1, hnone.2, h.symm⟩
  · rw [if_neg hnone] at h
    obtain ⟨choice, -, h⟩ := orStop_bind_eq h hresult
    by_cases hchoice : choice ∈ attaches ∨ choice ∈ moves
    · rw [if_pos hchoice] at h
      exact Or.inr ⟨choice, scorer, h.symm, Or.inr hchoice⟩
    · rw [if_neg hchoice] at h
      obtain ⟨good, -, h⟩ := orStop_bind_eq h hresult
      exact Or.inr ⟨.nop, _, h.symm, Or.inl rfl⟩

theorem of_actionFn_error {scorer : Scorer} {c : Configuration}
    (h : actionFnUpdatingScore sorting oracle scorer c = .error .noAllowedActions) :
    oracleAllowedAttaches oracle c = some [] ∧ oracleAllowedMoves oracle c = some [] := by
  obtain ⟨moves, attaches, hmoves, hattaches, ⟨rfl, rfl, -⟩ | ⟨_, _, hok, -⟩⟩ :=
    actionFnUpdatingScore_inv h nofun
  · exact ⟨hattaches, hmoves⟩
  · cases hok

/-- A turn of the training leads to a reached configuration again. -/
theorem reached_of_actionFn {scorer scorer' : Scorer} {c next : Configuration} {action : Action}
    (hc : Reached oracle nodes c)
    (h : actionFnUpdatingScore sorting oracle scorer c = .ok (action, scorer'))
    (htransition : transitioned c action = some next) : Reached oracle nodes next := by
  obtain ⟨moves, attaches, hmoves, hattaches, ⟨-, -, herror⟩ | ⟨_, _, hok, hallowed⟩⟩ :=
    actionFnUpdatingScore_inv h nofun
  · cases herror
  · cases hok
    rcases hallowed with rfl | hattach | hmove
    · cases htransition
      exact hc
    · exact hc.attach hattaches hattach htransition
    · exact hc.move hmoves hmove htransition

/-- The turns of the training lead from the first configuration to another one, with the scorer
that it has there. -/
inductive Trains (sorting : DescendingSort Int) (oracle : Oracle) (nodes : List Node)
    (scorer : Scorer) : Scorer → Configuration → Prop
  | start : Trains sorting oracle nodes scorer scorer (initialConfiguration nodes)
  | turn {scorer₁ scorer₂ : Scorer} {c next : Configuration} {action : Action} :
      Trains sorting oracle nodes scorer scorer₁ c → terminatedP c = some false →
      actionFnUpdatingScore sorting oracle scorer₁ c = .ok (action, scorer₂) →
      transitioned c action = some next → Trains sorting oracle nodes scorer scorer₂ next

theorem Trains.reached {scorer scorer' : Scorer} {c : Configuration}
    (h : Trains sorting oracle nodes scorer scorer' c) : Reached oracle nodes c := by
  induction h with
  | start => exact Reached.start
  | turn _ _ hturn hnext ih => exact reached_of_actionFn ih hturn hnext

/-- The training stops at the turn that signals the error. -/
theorem exists_stop : ∀ {fuel : Nat} {scorer scorer' : Scorer} {c : Configuration},
    Trains sorting oracle nodes scorer scorer' c →
    transitCollectingActions (actionFnUpdatingScore sorting oracle) fuel scorer' c =
        .error .noAllowedActions →
      ∃ last stop, Trains sorting oracle nodes scorer last stop ∧
        terminatedP stop = some false ∧
        actionFnUpdatingScore sorting oracle last stop = .error .noAllowedActions
  | 0, _, _, _, _, h => by cases h
  | fuel + 1, scorer, scorer', c, hc, h => by
      obtain ⟨terminated, hterminated, h⟩ := orStop_bind_eq h nofun
      cases terminated with
      | true => cases h
      | false =>
          obtain ⟨_, -, h⟩ := orStop_bind_eq h nofun
          cases hturn : actionFnUpdatingScore sorting oracle scorer' c with
          | error stop =>
              rw [hturn] at h
              cases h
              exact ⟨scorer', c, hc, hterminated, hturn⟩
          | ok result =>
              obtain ⟨action, scorer''⟩ := result
              rw [hturn] at h
              obtain ⟨next, hnext, h⟩ := orStop_bind_eq h nofun
              have hnextTrains := hc.turn hterminated hturn hnext
              cases hrest : transitCollectingActions (actionFnUpdatingScore sorting oracle) fuel
                  scorer'' next with
              | error stop =>
                  rw [hrest] at h
                  cases h
                  exact exists_stop hnextTrains hrest
              | ok result =>
                  rw [hrest] at h
                  cases h

/-- For a gold tree with an arc, the training only stops where the oracle allows nothing and the
pending nodes are not in projective order.  In a projective order an attachment is allowed, and
every attachment that is allowed keeps the order projective. -/
theorem training_stops {gold : List Arc} (h : GoldTree nodes gold) (hne : gold ≠ []) :
    ∃ r, findRoot gold = some r ∧
      (∀ c, Reached (trainingOracle gold r) nodes c → terminatedP c = some false →
        Projective gold c.pendings →
          ∃ attaches, oracleAllowedAttaches (trainingOracle gold r) c = some attaches ∧
            attaches ≠ [] ∧ ∀ action ∈ attaches, ∃ next, transitioned c action = some next ∧
              Projective gold next.pendings) ∧
      ∀ sorting fuel scorer, train sorting fuel nodes gold scorer = .error .noAllowedActions →
        ∃ scorer' c, Trains sorting (trainingOracle gold r) nodes scorer scorer' c ∧
          actionFnUpdatingScore sorting (trainingOracle gold r) scorer' c =
            .error .noAllowedActions ∧
          Reached (trainingOracle gold r) nodes c ∧ terminatedP c = some false ∧
          oracleAllowedAttaches (trainingOracle gold r) c = some [] ∧
          oracleAllowedMoves (trainingOracle gold r) c = some [] ∧
          ¬Projective gold c.pendings := by
  obtain ⟨r, hr, hfound, hsource⟩ := h.findRoot hne
  have tree : Tree nodes (⟨r, root⟩ :: gold) := h.tree hr hsource
  have hallowed : ∀ c, Reached (trainingOracle gold r) nodes c → terminatedP c = some false →
      Projective gold c.pendings →
        ∃ attaches, oracleAllowedAttaches (trainingOracle gold r) c = some attaches ∧
          attaches ≠ [] := by
    intro c hc hrun hprojective
    have hinvariant := OracleInvariant.reached tree hc
    refine tree.exists_allowed hinvariant hrun ?_
    obtain ⟨rest, hrest, hperm⟩ := hinvariant.base.pendings
    rw [hrest] at hprojective ⊢
    exact hprojective.rooted tree fun v hv => hperm.mem_iff.mp (List.mem_append_left _ hv)
  refine ⟨r, hfound, fun c hc hrun hprojective => ?_, fun sorting fuel scorer hstop => ?_⟩
  · obtain ⟨attaches, hattaches, hsome⟩ := hallowed c hc hrun hprojective
    refine ⟨attaches, hattaches, hsome, fun action haction => ?_⟩
    obtain ⟨next, hnext, hpart⟩ := tree.sublist_of_allowed hattaches haction
    exact ⟨next, hnext, hprojective.sublist hpart⟩
  · obtain ⟨_, -, hstop⟩ := orStop_bind_eq hstop nofun
    rw [hfound] at hstop
    obtain ⟨scorer', c, htrains, hrun, herror⟩ := exists_stop Trains.start hstop
    obtain ⟨hattaches, hmoves⟩ := of_actionFn_error herror
    refine ⟨scorer', c, htrains, herror, htrains.reached, hrun, hattaches, hmoves, ?_⟩
    intro hprojective
    obtain ⟨attaches, hallowed, hsome⟩ := hallowed c htrains.reached hrun hprojective
    exact hsome (Option.some.inj (hallowed.symm.trans hattaches))

/-- One arc. -/
theorem goldTree_pair : GoldTree [0, 1] [⟨0, 1⟩] where
  nonneg := by decide
  sorted := by decide
  ends := by decide
  sources := by decide
  acyclic := by
    refine Acyclic.of_rank (fun v => -v) fun u v huv => ?_
    cases List.mem_singleton.mp huv
    decide
  root := by
    have hunique : ∀ v ∈ ([0, 1] : List Node),
        v ∉ ([⟨0, 1⟩] : List Arc).map Arc.source → v = 1 := by decide
    exact ⟨1, by decide, fun v hv => hunique v hv.1 hv.2⟩

end Train

/-! ## Trees the training stops on -/

/-- The arcs of `0` and `4` cross, and no child is two places from its parent. -/
def crossedTree : List Arc := [⟨0, 3⟩, ⟨1, 2⟩, ⟨3, 2⟩, ⟨4, 1⟩]

/-- A projective tree, in which every node has one child at most. -/
def nestedTree : List Arc := [⟨1, 0⟩, ⟨2, 3⟩, ⟨3, 1⟩]

/-- What is pending after two moves over the nested tree. -/
def nestedStop : Configuration := ⟨[root, 2, 0, 1, 3], []⟩

theorem goldTree_crossedTree : GoldTree [0, 1, 2, 3, 4] crossedTree where
  nonneg := by decide
  sorted := by decide
  ends := by decide
  sources := by decide
  acyclic := by
    let rank : Node → Nat := fun v => if v = 2 then 0 else if v = 1 ∨ v = 3 then 1 else 2
    refine Acyclic.of_rank rank fun u v huv => ?_
    simp only [edge, crossedTree, List.mem_cons, Arc.mk.injEq, List.not_mem_nil, or_false] at huv
    obtain ⟨rfl, rfl⟩ | ⟨rfl, rfl⟩ | ⟨rfl, rfl⟩ | ⟨rfl, rfl⟩ := huv <;> decide
  root := by
    have hunique : ∀ v ∈ ([0, 1, 2, 3, 4] : List Node), v ∉ crossedTree.map Arc.source → v = 2 := by
      decide
    exact ⟨2, by decide, fun v hv => hunique v hv.1 hv.2⟩

/-- A scorer for which all actions are alike. -/
def plainScorer : Scorer where
  weights := .empty
  featureStringExtractor _ _ := []

theorem training_stops_crossed : ∃ r, findRoot crossedTree = some r ∧
    (∀ c, Reached (trainingOracle crossedTree r) [0, 1, 2, 3, 4] c →
      terminatedP c = some false → Projective crossedTree c.pendings →
        ∃ attaches, oracleAllowedAttaches (trainingOracle crossedTree r) c = some attaches ∧
          attaches ≠ [] ∧ ∀ action ∈ attaches, ∃ next, transitioned c action = some next ∧
            Projective crossedTree next.pendings) ∧
    ∃ scorer' c,
      Trains .stable (trainingOracle crossedTree r) [0, 1, 2, 3, 4] plainScorer scorer' c ∧
      actionFnUpdatingScore .stable (trainingOracle crossedTree r) scorer' c =
        .error .noAllowedActions ∧
      Reached (trainingOracle crossedTree r) [0, 1, 2, 3, 4] c ∧ terminatedP c = some false ∧
      oracleAllowedAttaches (trainingOracle crossedTree r) c = some [] ∧
      oracleAllowedMoves (trainingOracle crossedTree r) c = some [] ∧
      ¬Projective crossedTree c.pendings := by
  obtain ⟨r, hfound, hallowed, hstops⟩ := training_stops goldTree_crossedTree (by decide)
  exact ⟨r, hfound, hallowed, hstops .stable 1 plainScorer rfl⟩

theorem goldTree_nestedTree : GoldTree [0, 1, 2, 3] nestedTree where
  nonneg := by decide
  sorted := by decide
  ends := by decide
  sources := by decide
  acyclic := by
    let rank : Node → Nat := fun v =>
      if v = 0 then 0 else if v = 1 then 1 else if v = 3 then 2 else 3
    refine Acyclic.of_rank rank fun u v huv => ?_
    simp only [edge, nestedTree, List.mem_cons, Arc.mk.injEq, List.not_mem_nil, or_false] at huv
    obtain ⟨rfl, rfl⟩ | ⟨rfl, rfl⟩ | ⟨rfl, rfl⟩ := huv <;> decide
  root := by
    have hunique : ∀ v ∈ ([0, 1, 2, 3] : List Node), v ∉ nestedTree.map Arc.source → v = 0 := by
      decide
    exact ⟨0, by decide, fun v hv => hunique v hv.1 hv.2⟩

/-- Nodes stand between a parent and a child for `1` and `3` only. -/
theorem projective_nestedTree : Projective nestedTree [root, 0, 1, 2, 3] := by
  have hbetween : ∀ u ∈ [root, 0, 1, 2, 3], ∀ x ∈ [root, 0, 1, 2, 3], ∀ v ∈ [root, 0, 1, 2, 3],
      [u, x, v].Sublist [root, 0, 1, 2, 3] →
        (⟨v, u⟩ ∈ nestedTree → u = 1 ∧ x = 2) ∧ ⟨u, v⟩ ∉ nestedTree := by decide
  have hpath : TransGen (edge nestedTree) 1 2 := by
    have hfirst : ⟨3, 1⟩ ∈ nestedTree := by decide
    have hlast : ⟨2, 3⟩ ∈ nestedTree := by decide
    exact TransGen.tail (TransGen.single hfirst) hlast
  intro u x v huxv
  obtain ⟨hdown, hup⟩ := hbetween u (huxv.subset (by simp)) x (huxv.subset (by simp)) v
    (huxv.subset (by simp)) huxv
  refine ⟨fun huv => ?_, fun hvu => absurd hvu hup⟩
  obtain ⟨rfl, rfl⟩ := hdown huv
  exact hpath

theorem reached_nestedStop : Reached (trainingOracle nestedTree 0) [0, 1, 2, 3] nestedStop := by
  have hstart : oracleAllowedMoves (trainingOracle nestedTree 0)
      (initialConfiguration [0, 1, 2, 3]) = some [.move 1 2, .move 2 3] := by decide
  have hnext : oracleAllowedMoves (trainingOracle nestedTree 0) ⟨[root, 0, 2, 1, 3], []⟩ =
      some [.move 0 2, .move 1 3] := by decide
  have hfirst : Reached (trainingOracle nestedTree 0) [0, 1, 2, 3] ⟨[root, 0, 2, 1, 3], []⟩ :=
    Reached.start.move hstart (List.mem_cons_self ..) (by decide)
  exact hfirst.move hnext (List.mem_cons_self ..) (by decide)

/-- The training stops in the first turn over the crossed tree, whatever the scorer is.  Over
the nested tree, which is projective, it may stop after two moves. -/
theorem training_can_stop :
    (GoldTree [0, 1, 2, 3, 4] crossedTree ∧ ∀ sorting fuel scorer,
      train sorting (fuel + 1) [0, 1, 2, 3, 4] crossedTree scorer = .error .noAllowedActions) ∧
    GoldTree [0, 1, 2, 3] nestedTree ∧ findRoot nestedTree = some 0 ∧
      Projective nestedTree [root, 0, 1, 2, 3] ∧
      Reached (trainingOracle nestedTree 0) [0, 1, 2, 3] nestedStop ∧
      terminatedP nestedStop = some false ∧
      oracleAllowedAttaches (trainingOracle nestedTree 0) nestedStop = some [] ∧
      oracleAllowedMoves (trainingOracle nestedTree 0) nestedStop = some [] := by
  refine ⟨⟨goldTree_crossedTree, fun sorting fuel scorer => ?_⟩, goldTree_nestedTree, by decide,
    projective_nestedTree, reached_nestedStop, by decide, by decide, by decide⟩
  rfl

end Hachee.DependencyParsing.EasyFirst
