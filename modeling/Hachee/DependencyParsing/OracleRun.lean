import Hachee.DependencyParsing.GoldTree

/-!
# The oracle builds the gold tree

In every configuration to which the oracle leads, its arcs are gold arcs, and a
vertex is attached only when all the arcs that leave it are there.  Below its top,
the stack is in projective order and has no two neighbours one of which could be
attached to the other, since either would have been done before a shift.  Two
vertices that are not in increasing order any more are in projective order, so a
swap finds them in increasing order (`OracleInvariant`).

It remains that a shift finds a vertex in the buffer.  With an empty buffer the
vertices without a parent are those of the stack, and a gold parent of one of them
is one of them.  If they are all in projective order, two neighbours, or the root of
the tree and the root of the parser, can be attached (`exists_attachable`).
-/

namespace Hachee.DependencyParsing.ShiftReduce

open Foundation Arborescence Relation

variable {gold : List Arc} {r : Vertex} {ordered : List Vertex}

/-! ## What the oracle tests -/

/-- The arc from `p` to `x` is a gold arc, and all gold arcs that leave `x` are there. -/
def Attachable (gold arcs : List Arc) (p x : Vertex) : Prop :=
  edge gold p x ∧ ∀ y, edge gold x y → edge arcs x y

theorem attachableP_iff {oracle : Oracle} {c : Configuration} {p x : Vertex} :
    attachableP oracle c p x = true ↔ Attachable oracle.goldArcList c.arcs p x := by
  simp only [attachableP, Bool.and_eq_true, List.any_eq_true, List.all_eq_true, List.mem_filter,
    decide_eq_true_eq, Attachable, edge]
  refine and_congr ⟨?_, ?_⟩ ⟨?_, ?_⟩
  · rintro ⟨⟨u, v⟩, harc, rfl, rfl⟩
    exact harc
  · intro harc
    exact ⟨_, harc, rfl, rfl⟩
  · intro hall y hy
    exact hall _ ⟨hy, rfl⟩
  · rintro hall ⟨u, v⟩ ⟨harc, rfl⟩
    exact hall v harc

/-- `a` stands before `b` in the list. -/
def Precedes (ordered : List Vertex) (a b : Vertex) : Prop := ordered.idxOf a < ordered.idxOf b

instance (ordered : List Vertex) (a b : Vertex) : Decidable (Precedes ordered a b) :=
  inferInstanceAs (Decidable (_ < _))

theorem idxOf?_eq_some {v : Vertex} : ∀ {l : List Vertex}, v ∈ l → l.idxOf? v = some (l.idxOf v)
  | w :: l, h => by
      rw [List.idxOf?_cons, List.idxOf_cons]
      by_cases hw : w = v
      · simp [hw]
      · have hv : v ∈ l := (List.mem_cons.mp h).resolve_left (Ne.symm hw)
        have hbeq : (w == v) = false := beq_eq_false_iff_ne.mpr hw
        simp [hbeq, idxOf?_eq_some hv]

theorem oracleVertexLt_eq {oracle : Oracle} {a b : Vertex} (ha : a ∈ oracle.orderedVertices)
    (hb : b ∈ oracle.orderedVertices) :
    oracleVertexLt oracle a b = some (decide (Precedes oracle.orderedVertices a b)) := by
  rw [oracleVertexLt, idxOf?_eq_some ha, idxOf?_eq_some hb]
  rfl

/-- What the oracle selects with two vertices on the stack. -/
theorem oracleSelectAction_eq {oracle : Oracle} {c : Configuration} {i j : Vertex}
    {rest : List Vertex} (hstack : c.stack = j :: i :: rest) :
    oracleSelectAction oracle c =
      if attachableP oracle c j i then some .leftArc
      else if attachableP oracle c i j then some .rightArc
      else
        (if i ≠ c.root ∧ j ≠ c.root then oracleVertexLt oracle j i else some false).bind
          fun swapP => some (if swapP then .swap else .shift) := by
  simp only [oracleSelectAction, oracleLeftArcP, oracleRightArcP, oracleSwapP, hstack]
  rfl

/-! ## The invariant -/

/-- What holds of every configuration to which the oracle leads. -/
structure OracleInvariant (gold : List Arc) (r : Vertex) (ordered : List Vertex)
    (c : Configuration) : Prop where
  base : Invariant (listVertices gold) c
  sound : ∀ u v, edge c.arcs u v → edge (⟨root, r⟩ :: gold) u v
  complete : ∀ u v w, edge c.arcs u v → edge (⟨root, r⟩ :: gold) v w → edge c.arcs v w
  sorted : (body c).tail.Pairwise fun a b => Precedes ordered b a
  irreducible : c.stack.tail.IsChain fun x y =>
    ¬Attachable (⟨root, r⟩ :: gold) c.arcs x y ∧ ¬Attachable (⟨root, r⟩ :: gold) c.arcs y x
  word : (word c).Pairwise fun a b => a < b ∨ Precedes ordered a b

theorem oracleInvariant_initial (gold : List Arc) (r : Vertex) (ordered : List Vertex) :
    OracleInvariant gold r ordered (makeInitialConfiguration (listVertices gold)) where
  base := invariant_initial
  sound := fun _ _ h => by cases h
  complete := fun _ _ _ h => by cases h
  sorted := List.Pairwise.nil
  irreducible := List.IsChain.nil
  word := (listVertices_pairwise_lt gold).imp fun hlt => Or.inl hlt

namespace OracleInvariant

variable {c : Configuration}

/-- An arc that the oracle asks for. -/
theorem attach (h : OracleInvariant gold r ordered c) (hroot : root ∉ listVertices gold)
    {p x : Vertex} {l rest : List Vertex}
    (hattach : Attachable (⟨root, r⟩ :: gold) c.arcs p x)
    (hbase : Invariant (listVertices gold) ⟨l ++ [root], c.buffer, ⟨p, x⟩ :: c.arcs, root⟩)
    (hstack : l ++ [root] = p :: rest) (hsuffix : rest <:+ c.stack.tail)
    (hsorted : l.tail.Sublist (body c).tail)
    (hword : (l.reverse ++ c.buffer).Sublist (ShiftReduce.word c)) :
    OracleInvariant gold r ordered ⟨l ++ [root], c.buffer, ⟨p, x⟩ :: c.arcs, root⟩ where
  base := hbase
  sound := by
    intro u v huv
    cases edge_cons.mp huv with
    | inl hnew => exact hnew.1 ▸ hnew.2 ▸ hattach.1
    | inr hold => exact h.sound u v hold
  complete := by
    intro u v w huv hvw
    cases edge_cons.mp huv with
    | inl hnew =>
        rw [hnew.2] at hvw ⊢
        exact edge_cons.mpr (Or.inr (hattach.2 w hvw))
    | inr hold => exact edge_cons.mpr (Or.inr (h.complete u v w hold hvw))
  sorted := by
    rw [body_concat]
    exact h.sorted.sublist hsorted
  irreducible := by
    have hnodup : (p :: rest).Nodup :=
      hstack ▸ hbase.nodup_stack (nodup_listVertices gold) hroot
    have hold : ∀ y z, z ∈ rest → Attachable (⟨root, r⟩ :: gold) (⟨p, x⟩ :: c.arcs) y z →
        Attachable (⟨root, r⟩ :: gold) c.arcs y z := by
      intro y z hz hyz
      refine ⟨hyz.1, fun w hw => ?_⟩
      cases edge_cons.mp (hyz.2 w hw) with
      | inl hnew => exact absurd (hnew.1 ▸ hz) (List.nodup_cons.mp hnodup).1
      | inr hold => exact hold
    show (l ++ [root]).tail.IsChain _
    rw [hstack]
    have hchain := h.irreducible.infix hsuffix.isInfix
    refine hchain.imp_of_mem_imp ?_
    intro y z hy hz hyz
    exact ⟨fun hnew => hyz.1 (hold y z hz hnew), fun hnew => hyz.2 (hold z y hy hnew)⟩
  word := by
    rw [word_concat]
    exact h.word.sublist hword

/-- A vertex of the stack that is not next in the projective order goes back. -/
theorem swap {i j : Vertex} {rest buffer : List Vertex} {arcs : List Arc}
    (h : OracleInvariant gold r ordered ⟨j :: i :: rest ++ [root], buffer, arcs, root⟩)
    (hroot : root ∉ listVertices gold) (hlt : i < j) (hswap : Precedes ordered j i) :
    OracleInvariant gold r ordered ⟨j :: rest ++ [root], i :: buffer, arcs, root⟩ where
  base := h.base.step (nodup_listVertices gold) hroot (Move.swap hlt)
  sound := h.sound
  complete := h.complete
  sorted := by
    have hsorted := h.sorted
    rw [body_concat] at hsorted ⊢
    exact hsorted.of_cons
  irreducible := by
    have hchain : (i :: (rest ++ [root])).IsChain _ := h.irreducible
    exact hchain.tail
  word := by
    have hword := h.word
    rw [word_concat] at hword ⊢
    simp only [List.reverse_cons, List.append_assoc, List.cons_append, List.nil_append]
      at hword ⊢
    obtain ⟨hrest, hpair, hbetween⟩ := List.pairwise_append.mp hword
    obtain ⟨hi, hj, hbuffer⟩ : _ ∧ _ ∧ _ := by
      rw [List.pairwise_cons, List.pairwise_cons] at hpair
      exact ⟨hpair.1, hpair.2.1, hpair.2.2⟩
    refine List.pairwise_append.mpr ⟨hrest, ?_, ?_⟩
    · refine List.pairwise_cons.mpr ⟨?_, List.pairwise_cons.mpr ⟨?_, hbuffer⟩⟩
      · intro v hv
        cases List.mem_cons.mp hv with
        | inl heq => exact heq ▸ Or.inr hswap
        | inr hmem => exact hj v hmem
      · exact fun v hv => hi v (List.mem_cons_of_mem j hv)
    · intro u hu v hv
      exact hbetween u hu v ((List.Perm.swap i j buffer).mem_iff.mp hv)

/-- A vertex of the buffer is put on a stack in projective order. -/
theorem shift {i : Vertex} {l buffer : List Vertex} {arcs : List Arc}
    (h : OracleInvariant gold r ordered ⟨l ++ [root], i :: buffer, arcs, root⟩)
    (hroot : root ∉ listVertices gold)
    (hsorted : l.Pairwise fun a b => Precedes ordered b a)
    (hchain : (l ++ [root]).IsChain fun x y =>
      ¬Attachable (⟨root, r⟩ :: gold) arcs x y ∧ ¬Attachable (⟨root, r⟩ :: gold) arcs y x) :
    OracleInvariant gold r ordered ⟨i :: l ++ [root], buffer, arcs, root⟩ where
  base := h.base.step (nodup_listVertices gold) hroot Move.shift
  sound := h.sound
  complete := h.complete
  sorted := by
    rw [body_concat]
    exact hsorted
  irreducible := hchain
  word := by
    have hword := h.word
    rw [word_concat] at hword ⊢
    rwa [List.reverse_cons, List.append_assoc]

/-! ## An empty buffer -/

/-- When nothing is in the buffer, a vertex of the stack whose gold children are not
on the stack has all its gold arcs. -/
theorem edges_of_leaf {l : List Vertex} {arcs : List Arc}
    (h : OracleInvariant gold r ordered ⟨l ++ [root], [], arcs, root⟩)
    (ho : Ordered gold r ordered) {x : Vertex} (hx : x ∈ listVertices gold)
    (hleaf : ∀ y, edge gold x y → y ∉ l) :
    ∀ y, edge (⟨root, r⟩ :: gold) x y → edge arcs x y := by
  intro y hxy
  have hgold : edge gold x y := by
    cases edge_cons.mp hxy with
    | inl hnew => exact absurd (hnew.1 ▸ hx) ho.tree.root_notMem
    | inr hold => exact hold
  have hplaces : y ∈ places ⟨l ++ [root], [], arcs, root⟩ :=
    h.base.places.mem_iff.mpr hgold.mem
  rw [places, body_concat, List.append_nil] at hplaces
  cases List.mem_append.mp hplaces with
  | inl hl => exact absurd hl (hleaf y hgold)
  | inr hchild =>
      obtain ⟨u, hu⟩ := exists_edge hchild
      have hnodup : ((⟨root, r⟩ :: gold : List Arc).map Arc.child).Nodup :=
        List.nodup_cons.mpr ⟨ho.root_notMem, ho.tree.children⟩
      exact (h.sound u y hu).unique hnodup hxy ▸ hu

/-- The gold parent of a vertex of the stack is on the stack when nothing is in the buffer. -/
theorem parent_mem {l : List Vertex} {arcs : List Arc}
    (h : OracleInvariant gold r ordered ⟨l ++ [root], [], arcs, root⟩) {u v : Vertex}
    (huv : edge gold u v) (hv : v ∈ l) : u ∈ l := by
  have hplaces : u ∈ places ⟨l ++ [root], [], arcs, root⟩ :=
    h.base.places.mem_iff.mpr huv.parent_mem
  rw [places, body_concat, List.append_nil] at hplaces
  cases List.mem_append.mp hplaces with
  | inl hl => exact hl
  | inr hchild =>
      obtain ⟨w, hw⟩ := exists_edge hchild
      have hedge : edge arcs u v := h.complete w u v hw (edge_cons.mpr (Or.inr huv))
      have hbody : v ∈ body ⟨l ++ [root], [], arcs, root⟩ := by
        rw [body_concat]
        exact hv
      exact absurd hedge.child_mem (h.base.of_mem_body (nodup_listVertices gold) hbody).2

/-- A stack in projective order lists its vertices as the oracle does. -/
theorem filter_ordered {l : List Vertex} (ho : Ordered gold r ordered) (hl : l.Nodup)
    (hmem : ∀ v ∈ l, v ∈ listVertices gold)
    (hsorted : l.Pairwise fun a b => Precedes ordered b a) :
    ordered.filter (· ∈ l) = l.reverse := by
  have hordered : ordered.Pairwise (Precedes ordered) := by
    refine List.pairwise_iff_getElem.mpr fun i j hi hj hij => ?_
    rw [Precedes, ho.nodup.idxOf_getElem, ho.nodup.idxOf_getElem]
    exact hij
  have hperm : (ordered.filter (· ∈ l)).Perm l.reverse := by
    refine (List.perm_ext_iff_of_nodup (ho.nodup.filter _) (List.nodup_reverse.mpr hl)).mpr ?_
    intro v
    rw [List.mem_filter, List.mem_reverse, decide_eq_true_eq]
    exact ⟨fun hv => hv.2, fun hv => ⟨ho.mem.mpr (hmem v hv), hv⟩⟩
  refine hperm.eq_of_pairwise ?_ (hordered.filter _) (List.pairwise_reverse.mpr hsorted)
  intro a b _ _ hab hba
  exact absurd hba (Nat.lt_asymm hab)

/-- The vertices on the stack, except the root, are vertices of the sentence. -/
theorem of_mem_stack {l buffer : List Vertex} {arcs : List Arc}
    (h : OracleInvariant gold r ordered ⟨l ++ [root], buffer, arcs, root⟩) {v : Vertex}
    (hv : v ∈ l) : v ∈ listVertices gold :=
  (h.base.of_mem_body (nodup_listVertices gold) (by rw [body_concat]; exact hv)).1

/-- They are different vertices. -/
theorem nodup_stack {l buffer : List Vertex} {arcs : List Arc}
    (h : OracleInvariant gold r ordered ⟨l ++ [root], buffer, arcs, root⟩)
    (hroot : root ∉ listVertices gold) : l.Nodup :=
  (List.nodup_append.mp (h.base.nodup_stack (nodup_listVertices gold) hroot)).1

/-- A stack in projective order has something to attach when nothing is in the buffer. -/
theorem exists_attachable {l : List Vertex} {arcs : List Arc}
    (h : OracleInvariant gold r ordered ⟨l ++ [root], [], arcs, root⟩)
    (ho : Ordered gold r ordered) (hne : l ≠ [])
    (hsorted : l.Pairwise fun a b => Precedes ordered b a) :
    ¬(l ++ [root]).IsChain fun x y =>
      ¬Attachable (⟨root, r⟩ :: gold) arcs x y ∧ ¬Attachable (⟨root, r⟩ :: gold) arcs y x := by
  intro hchain
  have hnodup := h.nodup_stack ho.tree.root_notMem
  have hmem : ∀ v ∈ l, v ∈ listVertices gold := fun v hv => h.of_mem_stack hv
  have hroot : r ∈ l := by
    obtain ⟨v, hv⟩ := List.exists_mem_of_ne_nil l hne
    have hpath := ho.reach (hmem v hv)
    induction hpath with
    | refl => exact hv
    | tail _ huv ih => exact ih (h.parent_mem huv hv)
  have hlist := filter_ordered ho hnodup hmem hsorted
  cases ho.neighbours (· ∈ l) (fun u v huv hv => h.parent_mem huv hv) hroot with
  | inl hsingle =>
      -- only the root of the tree is left: it is attached to the root of the parser
      have hl : l = [r] := by
        rw [← List.reverse_reverse l, ← hlist, hsingle.1]
        rfl
      have hattach : Attachable (⟨root, r⟩ :: gold) arcs root r :=
        ⟨List.mem_cons_self .., h.edges_of_leaf ho (hmem r hroot) hsingle.2⟩
      rw [hl] at hchain
      exact (List.isChain_cons_cons.mp hchain).1.2 hattach
  | inr hpair =>
      obtain ⟨pre, x, y, post, heq, hxy⟩ := hpair
      have hl : l = post.reverse ++ y :: x :: pre.reverse := by
        rw [← List.reverse_reverse l, ← hlist, heq]
        simp
      have hx : x ∈ l := by rw [hl]; simp
      have hy : y ∈ l := by rw [hl]; simp
      have hneighbours : ¬Attachable (⟨root, r⟩ :: gold) arcs y x ∧
          ¬Attachable (⟨root, r⟩ :: gold) arcs x y := by
        rw [hl, List.append_assoc] at hchain
        exact (List.isChain_append_cons_cons.mp hchain).2.1
      cases hxy with
      | inl hxy =>
          exact hneighbours.1
            ⟨edge_cons.mpr (Or.inr hxy.1), h.edges_of_leaf ho (hmem x hx) hxy.2⟩
      | inr hxy =>
          exact hneighbours.2
            ⟨edge_cons.mpr (Or.inr hxy.1), h.edges_of_leaf ho (hmem y hy) hxy.2⟩

/-! ## A turn of the oracle -/

/-- A shift after which the stack is in projective order below its top. -/
theorem exists_shift {l buffer : List Vertex} {arcs : List Arc}
    (h : OracleInvariant gold r ordered ⟨l ++ [root], buffer, arcs, root⟩)
    (ho : Ordered gold r ordered) (hne : l ≠ [])
    (hsorted : l.Pairwise fun a b => Precedes ordered b a)
    (hchain : (l ++ [root]).IsChain fun x y =>
      ¬Attachable (⟨root, r⟩ :: gold) arcs x y ∧ ¬Attachable (⟨root, r⟩ :: gold) arcs y x) :
    ∃ next, Move ⟨l ++ [root], buffer, arcs, root⟩ .shift next ∧
      OracleInvariant gold r ordered next := by
  cases buffer with
  | nil => exact absurd hchain (h.exists_attachable ho hne hsorted)
  | cons i buffer =>
      exact ⟨_, Move.shift, h.shift ho.tree.root_notMem hsorted hchain⟩

/-- Vertices that are not in projective order are still in the order of the sentence. -/
theorem lt_of_precedes {j i : Vertex} {rest buffer : List Vertex} {arcs : List Arc}
    (h : OracleInvariant gold r ordered ⟨j :: i :: rest ++ [root], buffer, arcs, root⟩)
    (hswap : Precedes ordered j i) : i < j := by
  have hword := h.word
  rw [word_concat] at hword
  simp only [List.reverse_cons, List.append_assoc, List.cons_append, List.nil_append] at hword
  have hpair := (List.pairwise_append.mp hword).2.1
  cases (List.pairwise_cons.mp hpair).1 j (List.mem_cons_self ..) with
  | inl hlt => exact hlt
  | inr hprecedes => exact absurd hswap (Nat.lt_asymm hprecedes)

/-- Nothing can be attached: the oracle swaps or shifts. -/
theorem turn_of_irreducible {j i : Vertex} {rest t buffer : List Vertex} {arcs : List Arc}
    (h : OracleInvariant gold r ordered ⟨j :: rest ++ [root], buffer, arcs, root⟩)
    (ho : Ordered gold r ordered) (hrest : rest ++ [root] = i :: t)
    (hleft : ¬Attachable (⟨root, r⟩ :: gold) arcs j i)
    (hright : ¬Attachable (⟨root, r⟩ :: gold) arcs i j) :
    ∃ action next,
      oracleSelectAction ⟨⟨root, r⟩ :: gold, ordered⟩
        ⟨j :: rest ++ [root], buffer, arcs, root⟩ = some action ∧
      Move ⟨j :: rest ++ [root], buffer, arcs, root⟩ action next ∧
      OracleInvariant gold r ordered next := by
  have hselect : oracleSelectAction ⟨⟨root, r⟩ :: gold, ordered⟩
      ⟨j :: rest ++ [root], buffer, arcs, root⟩ =
        (if i ≠ root ∧ j ≠ root then
          oracleVertexLt ⟨⟨root, r⟩ :: gold, ordered⟩ j i else some false).bind
          fun swapP => some (if swapP then .swap else .shift) := by
    rw [oracleSelectAction_eq (congrArg (j :: ·) hrest),
      if_neg (fun hp => hleft (attachableP_iff.mp hp)),
      if_neg (fun hp => hright (attachableP_iff.mp hp))]
  have hchain : (j :: rest ++ [root]).IsChain fun x y =>
      ¬Attachable (⟨root, r⟩ :: gold) arcs x y ∧ ¬Attachable (⟨root, r⟩ :: gold) arcs y x := by
    have htail : (rest ++ [root]).IsChain _ := h.irreducible
    show (j :: (rest ++ [root])).IsChain _
    rw [hrest] at htail ⊢
    exact List.isChain_cons_cons.mpr ⟨⟨hleft, hright⟩, htail⟩
  have hsorted : rest.Pairwise fun a b => Precedes ordered b a := by
    have hsorted := h.sorted
    rwa [body_concat] at hsorted
  have hvertex : ∀ v ∈ j :: rest, v ∈ listVertices gold := fun v hv => h.of_mem_stack hv
  have hneRoot : ∀ v ∈ j :: rest, v ≠ root := by
    rintro v hv rfl
    exact ho.tree.root_notMem (hvertex _ hv)
  have hnodup : (j :: rest).Nodup := h.nodup_stack ho.tree.root_notMem
  cases rest with
  | nil =>
      cases hrest
      rw [if_neg (fun hcond => hcond.1 rfl)] at hselect
      obtain ⟨next, hmove, hnext⟩ := h.exists_shift ho (List.cons_ne_nil j [])
        (List.pairwise_singleton _ j) hchain
      exact ⟨.shift, next, hselect, hmove, hnext⟩
  | cons i' rest =>
      cases hrest
      have hj : j ∈ ordered := ho.mem.mpr (hvertex j (List.mem_cons_self ..))
      have hi : i ∈ ordered :=
        ho.mem.mpr (hvertex i (List.mem_cons_of_mem j (List.mem_cons_self ..)))
      have hij : i ≠ j := by
        rintro rfl
        exact (List.nodup_cons.mp hnodup).1 (List.mem_cons_self ..)
      have hcond : i ≠ root ∧ j ≠ root :=
        ⟨hneRoot i (List.mem_cons_of_mem j (List.mem_cons_self ..)),
          hneRoot j (List.mem_cons_self ..)⟩
      rw [if_pos hcond, oracleVertexLt_eq hj hi, Option.bind_some] at hselect
      by_cases hswap : Precedes ordered j i
      · have hlt := h.lt_of_precedes hswap
        rw [decide_eq_true hswap] at hselect
        exact ⟨.swap, _, hselect, Move.swap hlt, h.swap ho.tree.root_notMem hlt hswap⟩
      · have hprecedes : Precedes ordered i j := by
          have hne : ordered.idxOf i ≠ ordered.idxOf j := fun heq =>
            hij ((List.idxOf_inj hi).mp heq)
          exact lt_of_le_of_ne (not_lt.mp hswap) hne
        have hall : (j :: i :: rest).Pairwise fun a b => Precedes ordered b a := by
          refine List.pairwise_cons.mpr ⟨fun v hv => ?_, hsorted⟩
          cases List.mem_cons.mp hv with
          | inl heq => exact heq ▸ hprecedes
          | inr hmem => exact Nat.lt_trans ((List.pairwise_cons.mp hsorted).1 v hmem) hprecedes
        obtain ⟨next, hmove, hnext⟩ := h.exists_shift ho (List.cons_ne_nil j _) hall hchain
        rw [decide_eq_false hswap] at hselect
        exact ⟨.shift, next, hselect, hmove, hnext⟩

/-- In every configuration to which the oracle leads, its action succeeds and keeps
the invariant. -/
theorem turn {c : Configuration} (h : OracleInvariant gold r ordered c)
    (ho : Ordered gold r ordered) (hrun : terminatedP c = false) :
    ∃ action next, oracleSelectAction ⟨⟨root, r⟩ :: gold, ordered⟩ c = some action ∧
      Move c action next ∧ OracleInvariant gold r ordered next := by
  obtain ⟨stack, buffer, arcs, _⟩ := c
  obtain ⟨rfl, l, rfl⟩ := h.base.rooted
  have hroot := ho.tree.root_notMem
  cases l with
  | nil =>
      cases buffer with
      | nil => cases hrun
      | cons i buffer =>
          exact ⟨.shift, _, rfl, Move.shift,
            h.shift hroot List.Pairwise.nil (List.IsChain.singleton root)⟩
  | cons j rest =>
      obtain ⟨i, t, hi, hrest⟩ : ∃ i t, rest.headD root = i ∧ rest ++ [root] = i :: t := by
        cases rest with
        | nil => exact ⟨root, [], rfl, rfl⟩
        | cons i rest => exact ⟨i, rest ++ [root], rfl, rfl⟩
      have hstack : j :: rest ++ [root] = j :: i :: t := congrArg (j :: ·) hrest
      by_cases hleft : Attachable (⟨root, r⟩ :: gold) arcs j i
      · have hvertex : i ∈ listVertices gold := by
          cases edge_cons.mp hleft.1 with
          | inl hnew => exact hnew.2 ▸ ho.root_mem
          | inr hold => exact hold.mem
        cases rest with
        | nil =>
            cases hrest
            exact absurd hvertex hroot
        | cons i' rest =>
            cases hrest
            refine ⟨.leftArc, _, ?_, Move.leftArc, ?_⟩
            · rw [oracleSelectAction_eq hstack, if_pos (attachableP_iff.mpr hleft)]
            · refine h.attach hroot hleft
                (h.base.step (nodup_listVertices gold) hroot Move.leftArc) rfl ?_ ?_ ?_
              · exact List.suffix_cons i (rest ++ [root])
              · rw [body_concat]
                exact List.sublist_cons_self i rest
              · rw [word_concat]
                exact (((List.sublist_cons_self i rest).cons_cons j).reverse).append_right buffer
      · by_cases hright : Attachable (⟨root, r⟩ :: gold) arcs i j
        · refine ⟨.rightArc, _, ?_, Move.rightArc, ?_⟩
          · rw [oracleSelectAction_eq hstack,
              if_neg (fun hp => hleft (attachableP_iff.mp hp)),
              if_pos (attachableP_iff.mpr hright)]
          · refine h.attach hroot (hi.symm ▸ hright)
              (h.base.step (nodup_listVertices gold) hroot Move.rightArc) (hi.symm ▸ hrest) ?_ ?_ ?_
            · show t <:+ rest ++ [root]
              rw [hrest]
              exact List.suffix_cons i t
            · rw [body_concat]
              exact List.tail_sublist rest
            · rw [word_concat]
              exact ((List.sublist_cons_self j rest).reverse).append_right buffer
        · exact h.turn_of_irreducible ho hrest hleft hright

end OracleInvariant

/-! ## The action sequence -/

/-- The oracle leads to configurations that satisfy the invariant. -/
theorem Led.oracleInvariant (ho : Ordered gold r ordered) {s : Unit} {c : Configuration}
    (h : Led (oracleAction ⟨⟨root, r⟩ :: gold, ordered⟩) ()
      (makeInitialConfiguration (listVertices gold)) s c) : OracleInvariant gold r ordered c := by
  induction h with
  | start => exact oracleInvariant_initial gold r ordered
  | next _ hrun hselect htransition ih =>
      obtain ⟨action, next, haction, hmove, hnext⟩ := ih.turn ho hrun
      rw [selectAction, oracleAction, haction] at hselect
      cases hselect
      have htransition' := hmove.transitioned fun hmem =>
        ho.tree.root_notMem (ih.base.of_mem_body (nodup_listVertices gold) hmem).1
      cases htransition.symm.trans htransition'
      exact hnext

theorem picks_oracleAction (ho : Ordered gold r ordered) :
    Picks (oracleAction ⟨⟨root, r⟩ :: gold, ordered⟩) ()
      (makeInitialConfiguration (listVertices gold)) := by
  intro s c hled hrun
  have h := hled.oracleInvariant ho
  obtain ⟨action, next, haction, hmove, -⟩ := h.turn ho hrun
  refine ⟨action, (), next, ?_, hmove.transitioned fun hmem =>
    ho.tree.root_notMem (h.base.of_mem_body (nodup_listVertices gold) hmem).1⟩
  rw [selectAction, oracleAction, haction]
  rfl

/-- When the run has terminated, its arcs are the gold arcs and the one from the root. -/
theorem OracleInvariant.arcs_of_terminatedP (ho : Ordered gold r ordered) {c : Configuration}
    (h : OracleInvariant gold r ordered c) (hend : terminatedP c = true) :
    (c.arcs.filter fun arc => arc.parent ≠ root).Perm gold := by
  have hroot := ho.tree.root_notMem
  obtain ⟨hchildren, hspanning⟩ := h.base.spanning (nodup_listVertices gold) hroot hend
  have hnodup : c.arcs.Nodup :=
    List.Nodup.of_map Arc.child (hchildren.nodup_iff.mpr (nodup_listVertices gold))
  have hgold : ((⟨root, r⟩ :: gold : List Arc).map Arc.child).Nodup :=
    List.nodup_cons.mpr ⟨ho.root_notMem, ho.tree.children⟩
  refine (List.perm_ext_iff_of_nodup (hnodup.filter _)
    (List.Nodup.of_map Arc.child ho.tree.children)).mpr fun arc => ?_
  rw [List.mem_filter, decide_eq_true_eq]
  constructor
  · rintro ⟨harc, hparent⟩
    cases edge_cons.mp (h.sound arc.parent arc.child harc) with
    | inl hnew => exact absurd hnew.1 hparent
    | inr hold => exact hold
  · intro harc
    have hedge : edge gold arc.parent arc.child := harc
    obtain ⟨u, hu⟩ := hspanning.parent hedge.mem
    have heq : u = arc.parent :=
      (h.sound u arc.child hu).unique hgold (edge_cons.mpr (Or.inr hedge))
    rw [heq] at hu
    exact ⟨hu, fun hparent => hroot (hparent ▸ hedge.parent_mem)⟩

/-- The search for the action sequence of a gold tree ends.  Each action is possible
where it is taken, and `parse` with this sequence returns the gold arcs. -/
theorem searchOracleActionSequence_spec (h : GoldTree gold) :
    ∃ actions arcs n,
      (∀ fuel, n ≤ fuel → searchOracleActionSequence fuel gold = some actions ∧
        parse popAction fuel actions (listVertices gold) = some arcs) ∧
      (∀ before action after, actions = before ++ action :: after →
        ∃ c, runActions (makeInitialConfiguration (listVertices gold)) before = some c ∧
          action ∈ possibleActions c) ∧
      arcs.Perm gold := by
  obtain ⟨r, ordered, n, ho, horacle⟩ := h.oracleFor
  have hne : listVertices gold ≠ [] := fun hnil => by
    have hmem := ho.root_mem
    rw [hnil] at hmem
    cases hmem
  obtain ⟨actions, s, final, hcomplete, hled, hstream⟩ :=
    actionStream_of_picks (picks_oracleAction ho) _ (Nat.lt_succ_self _)
      invariant_initial.rooted Led.start
  have hend := hcomplete.terminatedP_eq
  let size := (listVertices gold).length
  refine ⟨actions, final.arcs.filter fun arc => arc.parent ≠ root,
    n + actions.length + 1 + (size * (size + 1) + 1), fun fuel hfuel => ⟨?_, ?_⟩, ?_,
    (hled.oracleInvariant ho).arcs_of_terminatedP ho hend⟩
  · rw [searchOracleActionSequence, horacle fuel (by omega)]
    exact hstream fuel (by omega)
  · obtain ⟨rest, final', hled', hend', hparse⟩ :=
      parse_of_picks hne (fun v hv => h.vertex_nonneg hv) hcomplete.picks
        (show size * (size + 1) < fuel by omega)
    cases hcomplete.of_led hled' with
    | done _ => exact hparse
    | step hrun _ _ => exact absurd (hrun.symm.trans hend') Bool.false_ne_true
  · rintro before action after rfl
    obtain ⟨c, next, hrun, htransition⟩ := hcomplete.transitioned_of_split
    exact ⟨c, hrun, mem_possibleActions htransition⟩

/-- The arcs of the vertices 1 and 2 to 3 and 4 cross each other. -/
def crossing : List Arc := [⟨1, 2⟩, ⟨1, 3⟩, ⟨2, 4⟩]

theorem goldTree_crossing : GoldTree crossing where
  nonempty := by decide
  nonneg := by decide
  children := by decide
  root := by
    have hvertices : listVertices crossing = [1, 2, 3, 4] := by decide
    refine ⟨1, ⟨by decide, by decide⟩, ?_⟩
    rintro v ⟨hv, hchild⟩
    rw [hvertices] at hv
    simp only [List.mem_cons, List.not_mem_nil, or_false] at hv
    rcases hv with rfl | rfl | rfl | rfl
    · rfl
    · exact absurd (by decide) hchild
    · exact absurd (by decide) hchild
    · exact absurd (by decide) hchild
  acyclic := by
    refine Acyclic.of_rank (fun v => v) ?_
    intro u v huv
    simp only [edge, crossing, List.mem_cons, List.not_mem_nil, or_false, Arc.mk.injEq] at huv
    rcases huv with ⟨rfl, rfl⟩ | ⟨rfl, rfl⟩ | ⟨rfl, rfl⟩
    · decide
    · decide
    · decide

theorem searchOracleActionSequence_spec_crossing :
    ∃ actions arcs n,
      (∀ fuel, n ≤ fuel → searchOracleActionSequence fuel crossing = some actions ∧
        parse popAction fuel actions (listVertices crossing) = some arcs) ∧
      (∀ before action after, actions = before ++ action :: after →
        ∃ c, runActions (makeInitialConfiguration (listVertices crossing)) before = some c ∧
          action ∈ possibleActions c) ∧
      arcs.Perm crossing :=
  searchOracleActionSequence_spec goldTree_crossing

end Hachee.DependencyParsing.ShiftReduce
