import Hachee.Foundation.KeptPaths
import Hachee.Kkc.Convert.Path3gram

/-!
# What the trigram conversion maximizes

A node keeps one path to it.  A node after it is scored with this path only, so
the path that is returned is the best among those that extend a kept path by one
entry (`KeptPaths`), and a better path is lost where it reaches a node behind
another one and would overtake it later (`execute_not_best`).  Where a following
entry never reverses the order of two paths to an entry, nothing is lost
(`execute_kept`).

The first part says that all the candidates of a node are offered to it: no score
ever falls, and after its position was visited a node has at least the score of
each of them.
-/

namespace Hachee.Kkc.Convert.Viterbi3gram

open Lisp Foundation

/-! ## No score falls -/

section Climb

variable {ε G : Type} [LinearOrder G] {lattice : Lattice (Node ε G)} {stop : Int}

/-- Only nodes that end at the position change, and their scores do not fall. -/
structure Climb (lattice : Lattice (Node ε G)) (stop : Int) (heap heap' : List (Node ε G)) :
    Prop where
  same : ∀ {start stop' ref}, lattice.Cell start stop' ref → stop' ≠ stop →
    heap'[ref]? = heap[ref]?
  climbs : ∀ {ref : Nat} {n}, heap[ref]? = some n → ∃ n', heap'[ref]? = some n' ∧
    n'.entry = n.entry ∧ ∀ v, n.scoreSoFar = some v → ∃ v', n'.scoreSoFar = some v' ∧ v ≤ v'

theorem Climb.refl (heap : List (Node ε G)) : Climb lattice stop heap heap where
  same := fun _ _ => rfl
  climbs := fun {_ n} hn => ⟨n, hn, rfl, fun v hv => ⟨v, hv, le_refl v⟩⟩

theorem Climb.trans {heap heap' heap'' : List (Node ε G)} (h : Climb lattice stop heap heap')
    (h' : Climb lattice stop heap' heap'') : Climb lattice stop heap heap'' where
  same := fun hcell hne => (h'.same hcell hne).trans (h.same hcell hne)
  climbs := by
    intro ref n hn
    obtain ⟨n', hn', hentry', hscore'⟩ := h.climbs hn
    obtain ⟨n'', hn'', hentry'', hscore''⟩ := h'.climbs hn'
    refine ⟨n'', hn'', hentry''.trans hentry', fun v hv => ?_⟩
    obtain ⟨v', hv', hle'⟩ := hscore' v hv
    obtain ⟨v'', hv'', hle''⟩ := hscore'' v' hv'
    exact ⟨v'', hv'', hle'.trans hle''⟩

/-- The node has at least this score. -/
def AtLeast (ref : Nat) (s : G) (heap : List (Node ε G)) : Prop :=
  ∃ n v, heap[ref]? = some n ∧ n.scoreSoFar = some v ∧ s ≤ v

theorem AtLeast.climb {heap heap' : List (Node ε G)} {ref : Nat} {s : G}
    (h : AtLeast ref s heap) (hclimb : Climb lattice stop heap heap') : AtLeast ref s heap' := by
  obtain ⟨n, v, hn, hv, hle⟩ := h
  obtain ⟨n', hn', -, hscore⟩ := hclimb.climbs hn
  obtain ⟨v', hv', hle'⟩ := hscore v hv
  exact ⟨n', v', hn', hv', hle.trans hle'⟩

/-- A node that is offered a score has at least this score. -/
theorem maybeUpdateScore_climb (hgraded : lattice.Graded) {start : Int} {ref prev1 prev2 : Nat}
    (hcell : lattice.Cell start stop ref) {heap heap' : List (Node ε G)} {s : G}
    (h : maybeUpdateScore heap s ref prev2 prev1 = some heap') :
    Climb lattice stop heap heap' ∧ AtLeast ref s heap' := by
  obtain ⟨n, hn, hupdate⟩ := bind_inv h
  obtain ⟨hbetter, hset⟩ | ⟨hbetter, hstay⟩ := ite_inv hupdate
  · cases hset
    have hwritten := Lattice.Written.of_set hn { n with
      prev1Node := some prev1, prev2Node := some prev2, scoreSoFar := some s }
    refine ⟨⟨fun hcell' hne => hwritten.other (hgraded.ne_of_cell hcell hcell' hne), ?_⟩,
      _, s, hwritten.self, rfl, le_refl s⟩
    intro ref' n' hn'
    by_cases hne : ref = ref'
    · subst hne
      cases hn.symm.trans hn'
      refine ⟨_, hwritten.self, rfl, fun v hv => ⟨s, rfl, ?_⟩⟩
      rw [hv] at hbetter
      exact le_of_lt (of_decide_eq_true hbetter)
    · exact ⟨n', (hwritten.other hne).trans hn', rfl, fun v hv => ⟨v, hv, le_refl v⟩⟩
  · cases hstay
    refine ⟨.refl heap, ?_⟩
    cases hv : n.scoreSoFar with
    | none =>
        rw [hv] at hbetter
        exact absurd rfl hbetter
    | some v =>
        rw [hv] at hbetter
        exact ⟨n, v, hn, hv, le_of_not_gt fun hlt => hbetter (decide_eq_true hlt)⟩

end Climb

/-! ## Every candidate is offered -/

section Offers

variable {ε G : Type} [AddCommGroup G] [LinearOrder G] {scoreFn : ε → ε → ε → G}
  {lattice : Lattice (Node ε G)} {stop : Int} {heap₀ heap heap' : List (Node ε G)}

/-- The two nodes before a node offer it the score `s`. -/
def Offers (scoreFn : ε → ε → ε → G) (heap : List (Node ε G)) (prev1 prev2 ref : Nat) (s : G) :
    Prop :=
  ∃ p1 p2 n u, heap[prev1]? = some p1 ∧ heap[prev2]? = some p2 ∧ heap[ref]? = some n ∧
    s = u + scoreFn n.entry p2.entry p1.entry ∧
    (p1.scoreSoFar = some u ∧ p1.prev1Node = some prev2 ∨
      p1.scoreSoFar = none ∧ p2.scoreSoFar = some u)

/-- The node has at least what the two nodes before it offer. -/
def Served (scoreFn : ε → ε → ε → G) (heap₀ : List (Node ε G)) (prev1 prev2 ref : Nat)
    (heap : List (Node ε G)) : Prop :=
  ∀ s, Offers scoreFn heap₀ prev1 prev2 ref s → AtLeast ref s heap

theorem Served.climb {prev1 prev2 ref : Nat} (hclimb : Climb lattice stop heap heap')
    (h : Served scoreFn heap₀ prev1 prev2 ref heap) :
    Served scoreFn heap₀ prev1 prev2 ref heap' :=
  fun s hs => (h s hs).climb hclimb

/-- The turn for a node before that has a score. -/
theorem connectScored_climb (hgraded : lattice.Graded) {start prev1Start : Int}
    {ref prev1 : Nat} {p1 : Node ε G} {u : G} (hcell : lattice.Cell start stop ref)
    (hcell1 : lattice.Cell prev1Start start prev1) (hp1 : heap₀[prev1]? = some p1)
    (hu : p1.scoreSoFar = some u) (hclimb : Climb lattice stop heap₀ heap)
    (h : connectScored scoreFn prev1 p1.entry u heap ref = some heap') :
    Climb lattice stop heap heap' ∧ ∀ {prev2Start prev2}, lattice.Cell prev2Start prev1Start prev2 →
      Served scoreFn heap₀ prev1 prev2 ref heap' := by
  have hlt := hgraded.lt hcell
  have hlt1 := hgraded.lt hcell1
  have hsame1 := hclimb.same hcell1 (by omega)
  obtain ⟨p1', hp1', h⟩ := bind_inv h
  cases hp1'.symm.trans (hsame1.trans hp1)
  obtain ⟨link, hlink, h⟩ := bind_inv h
  obtain ⟨p2', hp2', h⟩ := bind_inv h
  obtain ⟨n', hn', h⟩ := bind_inv h
  obtain ⟨hclimb', hleast⟩ := maybeUpdateScore_climb hgraded hcell h
  refine ⟨hclimb', ?_⟩
  intro prev2Start prev2 hcell2 s hs
  obtain ⟨q1, q2, n, w, hq1, hq2, hn, rfl, hlinks⟩ := hs
  cases hq1.symm.trans hp1
  obtain ⟨hw, hlink'⟩ | ⟨hnone, -⟩ := hlinks
  · cases hw.symm.trans hu
    cases hlink'.symm.trans hlink
    cases hp2'.symm.trans ((hclimb.same hcell2 (by omega)).trans hq2)
    obtain ⟨m, hm, hentry, -⟩ := hclimb.climbs hn
    cases hn'.symm.trans hm
    rw [hentry] at hleast
    exact hleast
  · rw [hu] at hnone
    cases hnone

/-- The turn for a node before that has none. -/
theorem connectUnscored_climb (hgraded : lattice.Graded) {start prev1Start prev2Start : Int}
    {nodes : List Nat} {prev1 prev2 : Nat} {p1 : Node ε G}
    (hnodes : (start, nodes) ∈ lattice.groups stop) (hlt : start < stop)
    (hcell1 : lattice.Cell prev1Start start prev1)
    (hcell2 : lattice.Cell prev2Start prev1Start prev2) (hp1 : heap₀[prev1]? = some p1)
    (hnone : p1.scoreSoFar = none) (hclimb : Climb lattice stop heap₀ heap)
    (h : connectUnscored scoreFn nodes prev1 p1.entry heap prev2 = some heap') :
    Climb lattice stop heap heap' ∧
      ∀ ref ∈ nodes, Served scoreFn heap₀ prev1 prev2 ref heap' := by
  have hlt1 := hgraded.lt hcell1
  obtain ⟨p2, hp2, h⟩ := bind_inv h
  obtain ⟨u, hu, h⟩ := bind_inv h
  refine Loop.foldlM_turns (Served scoreFn heap₀ prev1 prev2) Climb.refl Climb.trans Served.climb
    ?_ hclimb h
  intro ref href heap₁ heap₂ hclimb₁ hturn
  obtain ⟨n', hn', hturn⟩ := bind_inv hturn
  obtain ⟨hclimb₂, hleast⟩ := maybeUpdateScore_climb hgraded ⟨nodes, hnodes, href⟩ hturn
  refine ⟨hclimb₂, ?_⟩
  intro s hs
  obtain ⟨q1, q2, n, w, hq1, hq2, hn, rfl, hlinks⟩ := hs
  cases hq1.symm.trans hp1
  obtain ⟨hw, -⟩ | ⟨-, hw⟩ := hlinks
  · rw [hnone] at hw
    cases hw
  · cases hp2.symm.trans ((hclimb.same hcell2 (by omega)).trans hq2)
    cases hw.symm.trans hu
    obtain ⟨m, hm, hentry, -⟩ := hclimb₁.climbs hn
    cases hn'.symm.trans hm
    rw [hentry] at hleast
    exact hleast

/-- Three groups are connected. -/
theorem connectByMaxScore_climb (hgraded : lattice.Graded) {start prev1Start prev2Start : Int}
    {nodes prev1Nodes prev2Nodes : List Nat} (hnodes : (start, nodes) ∈ lattice.groups stop)
    (hlt : start < stop) (hprev1Nodes : (prev1Start, prev1Nodes) ∈ lattice.groups start)
    (hprev2Nodes : (prev2Start, prev2Nodes) ∈ lattice.groups prev1Start)
    (hnode : ∀ {start' stop' ref}, lattice.Cell start' stop' ref → ∃ n, heap₀[ref]? = some n)
    (hclimb : Climb lattice stop heap₀ heap)
    (h : connectByMaxScore scoreFn nodes prev2Nodes prev1Nodes heap = some heap') :
    Climb lattice stop heap heap' ∧ ∀ prev1 ∈ prev1Nodes, ∀ prev2 ∈ prev2Nodes, ∀ ref ∈ nodes,
      Served scoreFn heap₀ prev1 prev2 ref heap' := by
  refine Loop.foldlM_turns
    (fun prev1 heap =>
      ∀ prev2 ∈ prev2Nodes, ∀ ref ∈ nodes, Served scoreFn heap₀ prev1 prev2 ref heap)
    Climb.refl Climb.trans
    (fun hR hQ prev2 hprev2 ref href => (hQ prev2 hprev2 ref href).climb hR) ?_ hclimb h
  intro prev1 hprev1 heap₁ heap₂ hclimb₁ hturn
  have hcell1 : lattice.Cell prev1Start start prev1 := ⟨prev1Nodes, hprev1Nodes, hprev1⟩
  obtain ⟨p1, hp1⟩ := hnode hcell1
  have hp1' : heap₁[prev1]? = some p1 := (hclimb₁.same hcell1 (by omega)).trans hp1
  obtain ⟨p1', hp1'', hturn⟩ := bind_inv hturn
  cases hp1''.symm.trans hp1'
  cases hscore : p1.scoreSoFar with
  | some u =>
      simp only [hscore] at hturn
      have hloop := Loop.foldlM_turns
        (fun ref heap => ∀ prev2 ∈ prev2Nodes, Served scoreFn heap₀ prev1 prev2 ref heap)
        Climb.refl Climb.trans (fun hR hQ prev2 hprev2 => (hQ prev2 hprev2).climb hR)
        (fun ref href heap₃ heap₄ hclimb₃ hturn => by
          obtain ⟨hclimb₄, hserved⟩ := connectScored_climb hgraded ⟨nodes, hnodes, href⟩ hcell1 hp1
            hscore hclimb₃ hturn
          exact ⟨hclimb₄, fun prev2 hprev2 => hserved ⟨prev2Nodes, hprev2Nodes, hprev2⟩⟩)
        hclimb₁ hturn
      exact ⟨hloop.1, fun prev2 hprev2 ref href => hloop.2 ref href prev2 hprev2⟩
  | none =>
      simp only [hscore] at hturn
      refine Loop.foldlM_turns
        (fun prev2 heap => ∀ ref ∈ nodes, Served scoreFn heap₀ prev1 prev2 ref heap)
        Climb.refl Climb.trans (fun hR hQ ref href => (hQ ref href).climb hR) ?_ hclimb₁ hturn
      intro prev2 hprev2 heap₃ heap₄ hclimb₃ hturn
      exact connectUnscored_climb hgraded hnodes hlt hcell1 ⟨prev2Nodes, hprev2Nodes, hprev2⟩ hp1
        hscore hclimb₃ hturn

/-- After its position was visited a node is served by all nodes before it. -/
theorem visit_stop_climb (hgraded : lattice.Graded)
    (hnode : ∀ {start' stop' ref}, lattice.Cell start' stop' ref → ∃ n, heap₀[ref]? = some n)
    (hgroup : ∀ {start nodes}, (start, nodes) ∈ lattice.groups stop → start < stop)
    (h : (lattice.groups stop).foldlM
        (fun heap (start, nodes) =>
          (lattice.groups start).foldlM
            (fun heap (prev1Start, prev1Nodes) =>
              (lattice.groups prev1Start).foldlM
                (fun heap (_, prev2Nodes) =>
                  connectByMaxScore scoreFn nodes prev2Nodes prev1Nodes heap)
                heap)
            heap)
        heap₀ = some heap') :
    Climb lattice stop heap₀ heap' ∧
      ∀ {start prev1Start prev2Start ref prev1 prev2}, lattice.Cell start stop ref →
        lattice.Cell prev1Start start prev1 → lattice.Cell prev2Start prev1Start prev2 →
          Served scoreFn heap₀ prev1 prev2 ref heap' := by
  have hloop := Loop.foldlM_turns
    (fun (group : Int × List Nat) heap =>
      ∀ group1 ∈ lattice.groups group.1, ∀ group2 ∈ lattice.groups group1.1,
        ∀ prev1 ∈ group1.2, ∀ prev2 ∈ group2.2, ∀ ref ∈ group.2,
          Served scoreFn heap₀ prev1 prev2 ref heap)
    Climb.refl Climb.trans
    (fun hR hQ g1 hg1 g2 hg2 prev1 h1 prev2 h2 ref href =>
      (hQ g1 hg1 g2 hg2 prev1 h1 prev2 h2 ref href).climb hR)
    (fun group hg heap₁ heap₂ hclimb₁ hturn =>
      Loop.foldlM_turns
        (fun (group1 : Int × List Nat) heap =>
          ∀ group2 ∈ lattice.groups group1.1, ∀ prev1 ∈ group1.2, ∀ prev2 ∈ group2.2,
            ∀ ref ∈ group.2, Served scoreFn heap₀ prev1 prev2 ref heap)
        Climb.refl Climb.trans
        (fun hR hQ g2 hg2 prev1 h1 prev2 h2 ref href =>
          (hQ g2 hg2 prev1 h1 prev2 h2 ref href).climb hR)
        (fun group1 hg1 heap₃ heap₄ hclimb₃ hturn =>
          Loop.foldlM_turns
            (fun (group2 : Int × List Nat) heap =>
              ∀ prev1 ∈ group1.2, ∀ prev2 ∈ group2.2, ∀ ref ∈ group.2,
                Served scoreFn heap₀ prev1 prev2 ref heap)
            Climb.refl Climb.trans
            (fun hR hQ prev1 h1 prev2 h2 ref href => (hQ prev1 h1 prev2 h2 ref href).climb hR)
            (fun group2 hg2 heap₅ heap₆ hclimb₅ hturn =>
              connectByMaxScore_climb hgraded hg (hgroup hg) hg1 hg2 hnode hclimb₅ hturn)
            hclimb₃ hturn)
        hclimb₁ hturn)
    (Climb.refl heap₀) h
  refine ⟨hloop.1, ?_⟩
  intro start prev1Start prev2Start ref prev1 prev2 hcell hcell1 hcell2
  obtain ⟨refs, hrefs, href⟩ := hcell
  obtain ⟨prevs1, hprevs1, hprev1⟩ := hcell1
  obtain ⟨prevs2, hprevs2, hprev2⟩ := hcell2
  exact hloop.2 (start, refs) hrefs (prev1Start, prevs1) hprevs1 (prev2Start, prevs2) hprevs2
    prev1 hprev1 prev2 hprev2 ref href

/-! ## The whole dynamic programming -/

/-- The nodes that end before `stop` are served. -/
def ServedBelow (scoreFn : ε → ε → ε → G) (lattice : Lattice (Node ε G)) (stop : Int)
    (heap : List (Node ε G)) : Prop :=
  ∀ {start stop' prev1Start prev2Start ref prev1 prev2}, lattice.Cell start stop' ref →
    1 ≤ stop' → stop' < stop → lattice.Cell prev1Start start prev1 →
      lattice.Cell prev2Start prev1Start prev2 → Served scoreFn heap prev1 prev2 ref heap

/-- What a node is offered, and has, does not change behind its position. -/
theorem Served.of_same {heap₀' : List (Node ε G)} {prev1 prev2 ref : Nat}
    (h : Served scoreFn heap₀ prev1 prev2 ref heap) (h1 : heap₀'[prev1]? = heap₀[prev1]?)
    (h2 : heap₀'[prev2]? = heap₀[prev2]?)
    (hentry : ∀ n, heap₀'[ref]? = some n → ∃ n₀, heap₀[ref]? = some n₀ ∧ n₀.entry = n.entry)
    (hsame : ∀ s, AtLeast ref s heap → AtLeast ref s heap') :
    Served scoreFn heap₀' prev1 prev2 ref heap' := by
  intro s hs
  obtain ⟨p1, p2, n, u, hp1, hp2, hn, rfl, hlinks⟩ := hs
  obtain ⟨n₀, hn₀, hn₀entry⟩ := hentry n hn
  rw [← hn₀entry]
  exact hsame _ (h _ ⟨p1, p2, n₀, u, h1 ▸ hp1, h2 ▸ hp2, hn₀, rfl, hlinks⟩)

/-- After a position was visited its nodes are served too. -/
theorem ServedBelow.next (hinitial : Initial lattice) (h : ServedBelow scoreFn lattice stop heap₀)
    (hnode : ∀ {start' stop' ref}, lattice.Cell start' stop' ref → ∃ n, heap₀[ref]? = some n)
    (hclimb : Climb lattice stop heap₀ heap')
    (hserved : ∀ {start prev1Start prev2Start ref prev1 prev2}, lattice.Cell start stop ref →
      lattice.Cell prev1Start start prev1 → lattice.Cell prev2Start prev1Start prev2 →
        Served scoreFn heap₀ prev1 prev2 ref heap') :
    ServedBelow scoreFn lattice (stop + 1) heap' := by
  intro start stop' prev1Start prev2Start ref prev1 prev2 hcell hone hlt hcell1 hcell2
  have hstart := hinitial.lt hcell
  have hstart1 := hinitial.lt hcell1
  have h1 := hclimb.same hcell1 (by omega)
  have h2 := hclimb.same hcell2 (by omega)
  by_cases heq : stop' = stop
  · subst heq
    refine (hserved hcell hcell1 hcell2).of_same h1 h2 (fun n hn => ?_) fun s hs => hs
    obtain ⟨n₀, hn₀⟩ := hnode hcell
    obtain ⟨n', hn', hentry, -⟩ := hclimb.climbs hn₀
    cases hn.symm.trans hn'
    exact ⟨n₀, hn₀, hentry.symm⟩
  · have href := hclimb.same hcell heq
    exact (h hcell hone (by omega) hcell1 hcell2).of_same h1 h2
      (fun n hn => ⟨n, href ▸ hn, rfl⟩) fun s hs => hs.climb hclimb

/-- The dynamic programming signals no error, and all nodes are final and served
after it. -/
theorem dp_served (scoreFn : ε → ε → ε → G) (hinitial : Initial lattice) (length : Nat) :
    ∃ heap, dp scoreFn length lattice = some heap ∧
      FinalBelow scoreFn lattice (length + 2) heap ∧
        ServedBelow scoreFn lattice (length + 2) heap := by
  have hcast : ((1 + (length + 1) : Nat) : Int) = length + 2 := by omega
  rw [← hcast]
  refine Loop.foldlM_range'
    (fun (stop : Nat) heap => FinalBelow scoreFn lattice stop heap ∧
      ServedBelow scoreFn lattice stop heap)
    (length + 1) 1 lattice.heap (fun stop heap hstop _ h => ?_) ⟨finalBelow_one, ?_⟩
  · obtain ⟨hfinal, hserved⟩ := h
    have hready := hfinal.ready hinitial (by omega)
    obtain ⟨heap', hvisit, hvisiting, hscored⟩ :=
      visit_stop hinitial.toGraded hready (hfinal.visiting hinitial (by omega))
    obtain ⟨hclimb, hserves⟩ := visit_stop_climb hinitial.toGraded hready.node
      (fun hg => (hready.group hg).2) hvisit
    exact ⟨heap', hvisit, hfinal.next hinitial (by omega) hvisiting hscored,
      hserved.next hinitial hready.node hclimb hserves⟩
  · intro start stop' prev1Start prev2Start ref prev1 prev2 _ hone hlt
    omega

end Offers

/-! ## The kept paths -/

section Kept

variable {ε G : Type} [AddCommGroup G] {scoreFn : ε → ε → ε → G} {beginEntry endEntry : ε}
  {listEntriesFn : Str → List ε} {pronunciation : Str} {lattice : Lattice (Node ε G)}
  {heap : List (Node ε G)}

/-- The pointers of the node spell the path before it, and its score is that of the
path and the node. -/
def PathBefore (scoreFn : ε → ε → ε → G) (beginEntry : ε) (heap : List (Node ε G)) (n : Node ε G)
    (path : List ε) : Prop :=
  ∃ prev1 prev2 rest, n.prev1Node = some prev1 ∧ n.prev2Node = some prev2 ∧
    Chain heap beginEntry (prev1 :: prev2 :: rest) path ∧
    n.scoreSoFar = some (pathScore₂ scoreFn beginEntry beginEntry (path ++ [n.entry]))

/-- The path is kept by a node for the entry between two positions of a string of
that length. -/
def KeptBy (scoreFn : ε → ε → ε → G) (beginEntry : ε) (lattice : Lattice (Node ε G))
    (heap : List (Node ε G)) (length i j : Nat) (entry : ε) (path : List ε) : Prop :=
  j ≤ length ∧ ∃ ref n, lattice.Cell i j ref ∧ heap[ref]? = some n ∧ n.entry = entry ∧
    PathBefore scoreFn beginEntry heap n path

/-- The score of one more entry. -/
theorem pathScore₂_append_two (entry next : ε) (path : List ε) :
    pathScore₂ scoreFn beginEntry beginEntry (path ++ [entry] ++ [next]) =
      pathScore₂ scoreFn beginEntry beginEntry (path ++ [entry]) +
        scoreFn next (path.getLastD beginEntry) entry := by
  rw [pathScore₂_snoc scoreFn next, ← List.cons_append, List.dropLast_concat,
    List.getLastD_concat, List.getLastD_cons]

/-- Nodes of the table end before the end of the dynamic programming. -/
theorem Filled.stop_lt (h : Filled listEntriesFn beginEntry endEntry pronunciation lattice)
    {start stop : Int} {ref : Nat} (hcell : lattice.Cell start stop ref) :
    stop < (pronunciation.length : Int) + 2 := by
  rcases h.cases hcell with ⟨-, hs, -⟩ | ⟨-, hs, -⟩ | ⟨-, hs, -⟩ | ⟨_, j, _, -, hs, -, hj, -⟩
  · omega
  · omega
  · omega
  · omega

/-- The path before a node is empty at the begin of the sentence, or it is kept by
the node before it. -/
theorem PathBefore.extension (h : Filled listEntriesFn beginEntry endEntry pronunciation lattice)
    (hbegin : ∀ subPron, subPron <:+: pronunciation → beginEntry ∉ listEntriesFn subPron)
    (hheap : FinalBelow scoreFn lattice (pronunciation.length + 2) heap) {i : Nat} {stop : Int}
    {ref : Nat} {n : Node ε G} {path : List ε} (hi : i ≤ pronunciation.length)
    (hcell : lattice.Cell i stop ref) (hn : heap[ref]? = some n)
    (hbefore : PathBefore scoreFn beginEntry heap n path) :
    Extension (KeptBy scoreFn beginEntry lattice heap pronunciation.length) i path := by
  obtain ⟨prev1, prev2, rest, hprev1, hprev2, hchain, hscore⟩ := hbefore
  have hlt := h.lt hcell
  obtain ⟨prev1', prev2', prev1Start, prev2Start, p1, p2, u, hprev1', hprev2', hcell1, hcell2, hp1,
    hp2, hsum, hlinks⟩ := hheap.linked hcell (by omega) (h.stop_lt hcell) n _ hn hscore
  cases hprev1.symm.trans hprev1'
  cases hprev2.symm.trans hprev2'
  rcases h.cases hcell1 with ⟨-, hs, -⟩ | ⟨rfl, hs, hnode1⟩ | ⟨-, hs, -⟩ |
    ⟨i', j, entry, rfl, hs, hij, hj, hentry, hnode1⟩
  · omega
  · -- The node before it is the second one for the begin of the sentence.
    rw [hheap.same hcell1 (Or.inl (by omega)), hnode1] at hp1
    cases hp1
    cases hchain with
    | base => exact Or.inl ⟨by omega, rfl⟩
    | step _ hm _ _ hne =>
        rw [hheap.same hcell1 (Or.inl (by omega)), hnode1] at hm
        cases hm
        exact absurd rfl hne
  · omega
  · obtain rfl : i = j := by omega
    obtain ⟨p1', hp1', hp1entry, -⟩ := hheap.keeps prev1 _ hnode1
    cases hp1.symm.trans hp1'
    cases hchain with
    | base hm hentry1 =>
        cases hp1.symm.trans hm
        rw [← hentry1, hp1entry] at hbegin
        exact absurd hentry
          (hbegin _ ((List.drop_suffix _ _).isInfix.trans (List.take_prefix _ _).isInfix))
    | @step _ _ r2 rest' entries m hchain hm hm1 hm2 hne =>
        cases hp1.symm.trans hm
        obtain ⟨p2', hp2', hp2entry⟩ := hchain.entry
        cases hp2.symm.trans hp2'
        refine Or.inr ⟨i', p1.entry, entries, hij, ⟨hj, prev1, p1, hcell1, hp1, rfl, prev2, r2,
          rest', hm1, hm2, hchain, ?_⟩, rfl⟩
        obtain ⟨hu, -⟩ | ⟨hnone, -⟩ := hlinks
        · rw [pathScore₂_append_two, hp2entry, add_left_inj] at hsum
          rw [hu, hsum]
        · obtain ⟨p1', hp1', hscored⟩ := hheap.scored hcell1 (by omega) (h.stop_lt hcell1)
          cases hp1.symm.trans hp1'
          exact absurd hnone hscored

variable [LinearOrder G]

/-- The path before a node is the best one of those that end where it starts. -/
theorem PathBefore.best (h : Filled listEntriesFn beginEntry endEntry pronunciation lattice)
    (hheap : FinalBelow scoreFn lattice (pronunciation.length + 2) heap)
    (hserved : ServedBelow scoreFn lattice (pronunciation.length + 2) heap) {i : Nat} {stop : Int}
    {ref : Nat} {n : Node ε G} {path : List ε} (hcell : lattice.Cell i stop ref)
    (hn : heap[ref]? = some n) (hbefore : PathBefore scoreFn beginEntry heap n path) :
    ∀ path', Extension (KeptBy scoreFn beginEntry lattice heap pronunciation.length) i path' →
      pathScore₂ scoreFn beginEntry beginEntry (path' ++ [n.entry]) ≤
        pathScore₂ scoreFn beginEntry beginEntry (path ++ [n.entry]) := by
  obtain ⟨-, -, -, -, -, -, hscore⟩ := hbefore
  have hlt := h.lt hcell
  -- Whatever two nodes offer is at most the score of the node.
  have hoffer : ∀ {prev1Start prev2Start prev1 prev2 s}, lattice.Cell prev1Start i prev1 →
      lattice.Cell prev2Start prev1Start prev2 → Offers scoreFn heap prev1 prev2 ref s →
        s ≤ pathScore₂ scoreFn beginEntry beginEntry (path ++ [n.entry]) := by
    intro prev1Start prev2Start prev1 prev2 s hcell1 hcell2 hs
    obtain ⟨n', v, hn', hv, hle⟩ :=
      hserved hcell (by omega) (h.stop_lt hcell) hcell1 hcell2 s hs
    cases hn.symm.trans hn'
    cases hscore.symm.trans hv
    exact hle
  intro path' hext
  cases hext with
  | inl hzero =>
      obtain ⟨rfl, rfl⟩ := hzero
      obtain ⟨ref1, hcell1⟩ := h.begin1
      obtain ⟨ref2, hcell2⟩ := h.begin2
      have hp1 : heap[ref1]? = some { entry := beginEntry } := by
        rcases h.cases hcell1 with ⟨hs, -⟩ | ⟨-, -, hnode⟩ | ⟨hs, -⟩ | ⟨_, _, _, hs, -⟩
        · omega
        · exact (hheap.same hcell1 (Or.inl le_rfl)).trans hnode
        · omega
        · omega
      have hp2 : heap[ref2]? = some { entry := beginEntry, scoreSoFar := some 0 } := by
        rcases h.cases hcell2 with ⟨-, -, hnode⟩ | ⟨hs, -⟩ | ⟨hs, -⟩ | ⟨_, _, _, hs, -⟩
        · exact (hheap.same hcell2 (Or.inl (by omega))).trans hnode
        · omega
        · omega
        · omega
      refine hoffer hcell1 hcell2 ⟨_, _, n, 0, hp1, hp2, hn, ?_, Or.inr ⟨rfl, rfl⟩⟩
      rw [List.nil_append, pathScore₂, pathScore₂, zero_add, add_zero]
  | inr hkept =>
      obtain ⟨i', entry, path', hlt', ⟨-, ref1, p1, hcell1, hp1, rfl, hbefore1⟩, rfl⟩ := hkept
      obtain ⟨prev1, prev2, rest, hprev1, hprev2, hchain, hscore1⟩ := hbefore1
      obtain ⟨r1, r2, start1, start2, q1, q2, u, hr1, hr2, hcellr1, hcellr2, -⟩ :=
        hheap.linked hcell1 (by omega) (h.stop_lt hcell1) p1 _ hp1 hscore1
      cases hprev1.symm.trans hr1
      obtain ⟨p2, hp2, hp2entry⟩ := hchain.entry
      refine hoffer hcell1 hcellr1 ⟨p1, p2, n, _, hp1, hp2, hn, ?_, Or.inl ⟨hscore1, hprev1⟩⟩
      rw [pathScore₂_append_two, hp2entry]

/-- What the nodes of the filled table keep. -/
theorem keptPaths_of_filled (h : Filled listEntriesFn beginEntry endEntry pronunciation lattice)
    (hbegin : ∀ subPron, subPron <:+: pronunciation → beginEntry ∉ listEntriesFn subPron)
    (hheap : FinalBelow scoreFn lattice (pronunciation.length + 2) heap)
    (hserved : ServedBelow scoreFn lattice (pronunciation.length + 2) heap) :
    KeptPaths scoreFn listEntriesFn beginEntry pronunciation
      (KeptBy scoreFn beginEntry lattice heap pronunciation.length) where
  exists_kept := by
    intro i j entry hij hj hentry
    obtain ⟨ref, hcell, hnode⟩ := h.created hij hj hentry
    obtain ⟨n, hn, hscored⟩ := hheap.scored hcell (by omega) (h.stop_lt hcell)
    obtain ⟨n', hn', hnentry, -⟩ := hheap.keeps ref _ hnode
    cases hn.symm.trans hn'
    obtain ⟨v, hv⟩ := Option.ne_none_iff_exists'.mp hscored
    obtain ⟨prev1, prev2, rest, entries, hprev1, hprev2, hchain, -, -, rfl⟩ :=
      exists_chain h hbegin hheap i (by omega) hcell hn hv
    exact ⟨entries, hj, ref, n, hcell, hn, hnentry, prev1, prev2, rest, hprev1, hprev2, hchain, hv⟩
  listed := by
    intro i j entry path hkept
    obtain ⟨hj, ref, n, hcell, hn, rfl, -⟩ := hkept
    rcases h.cases hcell with ⟨hs, -⟩ | ⟨hs, -⟩ | ⟨-, hs, -⟩ |
      ⟨i', j', entry, hs, hs', hij, -, hentry, hnode⟩
    · omega
    · omega
    · omega
    · obtain ⟨n', hn', hnentry, -⟩ := hheap.keeps ref _ hnode
      cases hn.symm.trans hn'
      obtain rfl : i = i' := by omega
      obtain rfl : j = j' := by omega
      exact ⟨hij, hj, hnentry ▸ hentry⟩
  extend := by
    intro i j entry path hkept
    obtain ⟨hj, ref, n, hcell, hn, -, hbefore⟩ := hkept
    have hlt := h.lt hcell
    exact hbefore.extension h hbegin hheap (by omega) hcell hn
  best := by
    intro i j entry path hkept
    obtain ⟨-, ref, n, hcell, hn, rfl, hbefore⟩ := hkept
    exact hbefore.best h hheap hserved hcell hn

end Kept

/-- The conversion is the best extension of the paths that the search keeps.  It is
the best segmentation of all if a following entry never reverses the order of two
paths to an entry. -/
theorem execute_kept [AddCommGroup G] [LinearOrder G] [DecidableEq ε] (scoreFn : ε → ε → ε → G)
    (listEntriesFn : Str → List ε) (beginEntry endEntry : ε) (pronunciation : Str)
    (hentries : HasEntries listEntriesFn pronunciation)
    (hbegin : ∀ subPron, subPron <:+: pronunciation → beginEntry ∉ listEntriesFn subPron) :
    ∃ entries node lattice Kept,
      execute pronunciation beginEntry endEntry scoreFn listEntriesFn none =
        some (entries, node, lattice) ∧
      Segmentation listEntriesFn pronunciation entries ∧
      KeptPaths scoreFn listEntriesFn beginEntry pronunciation Kept ∧
      Extension Kept pronunciation.length entries ∧
      (∀ path, Extension Kept pronunciation.length path →
        pathScore₂ scoreFn beginEntry beginEntry (path ++ [endEntry]) ≤
          pathScore₂ scoreFn beginEntry beginEntry (entries ++ [endEntry])) ∧
      (NeverReversed scoreFn listEntriesFn beginEntry endEntry pronunciation →
        ∀ entries', Segmentation listEntriesFn pronunciation entries' →
          pathScore₂ scoreFn beginEntry beginEntry (entries' ++ [endEntry]) ≤
            pathScore₂ scoreFn beginEntry beginEntry (entries ++ [endEntry])) := by
  obtain ⟨lattice, hcreate, hfilled⟩ : ∃ lattice : Lattice (Node ε G), _ :=
    createNodes_filled listEntriesFn beginEntry endEntry pronunciation
  obtain ⟨heap, hdp, hheap, hserved⟩ :=
    dp_served scoreFn (hfilled.initial hentries) pronunciation.length
  have hkept := keptPaths_of_filled hfilled hbegin hheap hserved
  obtain ⟨hlast, -⟩ := hfilled.last
  obtain ⟨node, prev1, prev2, rest, refs, nodes, hnode, hnodeEntry, hprev1, hprev2, hchain,
    hbacktrack, hnodes, hsegmentation, hv⟩ := exists_backtrack hfilled hbegin hheap
  have hbefore : PathBefore scoreFn beginEntry heap node (nodes.map Node.entry) :=
    ⟨prev1, prev2, rest, hprev1, hprev2, hchain, hv⟩
  have hbest := hbefore.best hfilled hheap hserved hlast hnode
  rw [hnodeEntry] at hbest
  refine ⟨nodes.map Node.entry, node, { lattice with heap }, _, ?_, hsegmentation, hkept,
    hbefore.extension hfilled hbegin hheap le_rfl hlast hnode, hbest, ?_⟩
  · have hclip : clipBoundaryIndex none = none := rfl
    simp only [execute, hclip, hcreate, hdp, hnode, hprev1, hprev2, hbacktrack, hnodes,
      Option.bind_eq_bind, Option.bind_some, Option.pure_def]
  · intro hnever entries' hentries'
    exact hkept.maximal hnever hbest hentries'

/-- Three characters, and a score that does not depend on the entry before the last
one: the conversion one by one is the best. -/
theorem execute_kept_kana :
    let scoreFn : Str → Str → Str → Int := fun entry _ _ => if entry.length = 1 then 1 else 0
    ∃ entries node lattice,
      execute ['か', 'な', 'だ'] ['^'] ['$'] scoreFn (fun subPron => [subPron]) none =
        some (entries, node, lattice) ∧
      ∀ entries', Segmentation (fun subPron => [subPron]) ['か', 'な', 'だ'] entries' →
        pathScore₂ scoreFn ['^'] ['^'] (entries' ++ [['$']]) ≤
          pathScore₂ scoreFn ['^'] ['^'] (entries ++ [['$']]) := by
  intro scoreFn
  have hentries : HasEntries (fun subPron : Str => [subPron]) ['か', 'な', 'だ'] :=
    fun _ _ _ _ => List.cons_ne_nil _ _
  have hbegin : ∀ subPron, subPron <:+: ['か', 'な', 'だ'] → ['^'] ∉ [subPron] := by
    intro subPron hinfix hmem
    cases List.mem_singleton.mp hmem
    exact absurd hinfix (by decide)
  have hnever : NeverReversed scoreFn (fun subPron : Str => [subPron]) ['^'] ['$']
      ['か', 'な', 'だ'] := by
    intro i j entry path path' next _ _ _ _ _ hle _
    rw [pathScore₂_append_two, pathScore₂_append_two]
    exact add_le_add_left hle _
  obtain ⟨entries, node, lattice, Kept, hexecute, -, -, -, -, hmax⟩ :=
    execute_kept scoreFn (fun subPron => [subPron]) ['^'] ['$'] ['か', 'な', 'だ'] hentries hbegin
  exact ⟨entries, node, lattice, hexecute, hmax hnever⟩

/-- Two entries `1` and `2` for the first character and one entry `3` for the second.
The path through `1` is kept at `3`, and the end of the sentence prefers the one
through `2`. -/
theorem execute_not_best :
    let listEntriesFn : Str → List Nat := fun subPron =>
      if subPron = ['か'] then [1, 2] else if subPron = ['な'] then [3] else [4]
    let scoreFn : Nat → Nat → Nat → Int := fun entry prev2 prev1 =>
      if entry = 3 ∧ prev1 = 1 then 1 else if entry = 9 ∧ prev2 = 2 then 5 else 0
    HasEntries listEntriesFn ['か', 'な'] ∧
      (∀ subPron, subPron <:+: ['か', 'な'] → 0 ∉ listEntriesFn subPron) ∧
      (execute ['か', 'な'] 0 9 scoreFn listEntriesFn none).map Prod.fst = some [1, 3] ∧
      Segmentation listEntriesFn ['か', 'な'] [2, 3] ∧
      pathScore₂ scoreFn 0 0 ([1, 3] ++ [9]) < pathScore₂ scoreFn 0 0 ([2, 3] ++ [9]) := by
  intro listEntriesFn scoreFn
  refine ⟨?_, ?_, rfl, ?_, by decide⟩
  · intro subPron _ _ _
    simp only [listEntriesFn]
    split_ifs
    · exact List.cons_ne_nil _ _
    · exact List.cons_ne_nil _ _
    · exact List.cons_ne_nil _ _
  · intro subPron _
    simp only [listEntriesFn]
    split_ifs
    · decide
    · decide
    · decide
  · refine ⟨[['か'], ['な']], rfl, by decide, ?_⟩
    exact .cons (by decide) (.cons (by decide) .nil)

end Hachee.Kkc.Convert.Viterbi3gram
