import Hachee.DependencyParsing.ShiftReduce
import Hachee.Foundation.Arborescence
import Hachee.Foundation.Ascents
import Mathlib.Algebra.Order.Ring.Int

/-!
# Every run of transitions builds a spanning tree

The vertices of the input are distributed over the stack, the buffer and the
children of the arcs, and each transition keeps this (`Invariant.step`).  The
parent of a new arc is on the stack, so no arc enters it, and the arcs stay without
cycles.

Neither the stack nor the buffer gets shorter in every transition.  What does get
smaller is a *potential*: the vertices that have no parent yet are read as one list,
from the bottom of the stack to the end of the buffer, and a swap removes an ascent
of this list, while every other transition makes the list or the buffer shorter.

The last transition of a run that terminates is a right-arc from the root.  The arc
it adds is one that `parse` would have removed.
-/

namespace Hachee.DependencyParsing.ShiftReduce

open Foundation Arborescence Ascents

/-! ## Edges -/

/-- The graph whose edges are the arcs. -/
def edge (arcs : List Arc) (u v : Vertex) : Prop := { parent := u, child := v } ∈ arcs

theorem edge_cons {arcs : List Arc} {p c u v : Vertex} :
    edge (⟨p, c⟩ :: arcs) u v ↔ u = p ∧ v = c ∨ edge arcs u v := by
  simp [edge]

theorem edge.child_mem {arcs : List Arc} {u v : Vertex} (h : edge arcs u v) :
    v ∈ arcs.map Arc.child :=
  List.mem_map.mpr ⟨_, h, rfl⟩

theorem exists_edge {arcs : List Arc} {v : Vertex} (h : v ∈ arcs.map Arc.child) :
    ∃ u, edge arcs u v := by
  obtain ⟨⟨u, _⟩, harc, rfl⟩ := List.mem_map.mp h
  exact ⟨u, harc⟩

/-- When no vertex is the child of two arcs, it has at most one parent. -/
theorem edge.unique {arcs : List Arc} (h : (arcs.map Arc.child).Nodup) {u u' v : Vertex}
    (hu : edge arcs u v) (hu' : edge arcs u' v) : u = u' :=
  congrArg Arc.parent (List.inj_on_of_nodup_map h hu hu' rfl)

/-! ## The invariant -/

/-- The places where a vertex is kept. -/
def places (c : Configuration) : List Vertex := body c ++ c.buffer ++ c.arcs.map Arc.child

/-- What holds of every configuration that is reached on the vertices. -/
structure Invariant (vertices : List Vertex) (c : Configuration) : Prop where
  rooted : Rooted c
  places : (places c).Perm vertices
  acyclic : Acyclic (edge c.arcs)
  parents : ∀ arc ∈ c.arcs, arc.parent = root ∨ arc.parent ∈ vertices

section

variable {vertices : List Vertex}

theorem invariant_initial : Invariant vertices (makeInitialConfiguration vertices) where
  rooted := ⟨rfl, [], rfl⟩
  places := by
    show ([] ++ vertices ++ []).Perm vertices
    rw [List.nil_append, List.append_nil]
  acyclic := Acyclic.of_empty fun _ _ h => by cases h
  parents := fun _ h => by cases h

namespace Invariant

variable {c next : Configuration} {action : Action}

/-- A vertex on the stack is one of the input that has no parent. -/
theorem of_mem_body (h : Invariant vertices c) (hnodup : vertices.Nodup) {v : Vertex}
    (hv : v ∈ body c) : v ∈ vertices ∧ v ∉ c.arcs.map Arc.child := by
  have hplaces : (ShiftReduce.places c).Nodup := h.places.nodup_iff.mpr hnodup
  refine ⟨h.places.mem_iff.mp (by simp [ShiftReduce.places, hv]), fun hchild => ?_⟩
  exact (List.disjoint_of_nodup_append hplaces)
    (List.mem_append_left _ hv) hchild

/-- No vertex is on the stack twice. -/
theorem nodup_stack (h : Invariant vertices c) (hnodup : vertices.Nodup)
    (hroot : root ∉ vertices) : c.stack.Nodup := by
  obtain ⟨stack, buffer, arcs, _⟩ := c
  obtain ⟨rfl, l, rfl⟩ := h.rooted
  have hplaces : (ShiftReduce.places ⟨l ++ [root], buffer, arcs, root⟩).Nodup :=
    h.places.nodup_iff.mpr hnodup
  rw [ShiftReduce.places, body_concat] at hplaces
  have hl : l.Nodup := (List.nodup_append.mp (List.nodup_append.mp hplaces).1).1
  refine List.Nodup.append hl (List.nodup_singleton root) ?_
  intro v hv hvroot
  cases List.mem_singleton.mp hvroot
  exact hroot (h.of_mem_body hnodup (by rw [body_concat]; exact hv)).1

/-- A child is one of the vertices of the input. -/
theorem child_mem (h : Invariant vertices c) {v : Vertex} (hv : v ∈ c.arcs.map Arc.child) :
    v ∈ vertices :=
  h.places.mem_iff.mp (List.mem_append_right _ hv)

/-- Attaching a vertex of the stack to another one or to the root. -/
theorem attach (h : Invariant vertices c) (hnodup : vertices.Nodup) (hroot : root ∉ vertices)
    {p x : Vertex} {l : List Vertex} (hl : (x :: l).Perm (body c)) (hp : p = root ∨ p ∈ l) :
    Invariant vertices ⟨l ++ [root], c.buffer, ⟨p, x⟩ :: c.arcs, root⟩ := by
  have hx : x ∈ vertices := (h.of_mem_body hnodup (hl.mem_iff.mp (List.mem_cons_self ..))).1
  have hmem : ∀ v ∈ l, v ∈ vertices ∧ v ∉ c.arcs.map Arc.child := fun v hv =>
    h.of_mem_body hnodup (hl.mem_iff.mp (List.mem_cons_of_mem x hv))
  have hbody : (body c).Nodup :=
    (List.nodup_append.mp (List.nodup_append.mp (h.places.nodup_iff.mpr hnodup)).1).1
  have henter : ∀ u, ¬edge c.arcs u p := by
    intro u hu
    cases hp with
    | inl heq => exact hroot (heq ▸ h.child_mem hu.child_mem)
    | inr hpl => exact (hmem p hpl).2 hu.child_mem
  have hne : p ≠ x := by
    rintro rfl
    cases hp with
    | inl heq => exact hroot (heq ▸ hx)
    | inr hpl => exact (List.nodup_cons.mp (hl.nodup_iff.mpr hbody)).1 hpl
  refine ⟨⟨rfl, l, rfl⟩, ?_, ?_, ?_⟩
  · refine List.Perm.trans ?_ h.places
    show (body ⟨l ++ [root], _, _, root⟩ ++ c.buffer ++ x :: c.arcs.map Arc.child).Perm
      (body c ++ c.buffer ++ c.arcs.map Arc.child)
    rw [body_concat]
    refine List.perm_middle.trans ?_
    exact (hl.append_right c.buffer).append_right (c.arcs.map Arc.child)
  · exact (h.acyclic.insert henter hne).mono fun u v huv => edge_cons.mp huv
  · intro arc harc
    cases List.mem_cons.mp harc with
    | inl heq =>
        rw [heq]
        exact hp.imp_right fun hpl => (hmem p hpl).1
    | inr hold => exact h.parents arc hold

/-- Moving a vertex between the stack and the buffer. -/
theorem move_vertex (h : Invariant vertices c) {l buffer : List Vertex}
    (hl : (l ++ buffer).Perm (body c ++ c.buffer)) :
    Invariant vertices ⟨l ++ [root], buffer, c.arcs, root⟩ where
  rooted := ⟨rfl, l, rfl⟩
  places := by
    show (body ⟨l ++ [root], _, _, root⟩ ++ buffer ++ c.arcs.map Arc.child).Perm vertices
    rw [body_concat]
    exact (hl.append_right _).trans h.places
  acyclic := h.acyclic
  parents := h.parents

/-- Every transition keeps the invariant. -/
theorem step (h : Invariant vertices c) (hnodup : vertices.Nodup) (hroot : root ∉ vertices)
    (hmove : Move c action next) : Invariant vertices next := by
  cases hmove with
  | @leftArc i j rest buffer arcs =>
      have hl : (i :: j :: rest).Perm (body ⟨j :: i :: rest ++ [root], buffer, arcs, root⟩) := by
        rw [body_concat]
        exact List.Perm.swap j i rest
      exact h.attach hnodup hroot hl (Or.inr (List.mem_cons_self ..))
  | @rightArc j rest buffer arcs =>
      have hl : (j :: rest).Perm (body ⟨j :: rest ++ [root], buffer, arcs, root⟩) := by
        rw [body_concat]
      refine h.attach hnodup hroot hl ?_
      cases rest with
      | nil => exact Or.inl rfl
      | cons i rest => exact Or.inr (List.mem_cons_self ..)
  | @shift i l buffer arcs =>
      refine h.move_vertex ?_
      rw [body_concat]
      exact List.perm_middle.symm
  | @swap i j rest buffer arcs _ =>
      have hl : (j :: rest ++ i :: buffer).Perm
          (body ⟨j :: i :: rest ++ [root], buffer, arcs, root⟩ ++ buffer) := by
        rw [body_concat]
        exact List.Perm.cons j List.perm_middle
      exact h.move_vertex hl

end Invariant

end

/-! ## The number of transitions -/

/-- The vertices that have no parent yet, from the bottom of the stack to the end
of the buffer. -/
def word (c : Configuration) : List Vertex := (body c).reverse ++ c.buffer

/-- It bounds the number of transitions that are still possible. -/
def potential (c : Configuration) : Nat :=
  2 * ascents (word c) + (word c).length + c.buffer.length

theorem word_concat (l buffer : List Vertex) (arcs : List Arc) :
    word ⟨l ++ [root], buffer, arcs, root⟩ = l.reverse ++ buffer := by
  rw [word, body_concat]

/-- Taking a vertex off the list makes the potential smaller. -/
theorem potential_lt_of_sublist {c next : Configuration} (hword : (word next).Sublist (word c))
    (hlength : (word next).length < (word c).length) (hbuffer : next.buffer = c.buffer) :
    potential next < potential c := by
  have hascents := ascents_sublist hword
  rw [potential, potential, hbuffer]
  omega

/-- Every transition makes the potential smaller. -/
theorem Move.potential_lt {c next : Configuration} {action : Action} (h : Move c action next) :
    potential next < potential c := by
  cases h with
  | @leftArc i j rest buffer arcs =>
      refine potential_lt_of_sublist ?_ ?_ rfl
      · rw [word_concat, word_concat]
        refine List.Sublist.append_right ?_ buffer
        exact List.Sublist.reverse (List.Sublist.cons_cons j (List.sublist_cons_self i rest))
      · rw [word_concat, word_concat]
        simp
  | @rightArc j rest buffer arcs =>
      refine potential_lt_of_sublist ?_ ?_ rfl
      · rw [word_concat, word_concat]
        exact ((List.sublist_cons_self j rest).reverse).append_right buffer
      · rw [word_concat, word_concat]
        simp
  | @shift i l buffer arcs =>
      have hword : word ⟨i :: l ++ [root], buffer, arcs, root⟩ =
          word ⟨l ++ [root], i :: buffer, arcs, root⟩ := by
        rw [word_concat, word_concat, List.reverse_cons, List.append_assoc]
        rfl
      rw [potential, potential, hword]
      exact Nat.add_lt_add_left (Nat.lt_succ_self _) _
  | @swap i j rest buffer arcs hlt =>
      have hword : word ⟨j :: i :: rest ++ [root], buffer, arcs, root⟩ =
          rest.reverse ++ i :: j :: buffer := by
        rw [word_concat]
        simp
      have hword' : word ⟨j :: rest ++ [root], i :: buffer, arcs, root⟩ =
          rest.reverse ++ j :: i :: buffer := by
        rw [word_concat]
        simp
      have hascents := ascents_swap hlt rest.reverse buffer
      rw [potential, potential, hword, hword']
      simp only [List.length_append, List.length_cons]
      omega

/-- The potential of the input. -/
theorem potential_initial_le (vertices : List Vertex) :
    potential (makeInitialConfiguration vertices) ≤ vertices.length * (vertices.length + 1) := by
  have hascents := two_mul_ascents_le vertices
  show 2 * ascents vertices + vertices.length + vertices.length ≤ _
  rw [Nat.mul_succ]
  omega

/-! ## Progress -/

/-- There is always a vertex to attach or to shift before the end. -/
theorem exists_move {c : Configuration} (hc : Rooted c) (hrun : terminatedP c = false) :
    ∃ action next, Move c action next := by
  obtain ⟨stack, buffer, arcs, _⟩ := c
  obtain ⟨rfl, l, rfl⟩ := hc
  cases l with
  | cons j rest => exact ⟨_, _, Move.rightArc⟩
  | nil =>
      cases buffer with
      | cons i buffer => exact ⟨_, _, Move.shift⟩
      | nil => cases hrun

/-- The last transition of a run attaches a vertex to the root. -/
theorem arcs_of_terminatedP {c next : Configuration} {action : Action} (h : Move c action next)
    (hend : terminatedP next = true) :
    ∃ j, next.arcs = ⟨root, j⟩ :: c.arcs := by
  cases h with
  | @rightArc j rest _ _ =>
      cases rest with
      | nil => exact ⟨j, rfl⟩
      | cons i rest =>
          cases rest with
          | nil => cases hend
          | cons _ _ => cases hend
  | @leftArc i j rest _ _ =>
      cases rest with
      | nil => cases hend
      | cons _ _ => cases hend
  | @shift i l _ _ =>
      cases l with
      | nil => cases hend
      | cons _ _ => cases hend
  | @swap i j rest _ _ _ =>
      cases rest with
      | nil => cases hend
      | cons _ _ => cases hend

/-! ## Runs -/

section Runs

variable {vertices : List Vertex}

/-- Runs keep the invariant, and each of their transitions uses up potential. -/
theorem Invariant.run (hnodup : vertices.Nodup) (hroot : root ∉ vertices) :
    ∀ (actions : List Action) {c next : Configuration}, Invariant vertices c →
      runActions c actions = some next →
      Invariant vertices next ∧ actions.length + potential next ≤ potential c
  | [], c, next, h, hrun => by
      cases hrun
      exact ⟨h, by simp⟩
  | action :: actions, c, next, h, hrun => by
      rw [runActions, List.foldlM_cons] at hrun
      obtain ⟨c', htransition, hrest⟩ := Lisp.bind_inv hrun
      have hmove := h.rooted.move htransition
      obtain ⟨hnext, hle⟩ :=
        Invariant.run hnodup hroot actions (h.step hnodup hroot hmove) hrest
      have hlt := hmove.potential_lt
      exact ⟨hnext, by rw [List.length_cons]; omega⟩

/-- In a configuration that is not terminated there is a transition that succeeds. -/
theorem Invariant.exists_transitioned (hnodup : vertices.Nodup) (hroot : root ∉ vertices)
    {c : Configuration} (h : Invariant vertices c) (hrun : terminatedP c = false) :
    ∃ action next, transitioned c action = some next := by
  obtain ⟨action, next, hmove⟩ := exists_move h.rooted hrun
  exact ⟨action, next,
    hmove.transitioned fun hmem => hroot (h.of_mem_body hnodup hmem).1⟩

/-- When the run has terminated, the arcs are a spanning tree. -/
theorem Invariant.spanning (hnodup : vertices.Nodup) (hroot : root ∉ vertices)
    {c : Configuration} (h : Invariant vertices c) (hend : terminatedP c = true) :
    (c.arcs.map Arc.child).Perm vertices ∧ Spanning (edge c.arcs) root {v | v ∈ vertices} := by
  have hchildren : (c.arcs.map Arc.child).Perm vertices := by
    obtain ⟨stack, buffer, arcs, _⟩ := c
    obtain ⟨rfl, l, rfl⟩ := h.rooted
    have hplaces := h.places
    rw [ShiftReduce.places, body_concat] at hplaces
    cases l with
    | nil =>
        cases buffer with
        | nil => exact hplaces
        | cons _ _ => cases hend
    | cons _ rest =>
        cases rest with
        | nil => cases hend
        | cons _ _ => cases hend
  refine ⟨hchildren, ?_⟩
  refine Spanning.of_acyclic (List.finite_toSet vertices) hroot h.acyclic ?_ ?_ ?_ ?_
  · exact fun {u v} huv => h.parents _ huv
  · exact fun {u v} huv => h.child_mem huv.child_mem
  · exact fun {v} hv => exists_edge (hchildren.mem_iff.mpr hv)
  · exact fun {u u' v} hu hu' => hu.unique (hchildren.nodup_iff.mpr hnodup) hu'

end Runs

/-! ## Action functions -/

section ActionFn

variable {σ : Type} {vertices : List Vertex} {actionFn : ActionFn σ} {s₀ : σ}
  {c₀ : Configuration}

/-- The configurations that an action function is led to, with its state there. -/
inductive Led (actionFn : ActionFn σ) (s₀ : σ) (c₀ : Configuration) : σ → Configuration → Prop
  | start : Led actionFn s₀ c₀ s₀ c₀
  | next {s s' : σ} {c c' : Configuration} {action : Action} :
      Led actionFn s₀ c₀ s c → terminatedP c = false →
      selectAction c actionFn s = some (action, s') → transitioned c action = some c' →
      Led actionFn s₀ c₀ s' c'

/-- The action function always picks a transition that succeeds. -/
def Picks (actionFn : ActionFn σ) (s₀ : σ) (c₀ : Configuration) : Prop :=
  ∀ s c, Led actionFn s₀ c₀ s c → terminatedP c = false →
    ∃ action s' c', selectAction c actionFn s = some (action, s') ∧
      transitioned c action = some c'

theorem Led.invariant (hnodup : vertices.Nodup) (hroot : root ∉ vertices)
    (h₀ : Invariant vertices c₀) {s : σ} {c : Configuration} (h : Led actionFn s₀ c₀ s c) :
    Invariant vertices c := by
  induction h with
  | start => exact h₀
  | next _ _ _ htransition ih => exact ih.step hnodup hroot (ih.rooted.move htransition)

/-- One turn of the configuration stream. -/
theorem configurationStream_succ (fuel : Nat) {s s' : σ} {c c' : Configuration} {action : Action}
    (hrun : terminatedP c = false) (hselect : selectAction c actionFn s = some (action, s'))
    (htransition : transitioned c action = some c') :
    configurationStream actionFn (fuel + 1) s c =
      (configurationStream actionFn fuel s' c').bind fun configurations =>
        some (c :: configurations) := by
  rw [configurationStream, hrun, hselect]
  show (transitioned c action).bind _ = _
  rw [htransition]
  rfl

/-- One turn of the action stream. -/
theorem actionStream_succ (fuel : Nat) {s s' : σ} {c c' : Configuration} {action : Action}
    (hrun : terminatedP c = false) (hselect : selectAction c actionFn s = some (action, s'))
    (htransition : transitioned c action = some c') :
    actionStream actionFn (fuel + 1) s c =
      (actionStream actionFn fuel s' c').bind fun actions => some (action :: actions) := by
  rw [actionStream, hrun, hselect]
  show (transitioned c action).bind _ = _
  rw [htransition]
  rfl

/-- The stream ends, and the transition after its last configuration ends the run. -/
theorem configurationStream_of_picks (hpicks : Picks actionFn s₀ c₀) :
    ∀ (fuel : Nat) {s : σ} {c : Configuration}, potential c < fuel → Rooted c →
      Led actionFn s₀ c₀ s c → terminatedP c = false →
      ∃ configurations last action s' final,
        configurationStream actionFn fuel s c = some configurations ∧
        configurations.getLast? = some last ∧ Move last action final ∧
        Led actionFn s₀ c₀ s' final ∧ terminatedP final = true
  | 0, _, _, hfuel, _, _, _ => absurd hfuel (Nat.not_lt_zero _)
  | fuel + 1, s, c, hfuel, hc, hled, hrun => by
      obtain ⟨action, s', c', hselect, htransition⟩ := hpicks s c hled hrun
      have hmove := hc.move htransition
      have hlt := hmove.potential_lt
      have hled' := hled.next hrun hselect htransition
      have hstream := configurationStream_succ fuel hrun hselect htransition
      cases hend : terminatedP c' with
      | true =>
          refine ⟨[c], c, action, s', c', ?_, rfl, hmove, hled', hend⟩
          cases fuel with
          | zero => omega
          | succ fuel =>
              rw [hstream, configurationStream, hend]
              rfl
      | false =>
          obtain ⟨configurations, last, action', s'', final, hrest, hlast, h⟩ :=
            configurationStream_of_picks hpicks fuel (by omega) hmove.rooted hled' hend
          refine ⟨c :: configurations, last, action', s'', final, ?_, ?_, h⟩
          · rw [hstream, hrest]
            rfl
          · rw [List.getLast?_cons, hlast]
            rfl

/-- `parse` returns the arcs of the configuration in which the run ends, without
those that leave the root. -/
theorem parse_of_picks (hne : vertices ≠ []) (hnonneg : ∀ v ∈ vertices, 0 ≤ v)
    (hpicks : Picks actionFn s₀ (makeInitialConfiguration vertices)) {fuel : Nat}
    (hfuel : vertices.length * (vertices.length + 1) < fuel) :
    ∃ s final, Led actionFn s₀ (makeInitialConfiguration vertices) s final ∧
      terminatedP final = true ∧
      parse actionFn fuel s₀ vertices = some (final.arcs.filter fun arc => arc.parent ≠ root) := by
  have hpotential := potential_initial_le vertices
  have hrun : terminatedP (makeInitialConfiguration vertices) = false := by
    cases vertices with
    | nil => exact absurd rfl hne
    | cons _ _ => rfl
  obtain ⟨configurations, last, action, s, final, hstream, hlast, hmove, hled, hend⟩ :=
    configurationStream_of_picks hpicks fuel (by omega) invariant_initial.rooted Led.start hrun
  obtain ⟨j, harcs⟩ := arcs_of_terminatedP hmove hend
  have hfilter : final.arcs.filter (fun arc => arc.parent ≠ root) =
      last.arcs.filter fun arc => arc.parent ≠ root := by
    rw [harcs, List.filter_cons_of_neg (by simp)]
  refine ⟨s, final, hled, hend, ?_⟩
  rw [parse, if_pos hnonneg, hfilter]
  simp only [hstream, Option.bind_eq_bind, Option.bind_some, hlast]
  rfl

end ActionFn

/-! ## Action sequences -/

/-- The actions lead to a configuration that has terminated, and not earlier. -/
inductive Complete : Configuration → List Action → Configuration → Prop
  | done {c : Configuration} : terminatedP c = true → Complete c [] c
  | step {c c' final : Configuration} {action : Action} {actions : List Action} :
      terminatedP c = false → transitioned c action = some c' → Complete c' actions final →
      Complete c (action :: actions) final

namespace Complete

variable {c₀ final : Configuration} {actions : List Action}

theorem terminatedP_eq (h : Complete c₀ actions final) : terminatedP final = true := by
  induction h with
  | done hend => exact hend
  | step _ _ _ ih => exact ih

/-- A complete sequence, handed out one by one, leads to its last configuration. -/
theorem of_led (h : Complete c₀ actions final) {rest : List Action} {c : Configuration}
    (hled : Led popAction actions c₀ rest c) : Complete c rest final := by
  induction hled with
  | start => exact h
  | next _ hrun hselect htransition ih =>
      cases ih with
      | done hend => exact absurd (hrun.symm.trans hend) Bool.false_ne_true
      | step _ htransition' hrest =>
          cases hselect
          cases htransition.symm.trans htransition'
          exact hrest

/-- An action function that hands out a complete sequence picks what succeeds. -/
theorem picks (h : Complete c₀ actions final) : Picks popAction actions c₀ := by
  intro rest c hled hrun
  cases h.of_led hled with
  | done hend => exact absurd (hrun.symm.trans hend) Bool.false_ne_true
  | step _ htransition _ => exact ⟨_, _, _, rfl, htransition⟩

/-- Every action of a complete sequence succeeds where it is taken. -/
theorem transitioned_of_split {before after : List Action} {action : Action}
    (h : Complete c₀ (before ++ action :: after) final) :
    ∃ c next, runActions c₀ before = some c ∧ transitioned c action = some next := by
  induction before generalizing c₀ with
  | nil =>
      cases h with
      | step _ htransition _ => exact ⟨c₀, _, rfl, htransition⟩
  | cons first before ih =>
      cases h with
      | step _ htransition hrest =>
          obtain ⟨c, next, hrun, hnext⟩ := ih hrest
          refine ⟨c, next, ?_, hnext⟩
          rw [runActions, List.foldlM_cons, htransition]
          exact hrun

end Complete

/-- The actions of a function that always picks what succeeds are a complete sequence. -/
theorem actionStream_of_picks {σ : Type} {actionFn : ActionFn σ} {s₀ : σ} {c₀ : Configuration}
    (hpicks : Picks actionFn s₀ c₀) :
    ∀ (n : Nat) {s : σ} {c : Configuration}, potential c < n → Rooted c →
      Led actionFn s₀ c₀ s c →
      ∃ actions s' final, Complete c actions final ∧ Led actionFn s₀ c₀ s' final ∧
        ∀ fuel, actions.length < fuel → actionStream actionFn fuel s c = some actions
  | 0, _, _, hn, _, _ => absurd hn (Nat.not_lt_zero _)
  | n + 1, s, c, hn, hc, hled => by
      cases hrun : terminatedP c with
      | true =>
          refine ⟨[], s, c, Complete.done hrun, hled, fun fuel hfuel => ?_⟩
          cases fuel with
          | zero => cases hfuel
          | succ fuel =>
              rw [actionStream, hrun]
              rfl
      | false =>
          obtain ⟨action, s', c', hselect, htransition⟩ := hpicks s c hled hrun
          have hmove := hc.move htransition
          have hlt := hmove.potential_lt
          obtain ⟨actions, s'', final, hcomplete, hled', hstream⟩ :=
            actionStream_of_picks hpicks n (by omega) hmove.rooted
              (hled.next hrun hselect htransition)
          refine ⟨action :: actions, s'', final, Complete.step hrun htransition hcomplete, hled',
            fun fuel hfuel => ?_⟩
          cases fuel with
          | zero => cases hfuel
          | succ fuel =>
              rw [actionStream_succ fuel hrun hselect htransition,
                hstream fuel (Nat.lt_of_succ_lt_succ hfuel)]
              rfl

/-! ## The transition system -/

/-- Whatever transitions are made, the vertices stay in their places, no cycle is
closed, and no run gets stuck or takes more than `n * (n + 1)` transitions.  Hence
`parse` returns a spanning tree without the arcs that leave the root. -/
theorem runActions_parse {vertices : List Vertex} (hne : vertices ≠ [])
    (hnodup : vertices.Nodup) (hnonneg : ∀ v ∈ vertices, 0 ≤ v) :
    (∀ actions c, runActions (makeInitialConfiguration vertices) actions = some c →
      c.stack = body c ++ [c.root] ∧
      (body c ++ c.buffer ++ c.arcs.map Arc.child).Perm vertices ∧
      Acyclic (edge c.arcs) ∧
      (terminatedP c = false → ∃ action next, transitioned c action = some next) ∧
      actions.length ≤ vertices.length * (vertices.length + 1)) ∧
    ∀ (σ : Type) (actionFn : ActionFn σ) (s : σ),
      Picks actionFn s (makeInitialConfiguration vertices) →
      ∀ fuel, vertices.length * (vertices.length + 1) < fuel →
        ∃ tree, (tree.map Arc.child).Perm vertices ∧
          Spanning (edge tree) root {v | v ∈ vertices} ∧
          parse actionFn fuel s vertices = some (tree.filter fun arc => arc.parent ≠ root) := by
  have hroot : root ∉ vertices := fun hmem => absurd (hnonneg root hmem) (by decide)
  constructor
  · intro actions c hrun
    obtain ⟨hc, hlength⟩ := Invariant.run hnodup hroot actions invariant_initial hrun
    have hpotential := potential_initial_le vertices
    refine ⟨?_, hc.places, hc.acyclic, hc.exists_transitioned hnodup hroot, by omega⟩
    obtain ⟨hr, l, hl⟩ := hc.rooted
    rw [body, hl, hr, List.dropLast_concat]
  · intro σ actionFn s hpicks fuel hfuel
    obtain ⟨s', final, hled, hend, hparse⟩ := parse_of_picks hne hnonneg hpicks hfuel
    obtain ⟨hchildren, hspanning⟩ :=
      (hled.invariant hnodup hroot invariant_initial).spanning hnodup hroot hend
    exact ⟨final.arcs, hchildren, hspanning, hparse⟩

/-- Two vertices, the second of which becomes the parent of the first after a swap. -/
theorem runActions_parse_swap :
    ∃ tree : List Arc, (tree.map Arc.child).Perm [1, 2] ∧
      Spanning (edge tree) root {v | v ∈ [1, 2]} ∧
      parse popAction 7 [.shift, .shift, .swap, .shift, .rightArc, .rightArc] [1, 2] =
        some (tree.filter fun arc => arc.parent ≠ root) := by
  have hcomplete : Complete (makeInitialConfiguration [1, 2])
      [.shift, .shift, .swap, .shift, .rightArc, .rightArc]
      ⟨[-1], [], [⟨-1, 2⟩, ⟨2, 1⟩], -1⟩ :=
    .step rfl rfl (.step rfl rfl (.step rfl rfl (.step rfl rfl (.step rfl rfl (.step rfl rfl
      (.done rfl))))))
  exact (runActions_parse (by decide) (by decide) (by decide)).2 _ popAction _
    hcomplete.picks 7 (by decide)

end Hachee.DependencyParsing.ShiftReduce
