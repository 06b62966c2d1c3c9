import Mathlib.Data.List.Induction
import Mathlib.Order.Lattice
import Mathlib.Tactic.Common

/-!
# Loops whose turns may fail

A loop over a list is `List.foldlM` in `Option`: it fails as soon as one of its
turns does.

Such a loop is seen here through a relation `R` that every turn follows, such as
"no score gets smaller".  A turn `x` reaches a fact `Q x`, and facts are kept
along `R`.  Then the loop reaches all of them, in whatever order the list is
(`foldlM_progress`).  Nested loops are handled by using the rule once for each of
them with the same `R`.

A loop that keeps the best element seen so far, with its score, ends with the best
element of the list (`foldl_better`), and a record of it can be written down
(`BestOf.records`).
-/

namespace Hachee.Foundation.Loop

variable {σ α : Type*}

/-- A loop whose turns never fail is a fold. -/
theorem foldlM_eq_some {f : σ → α → Option σ} {g : σ → α → σ} :
    ∀ (xs : List α), (∀ x ∈ xs, ∀ s, f s x = some (g s x)) → ∀ s,
      xs.foldlM f s = some (xs.foldl g s)
  | [], _, _ => rfl
  | x :: xs, h, s => by
      rw [List.foldlM_cons, h x (List.mem_cons_self ..)]
      exact foldlM_eq_some xs (fun y hy => h y (List.mem_cons_of_mem _ hy)) (g s x)

/-- The facts that the turns reach hold after the loop. -/
theorem foldlM_progress {f : σ → α → Option σ} {I : σ → Prop} {R : σ → σ → Prop}
    (Q : α → σ → Prop) (refl : ∀ s, R s s) (trans : ∀ {s s' s''}, R s s' → R s' s'' → R s s'')
    (keep : ∀ {x s s'}, R s s' → Q x s → Q x s') {xs : List α}
    (turn : ∀ x ∈ xs, ∀ s, I s → ∃ s', f s x = some s' ∧ I s' ∧ R s s' ∧ Q x s') {s : σ}
    (hs : I s) : ∃ s', xs.foldlM f s = some s' ∧ I s' ∧ R s s' ∧ ∀ x ∈ xs, Q x s' := by
  induction xs generalizing s with
  | nil => exact ⟨s, rfl, hs, refl s, fun _ hx => by cases hx⟩
  | cons x xs ih =>
      obtain ⟨s', hstep, hs', hR, hQ⟩ := turn x (List.mem_cons_self ..) s hs
      obtain ⟨s'', hloop, hs'', hR', hQs⟩ :=
        ih (fun y hy => turn y (List.mem_cons_of_mem _ hy)) hs'
      refine ⟨s'', ?_, hs'', trans hR hR', ?_⟩
      · rw [List.foldlM_cons, hstep]
        exact hloop
      · intro y hy
        cases List.mem_cons.mp hy with
        | inl heq => exact heq ▸ keep hR' hQ
        | inr hmem => exact hQs y hmem

/-- Two loops are one where their turns are, in the states that have a property which
every turn keeps. -/
theorem foldlM_congr {f f' : σ → α → Option σ} {I : σ → Prop} {xs : List α}
    (turn : ∀ x ∈ xs, ∀ s, I s → f s x = f' s x ∧ ∀ s', f' s x = some s' → I s') {s : σ}
    (hs : I s) :
    xs.foldlM f s = xs.foldlM f' s ∧ ∀ s', xs.foldlM f' s = some s' → I s' := by
  induction xs generalizing s with
  | nil =>
      refine ⟨rfl, fun s' h => ?_⟩
      rw [← Option.some.inj h]
      exact hs
  | cons x xs ih =>
      obtain ⟨heq, hkeep⟩ := turn x List.mem_cons_self s hs
      rw [List.foldlM_cons, List.foldlM_cons, heq]
      cases hstep : f' s x with
      | none => exact ⟨rfl, fun s' h => by cases h⟩
      | some s₁ =>
          exact ih (fun y hy => turn y (List.mem_cons_of_mem _ hy)) (hkeep s₁ hstep)

/-- What every turn keeps, the loop keeps. -/
theorem foldlM_invariant {f : σ → α → Option σ} (I : σ → Prop) {xs : List α}
    (turn : ∀ x ∈ xs, ∀ s s', I s → f s x = some s' → I s') {s s' : σ} (hs : I s)
    (h : xs.foldlM f s = some s') : I s' :=
  (foldlM_congr (fun x hx s hs => ⟨rfl, fun s' h' => turn x hx s s' hs h'⟩) hs).2 s' h

/-- The same for a loop that is known to succeed.  A turn may use what was reached
from the state `s₀`. -/
theorem foldlM_turns {f : σ → α → Option σ} {R : σ → σ → Prop} {s₀ : σ} (Q : α → σ → Prop)
    (refl : ∀ s, R s s) (trans : ∀ {s s' s''}, R s s' → R s' s'' → R s s'')
    (keep : ∀ {x s s'}, R s s' → Q x s → Q x s') {xs : List α}
    (turn : ∀ x ∈ xs, ∀ s s', R s₀ s → f s x = some s' → R s s' ∧ Q x s') :
    ∀ {s s' : σ}, R s₀ s → xs.foldlM f s = some s' → R s s' ∧ ∀ x ∈ xs, Q x s' := by
  induction xs with
  | nil =>
      intro s s' _ hloop
      cases hloop
      exact ⟨refl s, fun _ hx => by cases hx⟩
  | cons x xs ih =>
      intro s s'' hs hloop
      rw [List.foldlM_cons] at hloop
      obtain ⟨s', hstep, hloop⟩ := Option.bind_eq_some_iff.mp hloop
      obtain ⟨hR, hQ⟩ := turn x List.mem_cons_self s s' hs hstep
      obtain ⟨hR', hQs⟩ :=
        ih (fun y hy => turn y (List.mem_cons_of_mem _ hy)) (trans hs hR) hloop
      refine ⟨trans hR hR', fun y hy => ?_⟩
      cases List.mem_cons.mp hy with
      | inl heq => exact heq ▸ keep hR' hQ
      | inr hmem => exact hQs y hmem

/-- A loop over consecutive numbers, with an invariant that mentions the number. -/
theorem foldlM_range' {f : σ → Nat → Option σ} (I : Nat → σ → Prop) :
    ∀ (n k : Nat) (s : σ),
      (∀ i s, k ≤ i → i < k + n → I i s → ∃ s', f s i = some s' ∧ I (i + 1) s') → I k s →
      ∃ s', (List.range' k n).foldlM f s = some s' ∧ I (k + n) s'
  | 0, _, s, _, hs => ⟨s, rfl, hs⟩
  | n + 1, k, s, turn, hs => by
      obtain ⟨s', hstep, hs'⟩ := turn k s (Nat.le_refl k) (by omega) hs
      obtain ⟨s'', hloop, hs''⟩ := foldlM_range' I n (k + 1) s'
        (fun i s hk hi => turn i s (by omega) (by omega)) hs'
      refine ⟨s'', ?_, by rwa [Nat.add_right_comm] at hs''⟩
      rw [List.range'_succ, List.foldlM_cons, hstep]
      exact hloop

/-! ## The best element -/

section Best

variable {α R : Type*} [LinearOrder R]

/-- Keep the element `x` if it has a score and this score is better than the best one. -/
def better (g : α → Option R) (state : R × α) (x : α) : R × α :=
  match g x with
  | some s => if state.1 < s then (s, x) else state
  | none => state

/-- What the loop has found after the elements `xs`, when it starts with the element
`a₀` and the score `m₀`. -/
def BestOf (g : α → Option R) (m₀ : R) (a₀ : α) (xs : List α) (state : R × α) : Prop :=
  state = (m₀, a₀) ∧ (∀ x ∈ xs, g x = none) ∨
    state.2 ∈ xs ∧ g state.2 = some state.1 ∧ ∀ x ∈ xs, ∀ s, g x = some s → s ≤ state.1

theorem BestOf.snoc {g : α → Option R} {m₀ : R} {a₀ : α} {xs : List α} {state : R × α}
    (h : BestOf g m₀ a₀ xs state) {x : α} (hx : ∀ s, g x = some s → m₀ < s) :
    BestOf g m₀ a₀ (xs ++ [x]) (better g state x) := by
  have hall : ∀ {P : α → Prop}, (∀ y ∈ xs, P y) → P x → ∀ y ∈ xs ++ [x], P y :=
    fun hxs hPx y hy => (List.mem_append.mp hy).elim (hxs y) fun h =>
      List.mem_singleton.mp h ▸ hPx
  have hlast : x ∈ xs ++ [x] := List.mem_append_right _ (List.mem_singleton_self x)
  cases hgx : g x with
  | none =>
      have hstay : better g state x = state := by rw [better, hgx]
      rw [hstay]
      cases h with
      | inl hnone => exact Or.inl ⟨hnone.1, hall hnone.2 hgx⟩
      | inr hsome =>
          refine Or.inr ⟨List.mem_append_left _ hsome.1, hsome.2.1, hall hsome.2.2 ?_⟩
          intro s hs
          rw [hgx] at hs
          cases hs
  | some t =>
      have hturn : better g state x = if state.1 < t then (t, x) else state := by
        rw [better, hgx]
      have hlt : state.1 < t ∨ state.2 ∈ xs ∧ g state.2 = some state.1 ∧ t ≤ state.1 := by
        cases h with
        | inl hnone => exact Or.inl (by rw [hnone.1]; exact hx t hgx)
        | inr hsome =>
            cases lt_or_ge state.1 t with
            | inl hlt => exact Or.inl hlt
            | inr hle => exact Or.inr ⟨hsome.1, hsome.2.1, hle⟩
      have hbelow : ∀ y ∈ xs, ∀ s, g y = some s → s ≤ state.1 := by
        cases h with
        | inl hnone =>
            intro y hy s hs
            rw [hnone.2 y hy] at hs
            cases hs
        | inr hsome => exact hsome.2.2
      cases hlt with
      | inl hlt =>
          rw [hturn, if_pos hlt]
          refine Or.inr ⟨hlast, hgx, hall (fun y hy s hs => ?_) fun s hs => ?_⟩
          · exact le_trans (hbelow y hy s hs) (le_of_lt hlt)
          · rw [hgx] at hs
            cases hs
            exact le_rfl
      | inr hle =>
          rw [hturn, if_neg (not_lt_of_ge hle.2.2)]
          refine Or.inr ⟨List.mem_append_left _ hle.1, hle.2.1, hall hbelow fun s hs => ?_⟩
          rw [hgx] at hs
          cases hs
          exact hle.2.2

/-- Starting below all scores, the loop finds a best element, or no element has a score. -/
theorem foldl_better (g : α → Option R) (m₀ : R) (a₀ : α) (xs : List α) :
    (∀ x ∈ xs, ∀ s, g x = some s → m₀ < s) →
      BestOf g m₀ a₀ xs (xs.foldl (better g) (m₀, a₀)) := by
  induction xs using List.reverseRecOn with
  | nil => exact fun _ => Or.inl ⟨rfl, fun _ hx => by cases hx⟩
  | append_singleton xs x ih =>
      intro hbelow
      rw [List.foldl_append, List.foldl_cons, List.foldl_nil]
      exact (ih fun y hy => hbelow y (List.mem_append_left _ hy)).snoc
        (hbelow x (List.mem_append_right _ (List.mem_singleton_self x)))

/-- `score` and `name` are those of a best element of the list, if one has a score. -/
structure Records (g : α → Option R) (xs : List α) (score : Option R) (name : Option α) :
    Prop where
  found : ∀ s, score = some s → ∃ a ∈ xs, name = some a ∧ g a = some s
  le : ∀ x ∈ xs, ∀ t, g x = some t → ∃ s, score = some s ∧ t ≤ s

theorem Records.congr {g g' : α → Option R} {xs : List α} {score : Option R}
    {name : Option α} (h : Records g xs score name) (hg : ∀ x ∈ xs, g' x = g x) :
    Records g' xs score name := by
  constructor
  · intro s hs
    obtain ⟨a, ha, hname, hscore⟩ := h.found s hs
    exact ⟨a, ha, hname, (hg a ha).trans hscore⟩
  · intro x hx t ht
    exact h.le x hx t ((hg x hx).symm.trans ht)

/-- What the loop has found is written over the old record if it is better than the
element that the loop starts with. -/
theorem BestOf.records {g : α → Option R} {m₀ : R} {a₀ : α} {xs : List α} {state : R × α}
    (h : BestOf g m₀ a₀ xs state) (hbelow : ∀ x ∈ xs, ∀ s, g x = some s → m₀ < s)
    {score : Option R} {name : Option α} (hold : (∀ x ∈ xs, g x = none) → score = none) :
    Records g xs (if m₀ < state.1 then some state.1 else score)
      (if m₀ < state.1 then some state.2 else name) := by
  cases h with
  | inl hnone =>
      obtain ⟨rfl, hnone⟩ := hnone
      rw [if_neg (lt_irrefl m₀), if_neg (lt_irrefl m₀), hold hnone]
      constructor
      · intro s hs
        cases hs
      · intro x hx t ht
        rw [hnone x hx] at ht
        cases ht
  | inr hsome =>
      obtain ⟨hmem, hscore, hmax⟩ := hsome
      have hlt := hbelow _ hmem _ hscore
      rw [if_pos hlt, if_pos hlt]
      constructor
      · intro s hs
        cases hs
        exact ⟨state.2, hmem, rfl, hscore⟩
      · intro x hx t ht
        exact ⟨state.1, rfl, hmax x hx t ht⟩

end Best

end Hachee.Foundation.Loop
