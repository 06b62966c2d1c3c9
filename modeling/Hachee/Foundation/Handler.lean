import Mathlib.Tactic.Common

/-!
# Request handlers and their runs

A *handler* answers one request in a state: it returns an output and the next
state, or it fails.  A *run* answers a list of requests in order and fails as
soon as one of them does.

An invariant of the handler holds in every state a run reaches
(`Handler.run_invariant`).  If the handler also never fails in a state that
satisfies the invariant, then no run fails (`Handler.run_total`).  Both rules
restrict the requests by a predicate `ok`, which states what is assumed of the
environment.

A *path* is a run together with all the states it passes.  What happens between
two steps of a run is said about its path.
-/

namespace Hachee.Foundation

/-- A handler of requests `ρ` over states `σ` with outputs `ω`. -/
abbrev Handler (ρ σ ω : Type*) := ρ → σ → Option (ω × σ)

namespace Handler

variable {ρ σ ω : Type*}

/-- Answer the requests in order. -/
def run (h : Handler ρ σ ω) : List ρ → σ → Option (List ω × σ)
  | [], s => some ([], s)
  | r :: rs, s =>
      (h r s).bind fun (o, s') => (run h rs s').map fun (os, s'') => (o :: os, s'')

@[simp] theorem run_nil (h : Handler ρ σ ω) (s : σ) : h.run [] s = some ([], s) := rfl

/-- A run of a request and more requests is one answer and a run. -/
theorem run_cons_eq_some {h : Handler ρ σ ω} {r : ρ} {rs : List ρ} {s s'' : σ} {os : List ω} :
    h.run (r :: rs) s = some (os, s'') ↔
      ∃ o s' os', h r s = some (o, s') ∧ h.run rs s' = some (os', s'') ∧ os = o :: os' := by
  simp only [run, Option.bind_eq_some_iff, Option.map_eq_some_iff, Prod.exists, Prod.mk.injEq]
  constructor
  · rintro ⟨o, s', h1, os', t, h2, rfl, rfl⟩
    exact ⟨o, s', os', h1, h2, rfl⟩
  · rintro ⟨o, s', os', h1, h2, rfl⟩
    exact ⟨o, s', h1, os', s'', h2, rfl, rfl⟩

/-- `P` is kept by every answer to a request that satisfies `ok`. -/
def Preserves (h : Handler ρ σ ω) (ok : ρ → Prop) (P : σ → Prop) : Prop :=
  ∀ r s o s', ok r → P s → h r s = some (o, s') → P s'

/-- Every request that satisfies `ok` is answered in a state that satisfies `P`. -/
def Answers (h : Handler ρ σ ω) (ok : ρ → Prop) (P : σ → Prop) : Prop :=
  ∀ r s, ok r → P s → ∃ o s', h r s = some (o, s')

/-- An invariant holds after every run. -/
theorem run_invariant {h : Handler ρ σ ω} {ok : ρ → Prop} {P : σ → Prop}
    (hp : h.Preserves ok P) :
    ∀ (rs : List ρ) {s s' : σ} {os : List ω}, (∀ r ∈ rs, ok r) → P s →
      h.run rs s = some (os, s') → P s'
  | [], s, s', os, _, hs, hr => by
      cases hr
      exact hs
  | r :: rs, s, s'', os, hok, hs, hr => by
      obtain ⟨o, s', os', h1, h2, -⟩ := run_cons_eq_some.mp hr
      have hs' : P s' := hp r s o s' (hok r (List.mem_cons_self ..)) hs h1
      exact run_invariant hp rs (fun x hx => hok x (List.mem_cons_of_mem _ hx)) hs' h2

/-- With an invariant under which every request is answered, every run ends. -/
theorem run_total {h : Handler ρ σ ω} {ok : ρ → Prop} {P : σ → Prop}
    (hp : h.Preserves ok P) (ha : h.Answers ok P) :
    ∀ (rs : List ρ) {s : σ}, (∀ r ∈ rs, ok r) → P s → ∃ os s', h.run rs s = some (os, s') ∧ P s'
  | [], s, _, hs => ⟨[], s, rfl, hs⟩
  | r :: rs, s, hok, hs => by
      have hr : ok r := hok r (List.mem_cons_self ..)
      obtain ⟨o, s', h1⟩ := ha r s hr hs
      obtain ⟨os, s'', h2, hs''⟩ :=
        run_total hp ha rs (fun x hx => hok x (List.mem_cons_of_mem _ hx)) (hp r s o s' hr hs h1)
      exact ⟨o :: os, s'', run_cons_eq_some.mpr ⟨o, s', os, h1, h2, rfl⟩, hs''⟩

/-! ## Runs that never fail -/

/-- Every request meets a condition in the state in which it is answered. -/
def Along (h : Handler ρ σ ω) (meets : ρ → σ → Prop) : List ρ → σ → Prop
  | [], _ => True
  | r :: rs, s => meets r s ∧ ∀ o s', h r s = some (o, s') → Along h meets rs s'

theorem Along.of_append {h : Handler ρ σ ω} {meets : ρ → σ → Prop} :
    ∀ {rs rs' : List ρ} {s : σ}, h.Along meets (rs ++ rs') s → h.Along meets rs s
  | [], _, _, _ => trivial
  | _ :: _, _, _, ⟨hr, hrest⟩ => ⟨hr, fun o s' h1 => of_append (hrest o s' h1)⟩

/-- If under an invariant a request is answered exactly when it meets the condition, then a
run does not fail exactly when all its requests meet it. -/
theorem run_iff_along {h : Handler ρ σ ω} {meets : ρ → σ → Prop} {P : σ → Prop}
    (hp : h.Preserves (fun _ => True) P)
    (hmeets : ∀ r s, P s → ((∃ o s', h r s = some (o, s')) ↔ meets r s)) :
    ∀ (rs : List ρ) {s : σ}, P s → ((∃ os s', h.run rs s = some (os, s')) ↔ h.Along meets rs s)
  | [], s, _ => by simp [Along]
  | r :: rs, s, hs => by
      rw [Along, ← hmeets r s hs]
      constructor
      · intro hrun
        obtain ⟨os, s'', hrun⟩ := hrun
        obtain ⟨o, s', os', h1, h2, -⟩ := run_cons_eq_some.mp hrun
        refine ⟨⟨o, s', h1⟩, fun o' t h1' => ?_⟩
        obtain ⟨rfl, rfl⟩ := Prod.mk.inj (Option.some.inj (h1.symm.trans h1'))
        exact (run_iff_along hp hmeets rs (hp r s o s' trivial hs h1)).mp ⟨os', s'', h2⟩
      · intro halong
        obtain ⟨⟨o, s', h1⟩, hrest⟩ := halong
        have hs' := hp r s o s' trivial hs h1
        obtain ⟨os', s'', h2⟩ := (run_iff_along hp hmeets rs hs').mpr (hrest o s' h1)
        exact ⟨o :: os', s'', run_cons_eq_some.mpr ⟨o, s', os', h1, h2, rfl⟩⟩

/-! ## Paths -/

/-- An answered request, with the states before and after it. -/
structure Step (ρ σ ω : Type*) where
  state : σ
  request : ρ
  output : ω
  next : σ

/-- A list of steps, each of which starts where the one before it ended. -/
inductive Path (h : Handler ρ σ ω) : σ → List (Step ρ σ ω) → Prop
  | nil {s : σ} : Path h s []
  | cons {r : ρ} {s s' : σ} {o : ω} {steps : List (Step ρ σ ω)} :
      h r s = some (o, s') → Path h s' steps → Path h s (⟨s, r, o, s'⟩ :: steps)

namespace Path

variable {h : Handler ρ σ ω}

/-- Every step of a path is an answer. -/
theorem answer {s : σ} {steps : List (Step ρ σ ω)} (hp : Path h s steps) {x : Step ρ σ ω}
    (hx : x ∈ steps) : h x.request x.state = some (x.output, x.next) := by
  induction hp with
  | nil => cases hx
  | cons hstep _ ih =>
      cases List.mem_cons.mp hx with
      | inl heq => exact heq ▸ hstep
      | inr hmem => exact ih hmem

/-- The rest of a path starts where its step starts. -/
theorem suffix {s : σ} : ∀ {before after : List (Step ρ σ ω)} {x : Step ρ σ ω},
    Path h s (before ++ x :: after) → Path h x.next after
  | [], _, _, hp => by
      cases hp with
      | cons _ hrest => exact hrest
  | _ :: _, _, _, hp => by
      cases hp with
      | cons _ hrest => exact suffix hrest

/-- A step starts in the state in which the one before it ended. -/
theorem state_eq_next {s : σ} {before after : List (Step ρ σ ω)} {x y : Step ρ σ ω}
    (hp : Path h s (before ++ x :: y :: after)) : y.state = x.next := by
  cases hp.suffix with
  | cons _ _ => rfl

/-- A property that the steps of a path keep holds where a later step starts. -/
theorem invariant_between {s : σ} (P : σ → Prop) :
    ∀ {between after : List (Step ρ σ ω)} {x : Step ρ σ ω},
      Path h s (between ++ x :: after) → P s →
        (∀ y ∈ between, P y.state → P y.next) → P x.state
  | [], _, _, hp, hs, _ => by
      cases hp with
      | cons _ _ => exact hs
  | y :: between, _, _, hp, hs, hkeep => by
      cases hp with
      | cons _ hrest =>
          exact invariant_between P hrest (hkeep _ (List.mem_cons_self ..) hs)
            fun z hz => hkeep z (List.mem_cons_of_mem _ hz)

/-- A property of the past and the state that every step keeps holds where a later
step starts. -/
theorem invariant_past {s : σ} (P : List (Step ρ σ ω) → σ → Prop) :
    ∀ {past between after : List (Step ρ σ ω)} {x : Step ρ σ ω},
      Path h s (between ++ x :: after) → P past s →
        (∀ past', ∀ y ∈ between, P past' y.state → P (past' ++ [y]) y.next) →
          P (past ++ between) x.state
  | past, [], _, _, hp, hs, _ => by
      cases hp with
      | cons _ _ =>
          rw [List.append_nil]
          exact hs
  | past, y :: between, _, _, hp, hs, hkeep => by
      cases hp with
      | cons _ hrest =>
          have hnext := hkeep past _ (List.mem_cons_self ..) hs
          have hx := invariant_past P hrest hnext
            fun past' z hz => hkeep past' z (List.mem_cons_of_mem _ hz)
          rwa [List.append_assoc] at hx

/-- A property that every step of a path keeps holds before and after every step. -/
theorem invariant {s : σ} {steps : List (Step ρ σ ω)} (P : σ → Prop) (hp : Path h s steps)
    (hs : P s) (hkeep : ∀ x ∈ steps, P x.state → P x.next) :
    ∀ x ∈ steps, P x.state ∧ P x.next := by
  induction hp with
  | nil => exact fun x hx => by cases hx
  | cons hstep hrest ih =>
      have hnext := hkeep _ (List.mem_cons_self ..) hs
      intro x hx
      cases List.mem_cons.mp hx with
      | inl heq =>
          subst heq
          exact ⟨hs, hnext⟩
      | inr hmem => exact ih hnext (fun y hy => hkeep y (List.mem_cons_of_mem _ hy)) x hmem

end Path

end Handler

end Hachee.Foundation
