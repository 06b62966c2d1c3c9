import Hachee.Foundation.Arborescence
import Mathlib.Data.List.Nodup

/-!
# In-order walks

A vertex `v` of a directed graph has its children on two sides, `left v` and
`right v`.  The in-order walk from `v` lists what is below the left children, then
`v`, then what is below the right children.  As a program it needs fuel, and it has
a result whenever the graph has no cycle (`exists_walk`).

Over a tree the walk lists every vertex once.  Take a set that contains the parent
of each of its vertices, and look at the vertices of the set in the order of the
walk.  Unless there is only one, two neighbours among them are a parent and a child
that has no child in the set itself (`exists_adjacent`).
-/

namespace Hachee.Foundation.InOrder

open Arborescence Relation

/-! ## Concatenated results -/

section Gather

variable {α β : Type*} {f : α → Option (List β)}

/-- The results of a function for the elements of a list, one after another. -/
def gather (f : α → Option (List β)) : List α → Option (List β)
  | [] => some []
  | x :: xs => do
      let l ← f x
      let m ← gather f xs
      some (l ++ m)

theorem gather_cons_eq_some {x : α} {xs : List α} {n : List β} :
    gather f (x :: xs) = some n ↔ ∃ l m, f x = some l ∧ gather f xs = some m ∧ l ++ m = n := by
  simp [gather, Option.bind_eq_some_iff]

/-- A result is one of the results for an element. -/
theorem mem_gather : ∀ {xs : List α} {n : List β}, gather f xs = some n →
    ∀ {b : β}, b ∈ n ↔ ∃ x ∈ xs, ∃ l, f x = some l ∧ b ∈ l
  | [], n, h, b => by
      cases h
      simp
  | x :: xs, n, h, b => by
      obtain ⟨l, m, hl, hm, rfl⟩ := gather_cons_eq_some.mp h
      simp [mem_gather hm, hl]

/-- There is a result for every element. -/
theorem exists_of_gather : ∀ {xs : List α} {n : List β}, gather f xs = some n →
    ∀ {x : α}, x ∈ xs → ∃ l, f x = some l
  | [], _, _, _, hx => by cases hx
  | y :: xs, n, h, x, hx => by
      obtain ⟨l, m, hl, hm, -⟩ := gather_cons_eq_some.mp h
      cases List.mem_cons.mp hx with
      | inl heq => exact ⟨l, heq ▸ hl⟩
      | inr hmem => exact exists_of_gather hm hmem

/-- The results for the parts of a list. -/
theorem gather_append : ∀ {xs ys : List α} {n : List β}, gather f (xs ++ ys) = some n →
    ∃ l m, gather f xs = some l ∧ gather f ys = some m ∧ n = l ++ m
  | [], ys, n, h => ⟨[], n, rfl, h, rfl⟩
  | x :: xs, ys, n, h => by
      obtain ⟨l, m, hl, hm, rfl⟩ := gather_cons_eq_some.mp h
      obtain ⟨l', m', hl', hm', rfl⟩ := gather_append hm
      exact ⟨l ++ l', m', gather_cons_eq_some.mpr ⟨l, l', hl, hl', rfl⟩, hm',
        (List.append_assoc ..).symm⟩

/-- The results for a list are those for its parts. -/
theorem gather_append_eq_some : ∀ {xs ys : List α} {l m : List β}, gather f xs = some l →
    gather f ys = some m → gather f (xs ++ ys) = some (l ++ m)
  | [], ys, l, m, hl, hm => by
      cases hl
      exact hm
  | x :: xs, ys, l, m, hl, hm => by
      obtain ⟨k, k', hk, hk', rfl⟩ := gather_cons_eq_some.mp hl
      exact gather_cons_eq_some.mpr
        ⟨k, k' ++ m, hk, gather_append_eq_some hk' hm, (List.append_assoc ..).symm⟩

/-- The results of a function that computes more. -/
theorem gather_map {γ : Type*} {f' : α → Option (List γ)} (g : γ → β) :
    ∀ {xs : List α}, (∀ x ∈ xs, (f' x).map (List.map g) = f x) →
      (gather f' xs).map (List.map g) = gather f xs
  | [], _ => rfl
  | x :: xs, h => by
      have hx := h x (List.mem_cons_self ..)
      have hxs := gather_map g fun y hy => h y (List.mem_cons_of_mem x hy)
      rw [gather, gather, ← hx, ← hxs]
      cases f' x with
      | none => rfl
      | some l =>
          cases gather f' xs with
          | none => rfl
          | some m => simp

/-- Results that have no elements in common have no element twice. -/
theorem nodup_gather : ∀ {xs : List α} {n : List β}, gather f xs = some n → xs.Nodup →
    (∀ x ∈ xs, ∀ l, f x = some l → l.Nodup) →
    (∀ x ∈ xs, ∀ y ∈ xs, x ≠ y → ∀ l m, f x = some l → f y = some m → l.Disjoint m) → n.Nodup
  | [], n, h, _, _, _ => by
      cases h
      exact List.nodup_nil
  | x :: xs, n, h, hxs, hnodup, hdisjoint => by
      obtain ⟨l, m, hl, hm, rfl⟩ := gather_cons_eq_some.mp h
      obtain ⟨hx, hrest⟩ := List.nodup_cons.mp hxs
      refine List.Nodup.append (hnodup x (List.mem_cons_self ..) l hl) ?_ ?_
      · exact nodup_gather hm hrest (fun y hy => hnodup y (List.mem_cons_of_mem x hy))
          fun y hy z hz => hdisjoint y (List.mem_cons_of_mem x hy) z (List.mem_cons_of_mem x hz)
      · intro b hbl hbm
        obtain ⟨y, hy, k, hk, hbk⟩ := (mem_gather hm).mp hbm
        have hne : x ≠ y := by
          rintro rfl
          exact hx hy
        exact hdisjoint x (List.mem_cons_self ..) y (List.mem_cons_of_mem x hy) hne l k hl hk
          hbl hbk

/-- With enough fuel for every element there is enough for the list. -/
theorem exists_gather {f : Nat → α → Option (List β)} : ∀ {xs : List α},
    (∀ x ∈ xs, ∃ n l, ∀ fuel, n ≤ fuel → f fuel x = some l) →
      ∃ n l, ∀ fuel, n ≤ fuel → gather (f fuel) xs = some l
  | [], _ => ⟨0, [], fun _ _ => rfl⟩
  | x :: xs, h => by
      obtain ⟨n, l, hl⟩ := h x (List.mem_cons_self ..)
      obtain ⟨n', m, hm⟩ := exists_gather fun y hy => h y (List.mem_cons_of_mem x hy)
      refine ⟨max n n', l ++ m, fun fuel hfuel => ?_⟩
      exact gather_cons_eq_some.mpr
        ⟨l, m, hl fuel (le_of_max_le_left hfuel), hm fuel (le_of_max_le_right hfuel), rfl⟩

end Gather

/-! ## Walks -/

section Walk

variable {α : Type*} {left right : α → List α}

/-- What is listed from a vertex, the left children first. -/
def walk (left right : α → List α) : Nat → α → Option (List α)
  | 0, _ => none
  | fuel + 1, v => do
      let l ← gather (walk left right fuel) (left v)
      let r ← gather (walk left right fuel) (right v)
      some (l ++ v :: r)

/-- The edge from a vertex to its child. -/
def Below (left right : α → List α) (u v : α) : Prop := v ∈ left u ∨ v ∈ right u

theorem walk_eq_some {fuel : Nat} {v : α} {n : List α} (h : walk left right fuel v = some n) :
    ∃ fuel' l r, fuel = fuel' + 1 ∧ gather (walk left right fuel') (left v) = some l ∧
      gather (walk left right fuel') (right v) = some r ∧ n = l ++ v :: r := by
  cases fuel with
  | zero => cases h
  | succ fuel =>
      simp only [walk, Option.bind_eq_bind, Option.bind_eq_some_iff, Option.some.injEq] at h
      obtain ⟨l, hl, r, hr, rfl⟩ := h
      exact ⟨fuel, l, r, rfl, hl, hr, rfl⟩

/-- A graph without cycles is walked in finitely many steps. -/
theorem exists_walk (hac : Acyclic (Below left right)) {V : Set α} (hV : V.Finite)
    (closed : ∀ u ∈ V, ∀ v, Below left right u v → v ∈ V) :
    ∀ v ∈ V, ∃ n l, ∀ fuel, n ≤ fuel → walk left right fuel v = some l := by
  refine hac.flip.induction_on hV ?_
  intro v hv ih
  obtain ⟨n, l, hl⟩ : ∃ n l, ∀ fuel, n ≤ fuel →
      gather (walk left right fuel) (left v) = some l :=
    exists_gather fun c hc => ih c (closed v hv c (Or.inl hc)) (Or.inl hc)
  obtain ⟨n', r, hr⟩ : ∃ n r, ∀ fuel, n ≤ fuel →
      gather (walk left right fuel) (right v) = some r :=
    exists_gather fun c hc => ih c (closed v hv c (Or.inr hc)) (Or.inr hc)
  refine ⟨max n n' + 1, l ++ v :: r, fun fuel hfuel => ?_⟩
  cases fuel with
  | zero => omega
  | succ fuel =>
      have hmax : max n n' ≤ fuel := by omega
      rw [walk, hl fuel (le_of_max_le_left hmax), hr fuel (le_of_max_le_right hmax)]
      rfl

/-- The walk lists what can be reached. -/
theorem mem_walk : ∀ {fuel : Nat} {v : α} {n : List α}, walk left right fuel v = some n →
    ∀ {x : α}, x ∈ n ↔ ReflTransGen (Below left right) v x := by
  intro fuel
  induction fuel with
  | zero =>
      intro v n h
      cases h
  | succ fuel ih =>
      intro v n h x
      obtain ⟨_, l, r, hfuel, hl, hr, rfl⟩ := walk_eq_some h
      cases hfuel
      rw [List.mem_append, List.mem_cons, mem_gather hl, mem_gather hr]
      constructor
      · rintro (⟨c, hc, m, hm, hx⟩ | rfl | ⟨c, hc, m, hm, hx⟩)
        · exact ReflTransGen.head (Or.inl hc) ((ih hm).mp hx)
        · exact ReflTransGen.refl
        · exact ReflTransGen.head (Or.inr hc) ((ih hm).mp hx)
      · intro hpath
        cases hpath.cases_head with
        | inl heq => exact Or.inr (Or.inl heq.symm)
        | inr hfirst =>
            obtain ⟨c, hc, hpath⟩ := hfirst
            cases hc with
            | inl hc =>
                obtain ⟨m, hm⟩ := exists_of_gather hl hc
                exact Or.inl ⟨c, hc, m, hm, (ih hm).mpr hpath⟩
            | inr hc =>
                obtain ⟨m, hm⟩ := exists_of_gather hr hc
                exact Or.inr (Or.inr ⟨c, hc, m, hm, (ih hm).mpr hpath⟩)

/-- Over a tree, no vertex is listed twice. -/
theorem nodup_walk (hac : Acyclic (Below left right))
    (unique : ∀ u u' v, Below left right u v → Below left right u' v → u = u')
    (distinct : ∀ v, (left v ++ right v).Nodup) :
    ∀ {fuel : Nat} {v : α} {n : List α}, walk left right fuel v = some n → n.Nodup := by
  intro fuel
  induction fuel with
  | zero =>
      intro v n h
      cases h
  | succ fuel ih =>
      intro v n h
      obtain ⟨_, l, r, hfuel, hl, hr, rfl⟩ := walk_eq_some h
      cases hfuel
      obtain ⟨hleft, hright, hsides⟩ := List.nodup_append.mp (distinct v)
      have hbelow : ∀ c c' m m', Below left right v c → Below left right v c' → c ≠ c' →
          walk left right fuel c = some m → walk left right fuel c' = some m' →
          m.Disjoint m' := by
        intro c c' m m' hc hc' hne hm hm' x hx hx'
        exact hac.disjoint_of_parent unique hc hc' hne ((mem_walk hm).mp hx) ((mem_walk hm').mp hx')
      have hself : ∀ c m, Below left right v c → walk left right fuel c = some m → v ∉ m :=
        fun c m hc hm hv => hac v (TransGen.head' hc ((mem_walk hm).mp hv))
      refine List.nodup_append.mpr ⟨?_, List.nodup_cons.mpr ⟨?_, ?_⟩, ?_⟩
      · exact nodup_gather hl hleft (fun c _ m hm => ih hm) fun c hc c' hc' hne m m' hm hm' =>
          hbelow c c' m m' (Or.inl hc) (Or.inl hc') hne hm hm'
      · intro hv
        obtain ⟨c, hc, m, hm, hv⟩ := (mem_gather hr).mp hv
        exact hself c m (Or.inr hc) hm hv
      · exact nodup_gather hr hright (fun c _ m hm => ih hm) fun c hc c' hc' hne m m' hm hm' =>
          hbelow c c' m m' (Or.inr hc) (Or.inr hc') hne hm hm'
      · rintro x hx _ hx' rfl
        obtain ⟨c, hc, m, hm, hx⟩ := (mem_gather hl).mp hx
        cases List.mem_cons.mp hx' with
        | inl heq => exact hself c m (Or.inl hc) hm (heq ▸ hx)
        | inr hx' =>
            obtain ⟨c', hc', m', hm', hx'⟩ := (mem_gather hr).mp hx'
            exact hbelow c c' m m' (Or.inl hc) (Or.inr hc') (hsides c hc c' hc') hm hm' hx hx'

/-! ## Neighbours -/

variable {R : α → Prop} [DecidablePred R]

/-- The first element of a list that satisfies `R`. -/
theorem exists_first_of_mem : ∀ {xs : List α}, (∃ x ∈ xs, R x) →
    ∃ ys x zs, xs = ys ++ x :: zs ∧ R x ∧ ∀ y ∈ ys, ¬R y
  | [], h => by
      obtain ⟨x, hx, -⟩ := h
      cases hx
  | x :: xs, h => by
      by_cases hx : R x
      · exact ⟨[], x, xs, rfl, hx, fun _ hy => by cases hy⟩
      · have hrest : ∃ y ∈ xs, R y := by
          obtain ⟨y, hy, hR⟩ := h
          cases List.mem_cons.mp hy with
          | inl heq => exact absurd (heq ▸ hR) hx
          | inr hmem => exact ⟨y, hmem, hR⟩
        obtain ⟨ys, y, zs, rfl, hR, hys⟩ := exists_first_of_mem hrest
        refine ⟨x :: ys, y, zs, rfl, hR, fun z hz => ?_⟩
        cases List.mem_cons.mp hz with
        | inl heq => exact heq ▸ hx
        | inr hmem => exact hys z hmem

/-- The last element of a list that satisfies `R`. -/
theorem exists_last_of_mem {xs : List α} (h : ∃ x ∈ xs, R x) :
    ∃ ys x zs, xs = ys ++ x :: zs ∧ R x ∧ ∀ z ∈ zs, ¬R z := by
  obtain ⟨x, hx, hR⟩ := h
  obtain ⟨ys, y, zs, hsplit, hRy, hys⟩ := exists_first_of_mem ⟨x, List.mem_reverse.mpr hx, hR⟩
  refine ⟨zs.reverse, y, ys.reverse, ?_, hRy, fun z hz => hys z (List.mem_reverse.mp hz)⟩
  rw [← List.reverse_reverse xs, hsplit]
  simp

/-- `x` and `y` are a parent and a child that has no child in `R`. -/
def Reducible (left right : α → List α) (R : α → Prop) (x y : α) : Prop :=
  Below left right y x ∧ (∀ c, Below left right x c → ¬R c) ∨
    Below left right x y ∧ ∀ c, Below left right y c → ¬R c

/-- Two neighbours in the list are such a pair. -/
def HasReducible (left right : α → List α) (R : α → Prop) (n : List α) : Prop :=
  ∃ pre x y post, n = pre ++ x :: y :: post ∧ Reducible left right R x y

omit [DecidablePred R] in
theorem HasReducible.append {n : List α} (h : HasReducible left right R n) (l r : List α) :
    HasReducible left right R (l ++ n ++ r) := by
  obtain ⟨pre, x, y, post, rfl, hxy⟩ := h
  exact ⟨l ++ pre, x, y, post ++ r, by simp, hxy⟩

/-- Nothing of `R` is listed from vertices that are not in `R`. -/
theorem filter_gather_eq_nil (up : ∀ u v, Below left right u v → R v → R u) {fuel : Nat}
    {xs n : List α} (h : gather (walk left right fuel) xs = some n) (hxs : ∀ x ∈ xs, ¬R x) :
    n.filter R = [] := by
  have hpath : ∀ u v, ReflTransGen (Below left right) u v → R v → R u := by
    intro u v huv hv
    induction huv with
    | refl => exact hv
    | tail _ hr ih => exact ih (up _ _ hr hv)
  refine List.filter_eq_nil_iff.mpr fun b hb hR => ?_
  obtain ⟨x, hx, m, hm, hbm⟩ := (mem_gather h).mp hb
  exact hxs x hx (hpath x b ((mem_walk hm).mp hbm) (of_decide_eq_true hR))

/-- In the order of the walk, a set that contains the parent of each of its
vertices is one vertex only, or has a reducible pair of neighbours. -/
theorem exists_adjacent (up : ∀ u v, Below left right u v → R v → R u) :
    ∀ {fuel : Nat} {v : α} {n : List α}, walk left right fuel v = some n → R v →
      n.filter R = [v] ∧ (∀ c, Below left right v c → ¬R c) ∨
        HasReducible left right R (n.filter R) := by
  intro fuel
  induction fuel with
  | zero =>
      intro v n h
      cases h
  | succ fuel ih =>
      intro v n h hv
      obtain ⟨_, l, r, hfuel, hl, hr, rfl⟩ := walk_eq_some h
      cases hfuel
      have hfilter : (l ++ v :: r).filter R = l.filter R ++ v :: r.filter R := by
        rw [List.filter_append, List.filter_cons, if_pos (decide_eq_true hv)]
      rw [hfilter]
      by_cases hleft : ∃ c ∈ left v, R c
      · obtain ⟨ys, c, zs, hsplit, hc, hzs⟩ := exists_last_of_mem hleft
        rw [hsplit] at hl
        obtain ⟨l₁, _, -, hrest, rfl⟩ := gather_append hl
        obtain ⟨m, l₂, hm, hl₂, rfl⟩ := gather_cons_eq_some.mp hrest
        have hcv : Below left right v c := Or.inl (by rw [hsplit]; simp)
        rw [List.filter_append, List.filter_append, filter_gather_eq_nil up hl₂ hzs,
          List.append_nil]
        refine Or.inr ?_
        cases ih hm hc with
        | inl honly =>
            rw [honly.1]
            exact ⟨l₁.filter R, c, v, r.filter R, by simp, Or.inl ⟨hcv, honly.2⟩⟩
        | inr hpair => exact hpair.append (l₁.filter R) (v :: r.filter R)
      · have hnil : l.filter R = [] :=
          filter_gather_eq_nil up hl fun c hc hR => hleft ⟨c, hc, hR⟩
        rw [hnil, List.nil_append]
        by_cases hright : ∃ c ∈ right v, R c
        · obtain ⟨ys, c, zs, hsplit, hc, hys⟩ := exists_first_of_mem hright
          rw [hsplit] at hr
          obtain ⟨r₁, _, hr₁, hrest, rfl⟩ := gather_append hr
          obtain ⟨m, r₂, hm, -, rfl⟩ := gather_cons_eq_some.mp hrest
          have hcv : Below left right v c := Or.inr (by rw [hsplit]; simp)
          rw [List.filter_append, List.filter_append, filter_gather_eq_nil up hr₁ hys,
            List.nil_append]
          refine Or.inr ?_
          cases ih hm hc with
          | inl honly =>
              rw [honly.1]
              exact ⟨[], v, c, r₂.filter R, by simp, Or.inr ⟨hcv, honly.2⟩⟩
          | inr hpair => exact hpair.append [v] (r₂.filter R)
        · rw [filter_gather_eq_nil up hr fun c hc hR => hright ⟨c, hc, hR⟩]
          refine Or.inl ⟨rfl, fun c hc hR => ?_⟩
          cases hc with
          | inl hc => exact hleft ⟨c, hc, hR⟩
          | inr hc => exact hright ⟨c, hc, hR⟩

end Walk

end Hachee.Foundation.InOrder
