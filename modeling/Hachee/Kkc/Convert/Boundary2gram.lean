import Hachee.Kkc.Convert.Best2gram

/-!
# The bigram conversion with a known boundary

When the first boundary is known, the table has nodes for the first word and for the
substrings behind it.  The boundary is moved to 7 if it is greater, since no entries can
be counted on for longer words.  The paths through the table are the segmentations whose
first word ends at the boundary (`boundedSteps_iff`), and again every step can be reached
(`connected_bounded`).
-/

namespace Hachee.Kkc.Convert.Viterbi2gram

open Lisp Foundation

variable {ε G : Type} [AddCommGroup G] [LinearOrder G] {listEntriesFn : Str → List ε}
  {pronunciation : Str}

/-- The entries are chosen for a segmentation whose first word has the length. -/
def FirstWordSegmentation (listEntriesFn : Str → List ε) (pronunciation : Str) (boundary : Nat)
    (entries : List ε) : Prop :=
  ∃ first rest, entries = first :: rest ∧ first ∈ listEntriesFn (pronunciation.take boundary) ∧
    Segmentation listEntriesFn (pronunciation.drop boundary) rest

theorem clipBoundaryIndex_eq (boundary : Nat) :
    clipBoundaryIndex (some boundary) = some (min boundary 7) := by
  by_cases h : 8 ≤ boundary
  · simp only [clipBoundaryIndex, Option.map_some, if_pos h, Option.some.injEq]
    omega
  · simp only [clipBoundaryIndex, Option.map_some, if_neg h, Option.some.injEq]
    omega

section Bounded

variable {boundary : Nat}

theorem boundedStep_iff {i j : Nat} {entry : ε} :
    boundedStep listEntriesFn (some boundary) pronunciation i j entry ↔
      substringStep listEntriesFn pronunciation i j entry ∧
        (i = 0 ∧ j = boundary ∨ boundary ≤ i) := by
  simp [boundedStep, boundaryP]

/-- The steps behind the boundary are those of the rest of the pronunciation. -/
theorem substringStep_drop {i j : Nat} {entry : ε} (h : boundary ≤ i) :
    substringStep listEntriesFn pronunciation i j entry ↔
      substringStep listEntriesFn (pronunciation.drop boundary) (i - boundary) (j - boundary)
        entry := by
  rw [substringStep, substringStep, List.length_drop]
  by_cases hij : i < j
  · have hpart : ((pronunciation.drop boundary).take (j - boundary)).drop (i - boundary) =
        (pronunciation.take j).drop i := by
      rw [List.take_drop, List.drop_drop, Nat.add_sub_cancel' h,
        Nat.add_sub_cancel' (h.trans hij.le)]
    rw [hpart]
    exact and_congr (by omega) (and_congr (by omega) Iff.rfl)
  · exact iff_of_false (fun hstep => hij hstep.1) fun hstep => hij (by have := hstep.1; omega)

/-- The first word, and steps behind it. -/
theorem steps_of_first (hpos : 1 ≤ boundary) (hle : boundary ≤ pronunciation.length) {first : ε}
    (hfirst : first ∈ listEntriesFn (pronunciation.take boundary)) {k : Nat} {rest : List ε}
    (hrest : Steps (substringStep listEntriesFn (pronunciation.drop boundary)) k rest) :
    Steps (boundedStep listEntriesFn (some boundary) pronunciation) (boundary + k)
      (first :: rest) := by
  induction hrest with
  | nil =>
      have hstep : boundedStep listEntriesFn (some boundary) pronunciation 0 boundary first :=
        boundedStep_iff.mpr ⟨⟨hpos, hle, hfirst⟩, Or.inl ⟨rfl, rfl⟩⟩
      exact Steps.nil.snoc hstep
  | @snoc i j entries entry _ hstep ih =>
      refine ih.snoc (boundedStep_iff.mpr ⟨?_, Or.inr (Nat.le_add_right _ _)⟩)
      rw [substringStep_drop (Nat.le_add_right _ _), Nat.add_sub_cancel_left,
        Nat.add_sub_cancel_left]
      exact hstep

/-- Behind the begin there is a first word that ends at the boundary. -/
theorem first_of_steps (hpos : 1 ≤ boundary) {j : Nat} {entries : List ε}
    (h : Steps (boundedStep listEntriesFn (some boundary) pronunciation) j entries) :
    j = 0 ∨ boundary ≤ j ∧ ∃ first rest, entries = first :: rest ∧
      first ∈ listEntriesFn (pronunciation.take boundary) ∧
      Steps (substringStep listEntriesFn (pronunciation.drop boundary)) (j - boundary) rest := by
  induction h with
  | nil => exact Or.inl rfl
  | @snoc i j entries entry hsteps hstep ih =>
      obtain ⟨hsub, ⟨rfl, rfl⟩ | hbehind⟩ := boundedStep_iff.mp hstep
      · cases hsteps with
        | nil =>
            refine Or.inr ⟨le_rfl, entry, [], rfl, hsub.2.2, ?_⟩
            rw [Nat.sub_self]
            exact .nil
        | snoc _ hback => exact absurd hback.1.1 (Nat.not_lt_zero _)
      · obtain rfl | ⟨-, first, rest, rfl, hfirst, hrest⟩ := ih
        · omega
        · refine Or.inr ⟨hbehind.trans hsub.1.le, first, rest ++ [entry], rfl, hfirst, ?_⟩
          exact hrest.snoc ((substringStep_drop hbehind).mp hsub)

/-- The steps over the table are the segmentations whose first word ends at the boundary. -/
theorem boundedSteps_iff (hpos : 1 ≤ boundary) (hle : boundary ≤ pronunciation.length)
    {entries : List ε} :
    Steps (boundedStep listEntriesFn (some boundary) pronunciation) pronunciation.length entries ↔
      FirstWordSegmentation listEntriesFn pronunciation boundary entries := by
  have hlength : (pronunciation.drop boundary).length = pronunciation.length - boundary :=
    List.length_drop
  constructor
  · intro h
    obtain hzero | ⟨-, first, rest, heq, hfirst, hrest⟩ := first_of_steps hpos h
    · omega
    · exact ⟨first, rest, heq, hfirst, Segmentation.steps_length_iff.mp (hlength ▸ hrest)⟩
  · rintro ⟨first, rest, rfl, hfirst, hrest⟩
    have hsteps := steps_of_first hpos hle hfirst (Segmentation.steps_length_iff.mpr hrest)
    rwa [hlength, Nat.add_sub_cancel' hle] at hsteps

/-- The boundary is reached by the first word, and what is behind it by single characters. -/
theorem connected_bounded (hentries : HasEntries listEntriesFn pronunciation)
    (hpos : 1 ≤ boundary) (hseven : boundary ≤ 7) (hle : boundary ≤ pronunciation.length) :
    Connected (boundedStep listEntriesFn (some boundary) pronunciation) pronunciation.length := by
  have hreach : ∀ i, boundary ≤ i → i ≤ pronunciation.length →
      ∃ i' entry, boundedStep listEntriesFn (some boundary) pronunciation i' i entry := by
    intro i hi hil
    by_cases heq : i = boundary
    · subst heq
      have hword : (pronunciation.take i).length = i := by
        rw [List.length_take, Nat.min_eq_left hle]
      obtain ⟨entry, hentry⟩ := List.exists_mem_of_ne_nil _ <|
        hentries (pronunciation.take i) (List.take_prefix _ _).isInfix (by omega) (by omega)
      exact ⟨0, entry, boundedStep_iff.mpr ⟨⟨hpos, hle, hentry⟩, Or.inl ⟨rfl, rfl⟩⟩⟩
    · obtain ⟨k, rfl⟩ : ∃ k, i = k + 1 := ⟨i - 1, by omega⟩
      obtain ⟨entry, hentry⟩ := hentries.exists_entry hil
      exact ⟨k, entry, boundedStep_iff.mpr ⟨⟨Nat.lt_succ_self k, hil, hentry⟩, Or.inr (by omega)⟩⟩
  refine ⟨fun hstep => ⟨hstep.1.1, hstep.1.2.1⟩, fun hstep => ?_, Or.inr (hreach _ hle le_rfl)⟩
  obtain ⟨hsub, ⟨hzero, -⟩ | hbehind⟩ := boundedStep_iff.mp hstep
  · exact Or.inl hzero
  · exact Or.inr (hreach _ hbehind (hsub.1.le.trans hsub.2.1))

end Bounded

/-- With a boundary, the conversion is a segmentation with the maximal score among those whose
first word ends at the boundary, or after 7 characters, and no error is signalled. -/
theorem execute_best_bounded [IsOrderedAddMonoid G] (scoreFn : ε → ε → G)
    (listEntriesFn : Str → List ε) (beginEntry endEntry : ε) (pronunciation : Str)
    (boundary : Nat) (hpos : 1 ≤ boundary) (hle : boundary ≤ pronunciation.length)
    (hentries : HasEntries listEntriesFn pronunciation) :
    ∃ entries node lattice,
      execute pronunciation beginEntry endEntry scoreFn listEntriesFn (some boundary) =
        some (entries, node, lattice) ∧
      FirstWordSegmentation listEntriesFn pronunciation (min boundary 7) entries ∧
      node.scoreSoFar = some (pathScore scoreFn beginEntry (entries ++ [endEntry])) ∧
      ∀ entries', FirstWordSegmentation listEntriesFn pronunciation (min boundary 7) entries' →
        pathScore scoreFn beginEntry (entries' ++ [endEntry]) ≤
          pathScore scoreFn beginEntry (entries ++ [endEntry]) := by
  have hclipPos : 1 ≤ min boundary 7 := by omega
  have hclipLe : min boundary 7 ≤ pronunciation.length := by omega
  obtain ⟨lattice, hcreate, hfilled⟩ : ∃ lattice : Lattice (Node ε G), _ :=
    createNodes_filledBy listEntriesFn beginEntry endEntry (some (min boundary 7)) pronunciation
  rw [← clipBoundaryIndex_eq] at hcreate
  obtain ⟨entries, node, table, hexecute, hsteps, hscore, hbest⟩ :=
    execute_steps scoreFn (some boundary) hcreate hfilled
      (connected_bounded hentries hclipPos (Nat.min_le_right _ _) hclipLe)
  refine ⟨entries, node, table, hexecute, (boundedSteps_iff hclipPos hclipLe).mp hsteps, hscore, ?_⟩
  exact fun entries' hentries' => hbest entries' ((boundedSteps_iff hclipPos hclipLe).mpr hentries')

/-- Three characters with the boundary behind the first, and a score that prefers long words. -/
theorem execute_best_bounded_kana :
    let scoreFn : Str → Str → Int := fun entry _ => entry.length * entry.length
    let result := execute ['か', 'な', 'え'] [] [] scoreFn (fun subPron => [subPron]) (some 1)
    result.map Prod.fst = some [['か'], ['な', 'え']] ∧
      ∃ entries node lattice, result = some (entries, node, lattice) ∧
        FirstWordSegmentation (fun subPron => [subPron]) ['か', 'な', 'え'] (min 1 7) entries ∧
        node.scoreSoFar = some (pathScore scoreFn [] (entries ++ [[]])) ∧
        ∀ entries', FirstWordSegmentation (fun subPron => [subPron]) ['か', 'な', 'え'] (min 1 7)
            entries' →
          pathScore scoreFn [] (entries' ++ [[]]) ≤ pathScore scoreFn [] (entries ++ [[]]) := by
  intro scoreFn result
  have hentries : HasEntries (fun subPron : Str => [subPron]) ['か', 'な', 'え'] := fun _ _ _ _ =>
    List.cons_ne_nil _ _
  exact ⟨rfl, execute_best_bounded scoreFn _ [] [] ['か', 'な', 'え'] 1 le_rfl (by decide) hentries⟩

end Hachee.Kkc.Convert.Viterbi2gram
