import Hachee.Algorithm.BestEdges

/-!
# The scores of the contracted graph

The third loop of `solve` computes, for every current vertex `i` off the cycle, the best
edge from the cycle to `i` and the best edge from `i` into the cycle.  It writes their
scores into the table for the vertex that represents the cycle, and notes their real
ends (`Crosses`).  It writes only there, and in particular nothing that a later turn of
the loop reads (`contract_loop`).
-/

namespace Hachee.Algorithm.ChuLiuEdmonds

open Lisp Foundation Loop

variable {R : Type} [Ring R] [LinearOrder R]

/-! ## One vertex off the cycle -/

/-- The score of the edge from `i` into the cycle at `j`. -/
def arriving (scoreHash : ScoreHash R) (cycleWeight : R) (cost : Vertex → R) (i j : Vertex) :
    Option R :=
  (getScore scoreHash i j).map fun inScore => cycleWeight + inScore + -cost j

omit [LinearOrder R] in
theorem arriving_eq_some {scoreHash : ScoreHash R} {cycleWeight s : R} {cost : Vertex → R}
    {i j : Vertex} : arriving scoreHash cycleWeight cost i j = some s ↔
      ∃ t, getScore scoreHash i j = some t ∧ cycleWeight + t + -cost j = s :=
  Option.map_eq_some_iff

/-- What the loop over the cycle holds, from the two searches that it makes at once. -/
def crossingOf (departure arrival : R × Vertex) : Crossing R :=
  { maxDepartureScore := departure.1, maxArrivalScore := arrival.1,
    realDepartureVertex := departure.2, realArrivalVertex := arrival.2 }

omit [Ring R] in
theorem compareDeparture_eq (scoreHash : ScoreHash R) (i j : Vertex)
    (departure arrival : R × Vertex) :
    compareDeparture scoreHash i (crossingOf departure arrival) j =
      crossingOf (better (fun j => getScore scoreHash j i) departure j) arrival := by
  rw [compareDeparture, better]
  cases getScore scoreHash j i with
  | none => rfl
  | some s =>
      show (if departure.1 < s then _ else _) = crossingOf (if departure.1 < s then _ else _) _
      by_cases hlt : departure.1 < s
      · rw [if_pos hlt, if_pos hlt]
        rfl
      · rw [if_neg hlt, if_neg hlt]

theorem compareArrival_eq {scoreHash : ScoreHash R} {front : List Vertex} {cycleWeight : R}
    {parent : Vertex → Vertex} {cost : Vertex → R} {i j : Vertex}
    (hfront : aref front j = some (parent j))
    (hcost : getScore scoreHash (parent j) j = some (cost j)) (departure arrival : R × Vertex) :
    compareArrival scoreHash front cycleWeight i (crossingOf departure arrival) j =
      some (crossingOf departure (better (arriving scoreHash cycleWeight cost i) arrival j)) := by
  rw [compareArrival, better, arriving, hfront]
  cases getScore scoreHash i j with
  | none => rfl
  | some s =>
      simp only [Option.bind_eq_bind, Option.bind_some, Option.map_some, hcost]
      show some (if arrival.1 < cycleWeight + s + -cost j then _ else _) =
        some (crossingOf _ (if arrival.1 < cycleWeight + s + -cost j then _ else _))
      by_cases hlt : arrival.1 < cycleWeight + s + -cost j
      · rw [if_pos hlt, if_pos hlt]
        rfl
      · rw [if_neg hlt, if_neg hlt]

/-- What the array and the table hold for the edges of the cycle. -/
structure Costs (scoreHash : ScoreHash R) (front cycleVertices : List Vertex)
    (parent : Vertex → Vertex) (cost : Vertex → R) : Prop where
  aref : ∀ j ∈ cycleVertices, aref front j = some (parent j)
  mem : ∀ j ∈ cycleVertices, parent j ∈ cycleVertices
  score : ∀ j ∈ cycleVertices, getScore scoreHash (parent j) j = some (cost j)

variable {front cycleVertices : List Vertex} {parent : Vertex → Vertex} {cost : Vertex → R}
  {cycleWeight : R}

/-- The loop over the cycle makes two searches at once. -/
theorem bestCrossing_eq {scoreHash : ScoreHash R}
    (hcosts : Costs scoreHash front cycleVertices parent cost) (cycleWeight : R) (i : Vertex) :
    bestCrossing scoreHash front cycleWeight cycleVertices i =
      some (crossingOf
        (cycleVertices.foldl (better fun j => getScore scoreHash j i) (-1, -1))
        (cycleVertices.foldl (better (arriving scoreHash cycleWeight cost i)) (-1, -1))) := by
  have hloop : ∀ (js : List Vertex) (departure arrival : R × Vertex),
      (∀ j ∈ js, j ∈ cycleVertices) →
      js.foldlM (fun crossing j => compareArrival scoreHash front cycleWeight i
          (compareDeparture scoreHash i crossing j) j) (crossingOf departure arrival) =
        some (crossingOf (js.foldl (better fun j => getScore scoreHash j i) departure)
          (js.foldl (better (arriving scoreHash cycleWeight cost i)) arrival)) := by
    intro js
    induction js with
    | nil => exact fun _ _ _ => rfl
    | cons j js ih =>
        intro departure arrival hjs
        have hj := hjs j (List.mem_cons_self ..)
        rw [List.foldlM_cons, compareDeparture_eq,
          compareArrival_eq (hcosts.aref j hj) (hcosts.score j hj)]
        exact ih _ _ fun k hk => hjs k (List.mem_cons_of_mem j hk)
  exact hloop cycleVertices (-1, -1) (-1, -1) fun _ hj => hj

/-! ## What is written for a vertex -/

/-- The new scores of the edges between `representing` and `i`, and their real ends,
are those of the best edges between the cycle and `i`. -/
structure Crosses (scoreHash : ScoreHash R) (cycleVertices : List Vertex) (cycleWeight : R)
    (cost : Vertex → R) (representing i : Vertex) (tables : Tables R) : Prop where
  leave : Records (fun j => getScore scoreHash j i) cycleVertices
    (getScore tables.scoreHash representing i) (tables.realDepartureVertices.gethash i)
  enter : Records (arriving scoreHash cycleWeight cost i) cycleVertices
    (getScore tables.scoreHash i representing) (tables.realArrivalVertices.gethash i)

/-- No score between the cycle and `i` is negative. -/
structure Nonneg (scoreHash : ScoreHash R) (cycleVertices : List Vertex) (cycleWeight : R)
    (cost : Vertex → R) (i : Vertex) : Prop where
  leave : ∀ j ∈ cycleVertices, ∀ s, getScore scoreHash j i = some s → 0 ≤ s
  enter : ∀ j ∈ cycleVertices, ∀ s, arriving scoreHash cycleWeight cost i j = some s → 0 ≤ s

section Note

variable {representing i : Vertex} {tables : Tables R} {departure arrival : R × Vertex}

theorem getScore_noteDeparture (u v : Vertex) :
    getScore (noteDeparture representing i (crossingOf departure arrival) tables).scoreHash u v =
      if -1 < departure.1 ∧ u = representing ∧ v = i then some departure.1
      else getScore tables.scoreHash u v := by
  rw [noteDeparture]
  by_cases hlt : -1 < departure.1
  · rw [if_pos (show -1 < (crossingOf departure arrival).maxDepartureScore from hlt)]
    simp only [getScore_setScore, hlt, true_and]
    rfl
  · rw [if_neg (show ¬-1 < (crossingOf departure arrival).maxDepartureScore from hlt),
      if_neg fun h => hlt h.1]

theorem getScore_noteArrival (u v : Vertex) :
    getScore (noteArrival representing i (crossingOf departure arrival) tables).scoreHash u v =
      if -1 < arrival.1 ∧ u = i ∧ v = representing then some arrival.1
      else getScore tables.scoreHash u v := by
  rw [noteArrival]
  by_cases hlt : -1 < arrival.1
  · rw [if_pos (show -1 < (crossingOf departure arrival).maxArrivalScore from hlt)]
    simp only [getScore_setScore, hlt, true_and]
    rfl
  · rw [if_neg (show ¬-1 < (crossingOf departure arrival).maxArrivalScore from hlt),
      if_neg fun h => hlt h.1]

/-- The real departure of `k` after the turn for `i`. -/
theorem departure_note (k : Vertex) :
    (noteArrival representing i (crossingOf departure arrival) (noteDeparture representing i
        (crossingOf departure arrival) tables)).realDepartureVertices.gethash k =
      if -1 < departure.1 ∧ k = i then some departure.2
      else tables.realDepartureVertices.gethash k := by
  have harrival : ∀ t : Tables R,
      (noteArrival representing i (crossingOf departure arrival) t).realDepartureVertices =
        t.realDepartureVertices := by
    intro t
    rw [noteArrival]
    split
    · rfl
    · rfl
  rw [harrival, noteDeparture]
  by_cases hlt : -1 < departure.1
  · rw [if_pos (show -1 < (crossingOf departure arrival).maxDepartureScore from hlt)]
    simp only [HashTable.gethash_puthash, hlt, true_and]
    rfl
  · rw [if_neg (show ¬-1 < (crossingOf departure arrival).maxDepartureScore from hlt),
      if_neg fun h => hlt h.1]

/-- The real arrival of `k` after the turn for `i`. -/
theorem arrival_note (k : Vertex) :
    (noteArrival representing i (crossingOf departure arrival) (noteDeparture representing i
        (crossingOf departure arrival) tables)).realArrivalVertices.gethash k =
      if -1 < arrival.1 ∧ k = i then some arrival.2
      else tables.realArrivalVertices.gethash k := by
  have hdeparture : ∀ t : Tables R,
      (noteDeparture representing i (crossingOf departure arrival) t).realArrivalVertices =
        t.realArrivalVertices := by
    intro t
    rw [noteDeparture]
    split
    · rfl
    · rfl
  rw [← hdeparture tables, noteArrival]
  by_cases hlt : -1 < arrival.1
  · rw [if_pos (show -1 < (crossingOf departure arrival).maxArrivalScore from hlt)]
    simp only [HashTable.gethash_puthash, hlt, true_and]
    rfl
  · rw [if_neg (show ¬-1 < (crossingOf departure arrival).maxArrivalScore from hlt),
      if_neg fun h => hlt h.1]

/-- The tables hold the best edges that the two searches have found. -/
theorem crosses_note (hne : i ≠ representing) (hrep : representing ∈ cycleVertices)
    (hdeparture : BestOf (fun j => getScore tables.scoreHash j i) (-1) (-1) cycleVertices
      departure)
    (harrival : BestOf (arriving tables.scoreHash cycleWeight cost i) (-1) (-1) cycleVertices
      arrival)
    (hleave : ∀ j ∈ cycleVertices, ∀ s, getScore tables.scoreHash j i = some s → -1 < s)
    (henter : ∀ j ∈ cycleVertices, ∀ s,
      arriving tables.scoreHash cycleWeight cost i j = some s → -1 < s) :
    Crosses tables.scoreHash cycleVertices cycleWeight cost representing i
      (noteArrival representing i (crossingOf departure arrival)
        (noteDeparture representing i (crossingOf departure arrival) tables)) := by
  constructor
  · have hscore : getScore (noteArrival representing i (crossingOf departure arrival)
        (noteDeparture representing i (crossingOf departure arrival) tables)).scoreHash
          representing i =
        if -1 < departure.1 then some departure.1
        else getScore tables.scoreHash representing i := by
      rw [getScore_noteArrival, if_neg fun h => hne h.2.1.symm, getScore_noteDeparture]
      simp only [and_true]
    rw [hscore, departure_note]
    simp only [and_true]
    exact hdeparture.records hleave fun hnone => hnone representing hrep
  · have hinner : getScore (noteDeparture representing i (crossingOf departure arrival)
        tables).scoreHash i representing = getScore tables.scoreHash i representing := by
      rw [getScore_noteDeparture, if_neg fun h => hne h.2.1]
    have hscore : getScore (noteArrival representing i (crossingOf departure arrival)
        (noteDeparture representing i (crossingOf departure arrival) tables)).scoreHash
          i representing =
        if -1 < arrival.1 then some arrival.1
        else getScore tables.scoreHash i representing := by
      rw [getScore_noteArrival, hinner]
      simp only [and_true]
    rw [hscore, arrival_note]
    simp only [and_true]
    exact harrival.records henter fun hnone => Option.map_eq_none_iff.mp (hnone representing hrep)

end Note

/-- Nothing is written but the entries between `representing` and the vertices of `is`. -/
structure Untouched (representing : Vertex) (is : List Vertex) (tables tables' : Tables R) :
    Prop where
  score : ∀ u v, ¬(u = representing ∧ v ∈ is) → ¬(u ∈ is ∧ v = representing) →
    getScore tables'.scoreHash u v = getScore tables.scoreHash u v
  departure : ∀ k, k ∉ is →
    tables'.realDepartureVertices.gethash k = tables.realDepartureVertices.gethash k
  arrival : ∀ k, k ∉ is →
    tables'.realArrivalVertices.gethash k = tables.realArrivalVertices.gethash k

/-- A turn for a vertex off the cycle. -/
theorem contractVertex_spec [IsStrictOrderedRing R] {tables : Tables R} {representing i : Vertex}
    (hcosts : Costs tables.scoreHash front cycleVertices parent cost)
    (hnonneg : Nonneg tables.scoreHash cycleVertices cycleWeight cost i)
    (hi : i ∉ cycleVertices) (hrep : representing ∈ cycleVertices) :
    ∃ tables', contractVertex front cycleWeight cycleVertices representing tables i =
        some tables' ∧
      Crosses tables.scoreHash cycleVertices cycleWeight cost representing i tables' ∧
      Untouched representing [i] tables tables' := by
  have hne : i ≠ representing := fun heq => hi (heq ▸ hrep)
  obtain ⟨departure, hdeparture⟩ : ∃ d, d =
      cycleVertices.foldl (better fun j => getScore tables.scoreHash j i) ((-1 : R), -1) := ⟨_, rfl⟩
  obtain ⟨arrival, harrival⟩ : ∃ a, a =
      cycleVertices.foldl (better (arriving tables.scoreHash cycleWeight cost i)) (-1, -1) :=
    ⟨_, rfl⟩
  have hleave : ∀ j ∈ cycleVertices, ∀ s, getScore tables.scoreHash j i = some s → -1 < s :=
    fun j hj s hs => lt_of_lt_of_le neg_one_lt_zero (hnonneg.leave j hj s hs)
  have henter : ∀ j ∈ cycleVertices, ∀ s,
      arriving tables.scoreHash cycleWeight cost i j = some s → -1 < s :=
    fun j hj s hs => lt_of_lt_of_le neg_one_lt_zero (hnonneg.enter j hj s hs)
  have hbestDeparture := foldl_better (fun j => getScore tables.scoreHash j i) (-1) (-1)
    cycleVertices hleave
  have hbestArrival := foldl_better (arriving tables.scoreHash cycleWeight cost i) (-1) (-1)
    cycleVertices henter
  rw [← hdeparture] at hbestDeparture
  rw [← harrival] at hbestArrival
  refine ⟨noteArrival representing i (crossingOf departure arrival)
    (noteDeparture representing i (crossingOf departure arrival) tables), ?_, ?_, ?_⟩
  · rw [contractVertex, if_neg hi, bestCrossing_eq hcosts, ← hdeparture, ← harrival]
    rfl
  · exact crosses_note hne hrep hbestDeparture hbestArrival hleave henter
  · constructor
    · intro u v hleaving hentering
      rw [getScore_noteArrival, if_neg fun h => hentering ⟨List.mem_singleton.mpr h.2.1, h.2.2⟩,
        getScore_noteDeparture,
        if_neg fun h => hleaving ⟨h.2.1, List.mem_singleton.mpr h.2.2⟩]
    · intro k hk
      rw [departure_note, if_neg fun h => hk (List.mem_singleton.mpr h.2)]
    · intro k hk
      rw [arrival_note, if_neg fun h => hk (List.mem_singleton.mpr h.2)]

/-! ## All vertices off the cycle -/

namespace Untouched

variable {representing : Vertex} {is js : List Vertex} {tables tables' tables'' : Tables R}

omit [Ring R] [LinearOrder R] in
theorem refl : Untouched representing [] tables tables where
  score := fun _ _ _ _ => rfl
  departure := fun _ _ => rfl
  arrival := fun _ _ => rfl

omit [Ring R] [LinearOrder R] in
theorem trans (h : Untouched representing is tables tables')
    (h' : Untouched representing js tables' tables'') :
    Untouched representing (is ++ js) tables tables'' := by
  constructor
  · intro u v hleave henter
    rw [List.mem_append] at hleave henter
    rw [h'.score u v (fun h => hleave ⟨h.1, Or.inr h.2⟩) fun h => henter ⟨Or.inr h.1, h.2⟩,
      h.score u v (fun h => hleave ⟨h.1, Or.inl h.2⟩) fun h => henter ⟨Or.inl h.1, h.2⟩]
  · intro k hk
    rw [List.mem_append, not_or] at hk
    rw [h'.departure k hk.2, h.departure k hk.1]
  · intro k hk
    rw [List.mem_append, not_or] at hk
    rw [h'.arrival k hk.2, h.arrival k hk.1]

omit [Ring R] [LinearOrder R] in
/-- The scores between the cycle and another vertex stay, also those of
`representing`. -/
theorem between (h : Untouched representing is tables tables')
    (hoff : ∀ i ∈ is, i ∉ cycleVertices) {j k : Vertex} (hj : j ∈ cycleVertices) (hk : k ∉ is) :
    getScore tables'.scoreHash j k = getScore tables.scoreHash j k ∧
      getScore tables'.scoreHash k j = getScore tables.scoreHash k j :=
  ⟨h.score j k (fun h => hk h.2) fun h => hoff j h.1 hj,
    h.score k j (fun h => hoff j h.2 hj) fun h => hk h.1⟩

omit [Ring R] [LinearOrder R] in
/-- The edges of the cycle keep their costs. -/
theorem costs (h : Untouched representing is tables tables')
    (hoff : ∀ i ∈ is, i ∉ cycleVertices)
    (hcosts : Costs tables.scoreHash front cycleVertices parent cost) :
    Costs tables'.scoreHash front cycleVertices parent cost where
  aref := hcosts.aref
  mem := hcosts.mem
  score := by
    intro j hj
    rw [(h.between hoff (hcosts.mem j hj) fun hmem => hoff j hmem hj).1]
    exact hcosts.score j hj

theorem nonneg (h : Untouched representing is tables tables')
    (hoff : ∀ i ∈ is, i ∉ cycleVertices) {k : Vertex} (hk : k ∉ is)
    (hnonneg : Nonneg tables.scoreHash cycleVertices cycleWeight cost k) :
    Nonneg tables'.scoreHash cycleVertices cycleWeight cost k := by
  constructor
  · intro j hj s hs
    rw [(h.between hoff hj hk).1] at hs
    exact hnonneg.leave j hj s hs
  · intro j hj s hs
    rw [arriving, (h.between hoff hj hk).2] at hs
    exact hnonneg.enter j hj s hs

/-- What is written for a vertex later depends on the scores that were there before. -/
theorem crosses_before (h : Untouched representing is tables tables')
    (hoff : ∀ i ∈ is, i ∉ cycleVertices) {k : Vertex} (hk : k ∉ is)
    (hcrosses : Crosses tables'.scoreHash cycleVertices cycleWeight cost representing k tables'') :
    Crosses tables.scoreHash cycleVertices cycleWeight cost representing k tables'' := by
  refine ⟨hcrosses.leave.congr fun j hj => ?_, hcrosses.enter.congr fun j hj => ?_⟩
  · exact (h.between hoff hj hk).1.symm
  · rw [arriving, arriving, (h.between hoff hj hk).2]

/-- What is written for a vertex stays when others follow. -/
theorem crosses_after (h : Untouched representing is tables' tables'')
    (hoff : ∀ i ∈ is, i ∉ cycleVertices) {k : Vertex} (hk : k ∉ is)
    (hrep : representing ∈ cycleVertices) {scoreHash : ScoreHash R}
    (hcrosses : Crosses scoreHash cycleVertices cycleWeight cost representing k tables') :
    Crosses scoreHash cycleVertices cycleWeight cost representing k tables'' := by
  obtain ⟨hleave, henter⟩ := h.between hoff hrep hk
  constructor
  · rw [hleave, h.departure k hk]
    exact hcrosses.leave
  · rw [henter, h.arrival k hk]
    exact hcrosses.enter

end Untouched

/-- The vertices of `is` off the cycle. -/
abbrev off (cycleVertices is : List Vertex) : List Vertex := is.filter (· ∉ cycleVertices)

theorem mem_off {is : List Vertex} {i : Vertex} :
    i ∈ off cycleVertices is ↔ i ∈ is ∧ i ∉ cycleVertices := by
  rw [List.mem_filter, decide_eq_true_iff]

/-- The turns for different vertices do not disturb each other. -/
theorem contract_loop [IsStrictOrderedRing R] {representing : Vertex}
    (hrep : representing ∈ cycleVertices) :
    ∀ (is : List Vertex) (tables : Tables R), is.Nodup →
      Costs tables.scoreHash front cycleVertices parent cost →
      (∀ i ∈ off cycleVertices is,
        Nonneg tables.scoreHash cycleVertices cycleWeight cost i) →
      ∃ tables', is.foldlM (contractVertex front cycleWeight cycleVertices representing) tables =
          some tables' ∧
        (∀ i ∈ off cycleVertices is,
          Crosses tables.scoreHash cycleVertices cycleWeight cost representing i tables') ∧
        Untouched representing (off cycleVertices is) tables tables'
  | [], tables, _, _, _ => ⟨tables, rfl, fun _ hi => (by cases hi), Untouched.refl⟩
  | i :: is, tables, hnodup, hcosts, hnonneg => by
      obtain ⟨hnotMem, hnodup⟩ := List.nodup_cons.mp hnodup
      have hoff : ∀ k ∈ off cycleVertices is, k ∉ cycleVertices := fun k hk => (mem_off.mp hk).2
      by_cases hi : i ∈ cycleVertices
      · have hskip : off cycleVertices (i :: is) = off cycleVertices is :=
          List.filter_cons_of_neg (by simpa using hi)
        rw [hskip] at hnonneg ⊢
        rw [List.foldlM_cons, contractVertex, if_pos hi]
        exact contract_loop hrep is tables hnodup hcosts hnonneg
      · have hcons : off cycleVertices (i :: is) = i :: off cycleVertices is :=
          List.filter_cons_of_pos (by simpa using hi)
        rw [hcons] at hnonneg ⊢
        obtain ⟨tables₁, hturn, hcrosses, hturnKeeps⟩ :=
          contractVertex_spec hcosts (hnonneg i (List.mem_cons_self ..)) hi hrep
        have hone : ∀ k ∈ [i], k ∉ cycleVertices := fun k hk => List.mem_singleton.mp hk ▸ hi
        have hother : ∀ k ∈ off cycleVertices is, k ∉ [i] := fun k hk hmem =>
          hnotMem (List.mem_singleton.mp hmem ▸ (mem_off.mp hk).1)
        obtain ⟨tables', hloop, hrest, hkeeps⟩ :=
          contract_loop hrep is tables₁ hnodup (hturnKeeps.costs hone hcosts) fun k hk =>
            hturnKeeps.nonneg hone (hother k hk) (hnonneg k (List.mem_cons_of_mem i hk))
        refine ⟨tables', ?_, fun k hk => ?_, hturnKeeps.trans hkeeps⟩
        · rw [List.foldlM_cons, hturn]
          exact hloop
        · cases List.mem_cons.mp hk with
          | inl heq =>
              rw [heq]
              exact hkeeps.crosses_after hoff (fun hmem => hnotMem (mem_off.mp hmem).1) hrep
                hcrosses
          | inr hk => exact hturnKeeps.crosses_before hone (hother k hk) (hrest k hk)

/-- The loop writes the scores of the contracted graph, and leaves alone the edges that do
not lead into the cycle or out of it. -/
theorem contract_spec [IsStrictOrderedRing R] {scoreHash : ScoreHash R} {representing : Vertex}
    {currentVertices : List Vertex} (hnodup : currentVertices.Nodup)
    (hcosts : Costs scoreHash front cycleVertices parent cost)
    (hnonneg : ∀ i ∈ off cycleVertices currentVertices,
      Nonneg scoreHash cycleVertices cycleWeight cost i)
    (hrep : representing ∈ cycleVertices) :
    ∃ tables, contract scoreHash front cycleWeight cycleVertices representing currentVertices =
        some tables ∧
      (∀ i ∈ off cycleVertices currentVertices,
        Crosses scoreHash cycleVertices cycleWeight cost representing i tables) ∧
      ∀ u v, (u ∈ cycleVertices ↔ v ∈ cycleVertices) →
        getScore tables.scoreHash u v = getScore scoreHash u v := by
  obtain ⟨tables, hloop, hcrosses, hkeeps⟩ :=
    contract_loop hrep currentVertices ⟨scoreHash, HashTable.empty, HashTable.empty⟩ hnodup
      hcosts hnonneg
  refine ⟨tables, hloop, hcrosses, fun u v huv => hkeeps.score u v ?_ ?_⟩
  · exact fun h => (mem_off.mp h.2).2 (huv.mp (h.1 ▸ hrep))
  · exact fun h => (mem_off.mp h.1).2 (huv.mpr (h.2 ▸ hrep))

end Hachee.Algorithm.ChuLiuEdmonds
