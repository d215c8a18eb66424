import TrackFusion.Proofs.Assignment.Gate
import TrackFusion.Proofs.Assignment.Optimal
import TrackFusion.Proofs.Association.Objects
import TrackFusion.Proofs.Association.OneToOne
import TrackFusion.Proofs.Scene

/-!
Object association is optimal.

The solver minimises another total than the one that counts: every row gets a column, and excluded
pairs weigh what the excluded price weighs. Against that weight an excluded pair counts nothing, so
the pairs that are kept have the same total as the chosen ones, and no admissible pairs do better.
-/

set_option autoImplicit false
set_option relaxedAutoImplicit false

open Finset

namespace TrackFusion

def Association.assignedPairs (a : Association) (n m : Nat) : Finset (Fin n × Fin m) :=
  Finset.univ.filter fun p => a.observationOf p.1 = some p.2.val

variable {n m : Nat}

theorem Association.mem_assignedPairs_iff {a : Association} {i : Fin n} {j : Fin m} :
    (i, j) ∈ a.assignedPairs n m ↔ a.observationOf i = some j.val := by
  unfold assignedPairs
  rw [Finset.mem_filter]
  exact and_iff_right (Finset.mem_univ _)

theorem IsPartialAssignment.oneToOne {pairs : Finset (Fin n × Fin m)}
    (isPartial : IsPartialAssignment pairs) {listed : List (Nat × Nat)}
    (origin : ∀ q ∈ listed, ∃ p ∈ pairs, (p.1.val, p.2.val) = q) :
    Association.OneToOne n m listed := by
  refine ⟨?_, ?_, ?_⟩
  · intro q member
    obtain ⟨p, -, rfl⟩ := origin q member
    exact ⟨p.1.isLt, p.2.isLt⟩
  · intro q first r second same
    obtain ⟨p, member, rfl⟩ := origin q first
    obtain ⟨p', member', rfl⟩ := origin r second
    rw [isPartial.rows member member' (Fin.ext same)]
  · intro q first r second same
    obtain ⟨p, member, rfl⟩ := origin q first
    obtain ⟨p', member', rfl⟩ := origin r second
    rw [isPartial.columns member member' (Fin.ext same)]

structure IsAdmissible (cost : Mat n m Exact) (pairs : Finset (Fin n × Fin m)) : Prop
    extends IsPartialAssignment pairs where
  finite : ∀ p ∈ pairs, Scalar.isFinite (cost.entry p.1 p.2) = true

def Gated (cost : Mat n m Exact) (g : ℝ) : Prop :=
  ∀ i j, Scalar.isFinite (cost.entry i j) = true → ∃ x, cost.entry i j = .finite x ∧ 0 ≤ x ∧ x ≤ g

/-- The total weight of pairs, each against the weight of an excluded pair. -/
noncomputable def excess (cost : Mat n m Exact) (g : ℝ) (pairs : Finset (Fin n × Fin m)) : ℤ :=
  ∑ p ∈ pairs, (Gate.weightOf (cost.entry p.1 p.2).toReal - Gate.weightOf (g + 1e-5))

section Weights

variable {cost : Mat n m Exact} {g : ℝ}

noncomputable def gatedWeights (cost : Mat n m Exact) (g : ℝ) : Mat n m Int :=
  (Gate.prices cost (.finite g)).map Gate.weight

theorem entry_gatedWeights (gated : Gated cost g) (nonneg : 0 ≤ g)
    (fits : Gate.weightOf (g + 1e-5) < 2 ^ 63) (i : Fin n) (j : Fin m) :
    (gatedWeights cost g).entry i j =
      if Scalar.isFinite (cost.entry i j) = true then Gate.weightOf (cost.entry i j).toReal
      else Gate.weightOf (g + 1e-5) := by
  unfold gatedWeights Gate.prices
  rw [Mat.entry_map, Mat.entry_map, Gate.excludedPrice_finite]
  split
  · rename_i finite
    obtain ⟨x, same, above, within⟩ := gated i j finite
    have lighter := Gate.weightOf_lt_excluded within
    rw [same, Gate.price_of_mem above (by linarith)]
    exact Gate.weight_finite above (by omega)
  · rename_i infinite
    rw [Gate.price_of_not_finite (Bool.eq_false_iff.mpr infinite)]
    exact Gate.weight_finite (by positivity) fits

theorem range_gatedWeights (gated : Gated cost g) (nonneg : 0 ≤ g)
    (fits : Gate.weightOf (g + 1e-5) < 2 ^ 63) (i : Fin n) (j : Fin m) :
    0 ≤ (gatedWeights cost g).entry i j ∧
      (gatedWeights cost g).entry i j ≤ Gate.weightOf (g + 1e-5) := by
  rw [entry_gatedWeights gated nonneg fits]
  split_ifs with finite
  · obtain ⟨x, same, above, within⟩ := gated i j finite
    rw [same]
    exact ⟨Gate.weightOf_nonneg above, (Gate.weightOf_lt_excluded within).le⟩
  · exact ⟨Gate.weightOf_nonneg (by positivity), le_refl _⟩

theorem keep?_eq_some_iff_of_gated (gated : Gated cost g) (pair : Fin n × Fin m)
    {k : Match Exact} :
    Gate.keep? cost (Gate.prices cost (.finite g)) (.finite g) pair = some k ↔
      Scalar.isFinite (cost.entry pair.1 pair.2) = true ∧
        ⟨pair.1, pair.2, cost.entry pair.1 pair.2⟩ = k := by
  rw [Gate.keep?_eq_some_iff]
  refine and_congr_right fun finite => ?_
  obtain ⟨x, same, above, within⟩ := gated pair.1 pair.2 finite
  have price : (Gate.prices cost (.finite g)).entry pair.1 pair.2 = .finite x := by
    unfold Gate.prices
    rw [Mat.entry_map, Gate.excludedPrice_finite, same]
    exact Gate.price_of_mem above (by linarith)
  rw [price, same, Exact.finite_le_finite]
  exact and_iff_right within

variable {solver : Solver}

theorem assignedPairs_ofMatching (gated : Gated cost g) (nonneg : 0 ≤ g)
    (nonempty : ¬ (n = 0 ∨ m = 0))
    (chosen : IsPartialAssignment (solver.chosenPairs (gatedWeights cost g)).toFinset)
    (hadErrors : Bool) :
    (Association.ofMatching n m (minCostMatching solver cost (.finite g)) hadErrors).assignedPairs
        n m =
      (solver.chosenPairs (gatedWeights cost g)).toFinset.filter fun p =>
        Scalar.isFinite (cost.entry p.1 p.2) = true := by
  obtain ⟨found, matched, members⟩ := exists_minCostMatching_eq solver cost nonempty
    (Exact.isNaN_finite g) (Exact.not_finite_lt_zero nonneg)
  have member {k : Match Exact} : k ∈ found.pairs ↔ ∃ p ∈ solver.chosenPairs (gatedWeights cost g),
      Scalar.isFinite (cost.entry p.1 p.2) = true ∧ ⟨p.1, p.2, cost.entry p.1 p.2⟩ = k := by
    rw [members]
    simp only [keep?_eq_some_iff_of_gated gated]
    rfl
  have oneToOne : Association.OneToOne n m
      (found.pairs.map fun k => (k.track, k.observation)) := by
    refine chosen.oneToOne ?_
    intro q listed
    obtain ⟨k, matched, rfl⟩ := List.mem_map.mp listed
    obtain ⟨p, chosen, -, rfl⟩ := member.mp matched
    exact ⟨p, List.mem_toFinset.mpr chosen, rfl⟩
  ext ⟨i, j⟩
  rw [matched, Association.mem_assignedPairs_iff, Finset.mem_filter, List.mem_toFinset]
  refine (Association.observationOf_ofMatches_iff oneToOne).trans ?_
  constructor
  · rintro ⟨k, listed, track, observation⟩
    obtain ⟨⟨i', j'⟩, chosen, finite, rfl⟩ := member.mp listed
    obtain rfl : i' = i := Fin.ext track
    obtain rfl : j' = j := Fin.ext observation
    exact ⟨chosen, finite⟩
  · rintro ⟨chosen, finite⟩
    exact ⟨_, member.mpr ⟨(i, j), chosen, finite, rfl⟩, rfl, rfl⟩

theorem sum_chosen_eq_excess (gated : Gated cost g) (nonneg : 0 ≤ g)
    (fits : Gate.weightOf (g + 1e-5) < 2 ^ 63) (pairs : Finset (Fin n × Fin m)) :
    ∑ p ∈ pairs, ((gatedWeights cost g).entry p.1 p.2 - Gate.weightOf (g + 1e-5)) =
      excess cost g (pairs.filter fun p => Scalar.isFinite (cost.entry p.1 p.2) = true) := by
  unfold excess
  rw [Finset.sum_filter]
  refine Finset.sum_congr rfl ?_
  intro p _
  rw [entry_gatedWeights gated nonneg fits]
  split_ifs
  · rfl
  · exact Int.sub_self _

/-- The assigned pairs are admissible, and no admissible pairs have a smaller excess. -/
theorem assignedPairs_least (optimal : solver.IsOptimal) (gated : Gated cost g) (nonneg : 0 ≤ g)
    (small : (min n m : Nat) * Gate.weightOf (g + 1e-5) < 2 ^ 62) (hadErrors : Bool) :
    let pairs := (Association.ofMatching n m (minCostMatching solver cost (.finite g))
      hadErrors).assignedPairs n m
    IsAdmissible cost pairs ∧
      ∀ others, IsAdmissible cost others → excess cost g pairs ≤ excess cost g others := by
  intro pairs
  by_cases nonempty : n = 0 ∨ m = 0
  · have empty : IsEmpty (Fin n × Fin m) := by
      rw [isEmpty_prod]
      rcases nonempty with rfl | rfl
      · exact .inl Fin.isEmpty'
      · exact .inr Fin.isEmpty'
    refine ⟨⟨⟨fun p => empty.elim p, fun p => empty.elim p⟩, fun p => empty.elim p⟩, ?_⟩
    intro others _
    rw [Finset.eq_empty_of_isEmpty pairs, Finset.eq_empty_of_isEmpty others]
  · have excluded : 0 ≤ Gate.weightOf (g + 1e-5) := Gate.weightOf_nonneg (by positivity)
    have single : (1 : Int) ≤ (min n m : Nat) := by omega
    have fits : Gate.weightOf (g + 1e-5) < 2 ^ 62 :=
      (le_mul_of_one_le_left excluded single).trans_lt small
    have held : Gate.weightOf (g + 1e-5) < 2 ^ 63 := fits.trans (by norm_num)
    obtain ⟨chosen, least⟩ := optimal.chosenPairs (range_gatedWeights gated nonneg held) small
    have assigned : pairs = _ := assignedPairs_ofMatching gated nonneg nonempty chosen hadErrors
    have total := sum_chosen_eq_excess gated nonneg held
    -- against the bound an excluded pair counts nothing, so dropping it leaves the total as it is
    rw [assigned]
    refine ⟨⟨chosen.mono (Finset.filter_subset _ _), ?_⟩, ?_⟩
    · intro p member
      exact (Finset.mem_filter.mp member).2
    · intro others admissible
      have finite : (others.filter fun p => Scalar.isFinite (cost.entry p.1 p.2) = true) = others :=
        Finset.filter_true_of_mem admissible.finite
      rw [← total, ← finite, ← total]
      exact least others admissible.toIsPartialAssignment

theorem IsAdmissible.used_of_isFinite {pairs : Finset (Fin n × Fin m)} (gated : Gated cost g)
    (admissible : IsAdmissible cost pairs)
    (least : ∀ others, IsAdmissible cost others → excess cost g pairs ≤ excess cost g others)
    {i : Fin n} {j : Fin m} (finite : Scalar.isFinite (cost.entry i j) = true) :
    ∃ p ∈ pairs, p.1 = i ∨ p.2 = j := by
  by_contra unused
  simp only [not_exists, not_and, not_or] at unused
  have fresh : (i, j) ∉ pairs := fun member => (unused (i, j) member).1 rfl
  -- otherwise the pair could be added, and the total would fall
  have larger : IsAdmissible cost (insert (i, j) pairs) := by
    refine ⟨⟨?_, ?_⟩, ?_⟩
    · rw [Finset.coe_insert, Set.injOn_insert fresh]
      refine ⟨admissible.rows, ?_⟩
      rintro ⟨p, member, same⟩
      exact (unused p member).1 same
    · rw [Finset.coe_insert, Set.injOn_insert fresh]
      refine ⟨admissible.columns, ?_⟩
      rintro ⟨p, member, same⟩
      exact (unused p member).2 same
    · intro p member
      rcases Finset.mem_insert.mp member with rfl | old
      · exact finite
      · exact admissible.finite p old
  obtain ⟨x, same, -, within⟩ := gated i j finite
  have lighter : Gate.weightOf (cost.entry i j).toReal < Gate.weightOf (g + 1e-5) := by
    rw [same]
    exact Gate.weightOf_lt_excluded within
  have compared := least _ larger
  unfold excess at compared
  rw [Finset.sum_insert fresh] at compared
  dsimp only at compared
  linarith

end Weights

namespace ObjectGates

variable {π : Type}

/-- The pairs of tracks and valid detections are not gated and use each one at most once. -/
structure Assignable (gates : ObjectGates Exact) (tracks : List (Track Exact π))
    (detections : List (Detection Exact π))
    (pairs : Finset (Fin tracks.length × Fin detections.length)) : Prop
    extends IsPartialAssignment pairs where
  valid : ∀ p ∈ pairs, (detections.get p.2).isValid = true
  finite : ∀ p ∈ pairs, Scalar.isFinite (gates.cost (tracks.get p.1) (detections.get p.2)) = true

noncomputable def totalExcess (gates : ObjectGates Exact) (g : ℝ) (tracks : List (Track Exact π))
    (detections : List (Detection Exact π))
    (pairs : Finset (Fin tracks.length × Fin detections.length)) : ℤ :=
  ∑ p ∈ pairs, (Gate.weightOf (gates.cost (tracks.get p.1) (detections.get p.2)).toReal -
    Gate.weightOf (g + 1e-5))

variable {gates : ObjectGates Exact} {g : ℝ} {tracks : List (Track Exact π)}
  {detections : List (Detection Exact π)}
  {pairs : Finset (Fin tracks.length × Fin detections.length)}

theorem isFinite_entry_costs_iff {i : Fin tracks.length} {j : Fin detections.length} :
    Scalar.isFinite ((gates.costs tracks detections).entry i j) = true ↔
      (detections.get j).isValid = true ∧
        Scalar.isFinite (gates.cost (tracks.get i) (detections.get j)) = true := by
  constructor
  · intro finite
    obtain ⟨valid, same⟩ := entry_costs_of_isFinite finite
    exact ⟨valid, same ▸ finite⟩
  · rintro ⟨valid, finite⟩
    unfold costs
    rw [Mat.entry_ofFn, if_pos valid]
    exact finite

theorem gated_costs (threshold : gates.gatingThreshold = .finite g) :
    Gated (gates.costs tracks detections) g := by
  intro i j finite
  obtain ⟨-, same⟩ := entry_costs_of_isFinite finite
  rw [same] at finite ⊢
  obtain ⟨x, cost, nonneg⟩ := exists_cost_eq_finite finite
  obtain ⟨-, -, -, within⟩ := cost_of_isFinite finite
  rw [cost, threshold, Exact.finite_le_finite] at within
  exact ⟨x, cost, nonneg, within⟩

theorem assignable_iff : gates.Assignable tracks detections pairs ↔
    IsAdmissible (gates.costs tracks detections) pairs := by
  constructor
  · rintro ⟨isPartial, valid, finite⟩
    exact ⟨isPartial, fun p member =>
      isFinite_entry_costs_iff.mpr ⟨valid p member, finite p member⟩⟩
  · rintro ⟨isPartial, finite⟩
    exact ⟨isPartial, fun p member => (isFinite_entry_costs_iff.mp (finite p member)).1,
      fun p member => (isFinite_entry_costs_iff.mp (finite p member)).2⟩

theorem Assignable.totalExcess_eq (assignable : gates.Assignable tracks detections pairs) (g : ℝ) :
    gates.totalExcess g tracks detections pairs = excess (gates.costs tracks detections) g pairs := by
  refine Finset.sum_congr rfl ?_
  intro p member
  rw [(entry_costs_of_isFinite ((assignable_iff.mp assignable).finite p member)).2]

/-- The association assigns pairs that could be assigned, at the least total excess of all such, and
leaves no track and valid detection over on both sides that are not gated. -/
structure IsLeastAssociation (gates : ObjectGates Exact) (g : ℝ) (tracks : List (Track Exact π))
    (detections : List (Detection Exact π)) (a : Association) : Prop where
  assignable : gates.Assignable tracks detections
    (a.assignedPairs tracks.length detections.length)
  least : ∀ others, gates.Assignable tracks detections others →
    gates.totalExcess g tracks detections (a.assignedPairs tracks.length detections.length) ≤
      gates.totalExcess g tracks detections others
  saturated : ∀ (i : Fin tracks.length) (j : Fin detections.length),
    (detections.get j).isValid = true →
      Scalar.isFinite (gates.cost (tracks.get i) (detections.get j)) = true →
        ¬ (i.val ∈ a.unassignedTracks ∧ j.val ∈ a.unassignedObservations)

/-- With an optimal solver and a finite threshold object association is a least association, if its
weights fit into the integers of the solver. -/
theorem associate_least {solver : Solver} (optimal : solver.IsOptimal)
    (threshold : gates.gatingThreshold = .finite g) (nonneg : 0 ≤ g)
    (small : (min tracks.length detections.length : Nat) * Gate.weightOf (g + 1e-5) < 2 ^ 62) :
    gates.IsLeastAssociation g tracks detections (gates.associate solver detections tracks) := by
  have gated : Gated (gates.costs tracks detections) g := gated_costs threshold
  have same : gates.associate solver detections tracks =
      .ofMatching tracks.length detections.length
        (minCostMatching solver (gates.costs tracks detections) (.finite g))
        (detections.any fun d => !d.isValid) := by
    rw [← threshold]
    rfl
  obtain ⟨admissible, least⟩ := assignedPairs_least optimal gated nonneg small
    (detections.any fun d => !d.isValid)
  have partitions := Association.partitions_ofMatching tracks.length detections.length
    (minCostMatching solver (gates.costs tracks detections) (.finite g))
    (detections.any fun d => !d.isValid)
  rw [← same] at admissible least partitions
  refine ⟨assignable_iff.mpr admissible, ?_, ?_⟩
  · intro others assignable
    rw [(assignable_iff.mpr admissible).totalExcess_eq, assignable.totalExcess_eq]
    exact least others (assignable_iff.mp assignable)
  · rintro i j valid finite ⟨track, observation⟩
    obtain ⟨p, member, meet⟩ := admissible.used_of_isFinite gated least
      (isFinite_entry_costs_iff.mpr ⟨valid, finite⟩)
    have pair : (gates.associate solver detections tracks).observationOf p.1 = some p.2.val :=
      (Finset.mem_filter.mp member).2
    rcases meet with rfl | rfl
    · have free := ((partitions.tracks _).mp track).2
      rw [pair] at free
      cases free
    · exact ((partitions.observations _).mp observation).2 _ pair

/-- Two tracks and two cars between them. -/
theorem associate_least_between :
    let gates : ObjectGates Exact := ⟨.finite 4, .finite 10, .finite 6⟩
    let tracks := [Scene.tracked 3 1 0, Scene.tracked 3 1 3]
    let detections := [Scene.car 1, Scene.car 2]
    gates.IsLeastAssociation 6 tracks detections (gates.associate .exhaustive detections tracks) := by
  have excluded : Gate.weightOf (6 + 1e-5) = 6000010000 := by
    have whole : (1000000000 : ℝ) * (6 + 1e-5) = (6000010000 : ℤ) := by norm_num
    unfold Gate.weightOf
    rw [whole, round_intCast]
  refine associate_least Solver.exhaustive_isOptimal rfl (by norm_num) ?_
  rw [excluded]
  norm_num

end ObjectGates

end TrackFusion
