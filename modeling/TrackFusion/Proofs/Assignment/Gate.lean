import TrackFusion.Assignment.Matching
import TrackFusion.Proofs.Scalar.Exact

/-!
What the gate lets through.

A match is a chosen pair of finite cost whose price is within the gate. Over exact numbers its cost is
then within the gate too, because excluded pairs are priced above it.
-/

set_option autoImplicit false
set_option relaxedAutoImplicit false

namespace TrackFusion

section Members

variable {ρ : Type} [ExtendedScalar ρ] {n m : Nat} {solver : Solver} {cost : Mat n m ρ} {gate : ρ}
  {found : Matching ρ} {k : Match ρ}

theorem Gate.keep?_eq_some_iff {prices : Mat n m ρ} {pair : Fin n × Fin m} :
    keep? cost prices gate pair = some k ↔
      Scalar.isFinite (cost.entry pair.1 pair.2) = true ∧ prices.entry pair.1 pair.2 ≤ gate ∧
        ⟨pair.1, pair.2, prices.entry pair.1 pair.2⟩ = k := by
  unfold keep?
  simp only [Option.ite_none_right_eq_some, Option.some.injEq, and_assoc]

/-- The matches are the chosen pairs of finite cost and of a price within the gate; none are made
across a gate that is negative. -/
theorem mem_pairs_of_minCostMatching (returned : minCostMatching solver cost gate = .ok found)
    (member : k ∈ found.pairs) : Scalar.isNaN gate = false ∧ ¬ gate < 0 ∧
      ∃ pair ∈ solver.chosenPairs ((Gate.prices cost gate).map Gate.weight),
        Gate.keep? cost (Gate.prices cost gate) gate pair = some k := by
  unfold minCostMatching at returned
  split_ifs at returned with empty undefined negative
  · cases returned
    cases member
  · cases returned
    cases member
  · cases returned
    refine ⟨Bool.eq_false_iff.mpr undefined, negative, ?_⟩
    simpa only [Matching.ofPairs, List.mem_mergeSort, List.mem_filterMap] using member

theorem minCostMatching_eq (solver : Solver) (cost : Mat n m ρ) (nonempty : ¬ (n = 0 ∨ m = 0))
    (defined : Scalar.isNaN gate = false) (nonneg : ¬ gate < 0) :
    minCostMatching solver cost gate = .ok (.ofPairs n m (List.mergeSort
      ((solver.chosenPairs ((Gate.prices cost gate).map Gate.weight)).filterMap
        (Gate.keep? cost (Gate.prices cost gate) gate)) fun a b => a.track ≤ b.track)) := by
  unfold minCostMatching
  rw [if_neg nonempty, if_neg (by rw [defined]; exact Bool.false_ne_true), if_neg nonneg]

theorem exists_minCostMatching_eq (solver : Solver) (cost : Mat n m ρ)
    (nonempty : ¬ (n = 0 ∨ m = 0)) (defined : Scalar.isNaN gate = false) (nonneg : ¬ gate < 0) :
    ∃ found, minCostMatching solver cost gate = .ok found ∧ ∀ k, k ∈ found.pairs ↔
      ∃ pair ∈ solver.chosenPairs ((Gate.prices cost gate).map Gate.weight),
        Gate.keep? cost (Gate.prices cost gate) gate pair = some k := by
  refine ⟨_, minCostMatching_eq solver cost nonempty defined nonneg, fun k => ?_⟩
  simp only [Matching.ofPairs, List.mem_mergeSort, List.mem_filterMap]

theorem minCostMatching_congr {cost' : Mat n m ρ}
    (weights : (Gate.prices cost' gate).map Gate.weight = (Gate.prices cost gate).map Gate.weight)
    (kept : ∀ pair, Gate.keep? cost' (Gate.prices cost' gate) gate pair =
      Gate.keep? cost (Gate.prices cost gate) gate pair) :
    minCostMatching solver cost' gate = minCostMatching solver cost gate := by
  unfold minCostMatching
  dsimp only
  rw [weights, funext kept]

end Members

namespace Gate

variable {n m : Nat} {cost : Mat n m Exact}

theorem margin_eq : (margin : Exact) = .finite 1e-5 :=
  rfl

theorem resolution_eq : (resolution : Exact) = .finite 1000000000 := by
  unfold resolution
  rw [Exact.scientific_eq]
  norm_num

theorem excludedPrice_finite (cost : Mat n m Exact) (g : ℝ) :
    excludedPrice cost (.finite g) = .finite (g + 1e-5) := by
  unfold excludedPrice
  rw [Exact.isFinite_finite, if_pos rfl, margin_eq, Exact.finite_add_finite]

theorem price_of_not_finite {excluded c : Exact} (infinite : Scalar.isFinite c = false) :
    price excluded c = excluded := by
  unfold price
  rw [infinite, if_neg Bool.false_ne_true]

theorem price_finite (e x : ℝ) : price (Exact.finite e) (Exact.finite x) =
    Exact.finite (if x < 0 then 0 else if e < x then e else x) := by
  unfold price Scalar.clamp
  rw [Exact.isFinite_finite, if_pos rfl, Exact.zero_eq]
  simp only [Exact.finite_lt_finite]
  split_ifs <;> rfl

theorem price_of_mem {e x : ℝ} (nonneg : 0 ≤ x) (within : x ≤ e) :
    price (Exact.finite e) (Exact.finite x) = Exact.finite x := by
  rw [price_finite, if_neg (not_lt.mpr nonneg), if_neg (not_lt.mpr within)]

theorem cost_le_of_price_le {gate : Exact} {c : Exact} (defined : Scalar.isNaN gate = false)
    (nonneg : ¬ gate < 0) (finite : Scalar.isFinite c = true)
    (within : price (excludedPrice cost gate) c ≤ gate) : c ≤ gate := by
  obtain ⟨x, rfl⟩ := Exact.isFinite_iff.mp finite
  cases gate with
  | undefined => exact absurd rfl (Exact.isNaN_eq_false_iff.mp defined)
  | negInfinity => exact absurd ⟨trivial, id⟩ nonneg
  | infinity => trivial
  | finite g =>
    have above : 0 ≤ g := not_lt.mp fun below => nonneg (Exact.finite_lt_finite.mpr below)
    rw [excludedPrice_finite, price_finite, Exact.finite_le_finite] at within
    rw [Exact.finite_le_finite]
    split_ifs at within with low high
    · exact low.le.trans above
    · norm_num at within
    · exact within

noncomputable def weightOf (v : ℝ) : ℤ :=
  round (1000000000 * v)

theorem weightOf_mono {x y : ℝ} (below : x ≤ y) : weightOf x ≤ weightOf y := by
  unfold weightOf
  rw [round_eq, round_eq]
  exact Int.floor_mono (by linarith)

theorem weightOf_nonneg {x : ℝ} (nonneg : 0 ≤ x) : 0 ≤ weightOf x := by
  have above := weightOf_mono nonneg
  unfold weightOf at above ⊢
  rwa [mul_zero, round_zero] at above

theorem weightOf_add_margin (g : ℝ) : weightOf (g + 1e-5) = weightOf g + 10000 := by
  unfold weightOf
  rw [← round_add_ofNat]
  congr 1
  norm_num
  ring

theorem weightOf_lt_excluded {x g : ℝ} (within : x ≤ g) : weightOf x < weightOf (g + 1e-5) := by
  rw [weightOf_add_margin]
  exact Int.lt_add_of_le_of_pos (weightOf_mono within) (by norm_num)

theorem weightOf_of_whole {x : ℝ} {k : ℤ} (whole : 1000000000 * x = k) : weightOf x = k := by
  rw [weightOf, whole, round_intCast]

theorem weight_finite {x : ℝ} (nonneg : 0 ≤ x) (fits : weightOf x < 2 ^ 63) :
    weight (Exact.finite x) = weightOf x := by
  unfold weight
  rw [resolution_eq, Exact.finite_mul_finite, mul_comm]
  exact Exact.toInt64_finite (by positivity) fits

end Gate

end TrackFusion
