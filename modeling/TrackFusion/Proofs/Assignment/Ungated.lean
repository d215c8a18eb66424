import TrackFusion.Proofs.Assignment.Matching
import TrackFusion.Proofs.Assignment.Optimal

/-!
Matching without a gate.

Under an infinite gate every finite cost keeps its own price, so that a solver which is optimal on its
weights makes as many matches as there can be. Weights are costs in whole steps of 10⁻⁹, held within
64 bits. A total is therefore off by a step for each match at most, as long as the costs stay below
2⁶³ steps. Costs of more steps than that all weigh the same.
-/

set_option autoImplicit false
set_option relaxedAutoImplicit false

open Finset

namespace TrackFusion

variable {n m : Nat}

noncomputable section

/-- The pairs are as many as can be without sharing a row or a column, and their total exceeds that of
no other such pairs by more than a step for each. -/
structure IsNearlyLeast (cost : Matrix (Fin n) (Fin m) ℝ) (pairs : Finset (Fin n × Fin m)) :
    Prop where
  isPartial : IsPartialAssignment pairs
  card_eq : pairs.card = min n m
  least : ∀ others, IsPartialAssignment others → others.card = min n m →
    ∑ p ∈ pairs, cost p.1 p.2 ≤ ∑ p ∈ others, cost p.1 p.2 + (min n m : Nat) * 1e-9

namespace Gate

/-- The largest cost with a weight of its own. -/
def heaviest : ℝ :=
  ((2 ^ 63 - 1) / 1000000000 : ℚ)

/-- The costs as they are weighed. -/
def capped (cost : Matrix (Fin n) (Fin m) ℝ) : Matrix (Fin n) (Fin m) ℝ :=
  cost.map (min · heaviest)

variable {solver : Solver} {cost : Matrix (Fin n) (Fin m) ℝ}

theorem weightOf_heaviest : weightOf heaviest = 2 ^ 63 - 1 :=
  weightOf_of_whole (by norm_num [heaviest])

theorem weight_finite_of_nonneg {x : ℝ} (nonneg : 0 ≤ x) :
    weight (Exact.finite x) = weightOf (min x heaviest) := by
  have monotone : Monotone weightOf := fun _ _ => weightOf_mono
  rw [monotone.map_min, weightOf_heaviest, min_comm]
  unfold weight
  rw [resolution_eq, Exact.finite_mul_finite, mul_comm]
  exact Exact.toInt64_finite_of_nonneg (by positivity)

theorem prices_ungated (nonneg : ∀ i j, 0 ≤ cost i j) :
    prices (Mat.ofReal cost) .infinity = Mat.ofReal cost := by
  have defined : Exact.infinity ≠ .undefined := nofun
  obtain ⟨e, excluded, -, above⟩ :=
    exists_excludedPrice (Mat.ofReal cost) defined fun below => below.1
  refine Mat.ext fun i j => ?_
  have below := above i j (cost i j) (Mat.entry_ofReal cost i j) trivial
  unfold prices
  rw [Mat.entry_map, excluded, Mat.entry_ofReal, price_of_mem (nonneg i j) below]

theorem weights_ungated (nonneg : ∀ i j, 0 ≤ cost i j) (i : Fin n) (j : Fin m) :
    ((prices (Mat.ofReal cost) .infinity).map weight).entry i j = weightOf (capped cost i j) := by
  rw [prices_ungated nonneg, Mat.entry_map, Mat.entry_ofReal, weight_finite_of_nonneg (nonneg i j)]
  rfl

theorem keep?_ungated (nonneg : ∀ i j, 0 ≤ cost i j) (p : Fin n × Fin m) :
    keep? (Mat.ofReal cost) (prices (Mat.ofReal cost) .infinity) .infinity p =
      some ⟨p.1, p.2, .finite (cost p.1 p.2)⟩ := by
  unfold keep?
  simp only [prices_ungated nonneg, Mat.entry_ofReal]
  exact if_pos ⟨rfl, trivial⟩

theorem minCostMatching_ungated (nonempty : ¬ (n = 0 ∨ m = 0)) (nonneg : ∀ i j, 0 ≤ cost i j)
    (solver : Solver) : minCostMatching solver (Mat.ofReal cost) .infinity = .ok (.ofPairs n m
      (List.mergeSort
        ((solver.chosenPairs ((prices (Mat.ofReal cost) .infinity).map weight)).map fun p =>
          ⟨p.1, p.2, .finite (cost p.1 p.2)⟩)
        fun a b => a.track ≤ b.track)) := by
  have defined : Scalar.isNaN Exact.infinity = false := Exact.isNaN_eq_false_iff.mpr nofun
  have notNegative : ¬ Exact.infinity < 0 := fun below => below.1
  rw [minCostMatching_eq solver _ nonempty defined notNegative,
    List.filterMap_congr fun p _ => keep?_ungated nonneg p, List.filterMap_eq_map']

theorem sum_le_of_sum_weightOf_le {pairs others : Finset (Fin n × Fin m)} {k : Nat}
    (count : pairs.card = k) (otherCount : others.card = k)
    (lighter : ∑ p ∈ pairs, weightOf (cost p.1 p.2) ≤ ∑ p ∈ others, weightOf (cost p.1 p.2)) :
    ∑ p ∈ pairs, cost p.1 p.2 ≤ ∑ p ∈ others, cost p.1 p.2 + k * 1e-9 := by
  have near (x : ℝ) : |1000000000 * x - weightOf x| ≤ 1 / 2 := abs_sub_round _
  have below : ∑ p ∈ pairs, (1000000000 * cost p.1 p.2 - 1 / 2) ≤
      ∑ p ∈ pairs, (weightOf (cost p.1 p.2) : ℝ) :=
    Finset.sum_le_sum fun p _ => by linarith [(abs_le.mp (near (cost p.1 p.2))).2]
  have above : ∑ p ∈ others, (weightOf (cost p.1 p.2) : ℝ) ≤
      ∑ p ∈ others, (1000000000 * cost p.1 p.2 + 1 / 2) :=
    Finset.sum_le_sum fun p _ => by linarith [(abs_le.mp (near (cost p.1 p.2))).1]
  have between : ∑ p ∈ pairs, (weightOf (cost p.1 p.2) : ℝ) ≤
      ∑ p ∈ others, (weightOf (cost p.1 p.2) : ℝ) := by exact_mod_cast lighter
  rw [Finset.sum_sub_distrib, ← Finset.mul_sum, Finset.sum_const, count, nsmul_eq_mul] at below
  rw [Finset.sum_add_distrib, ← Finset.mul_sum, Finset.sum_const, otherCount, nsmul_eq_mul] at above
  linarith

theorem capped_eq_self (light : ∀ i j, cost i j ≤ heaviest) : capped cost = cost := by
  ext i j
  exact min_eq_left (light i j)

theorem capped_le (cost : Matrix (Fin n) (Fin m) ℝ) (i : Fin n) (j : Fin m) :
    capped cost i j ≤ cost i j :=
  min_le_left _ _

theorem capped_nonneg (nonneg : ∀ i j, 0 ≤ cost i j) (i : Fin n) (j : Fin m) :
    0 ≤ capped cost i j :=
  le_min (nonneg i j) (by norm_num [heaviest])

theorem sum_capped_of_lt (nonneg : ∀ i j, 0 ≤ cost i j) {pairs : Finset (Fin n × Fin m)}
    (light : ∑ p ∈ pairs, capped cost p.1 p.2 < heaviest) :
    ∑ p ∈ pairs, capped cost p.1 p.2 = ∑ p ∈ pairs, cost p.1 p.2 := by
  refine Finset.sum_congr rfl fun p member => ?_
  have single : capped cost p.1 p.2 ≤ ∑ p ∈ pairs, capped cost p.1 p.2 :=
    Finset.single_le_sum (fun q _ => capped_nonneg nonneg q.1 q.2) member
  exact min_eq_left (le_of_not_ge fun heavy => (single.trans_lt light).ne (min_eq_right heavy))

theorem isNearlyLeast_chosen (nonneg : ∀ i j, 0 ≤ cost i j)
    (minimal : solver.MinimalFor ((prices (Mat.ofReal cost) .infinity).map weight)) :
    IsNearlyLeast (capped cost)
      (solver.chosenPairs ((prices (Mat.ofReal cost) .infinity).map weight)).toFinset := by
  have below (i : Fin n) (j : Fin m) :
      ((prices (Mat.ofReal cost) .infinity).map weight).entry i j ≤ 2 ^ 63 - 1 := by
    rw [weights_ungated nonneg, ← weightOf_heaviest]
    exact weightOf_mono (min_le_right _ _)
  refine ⟨(minimal.chosenPairs below).1, solver.card_chosenPairs _, fun others isPartial count => ?_⟩
  have lighter := minimal.sum_chosenPairs_le below isPartial count
  simp only [weights_ungated nonneg] at lighter
  exact sum_le_of_sum_weightOf_le (solver.card_chosenPairs _) count lighter

/-- What a matching without a gate promises: its pairs are as many as can be, each at its own cost,
and nearly least. Costs that are too heavy to be told apart count as equally heavy. -/
structure MatchesUngated (cost : Matrix (Fin n) (Fin m) ℝ) (found : Matching Exact)
    (pairs : Finset (Fin n × Fin m)) : Prop where
  ownCosts : found.pairs.Perm (pairs.toList.map fun p => ⟨p.1, p.2, .finite (cost p.1 p.2)⟩)
  weighed : IsNearlyLeast (capped cost) pairs
  light : (∀ i j, cost i j ≤ heaviest) → IsNearlyLeast cost pairs
  against : ∀ others, IsPartialAssignment others → others.card = min n m →
    ∑ p ∈ others, cost p.1 p.2 + (min n m : Nat) * 1e-9 < heaviest →
      ∑ p ∈ pairs, cost p.1 p.2 ≤ ∑ p ∈ others, cost p.1 p.2 + (min n m : Nat) * 1e-9

/-- An infinite gate lets a solver that is optimal on the weights match all it can. -/
theorem exists_matchesUngated (nonempty : ¬ (n = 0 ∨ m = 0)) (nonneg : ∀ i j, 0 ≤ cost i j)
    (minimal : solver.MinimalFor ((prices (Mat.ofReal cost) .infinity).map weight)) :
    ∃ found pairs, minCostMatching solver (Mat.ofReal cost) .infinity = .ok found ∧
      MatchesUngated cost found pairs := by
  have weighed := isNearlyLeast_chosen nonneg minimal
  refine ⟨_, _, minCostMatching_ungated nonempty nonneg solver, ?_, weighed, ?_, ?_⟩
  · exact (List.mergeSort_perm _ _).trans
      ((List.toFinset_toList (solver.nodup_chosenPairs _)).symm.map _)
  · intro light
    rwa [capped_eq_self light] at weighed
  · intro others isPartial count light
    have near := weighed.least others isPartial count
    have below : ∑ p ∈ others, capped cost p.1 p.2 ≤ ∑ p ∈ others, cost p.1 p.2 :=
      Finset.sum_le_sum fun p _ => capped_le cost p.1 p.2
    rw [sum_capped_of_lt nonneg (by linarith)] at near
    linarith

theorem minimalFor_of_isOptimal (optimal : solver.IsOptimal) (nonneg : ∀ i j, 0 ≤ cost i j)
    {bound : ℝ} (within : ∀ i j, cost i j ≤ bound)
    (small : (min n m : Nat) * weightOf bound < 2 ^ 62) :
    solver.MinimalFor ((prices (Mat.ofReal cost) .infinity).map weight) := by
  refine optimal.minimalFor (fun i j => ?_) small
  rw [weights_ungated nonneg]
  exact ⟨weightOf_nonneg (capped_nonneg nonneg i j),
    weightOf_mono ((capped_le cost i j).trans (within i j))⟩

/-- Three tracks and two observations, of which the cheapest pair is not in the least total. -/
theorem exists_matchesUngated_three :
    let cost : Matrix (Fin 3) (Fin 2) ℝ := !![1, 2; 2, 4; 7, 7]
    (¬ (3 = 0 ∨ 2 = 0)) ∧ (∀ i j, 0 ≤ cost i j) ∧
      Solver.exhaustive.MinimalFor ((prices (Mat.ofReal cost) .infinity).map weight) ∧
      ∃ found pairs, minCostMatching .exhaustive (Mat.ofReal cost) .infinity = .ok found ∧
        MatchesUngated cost found pairs := by
  intro cost
  have nonneg (i : Fin 3) (j : Fin 2) : 0 ≤ cost i j := by
    fin_cases i <;> fin_cases j <;> norm_num [cost]
  have within (i : Fin 3) (j : Fin 2) : cost i j ≤ 7 := by
    fin_cases i <;> fin_cases j <;> norm_num [cost]
  have small : (min 3 2 : Nat) * weightOf 7 < 2 ^ 62 := by
    rw [weightOf_of_whole (k := 7000000000) (by norm_num)]
    norm_num
  have minimal := minimalFor_of_isOptimal Solver.exhaustive_isOptimal nonneg within small
  exact ⟨by decide, nonneg, minimal, exists_matchesUngated (by decide) nonneg minimal⟩

def heavy : Matrix (Fin 1) (Fin 2) ℝ :=
  !![20000000000, 10000000000]

theorem heavy_nonneg (i : Fin 1) (j : Fin 2) : 0 ≤ heavy i j := by
  fin_cases i
  fin_cases j <;> norm_num [heavy]

theorem weights_heavy : (prices (Mat.ofReal heavy) .infinity).map weight =
    .ofFn fun _ _ => 2 ^ 63 - 1 := by
  refine Mat.ext fun i j => ?_
  have above : heaviest ≤ heavy i j := by
    fin_cases i
    fin_cases j <;> norm_num [heavy, heaviest]
  rw [weights_ungated heavy_nonneg, Mat.entry_ofFn, ← weightOf_heaviest]
  exact congrArg weightOf (min_eq_right above)

/-- The solver is optimal on the weights of the heavy costs, and yet the dearer one is matched. -/
theorem minCostMatching_heavy :
    Solver.augmentingPaths.MinimalFor ((prices (Mat.ofReal heavy) .infinity).map weight) ∧
      minCostMatching .augmentingPaths (Mat.ofReal heavy) .infinity =
        .ok ⟨[⟨0, 0, .finite 20000000000⟩], [], [1]⟩ ∧
      ¬ IsNearlyLeast heavy {(0, 0)} := by
  refine ⟨?_, ?_, fun near => ?_⟩
  · rw [weights_heavy]
    unfold Solver.MinimalFor
    rw [dif_pos (by decide)]
    refine ⟨Function.injective_of_subsingleton _, fun f _ => ?_⟩
    simp only [Mat.entry_ofFn, le_refl]
  · have chosen : Solver.augmentingPaths.chosenPairs
        (.ofFn fun _ _ => 2 ^ 63 - 1 : Mat 1 2 Int) = [(0, 0)] := by decide +kernel
    rw [minCostMatching_ungated (by decide) heavy_nonneg, weights_heavy, chosen,
      List.map_singleton, List.mergeSort_singleton]
    rfl
  · have other : IsPartialAssignment ({(0, 1)} : Finset (Fin 1 × Fin 2)) :=
      ⟨by simp, by simp⟩
    have least := near.least {(0, 1)} other rfl
    norm_num [heavy] at least

end Gate

end

end TrackFusion
