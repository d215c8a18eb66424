import TrackFusion.Proofs.Assignment.Gate
import TrackFusion.Proofs.Assignment.Optimal

/-!
What costs beyond a finite gate do to a matching.

A cost of at least the excluded price counts as an infinite one, so that its size is of no account,
whatever the solver is. A cost that exceeds the gate by less than the margin keeps a price of its
own. Its pair is dropped like every other beyond the gate, but the solver may choose it for being
cheaper than another pair that is dropped as well, and take a dearer match into the bargain. For
every match that is not made this loses less than the margin.
-/

set_option autoImplicit false
set_option relaxedAutoImplicit false

open Finset

namespace TrackFusion

variable {n m : Nat}

namespace Gate

/-- The costs, with an infinite one in place of each that exceeds a bound. -/
def cutOff {ρ : Type} [ExtendedScalar ρ] (cost : Mat n m ρ) (bound : ρ) : Mat n m ρ :=
  cost.map fun c => if bound < c then ExtendedScalar.infinity else c

noncomputable section

def realPrice (g : ℝ) : Exact → ℝ
  | .finite x => max 0 (min x (g + 1e-5))
  | _ => g + 1e-5

variable {g : ℝ} {cost cost' : Mat n m Exact}

theorem realPrice_finite (g x : ℝ) : realPrice g (.finite x) = max 0 (min x (g + 1e-5)) :=
  rfl

theorem realPrice_of_le (nonneg : 0 ≤ g) {x : ℝ} (far : g + 1e-5 ≤ x) :
    realPrice g (.finite x) = g + 1e-5 := by
  have above : 0 ≤ g + 1e-5 := by positivity
  rw [realPrice_finite, min_eq_right far, max_eq_right above]

theorem price_eq_finite (nonneg : 0 ≤ g) (c : Exact) :
    price (.finite (g + 1e-5)) c = .finite (realPrice g c) := by
  cases c with
  | finite x =>
    have above : 0 < g + 1e-5 := by positivity
    rw [price_finite, realPrice_finite]
    split_ifs with low high
    · rw [min_eq_left (low.le.trans above.le), max_eq_left low.le]
    · rw [min_eq_right high.le, max_eq_right above.le]
    · rw [min_eq_left (not_lt.mp high), max_eq_right (not_lt.mp low)]
  | undefined => exact price_of_not_finite rfl
  | negInfinity => exact price_of_not_finite rfl
  | infinity => exact price_of_not_finite rfl

theorem realPrice_nonneg (nonneg : 0 ≤ g) (c : Exact) : 0 ≤ realPrice g c := by
  cases c with
  | finite x => exact le_max_left 0 _
  | _ =>
    change 0 ≤ g + 1e-5
    positivity

theorem realPrice_le (nonneg : 0 ≤ g) (c : Exact) : realPrice g c ≤ g + 1e-5 := by
  cases c with
  | finite x =>
    have above : 0 ≤ g + 1e-5 := by positivity
    exact max_le above (min_le_right _ _)
  | _ => exact le_refl (g + 1e-5)

theorem realPrice_le_gate_iff (nonneg : 0 ≤ g) {c : Exact} :
    realPrice g c ≤ g ↔ ∃ x, c = .finite x ∧ x ≤ g := by
  have beyond : ¬ g + 1e-5 ≤ g := by norm_num
  cases c with
  | finite x =>
    rw [realPrice_finite]
    constructor
    · intro within
      have lower : min x (g + 1e-5) ≤ g := (le_max_right _ _).trans within
      exact ⟨x, rfl, (min_le_iff.mp lower).resolve_right beyond⟩
    · rintro ⟨_, ⟨rfl⟩, within⟩
      exact max_le nonneg ((min_le_left _ _).trans within)
  | _ =>
    constructor
    · intro within
      exact absurd within beyond
    · rintro ⟨x, infinite, -⟩
      cases infinite

theorem entry_prices (nonneg : 0 ≤ g) (cost : Mat n m Exact) (i : Fin n) (j : Fin m) :
    (prices cost (.finite g)).entry i j = .finite (realPrice g (cost.entry i j)) := by
  unfold prices
  rw [Mat.entry_map, excludedPrice_finite, price_eq_finite nonneg]

theorem keep?_eq_ite (nonneg : 0 ≤ g) (cost : Mat n m Exact) (p : Fin n × Fin m) :
    keep? cost (prices cost (.finite g)) (.finite g) p =
      if realPrice g (cost.entry p.1 p.2) ≤ g then
        some ⟨p.1, p.2, .finite (realPrice g (cost.entry p.1 p.2))⟩
      else none := by
  unfold keep?
  simp only [entry_prices nonneg, Exact.finite_le_finite]
  refine if_congr (and_iff_right_of_imp fun within => ?_) rfl rfl
  obtain ⟨x, finite, -⟩ := (realPrice_le_gate_iff nonneg).mp within
  rw [finite, Exact.isFinite_finite]

theorem filterMap_keep? (nonneg : 0 ≤ g) (cost : Mat n m Exact) (pairs : List (Fin n × Fin m)) :
    pairs.filterMap (keep? cost (prices cost (.finite g)) (.finite g)) =
      (pairs.filter fun p => realPrice g (cost.entry p.1 p.2) ≤ g).map fun p =>
        ⟨p.1, p.2, .finite (realPrice g (cost.entry p.1 p.2))⟩ := by
  induction pairs with
  | nil => rfl
  | cons p rest ih =>
    rw [List.filterMap_cons, keep?_eq_ite nonneg, ih]
    by_cases within : realPrice g (cost.entry p.1 p.2) ≤ g
    · simp only [within, if_true, List.filter_cons, decide_true, List.map_cons]
    · simp only [within, if_false, List.filter_cons, decide_false, Bool.false_eq_true]

theorem minCostMatching_finite (nonneg : 0 ≤ g) (nonempty : ¬ (n = 0 ∨ m = 0)) (solver : Solver)
    (cost : Mat n m Exact) : minCostMatching solver cost (.finite g) = .ok (.ofPairs n m
      (List.mergeSort
        (((solver.chosenPairs ((prices cost (.finite g)).map weight)).filter fun p =>
            realPrice g (cost.entry p.1 p.2) ≤ g).map fun p =>
          ⟨p.1, p.2, .finite (realPrice g (cost.entry p.1 p.2))⟩)
        fun a b => a.track ≤ b.track)) := by
  rw [minCostMatching_eq solver cost nonempty (Exact.isNaN_finite g)
    (Exact.not_finite_lt_zero nonneg), filterMap_keep? nonneg]

theorem minCostMatching_of_realPrice_eq (nonneg : 0 ≤ g) (solver : Solver)
    (same : ∀ i j, realPrice g (cost'.entry i j) = realPrice g (cost.entry i j)) :
    minCostMatching solver cost' (.finite g) = minCostMatching solver cost (.finite g) := by
  refine minCostMatching_congr (Mat.ext fun i j => ?_) fun p => ?_
  · rw [Mat.entry_map, Mat.entry_map, entry_prices nonneg, entry_prices nonneg, same]
  · rw [keep?_eq_ite nonneg, keep?_eq_ite nonneg, same]

theorem entry_cutOff (cost : Mat n m Exact) (b : ℝ) (i : Fin n) (j : Fin m) :
    (∃ x, cost.entry i j = .finite x ∧ x ≤ b ∧ (cutOff cost (.finite b)).entry i j = .finite x) ∨
      (∃ x, cost.entry i j = .finite x ∧ b < x ∧ (cutOff cost (.finite b)).entry i j = .infinity) ∨
      Scalar.isFinite (cost.entry i j) = false ∧
        (cutOff cost (.finite b)).entry i j = cost.entry i j := by
  have cut : (cutOff cost (.finite b)).entry i j =
      if .finite b < cost.entry i j then .infinity else cost.entry i j := Mat.entry_map _ _ i j
  rw [cut]
  cases cost.entry i j with
  | finite x =>
    rcases lt_or_ge b x with above | within
    · exact .inr (.inl ⟨x, rfl, above, if_pos (Exact.finite_lt_finite.mpr above)⟩)
    · refine .inl ⟨x, rfl, within, if_neg ?_⟩
      rw [Exact.finite_lt_finite]
      exact not_lt.mpr within
  | infinity => exact .inr (.inr ⟨rfl, ite_self _⟩)
  | undefined => exact .inr (.inr ⟨rfl, if_neg (Exact.not_lt_undefined _)⟩)
  | negInfinity => exact .inr (.inr ⟨rfl, if_neg fun above => above.1.elim⟩)

theorem realPrice_of_not_finite {c : Exact} (infinite : Scalar.isFinite c = false) :
    realPrice g c = g + 1e-5 := by
  cases c with
  | finite x => cases infinite
  | _ => rfl

theorem realPrice_cutOff (nonneg : 0 ≤ g) {b : ℝ} {i : Fin n} {j : Fin m}
    (clear : ∀ x, cost.entry i j = .finite x → b < x → g + 1e-5 ≤ x) :
    realPrice g ((cutOff cost (.finite b)).entry i j) = realPrice g (cost.entry i j) := by
  rcases entry_cutOff cost b i j with ⟨x, finite, -, same⟩ | ⟨x, finite, above, cut⟩ | ⟨-, same⟩
  · rw [same, finite]
  · rw [cut, finite, realPrice_of_le nonneg (clear x finite above)]
    exact realPrice_of_not_finite rfl
  · rw [same]

theorem entry_cutOff_of_kept (nonneg : 0 ≤ g) {i : Fin n} {j : Fin m}
    (kept : realPrice g (cost.entry i j) ≤ g) :
    (cutOff cost (.finite g)).entry i j = cost.entry i j := by
  obtain ⟨x, finite, within⟩ := (realPrice_le_gate_iff nonneg).mp kept
  have cut : (cutOff cost (.finite g)).entry i j =
      if .finite g < cost.entry i j then .infinity else cost.entry i j := Mat.entry_map _ _ i j
  rw [cut, finite, if_neg (by rw [Exact.finite_lt_finite]; exact not_lt.mpr within)]

theorem realPrice_le_cutOff (nonneg : 0 ≤ g) (cost : Mat n m Exact) (i : Fin n) (j : Fin m) :
    realPrice g (cost.entry i j) ≤ realPrice g ((cutOff cost (.finite g)).entry i j) := by
  rcases entry_cutOff cost g i j with ⟨x, finite, -, same⟩ | ⟨x, -, -, cut⟩ | ⟨-, same⟩
  · rw [same, finite]
  · rw [cut]
    exact realPrice_le nonneg _
  · rw [same]

theorem realPrice_cutOff_of_dropped (nonneg : 0 ≤ g) {i : Fin n} {j : Fin m}
    (dropped : ¬ realPrice g ((cutOff cost (.finite g)).entry i j) ≤ g) :
    realPrice g ((cutOff cost (.finite g)).entry i j) = g + 1e-5 := by
  rcases entry_cutOff cost g i j with ⟨x, -, within, same⟩ | ⟨x, -, -, cut⟩ | ⟨infinite, same⟩
  · rw [same] at dropped
    exact absurd ((realPrice_le_gate_iff nonneg).mpr ⟨x, rfl, within⟩) dropped
  · rw [cut]
    exact realPrice_of_not_finite rfl
  · rw [same, realPrice_of_not_finite infinite]

theorem entry_weights (nonneg : 0 ≤ g) (small : (min n m : Nat) * weightOf (g + 1e-5) < 2 ^ 62)
    (cost : Mat n m Exact) (i : Fin n) (j : Fin m) :
    ((prices cost (.finite g)).map weight).entry i j = weightOf (realPrice g (cost.entry i j)) := by
  have some : 1 ≤ ((min n m : Nat) : ℤ) := by
    have := i.isLt
    have := j.isLt
    omega
  have above : 0 ≤ weightOf (g + 1e-5) := weightOf_nonneg (by positivity)
  have fits : weightOf (g + 1e-5) < 2 ^ 63 := by nlinarith
  rw [Mat.entry_map, entry_prices nonneg]
  exact weight_finite (realPrice_nonneg nonneg _)
    ((weightOf_mono (realPrice_le nonneg _)).trans_lt fits)

/-- The weight of a pair against that of an excluded one. -/
def relativeWeight (g : ℝ) (c : Exact) : ℤ :=
  weightOf (realPrice g c) - weightOf (g + 1e-5)

theorem relativeWeight_mono {c d : Exact} (below : realPrice g c ≤ realPrice g d) :
    relativeWeight g c ≤ relativeWeight g d :=
  Int.sub_le_sub_right (weightOf_mono below) _

theorem relativeWeight_of_excluded {c : Exact} (excluded : realPrice g c = g + 1e-5) :
    relativeWeight g c = 0 := by
  unfold relativeWeight
  rw [excluded, Int.sub_self]

/-- Within the margin a pair that is dropped may weigh less than an excluded one, though not by more
than the margin. -/
theorem le_relativeWeight {c : Exact} (dropped : ¬ realPrice g c ≤ g) :
    -10000 ≤ relativeWeight g c := by
  have heavier := weightOf_mono (not_le.mp dropped).le
  unfold relativeWeight
  rw [weightOf_add_margin]
  omega

theorem realPrice_realPrice (nonneg : 0 ≤ g) (c : Exact) :
    realPrice g (.finite (realPrice g c)) = realPrice g c := by
  rw [realPrice_finite, min_eq_left (realPrice_le nonneg c), max_eq_right (realPrice_nonneg nonneg c)]

def kept (cost : Mat n m Exact) (g : ℝ) (pairs : Finset (Fin n × Fin m)) :
    Finset (Fin n × Fin m) :=
  pairs.filter fun p => realPrice g (cost.entry p.1 p.2) ≤ g

def totalWeight (cost : Mat n m Exact) (g : ℝ) (pairs : Finset (Fin n × Fin m)) : ℤ :=
  ∑ p ∈ pairs, relativeWeight g (cost.entry p.1 p.2)

def chosen (solver : Solver) (cost : Mat n m Exact) (g : ℝ) : Finset (Fin n × Fin m) :=
  (solver.chosenPairs ((prices cost (.finite g)).map weight)).toFinset

theorem card_chosen (solver : Solver) (cost : Mat n m Exact) (g : ℝ) :
    (chosen solver cost g).card = min n m :=
  solver.card_chosenPairs _

theorem totalWeight_kept_le (cost : Mat n m Exact) (pairs : Finset (Fin n × Fin m)) :
    totalWeight cost g (kept cost g pairs) ≤
      totalWeight cost g pairs + 10000 * (pairs.card - (kept cost g pairs).card) := by
  have parts := Finset.sum_filter_add_sum_filter_not pairs
    (fun p => realPrice g (cost.entry p.1 p.2) ≤ g) fun p => relativeWeight g (cost.entry p.1 p.2)
  have counts := Finset.card_filter_add_card_filter_not (s := pairs)
    fun p => realPrice g (cost.entry p.1 p.2) ≤ g
  have dropped := Finset.card_nsmul_le_sum
    (pairs.filter fun p => ¬ realPrice g (cost.entry p.1 p.2) ≤ g)
    (fun p => relativeWeight g (cost.entry p.1 p.2)) (-10000)
    fun p member => le_relativeWeight (Finset.mem_filter.mp member).2
  rw [nsmul_eq_mul] at dropped
  unfold totalWeight kept
  push_cast [← counts]
  linarith

theorem totalWeight_kept_cutOff (nonneg : 0 ≤ g) (cost : Mat n m Exact)
    (pairs : Finset (Fin n × Fin m)) :
    totalWeight (cutOff cost (.finite g)) g (kept (cutOff cost (.finite g)) g pairs) =
      totalWeight (cutOff cost (.finite g)) g pairs := by
  refine Finset.sum_filter_of_ne fun p _ counts => ?_
  by_contra dropped
  exact counts (relativeWeight_of_excluded (realPrice_cutOff_of_dropped nonneg dropped))

theorem totalWeight_cutOff_kept (nonneg : 0 ≤ g) (cost : Mat n m Exact)
    (pairs : Finset (Fin n × Fin m)) :
    totalWeight (cutOff cost (.finite g)) g (kept cost g pairs) =
      totalWeight cost g (kept cost g pairs) :=
  Finset.sum_congr rfl fun p member => by
    rw [entry_cutOff_of_kept nonneg (Finset.mem_filter.mp member).2]

theorem totalWeight_le_cutOff (nonneg : 0 ≤ g) (cost : Mat n m Exact)
    (pairs : Finset (Fin n × Fin m)) :
    totalWeight cost g pairs ≤ totalWeight (cutOff cost (.finite g)) g pairs :=
  Finset.sum_le_sum fun p _ => relativeWeight_mono (realPrice_le_cutOff nonneg cost p.1 p.2)

end

end Gate

noncomputable section

def Matching.excess (found : Matching Exact) (g : ℝ) : ℤ :=
  (found.pairs.map fun k => Gate.relativeWeight g k.cost).sum

namespace Gate

variable {g : ℝ} {cost : Mat n m Exact} {solver : Solver} {found : Matching Exact}

theorem exists_perm_kept (nonneg : 0 ≤ g) (solver : Solver) (cost : Mat n m Exact) :
    ∃ found, minCostMatching solver cost (.finite g) = .ok found ∧ found.pairs.Perm
      ((kept cost g (chosen solver cost g)).toList.map fun p =>
        ⟨p.1, p.2, .finite (realPrice g (cost.entry p.1 p.2))⟩) := by
  by_cases empty : n = 0 ∨ m = 0
  · have none : chosen solver cost g = ∅ := by
      rw [← Finset.card_eq_zero, card_chosen]
      omega
    refine ⟨.ofPairs n m [], if_pos empty, ?_⟩
    unfold kept
    rw [none, Finset.filter_empty, Finset.toList_empty]
    exact .nil
  · refine ⟨_, minCostMatching_finite nonneg empty solver cost, (List.mergeSort_perm _ _).trans ?_⟩
    have once := solver.nodup_chosenPairs ((prices cost (.finite g)).map weight)
    unfold chosen
    generalize solver.chosenPairs ((prices cost (.finite g)).map weight) = pairs at once
    have listed : kept cost g pairs.toFinset =
        (pairs.filter fun p => realPrice g (cost.entry p.1 p.2) ≤ g).toFinset := by
      unfold kept
      rw [List.toFinset_filter]
      simp only [decide_eq_true_eq]
    rw [listed]
    exact (List.toFinset_toList (once.filter _)).symm.map _

theorem exists_excess_eq (nonneg : 0 ≤ g) (solver : Solver) (cost : Mat n m Exact) :
    ∃ found, minCostMatching solver cost (.finite g) = .ok found ∧
      found.pairs.length = (kept cost g (chosen solver cost g)).card ∧
      found.excess g = totalWeight cost g (kept cost g (chosen solver cost g)) := by
  obtain ⟨found, matched, filtered⟩ := exists_perm_kept nonneg solver cost
  refine ⟨found, matched, ?_, ?_⟩
  · rw [filtered.length_eq, List.length_map, Finset.length_toList]
  · have sameWeight (c : Exact) : relativeWeight g (.finite (realPrice g c)) = relativeWeight g c := by
      unfold relativeWeight
      rw [realPrice_realPrice nonneg]
    unfold Matching.excess totalWeight
    rw [(filtered.map _).sum_eq, List.map_map, Finset.sum_map_toList]
    simp only [Function.comp_apply, sameWeight]

theorem weights_mem (nonneg : 0 ≤ g) (small : (min n m : Nat) * weightOf (g + 1e-5) < 2 ^ 62)
    (cost : Mat n m Exact) (i : Fin n) (j : Fin m) :
    0 ≤ ((prices cost (.finite g)).map weight).entry i j ∧
      ((prices cost (.finite g)).map weight).entry i j ≤ weightOf (g + 1e-5) := by
  rw [entry_weights nonneg small]
  exact ⟨weightOf_nonneg (realPrice_nonneg nonneg _), weightOf_mono (realPrice_le nonneg _)⟩

theorem totalWeight_chosen_le (nonneg : 0 ≤ g) (optimal : solver.IsOptimal)
    (small : (min n m : Nat) * weightOf (g + 1e-5) < 2 ^ 62) (cost : Mat n m Exact) :
    IsPartialAssignment (chosen solver cost g) ∧ ∀ pairs, IsPartialAssignment pairs →
      totalWeight cost g (chosen solver cost g) ≤ totalWeight cost g pairs := by
  have least := optimal.chosenPairs (weights_mem nonneg small cost) small
  simp only [entry_weights nonneg small] at least
  exact least

theorem cutOff_le_totalWeight (nonneg : 0 ≤ g) (optimal : solver.IsOptimal)
    (small : (min n m : Nat) * weightOf (g + 1e-5) < 2 ^ 62) (cost : Mat n m Exact) :
    let cut := cutOff cost (.finite g)
    totalWeight cut g (kept cut g (chosen solver cut g)) ≤
      totalWeight cost g (kept cost g (chosen solver cost g)) := by
  intro cut
  obtain ⟨isPartial, -⟩ := totalWeight_chosen_le nonneg optimal small cost
  obtain ⟨-, least⟩ := totalWeight_chosen_le nonneg optimal small cut
  calc totalWeight cut g (kept cut g (chosen solver cut g))
      = totalWeight cut g (chosen solver cut g) := totalWeight_kept_cutOff nonneg cost _
    _ ≤ totalWeight cut g (kept cost g (chosen solver cost g)) :=
      least _ (isPartial.mono (Finset.filter_subset _ _))
    _ = totalWeight cost g (kept cost g (chosen solver cost g)) :=
      totalWeight_cutOff_kept nonneg cost _

/-- For every match that it does not make, a matching of all the costs is heavier by the margin at
most. -/
theorem totalWeight_le_cutOff_add (nonneg : 0 ≤ g) (optimal : solver.IsOptimal)
    (small : (min n m : Nat) * weightOf (g + 1e-5) < 2 ^ 62) (cost : Mat n m Exact) :
    let cut := cutOff cost (.finite g)
    totalWeight cost g (kept cost g (chosen solver cost g)) ≤
      totalWeight cut g (kept cut g (chosen solver cut g)) +
        10000 * ((min n m : Nat) - (kept cost g (chosen solver cost g)).card) := by
  intro cut
  obtain ⟨-, least⟩ := totalWeight_chosen_le nonneg optimal small cost
  obtain ⟨isPartial, -⟩ := totalWeight_chosen_le nonneg optimal small cut
  have dropped := totalWeight_kept_le (g := g) cost (chosen solver cost g)
  rw [card_chosen] at dropped
  refine dropped.trans (Int.add_le_add_right ?_ _)
  calc totalWeight cost g (chosen solver cost g)
      ≤ totalWeight cost g (chosen solver cut g) := least _ isPartial
    _ ≤ totalWeight cut g (chosen solver cut g) := totalWeight_le_cutOff nonneg cost _
    _ = totalWeight cut g (kept cut g (chosen solver cut g)) :=
      (totalWeight_kept_cutOff nonneg cost _).symm

/-- What the costs beyond a finite gate do to a matching. Excesses are in steps of weight; the margin
is worth 10000 of them. -/
structure Disregards (solver : Solver) (cost : Mat n m Exact) (g : ℝ) : Prop where
  matched : ∃ found, minCostMatching solver cost (.finite g) = .ok found ∧ ∀ k ∈ found.pairs,
    ∃ (i : Fin n) (j : Fin m) (x : ℝ),
      k.track = i ∧ k.observation = j ∧ cost.entry i j = .finite x ∧ x ≤ g
  beyondMargin : minCostMatching solver (cutOff cost (.finite (g + 1e-5))) (.finite g) =
    minCostMatching solver cost (.finite g)
  clearMargin : (∀ i j x, cost.entry i j = .finite x → g < x → g + 1e-5 ≤ x) →
    minCostMatching solver (cutOff cost (.finite g)) (.finite g) =
      minCostMatching solver cost (.finite g)
  /-- Costs within the margin may cost the margin for every match that is not made. -/
  withinMargin : solver.IsOptimal → (min n m : Nat) * weightOf (g + 1e-5) < 2 ^ 62 →
    ∃ found cut, minCostMatching solver cost (.finite g) = .ok found ∧
      minCostMatching solver (cutOff cost (.finite g)) (.finite g) = .ok cut ∧
      cut.excess g ≤ found.excess g ∧
      found.excess g ≤ cut.excess g + 10000 * ((min n m : Nat) - found.pairs.length)

/-- Costs beyond the margin are disregarded with every solver. Those within it add to the matches of
an optimal one, for each that is not made, the margin at most. -/
theorem disregards_of_nonneg (nonneg : 0 ≤ g) (solver : Solver) (cost : Mat n m Exact) :
    Disregards solver cost g where
  matched := by
    obtain ⟨found, matched, filtered⟩ := exists_perm_kept nonneg solver cost
    refine ⟨found, matched, fun k member => ?_⟩
    obtain ⟨p, paired, rfl⟩ := List.mem_map.mp (filtered.mem_iff.mp member)
    have within := (Finset.mem_filter.mp (Finset.mem_toList.mp paired)).2
    obtain ⟨x, finite, below⟩ := (realPrice_le_gate_iff nonneg).mp within
    exact ⟨p.1, p.2, x, rfl, rfl, finite, below⟩
  beyondMargin :=
    minCostMatching_of_realPrice_eq nonneg solver fun _ _ =>
      realPrice_cutOff nonneg fun _ _ above => above.le
  clearMargin clear :=
    minCostMatching_of_realPrice_eq nonneg solver fun i j => realPrice_cutOff nonneg (clear i j)
  withinMargin optimal small := by
    obtain ⟨found, matched, count, total⟩ := exists_excess_eq nonneg solver cost
    obtain ⟨cut, cutMatched, -, cutTotal⟩ :=
      exists_excess_eq nonneg solver (cutOff cost (.finite g))
    refine ⟨found, cut, matched, cutMatched, ?_, ?_⟩
    · rw [total, cutTotal]
      exact cutOff_le_totalWeight nonneg optimal small cost
    · rw [total, cutTotal, count]
      exact totalWeight_le_cutOff_add nonneg optimal small cost

/-- Two tracks and two observations. Under a gate of one, the second track can be matched with
neither, and its cost with the second observation is within the margin. -/
def steering : Mat 2 2 Exact :=
  .ofFn ![![.finite 0.500005, .finite 0.5], ![.infinity, .finite 1.000001]]

theorem small_steering : (min 2 2 : Nat) * weightOf (1 + 1e-5) < 2 ^ 62 := by
  rw [weightOf_of_whole (k := 1000010000) (by norm_num)]
  norm_num

theorem disregards_steering : (0 : ℝ) ≤ 1 ∧ Solver.exhaustive.IsOptimal ∧
    ((min 2 2 : Nat) * weightOf (1 + 1e-5) < 2 ^ 62) ∧ ∃ found cut,
      minCostMatching .exhaustive steering (.finite 1) = .ok found ∧
      minCostMatching .exhaustive (cutOff steering (.finite 1)) (.finite 1) = .ok cut ∧
      cut.excess 1 ≤ found.excess 1 ∧
      found.excess 1 ≤ cut.excess 1 + 10000 * ((min 2 2 : Nat) - found.pairs.length) := by
  have nonneg : (0 : ℝ) ≤ 1 := zero_le_one
  have optimal : Solver.exhaustive.IsOptimal := Solver.exhaustive_isOptimal
  exact ⟨nonneg, optimal, small_steering,
    (disregards_of_nonneg nonneg .exhaustive steering).withinMargin optimal small_steering⟩

theorem cutOff_steering : cutOff steering (.finite 1) =
    .ofFn ![![.finite 0.500005, .finite 0.5], ![.infinity, .infinity]] := by
  refine Mat.ext fun i j => ?_
  unfold cutOff steering
  rw [Mat.entry_map, Mat.entry_ofFn, Mat.entry_ofFn]
  fin_cases i <;> fin_cases j
  · exact if_neg (by norm_num [Exact.finite_lt_finite])
  · exact if_neg (by norm_num [Exact.finite_lt_finite])
  · exact ite_self _
  · exact if_pos (by norm_num [Exact.finite_lt_finite])

theorem realPrice_steering (i j : Fin 2) : realPrice 1 (steering.entry i j) =
    ![![0.500005, 0.5], ![1.00001, 1.000001]] i j := by
  unfold steering
  rw [Mat.entry_ofFn]
  fin_cases i <;> fin_cases j <;> norm_num [realPrice]

theorem realPrice_cutOff_steering (i j : Fin 2) :
    realPrice 1 ((cutOff steering (.finite 1)).entry i j) =
      ![![0.500005, 0.5], ![1.00001, 1.00001]] i j := by
  rw [cutOff_steering, Mat.entry_ofFn]
  fin_cases i <;> fin_cases j <;> norm_num [realPrice]

theorem weights_of_whole {cost : Mat 2 2 Exact} {weights : Fin 2 → Fin 2 → ℤ}
    (whole : ∀ i j, 1000000000 * realPrice 1 (cost.entry i j) = weights i j) :
    (prices cost (.finite 1)).map weight = .ofFn weights := by
  refine Mat.ext fun i j => ?_
  rw [entry_weights zero_le_one small_steering, Mat.entry_ofFn, weightOf_of_whole (whole i j)]

theorem weights_steering : (prices steering (.finite 1)).map weight =
    .ofFn ![![500005000, 500000000], ![1000010000, 1000001000]] := by
  refine weights_of_whole fun i j => ?_
  rw [realPrice_steering]
  fin_cases i <;> fin_cases j <;> norm_num

theorem weights_cutOff_steering : (prices (cutOff steering (.finite 1)) (.finite 1)).map weight =
    .ofFn ![![500005000, 500000000], ![1000010000, 1000010000]] := by
  refine weights_of_whole fun i j => ?_
  rw [realPrice_cutOff_steering]
  fin_cases i <;> fin_cases j <;> norm_num

theorem minCostMatching_steering : minCostMatching .augmentingPaths steering (.finite 1) =
    .ok ⟨[⟨0, 0, .finite 0.500005⟩], [1], [1]⟩ := by
  have chosen : Solver.augmentingPaths.chosenPairs
      (.ofFn ![![500005000, 500000000], ![1000010000, 1000001000]] : Mat 2 2 Int) =
        [(0, 0), (1, 1)] := by decide +kernel
  have kept : ([(0, 0), (1, 1)] : List (Fin 2 × Fin 2)).filter
      (fun p => realPrice 1 (steering.entry p.1 p.2) ≤ 1) = [(0, 0)] := by
    norm_num [realPrice_steering]
  rw [minCostMatching_finite zero_le_one (by decide), weights_steering, chosen, kept,
    List.map_singleton, List.mergeSort_singleton, realPrice_steering]
  rfl

theorem minCostMatching_cutOff_steering :
    minCostMatching .augmentingPaths (cutOff steering (.finite 1)) (.finite 1) =
      .ok ⟨[⟨0, 1, .finite 0.5⟩], [1], [0]⟩ := by
  have chosen : Solver.augmentingPaths.chosenPairs
      (.ofFn ![![500005000, 500000000], ![1000010000, 1000010000]] : Mat 2 2 Int) =
        [(0, 1), (1, 0)] := by decide +kernel
  have kept : ([(0, 1), (1, 0)] : List (Fin 2 × Fin 2)).filter
      (fun p => realPrice 1 ((cutOff steering (.finite 1)).entry p.1 p.2) ≤ 1) = [(0, 1)] := by
    norm_num [realPrice_cutOff_steering]
  rw [minCostMatching_finite zero_le_one (by decide), weights_cutOff_steering, chosen, kept,
    List.map_singleton, List.mergeSort_singleton, realPrice_cutOff_steering]
  rfl

/-- A cost beyond the gate steers a matching: the first track is matched with the dearer observation,
for then the second track takes a cost within the margin. -/
theorem minCostMatching_ne_cutOff : (0 : ℝ) ≤ 1 ∧
    minCostMatching .augmentingPaths steering (.finite 1) =
      .ok ⟨[⟨0, 0, .finite 0.500005⟩], [1], [1]⟩ ∧
    minCostMatching .augmentingPaths (cutOff steering (.finite 1)) (.finite 1) ≠
      minCostMatching .augmentingPaths steering (.finite 1) := by
  refine ⟨zero_le_one, minCostMatching_steering, ?_⟩
  rw [minCostMatching_steering, minCostMatching_cutOff_steering]
  intro same
  have observations := congrArg Matching.unmatchedObservations (Except.ok.inj same)
  exact absurd observations (by decide)

end Gate

end

end TrackFusion
