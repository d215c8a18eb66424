import TrackFusion.Proofs.Assignment.AugmentingPaths
import TrackFusion.Proofs.Assignment.Gate
import TrackFusion.Proofs.Linear.RealMatrix

/-!
What a matching is, whatever the costs.

A solver that gives every row its own column leaves pairs without a track or an observation in common.
Those that are kept have a finite cost within the gate, since an excluded pair is priced above the gate
and above every finite cost. Their order is that of the tracks, and what is left over on either side
is what no match has.
-/

set_option autoImplicit false
set_option relaxedAutoImplicit false

namespace TrackFusion

variable {n m : Nat}

/-- The solver gives each row its own column, of the weights as it is given them: transposed if they
are taller than wide. -/
def Solver.SeparatesFor (solver : Solver) (weights : Mat n m Int) : Prop :=
  if fits : n ≤ m then Function.Injective (solver.columns fits weights).get
  else Function.Injective (solver.columns (Nat.le_of_not_le fits) weights.transpose).get

theorem Solver.augmentingPaths_separatesFor (weights : Mat n m Int) :
    augmentingPaths.SeparatesFor weights := by
  unfold SeparatesFor
  split_ifs with fits
  · exact augmentingPaths_injective fits weights
  · exact augmentingPaths_injective (Nat.le_of_not_le fits) weights.transpose

theorem Solver.SeparatesFor.chosenPairs {solver : Solver} {weights : Mat n m Int}
    (separates : solver.SeparatesFor weights) :
    (solver.chosenPairs weights).Pairwise fun p q => p.1 ≠ q.1 ∧ p.2 ≠ q.2 := by
  unfold SeparatesFor at separates
  unfold Solver.chosenPairs
  split_ifs at separates ⊢ with fits
  · exact List.pairwise_map.mpr ((List.nodup_finRange n).imp fun distinct =>
      ⟨distinct, separates.ne distinct⟩)
  · exact List.pairwise_map.mpr ((List.nodup_finRange m).imp fun distinct =>
      ⟨separates.ne distinct, distinct⟩)

/-- The matches of a matching: ordered by track, without an observation in common, each of a finite
cost that is held at zero from below and lies within the gate. The other tracks and observations are
listed in ascending order. -/
structure Matching.IsGated (cost : Mat n m Exact) (gate : Exact) (found : Matching Exact) :
    Prop where
  tracksAscend : found.pairs.Pairwise fun a b => a.track < b.track
  observationsDiffer : found.pairs.Pairwise fun a b => a.observation ≠ b.observation
  costs : ∀ k ∈ found.pairs, ∃ (i : Fin n) (j : Fin m) (x : ℝ), k.track = i ∧ k.observation = j ∧
    cost.entry i j = .finite x ∧ k.cost = .finite (max x 0) ∧ k.cost ≤ gate
  unmatchedTracksAscend : found.unmatchedTracks.Pairwise (· < ·)
  unmatchedTracks : ∀ t, t ∈ found.unmatchedTracks ↔ t < n ∧ ∀ k ∈ found.pairs, k.track ≠ t
  unmatchedObservationsAscend : found.unmatchedObservations.Pairwise (· < ·)
  unmatchedObservations :
    ∀ o, o ∈ found.unmatchedObservations ↔ o < m ∧ ∀ k ∈ found.pairs, k.observation ≠ o

namespace Gate

variable {cost : Mat n m Exact} {gate : Exact}

theorem exists_foldl_max_eq {entries : List Exact} (finite : ∀ v ∈ entries, ∃ x, v = .finite x)
    (start : ℝ) : ∃ M, entries.foldl Scalar.max (.finite start) = .finite M ∧ start ≤ M ∧
      ∀ x, .finite x ∈ entries → x ≤ M := by
  induction entries generalizing start with
  | nil => exact ⟨start, rfl, le_rfl, nofun⟩
  | cons v rest ih =>
    obtain ⟨x, rfl⟩ := finite v List.mem_cons_self
    obtain ⟨M, same, further, above⟩ :=
      ih (fun w member => finite w (List.mem_cons_of_mem _ member)) (max start x)
    rw [List.foldl_cons, Exact.max_finite]
    refine ⟨M, same, (le_max_left _ _).trans further, fun y member => ?_⟩
    rcases List.mem_cons.mp member with first | later
    · rw [Exact.finite.inj first]
      exact (le_max_right _ _).trans further
    · exact above y later

theorem exists_excludedPrice (cost : Mat n m Exact) (defined : gate ≠ .undefined)
    (nonneg : ¬ gate < 0) : ∃ e, excludedPrice cost gate = .finite e ∧ 0 ≤ e ∧
      ∀ i j x, cost.entry i j = .finite x → Exact.finite x ≤ gate → x ≤ e := by
  cases gate with
  | undefined => exact absurd rfl defined
  | negInfinity => exact absurd ⟨trivial, id⟩ nonneg
  | finite g =>
    have above : 0 ≤ g := not_lt.mp fun below => nonneg (Exact.finite_lt_finite.mpr below)
    refine ⟨g + 1e-5, excludedPrice_finite cost g, by linarith, fun i j x _ within => ?_⟩
    linarith [Exact.finite_le_finite.mp within]
  | infinity =>
    have finite (v : Exact) (member : v ∈ cost.toList.filter Scalar.isFinite) :
        ∃ x, v = .finite x :=
      Exact.isFinite_iff.mp (List.mem_filter.mp member).2
    obtain ⟨M, same, start, above⟩ := exists_foldl_max_eq finite 0
    refine ⟨M + 1e-5, ?_, by linarith, fun i j x entry _ => ?_⟩
    · unfold excludedPrice
      rw [if_neg (by exact Bool.false_ne_true), Exact.zero_eq, same, margin_eq,
        Exact.finite_add_finite]
    · have listed := Mat.mem_toList_iff.mpr ⟨i, j, entry⟩
      have below := above x (List.mem_filter.mpr ⟨listed, rfl⟩)
      linarith

theorem price_eq_of_le {i : Fin n} {j : Fin m} {x : ℝ} (defined : gate ≠ .undefined)
    (nonneg : ¬ gate < 0) (entry : cost.entry i j = .finite x)
    (within : price (excludedPrice cost gate) (.finite x) ≤ gate) :
    price (excludedPrice cost gate) (.finite x) = .finite (max x 0) := by
  obtain ⟨e, same, -, above⟩ := exists_excludedPrice cost defined nonneg
  have inside := cost_le_of_price_le (Exact.isNaN_eq_false_iff.mpr defined) nonneg rfl within
  rw [same, price_finite, if_neg (not_lt.mpr (above i j x entry inside))]
  split_ifs with negative
  · rw [max_eq_right negative.le]
  · rw [max_eq_left (not_lt.mp negative)]

theorem cost_of_keep? {pair : Fin n × Fin m} {k : Match Exact} (defined : gate ≠ .undefined)
    (nonneg : ¬ gate < 0) (kept : keep? cost (prices cost gate) gate pair = some k) :
    k.track = pair.1 ∧ k.observation = pair.2 ∧ ∃ x, cost.entry pair.1 pair.2 = .finite x ∧
      k.cost = .finite (max x 0) ∧ k.cost ≤ gate := by
  obtain ⟨finite, within, rfl⟩ := keep?_eq_some_iff.mp kept
  obtain ⟨x, entry⟩ := Exact.isFinite_iff.mp finite
  unfold prices at within ⊢
  rw [Mat.entry_map, entry] at within
  rw [Mat.entry_map, entry]
  exact ⟨rfl, rfl, x, rfl, price_eq_of_le defined nonneg entry within, within⟩

end Gate

namespace Matching

variable {cost : Mat n m Exact} {gate : Exact} {pairs : List (Match Exact)}

theorem isGated_ofPairs (tracksAscend : pairs.Pairwise fun a b => a.track < b.track)
    (observationsDiffer : pairs.Pairwise fun a b => a.observation ≠ b.observation)
    (costs : ∀ k ∈ pairs, ∃ (i : Fin n) (j : Fin m) (x : ℝ), k.track = i ∧ k.observation = j ∧
      cost.entry i j = .finite x ∧ k.cost = .finite (max x 0) ∧ k.cost ≤ gate) :
    IsGated cost gate (.ofPairs n m pairs) := by
  refine ⟨tracksAscend, observationsDiffer, costs, List.pairwise_lt_range.filter _, fun t => ?_,
    List.pairwise_lt_range.filter _, fun o => ?_⟩
  · simp only [ofPairs, List.mem_filter, List.mem_range, Bool.not_eq_true', List.any_eq_false,
      beq_iff_eq, ne_eq]
  · simp only [ofPairs, List.mem_filter, List.mem_range, Bool.not_eq_true', List.any_eq_false,
      beq_iff_eq, ne_eq]

theorem isGated_nil (cost : Mat n m Exact) (gate : Exact) :
    IsGated cost gate (.ofPairs n m []) :=
  isGated_ofPairs .nil .nil nofun

theorem pairwise_mergeSort_track (distinct : pairs.Pairwise fun a b => a.track ≠ b.track) :
    (pairs.mergeSort fun a b => a.track ≤ b.track).Pairwise fun a b => a.track < b.track := by
  have trans (a b c : Match Exact) :
      decide (a.track ≤ b.track) = true → decide (b.track ≤ c.track) = true →
        decide (a.track ≤ c.track) = true := by
    simpa only [decide_eq_true_eq] using Nat.le_trans
  have total (a b : Match Exact) :
      (decide (a.track ≤ b.track) || decide (b.track ≤ a.track)) = true := by
    simpa only [Bool.or_eq_true, decide_eq_true_eq] using Nat.le_total a.track b.track
  have sorted := List.pairwise_mergeSort trans total pairs
  have apart := ((List.mergeSort_perm pairs fun a b => a.track ≤ b.track).pairwise_iff
    fun different => Ne.symm different).mpr distinct
  have strict (a b : Match Exact) (below : decide (a.track ≤ b.track) = true)
      (different : a.track ≠ b.track) : a.track < b.track :=
    Nat.lt_of_le_of_ne (of_decide_eq_true below) different
  exact sorted.imp₂ strict apart

end Matching

variable {cost : Mat n m Exact} {gate : Exact}

theorem exists_isGated_of_separates (solver : Solver) (nonempty : ¬ (n = 0 ∨ m = 0))
    (defined : gate ≠ .undefined) (nonneg : ¬ gate < 0)
    (separates : solver.SeparatesFor ((Gate.prices cost gate).map Gate.weight)) :
    ∃ found, minCostMatching solver cost gate = .ok found ∧ found.IsGated cost gate := by
  have number : Scalar.isNaN gate = false := Exact.isNaN_eq_false_iff.mpr defined
  refine ⟨_, minCostMatching_eq solver cost nonempty number nonneg, ?_⟩
  have apart : ((solver.chosenPairs ((Gate.prices cost gate).map Gate.weight)).filterMap
      (Gate.keep? cost (Gate.prices cost gate) gate)).Pairwise fun a b =>
        a.track ≠ b.track ∧ a.observation ≠ b.observation := by
    refine separates.chosenPairs.filterMap _ ?_
    rintro p q ⟨tracks, observations⟩ a first b second
    obtain ⟨track, observation, -⟩ := Gate.cost_of_keep? defined nonneg first
    obtain ⟨track', observation', -⟩ := Gate.cost_of_keep? defined nonneg second
    rw [track, observation, track', observation']
    exact ⟨Fin.val_ne_of_ne tracks, Fin.val_ne_of_ne observations⟩
  refine Matching.isGated_ofPairs (Matching.pairwise_mergeSort_track (apart.imp And.left)) ?_ ?_
  · exact ((List.mergeSort_perm _ _).pairwise_iff fun different => Ne.symm different).mpr
      (apart.imp And.right)
  · intro k member
    obtain ⟨pair, -, kept⟩ := List.mem_filterMap.mp (List.mem_mergeSort.mp member)
    obtain ⟨track, observation, x, entry, rest⟩ := Gate.cost_of_keep? defined nonneg kept
    exact ⟨pair.1, pair.2, x, track, observation, entry, rest⟩

/-- Under every gate but the undefined one, tracks and observations are matched within the gate if the
solver gives each row its own column. The bounds that hold the prices are in order unless the gate is
negative. An undefined gate fails exactly if there is something to match. -/
theorem minCostMatching_isGated (solver : Solver) (cost : Mat n m Exact) (gate : Exact)
    (separates : solver.SeparatesFor ((Gate.prices cost gate).map Gate.weight)) :
    (gate ≠ .undefined →
      ∃ found, minCostMatching solver cost gate = .ok found ∧ found.IsGated cost gate) ∧
    (gate ≠ .undefined → ¬ gate < 0 → ∃ e, Gate.excludedPrice cost gate = .finite e ∧ 0 ≤ e) ∧
    (gate = .undefined →
      ((∃ e, minCostMatching solver cost gate = .error e) ↔ 0 < n ∧ 0 < m)) := by
  have atNothing (empty : n = 0 ∨ m = 0) :
      minCostMatching solver cost gate = .ok (.ofPairs n m []) := by
    unfold minCostMatching
    rw [if_pos empty]
  refine ⟨fun defined => ?_, fun defined nonneg => ?_, ?_⟩
  · by_cases empty : n = 0 ∨ m = 0
    · exact ⟨_, atNothing empty, Matching.isGated_nil cost gate⟩
    · by_cases negative : gate < 0
      · refine ⟨.ofPairs n m [], ?_, Matching.isGated_nil cost gate⟩
        unfold minCostMatching
        rw [if_neg empty, Exact.isNaN_eq_false_iff.mpr defined, if_neg Bool.false_ne_true,
          if_pos negative]
      · exact exists_isGated_of_separates solver empty defined negative separates
  · obtain ⟨e, same, above, -⟩ := Gate.exists_excludedPrice cost defined nonneg
    exact ⟨e, same, above⟩
  · rintro rfl
    constructor
    · rintro ⟨e, failed⟩
      by_contra nothing
      rw [atNothing (by omega)] at failed
      cases failed
    · intro something
      have undefined : Scalar.isNaN Exact.undefined = true := by
        by_contra defined
        exact Exact.isNaN_eq_false_iff.mp (Bool.eq_false_iff.mpr defined) rfl
      refine ⟨.undefined, ?_⟩
      unfold minCostMatching
      rw [if_neg (by omega), if_pos undefined]

/-- Three tracks and two observations, with costs of every kind. -/
theorem minCostMatching_isGated_three :
    let cost : Mat 3 2 Exact := ⟨#v[#v[.undefined, .finite (-2)], #v[.finite 3, .infinity],
      #v[.finite 1, .negInfinity]]⟩
    Solver.augmentingPaths.SeparatesFor ((Gate.prices cost (.finite 2)).map Gate.weight) ∧
      Exact.finite 2 ≠ .undefined ∧ ∃ found,
        minCostMatching .augmentingPaths cost (.finite 2) = .ok found ∧
          found.IsGated cost (.finite 2) := by
  intro cost
  have separates := Solver.augmentingPaths_separatesFor
    ((Gate.prices cost (.finite 2)).map Gate.weight)
  have defined : Exact.finite 2 ≠ .undefined := nofun
  exact ⟨separates, defined,
    (minCostMatching_isGated .augmentingPaths cost (.finite 2) separates).1 defined⟩

end TrackFusion
