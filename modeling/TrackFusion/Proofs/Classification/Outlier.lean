import Mathlib.Analysis.SpecificLimits.Basic
import TrackFusion.Proofs.Classification.Smoothing

/-!
A misclassified observation after a long history.

A belief that saw one class many times and then another one once still holds the first to be the most
likely one if a new observation has less weight than one half. With one half, which is the usual
weight, the single observation has as much weight as the whole history, and what is left of the start
tips the balance towards it.
-/

set_option autoImplicit false
set_option relaxedAutoImplicit false

namespace TrackFusion

namespace ClassBelief

open ClassDistribution

noncomputable section

def sighting (c : ObjectClass) : List (Hypothesis Exact) :=
  [⟨c, 1⟩]

def misled (weight : Option Exact) (times : ℕ) (c wrong : ObjectClass) : ClassBelief Exact :=
  (initial weight).updateAll (List.replicate times (sighting c) ++ [sighting wrong])

/-- A single misclassified observation does not overturn a history that is long enough. -/
def Withstands (weight : Option Exact) : Prop :=
  ∃ enough, ∀ times ≥ enough, ∀ c wrong, c ≠ wrong →
    (misled weight times c wrong).mostLikely.objectClass = c

theorem classMass_sighting (c : ObjectClass) : classMass (sighting c) = pointMass c := by
  funext d
  have whole : Hypothesis.mass ⟨c, 1⟩ = 1 := max_eq_left zero_le_one
  rw [sighting, classMass_cons, classMass_nil, whole, one_mul, add_zero]

theorem shares?_sighting (c : ObjectClass) : shares? (sighting c) = some (pointMass c) := by
  have total : totalMass (sighting c) = 1 := by
    unfold totalMass
    rw [classMass_sighting]
    exact (isProbability_pointMass c).sum_eq_one
  refine shares?_eq_some_iff.mpr ⟨total ▸ one_pos, ?_⟩
  simp only [total, classMass_sighting, div_one]

theorem faded_replicate (s : ℝ) (p o : ObjectClass → ℝ) (times : ℕ) :
    faded s p (List.replicate times o) =
      fun c => (1 - s) ^ times * p c + (1 - (1 - s) ^ times) * o c := by
  induction times generalizing p with
  | zero =>
    rw [List.replicate_zero, faded_nil]
    funext c
    ring
  | succ times ih =>
    rw [List.replicate_succ, faded_cons, ih]
    funext c
    unfold blend
    ring

/-- Probabilities after sightings of one class and then of another one: `left` is the share of the
start in what was held before the last one. -/
def misledProbability (s left : ℝ) (c wrong : ObjectClass) : ObjectClass → ℝ :=
  blend s (fun d => left * pointMass .unknown d + (1 - left) * pointMass c d) (pointMass wrong)

variable {weight : Option Exact} {c wrong : ObjectClass} {s left : ℝ}

theorem misledProbability_eq (s left : ℝ) (c wrong d : ObjectClass) :
    misledProbability s left c wrong d = (1 - s) * left * pointMass .unknown d +
      (1 - s) * (1 - left) * pointMass c d + s * pointMass wrong d := by
  unfold misledProbability blend
  ring

theorem misledProbability_lt_first (apart : c ≠ wrong) (bounds : 0 < s ∧ s ≤ 1) (nonneg : 0 ≤ left)
    (little : 2 * (1 - s) * left < 1 - 2 * s) {d : ObjectClass} (other : d ≠ c) :
    misledProbability s left c wrong d < misledProbability s left c wrong c := by
  have rest : 0 ≤ (1 - s) * left := mul_nonneg (sub_nonneg.mpr bounds.2) nonneg
  have others : misledProbability s left c wrong d ≤ (1 - s) * left + s := by
    have start := mul_le_mul_of_nonneg_left (pointMass_le_one .unknown d) rest
    have last := mul_le_mul_of_nonneg_left (pointMass_le_one wrong d) bounds.1.le
    rw [misledProbability_eq, pointMass_of_ne other]
    linarith
  have own : (1 - s) * (1 - left) ≤ misledProbability s left c wrong c := by
    have start := mul_nonneg rest (pointMass_nonneg .unknown c)
    rw [misledProbability_eq, pointMass_self, pointMass_of_ne apart]
    linarith
  linarith

theorem misledProbability_lt_last (apart : c ≠ wrong) (known : c ≠ .unknown) (heavy : 1 / 2 ≤ s)
    (small : s ≤ 1) (nonneg : 0 ≤ left) (most : left ≤ 1 / 2) (remains : s < 1 → 0 < left)
    {d : ObjectClass} (other : d ≠ wrong) :
    misledProbability s left c wrong d < misledProbability s left c wrong wrong := by
  have rest : 0 ≤ (1 - s) * left := mul_nonneg (sub_nonneg.mpr small) nonneg
  have own : s ≤ misledProbability s left c wrong wrong := by
    have start := mul_nonneg rest (pointMass_nonneg .unknown wrong)
    rw [misledProbability_eq, pointMass_self, pointMass_of_ne apart.symm]
    linarith
  refine lt_of_lt_of_le ?_ own
  rw [misledProbability_eq, pointMass_of_ne other, mul_zero, add_zero]
  by_cases first : d = c
  · rw [first, pointMass_of_ne known, pointMass_self, mul_zero, zero_add, mul_one]
    rcases small.lt_or_eq with below | whole
    · have := mul_pos (sub_pos.mpr below) (remains below)
      linarith
    · rw [whole, sub_self, zero_mul]
      exact one_pos
  · have start := mul_le_mul_of_nonneg_left (pointMass_le_one .unknown d) rest
    have half : (1 - s) * left ≤ 1 / 2 * (1 / 2) :=
      mul_le_mul (by linarith) most nonneg (by norm_num)
    rw [pointMass_of_ne first]
    linarith

theorem misledProbability_unknown (s left : ℝ) (wrong d : ObjectClass) :
    misledProbability s left .unknown wrong d =
      (1 - s) * pointMass .unknown d + s * pointMass wrong d := by
  rw [misledProbability_eq]
  ring

theorem misledProbability_le_unknown (apart : .unknown ≠ wrong) (half : s = 1 / 2)
    (d : ObjectClass) :
    misledProbability s left .unknown wrong d ≤ misledProbability s left .unknown wrong .unknown := by
  rw [misledProbability_unknown, misledProbability_unknown, pointMass_self, pointMass_of_ne apart]
  by_cases same : d = .unknown
  · rw [same, pointMass_self, pointMass_of_ne apart]
  · have last := pointMass_le_one wrong d
    rw [pointMass_of_ne same, half]
    linarith

theorem misledProbability_unknown_lt_last (apart : .unknown ≠ wrong) (above : 1 / 2 < s)
    (small : s ≤ 1) {d : ObjectClass} (other : d ≠ wrong) :
    misledProbability s left .unknown wrong d < misledProbability s left .unknown wrong wrong := by
  have start := mul_le_mul_of_nonneg_left (pointMass_le_one .unknown d) (sub_nonneg.mpr small)
  rw [misledProbability_unknown, misledProbability_unknown, pointMass_self, pointMass_of_ne other,
    pointMass_of_ne apart.symm]
  linarith

theorem isReal_misled (defined : ∀ w ∈ weight, w ≠ .undefined) (times : ℕ)
    (c wrong : ObjectClass) :
    (misled weight times c wrong).IsReal
      (misledProbability (heldWeight (weight.getD 0.5))
        ((1 - heldWeight (weight.getD 0.5)) ^ times) c wrong) (heldWeight (weight.getD 0.5)) := by
  have before := (isReal_initial defined).updateAll (List.replicate times (sighting c))
  rw [List.filterMap_replicate_of_some (shares?_sighting c), faded_replicate] at before
  unfold misled ClassBelief.updateAll
  rw [List.foldl_append]
  exact before.update (shares?_sighting wrong)

/-- A weight below one half withstands a misclassified observation. -/
theorem withstands_of_light (defined : ∀ w ∈ weight, w ≠ .undefined)
    (light : heldWeight (weight.getD 0.5) < 1 / 2) : Withstands weight := by
  obtain ⟨positive, small⟩ := heldWeight_bounds (weight.getD 0.5)
  generalize same : heldWeight (weight.getD 0.5) = s at light positive small
  -- the start has to fade until less of it is left than the first class leads by
  obtain ⟨enough, little⟩ := exists_pow_lt_of_lt_one (show 0 < (1 - 2 * s) / 2 by linarith)
    (show 1 - s < 1 by linarith)
  refine ⟨enough, fun times long c wrong apart => ?_⟩
  have real := isReal_misled defined times c wrong
  rw [same] at real
  have nonneg : 0 ≤ (1 - s) ^ times := pow_nonneg (sub_nonneg.mpr small) times
  have less : (1 - s) ^ times ≤ (1 - s) ^ enough :=
    pow_le_pow_of_le_one (sub_nonneg.mpr small) (by linarith) long
  have faded : 2 * (1 - s) * (1 - s) ^ times < 1 - 2 * s := by
    have := mul_nonneg positive.le nonneg
    linarith
  exact real.mostLikely_of_lt fun d other =>
    misledProbability_lt_first apart ⟨positive, small⟩ nonneg faded other

/-- With a weight of one half or more, a single observation is followed at once. Only in a tie, with
one half and all of the history on the unknown class, the history prevails. -/
theorem mostLikely_misled_of_heavy (defined : ∀ w ∈ weight, w ≠ .undefined)
    (heavy : 1 / 2 ≤ heldWeight (weight.getD 0.5)) (times : ℕ) (c wrong : ObjectClass)
    (seen : 0 < times) (apart : c ≠ wrong) :
    (misled weight times c wrong).mostLikely.objectClass =
      if c = .unknown ∧ heldWeight (weight.getD 0.5) = 1 / 2 then c else wrong := by
  have real := isReal_misled defined times c wrong
  have small := (heldWeight_bounds (weight.getD 0.5)).2
  generalize heldWeight (weight.getD 0.5) = s at real heavy small
  by_cases first : c = .unknown
  · subst first
    split_ifs with tie
    · have least (d : ObjectClass) : ObjectClass.unknown.index ≤ d.index := Fin.zero_le _
      rw [real.mostLikely_eq (misledProbability_le_unknown apart tie.2) fun d _ => least d]
    · have above : 1 / 2 < s := lt_of_le_of_ne heavy fun half => tie ⟨rfl, half.symm⟩
      exact real.mostLikely_of_lt fun d other =>
        misledProbability_unknown_lt_last apart above small other
  · rw [if_neg fun tie => first tie.1]
    have nonneg : 0 ≤ (1 - s) ^ times := pow_nonneg (sub_nonneg.mpr small) times
    have most : (1 - s) ^ times ≤ 1 / 2 :=
      (pow_le_of_le_one (sub_nonneg.mpr small) (by linarith) seen.ne').trans (by linarith)
    exact real.mostLikely_of_lt fun d other => misledProbability_lt_last apart first heavy small
      nonneg most (fun below => pow_pos (sub_pos.mpr below) times) other

theorem not_withstands_of_heavy (defined : ∀ w ∈ weight, w ≠ .undefined)
    (heavy : 1 / 2 ≤ heldWeight (weight.getD 0.5)) : ¬ Withstands weight := by
  rintro ⟨enough, remains⟩
  have kept := remains (enough + 1) (Nat.le_succ enough) .truck .car ObjectClass.noConfusion
  have followed := mostLikely_misled_of_heavy defined heavy (enough + 1) .truck .car
    (Nat.succ_pos enough) ObjectClass.noConfusion
  rw [kept, if_neg fun tie => ObjectClass.noConfusion tie.1] at followed
  exact ObjectClass.noConfusion followed

theorem heldWeight_half : heldWeight ((none : Option Exact).getD 0.5) = 1 / 2 := by
  rw [Option.getD_none, Exact.half_eq, heldWeight, min_eq_left (by norm_num),
    max_eq_right leastWeight_lt_half.le]

theorem not_withstands_usual : ¬ Withstands none :=
  not_withstands_of_heavy nofun heldWeight_half.ge

/-- The weights that withstand a misclassified observation are those below one half. From one half on,
a single observation is followed however long the history is, unless it ties with the unknown class.
-/
theorem withstands_iff_light (defined : ∀ w ∈ weight, w ≠ .undefined) :
    (Withstands weight ↔ heldWeight (weight.getD 0.5) < 1 / 2) ∧
      (1 / 2 ≤ heldWeight (weight.getD 0.5) → ∀ times c wrong, 0 < times → c ≠ wrong →
        (misled weight times c wrong).mostLikely.objectClass =
          if c = .unknown ∧ heldWeight (weight.getD 0.5) = 1 / 2 then c else wrong) := by
  refine ⟨⟨fun withstands => ?_, withstands_of_light defined⟩, mostLikely_misled_of_heavy defined⟩
  by_contra heavy
  exact not_withstands_of_heavy defined (not_lt.mp heavy) withstands

/-- After two hundred sightings of a truck, one sighting of a car makes a car of it. -/
theorem misled_by_car :
    (∀ w ∈ (none : Option Exact), w ≠ .undefined) ∧
      1 / 2 ≤ heldWeight ((none : Option Exact).getD 0.5) ∧ ¬ Withstands none ∧
      (misled none 200 .truck .car).mostLikely.objectClass = .car := by
  have defined : ∀ w ∈ (none : Option Exact), w ≠ .undefined := nofun
  have heavy := heldWeight_half.ge
  obtain ⟨light, followed⟩ := withstands_iff_light defined
  refine ⟨defined, heavy, fun withstands => (light.mp withstands).not_ge heavy, ?_⟩
  rw [followed heavy 200 .truck .car (by norm_num) ObjectClass.noConfusion]
  exact if_neg fun tie => ObjectClass.noConfusion tie.1

end

end ClassBelief

end TrackFusion
