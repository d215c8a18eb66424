import Mathlib.Algebra.BigOperators.Fin
import TrackFusion.Proofs.Classification.Belief

/-!
Beliefs after whole sequences of observations.

What a belief starts with fades by the same factor with every observation that carries mass, and such
an observation counts with the weight of a new one, faded by those that follow it. What a belief
divides by on the way is never zero: the mass that is shared out is positive, and the total of a blend
is one already.
-/

set_option autoImplicit false
set_option relaxedAutoImplicit false

namespace TrackFusion

namespace ClassBelief

open ClassDistribution

def updateAll {α : Type} [Scalar α] (b : ClassBelief α)
    (observations : List (List (Hypothesis α))) : ClassBelief α :=
  observations.foldl update b

/-- How a belief is started: from the weight of a new observation, which is a number if it is given,
or from a first observation. -/
inductive Start where
  | weighted (weight : Option Exact) (defined : ∀ w ∈ weight, w ≠ .undefined)
  | observed (hypotheses : List (Hypothesis Exact))

noncomputable section

namespace Start

def belief : Start → ClassBelief Exact
  | weighted weight _ => initial weight
  | observed hypotheses => ofHypotheses hypotheses

def distribution : Start → ObjectClass → ℝ
  | weighted _ _ => pointMass .unknown
  | observed hypotheses => (shares? hypotheses).getD (pointMass .unknown)

def weight : Start → ℝ
  | weighted weight _ => heldWeight (weight.getD 0.5)
  | observed _ => heldWeight 0.5

theorem isReal_belief (start : Start) : start.belief.IsReal start.distribution start.weight := by
  cases start with
  | weighted weight defined => exact isReal_initial defined
  | observed hypotheses => exact isReal_ofHypotheses hypotheses

end Start

/-- Probabilities after observations: those at the start faded by all observations, and each
observation with the weight of a new one, faded by those after it. -/
def faded (s : ℝ) (p : ObjectClass → ℝ) (observed : List (ObjectClass → ℝ)) (c : ObjectClass) : ℝ :=
  (1 - s) ^ observed.length * p c +
    ∑ i : Fin observed.length, s * (1 - s) ^ (observed.length - (i + 1)) * observed[i] c

variable {b : ClassBelief Exact} {p : ObjectClass → ℝ} {s : ℝ}

theorem faded_nil (s : ℝ) (p : ObjectClass → ℝ) : faded s p [] = p := by
  funext c
  simp only [faded, List.length_nil, pow_zero, one_mul, Finset.univ_eq_empty, Finset.sum_empty,
    add_zero]

theorem faded_cons (s : ℝ) (p o : ObjectClass → ℝ) (rest : List (ObjectClass → ℝ)) :
    faded s p (o :: rest) = faded s (blend s p o) rest := by
  funext c
  have first : (o :: rest)[(0 : Fin (rest.length + 1))] = o := rfl
  have later (i : Fin rest.length) : (o :: rest)[i.succ] = rest[i] := rfl
  simp only [faded, blend, List.length_cons, Fin.sum_univ_succ, Fin.val_zero, Fin.val_succ, first,
    later, Nat.add_sub_add_right, Nat.sub_zero]
  ring

theorem IsReal.updateAll (real : b.IsReal p s) (observations : List (List (Hypothesis Exact))) :
    (b.updateAll observations).IsReal (faded s p (observations.filterMap shares?)) s := by
  induction observations generalizing b p with
  | nil =>
    rw [List.filterMap_nil, faded_nil]
    exact real
  | cons hypotheses rest ih =>
    cases shared : shares? hypotheses with
    | none =>
      rw [List.filterMap_cons_none shared]
      change ((b.update hypotheses).updateAll rest).IsReal _ s
      rw [update_of_massless shared]
      exact ih real
    | some o =>
      rw [List.filterMap_cons_some shared, faded_cons]
      exact ih (real.update shared)

/-- What a belief makes of hypotheses. Without mass they change nothing. Otherwise they are divided by
their mass, which is positive, and what they are blended into by its total, which is one. -/
structure Blends (b : ClassBelief Exact) (hypotheses : List (Hypothesis Exact)) : Prop where
  massless : shares? hypotheses = none →
    ofHypotheses? hypotheses = none ∧ b.update hypotheses = b
  observed : ∀ o, shares? hypotheses = some o →
    ofHypotheses? hypotheses = some (massOf hypotheses).scaled ∧
      (massOf hypotheses).scaled = ofReal o ∧
      ∃ m, 0 < m ∧ (massOf hypotheses).total = .finite m
  blended : ∀ o, shares? hypotheses = some o →
    (b.update hypotheses).distribution = (b.blended (ofReal o)).scaled ∧
      (b.blended (ofReal o)).scaled = b.blended (ofReal o) ∧
      (b.blended (ofReal o)).total = .finite 1

theorem IsReal.blends (real : b.IsReal p s) (hypotheses : List (Hypothesis Exact)) :
    b.Blends hypotheses := by
  refine ⟨fun massless => ⟨?_, update_of_massless massless⟩, fun o shared => ?_, fun o shared => ?_⟩
  · rw [ofHypotheses?_eq, massless]
    rfl
  · rw [ofHypotheses?_eq, shared, scaled_massOf shared]
    exact ⟨rfl, rfl, _, (shares?_eq_some_iff.mp shared).1, total_massOf hypotheses⟩
  · have probability := isProbability_blend real.weight real.probability
      (isProbability_of_shares? shared)
    rw [real.blended_eq, scaled_of_isProbability probability, total_ofReal, probability.sum_eq_one]
    exact ⟨(real.update shared).distribution, rfl, rfl⟩

/-- A belief that is started and then given observations always holds probabilities. They are what it
was started with and the shares of the observations that carry mass, each with the weight of a new
observation, faded by all observations with mass that came later. -/
theorem Start.holds_faded (start : Start) (observations : List (List (Hypothesis Exact))) :
    (start.belief.updateAll observations).IsReal
        (faded start.weight start.distribution (observations.filterMap shares?)) start.weight ∧
      ∀ hypotheses, (start.belief.updateAll observations).Blends hypotheses :=
  have real := start.isReal_belief.updateAll observations
  ⟨real, real.blends⟩

def Start.quarter : Start :=
  .weighted (some (.finite 0.25)) fun _ given => by
    cases given
    exact nofun

def sightings : List (List (Hypothesis Exact)) :=
  [[⟨.car, .finite 1⟩], [⟨.bus, .undefined⟩, ⟨.bus, .finite (-1)⟩],
    [⟨.truck, .finite 3⟩, ⟨.car, .finite 1⟩]]

theorem Start.weight_quarter : quarter.weight = 1 / 4 := by
  have kept : min (0.25 : ℝ) 1 = 0.25 := min_eq_left (by norm_num)
  have above : leastWeight ≤ 0.25 := by norm_num [leastWeight]
  change max leastWeight (min 0.25 1) = 1 / 4
  rw [kept, max_eq_right above]
  norm_num

theorem shares?_sightings : sightings.filterMap shares? =
    [pointMass .car, fun c => (3 * pointMass .truck c + pointMass .car c) / 4] := by
  have mass (c : ObjectClass) (x : ℝ) : Hypothesis.mass ⟨c, .finite x⟩ = max x 0 := rfl
  have car : shares? [⟨.car, .finite 1⟩] = some (pointMass .car) := by
    refine shares?_eq_some_iff.mpr ⟨?_, funext fun c => ?_⟩
    · norm_num [totalMass_cons, totalMass_nil, mass]
    · norm_num [totalMass_cons, totalMass_nil, classMass_cons, classMass_nil, mass]
  have nothing : shares? [⟨.bus, .undefined⟩, ⟨.bus, .finite (-1)⟩] = none := by
    have undefined : Hypothesis.mass ⟨.bus, .undefined⟩ = 0 := rfl
    exact if_neg (by norm_num [totalMass_cons, totalMass_nil, mass, undefined])
  have truck : shares? [⟨.truck, .finite 3⟩, ⟨.car, .finite 1⟩] =
      some fun c => (3 * pointMass .truck c + pointMass .car c) / 4 := by
    refine shares?_eq_some_iff.mpr ⟨?_, funext fun c => ?_⟩
    · norm_num [totalMass_cons, totalMass_nil, mass]
    · norm_num [totalMass_cons, totalMass_nil, classMass_cons, classMass_nil, mass]
  rw [sightings, List.filterMap_cons_some car, List.filterMap_cons_none nothing,
    List.filterMap_cons_some truck, List.filterMap_nil]

/-- Of what the belief was started with 9/16 are left, and the first car has faded to 3/16. -/
theorem Start.holds_faded_quarter :
    quarter.weight = 1 / 4 ∧
    (quarter.belief.updateAll sightings).IsReal
      (fun c => 9 / 16 * pointMass .unknown c + 4 / 16 * pointMass .car c +
        3 / 16 * pointMass .truck c) (1 / 4) ∧
    ∀ hypotheses ∈ sightings, (quarter.belief.updateAll sightings).Blends hypotheses := by
  obtain ⟨held, blends⟩ := Start.holds_faded quarter sightings
  have values : faded (1 / 4) (pointMass .unknown)
      [pointMass .car, fun c => (3 * pointMass .truck c + pointMass .car c) / 4] = fun c =>
        9 / 16 * pointMass .unknown c + 4 / 16 * pointMass .car c + 3 / 16 * pointMass .truck c := by
    rw [faded_cons, faded_cons, faded_nil]
    funext c
    unfold blend
    ring
  rw [shares?_sightings, Start.weight_quarter] at held
  exact ⟨Start.weight_quarter, values ▸ held, fun hypotheses _ => blends hypotheses⟩

end

end ClassBelief

end TrackFusion
