import Mathlib.Data.List.MinMax
import TrackFusion.Classification
import TrackFusion.Proofs.Scalar.Exact

/-!
Class beliefs over exact numbers.

The mass that hypotheses carry is scaled to a probability distribution, and blending one into another
gives a probability distribution again, so that this is what every belief holds that was started and
then updated any number of times. The first class of its ranking is then the most likely one.
-/

set_option autoImplicit false
set_option relaxedAutoImplicit false

namespace TrackFusion

/-- A belief that was started and updated any number of times. It starts from an observation or from
the weight of new ones; a weight that is given must be a number, since one that is not passes the
bounds it is held between. -/
inductive ClassBelief.Reachable {α : Type} [Scalar α] : ClassBelief α → Prop
  | initial (smoothing : Option α) :
    (∀ s ∈ smoothing, Scalar.isNaN s = false) → Reachable (initial smoothing)
  | ofHypotheses (hypotheses : List (Hypothesis α)) : Reachable (ofHypotheses hypotheses)
  | update {b : ClassBelief α} (hypotheses : List (Hypothesis α)) :
    Reachable b → Reachable (b.update hypotheses)

/-- The mass of a hypothesis: its probability, if that is positive and finite. -/
noncomputable def Hypothesis.mass (h : Hypothesis Exact) : ℝ :=
  match h.probability with
  | .finite x => max x 0
  | _ => 0

namespace ClassDistribution

section Values

variable {α : Type}

theorem ofFn_probability (d : ClassDistribution α) : ofFn d.probability = d := by
  rcases d with ⟨⟨⟨values⟩, size⟩⟩
  match values, size with
  | [_, _, _, _, _, _, _, _], _ => rfl

theorem toList_values (d : ClassDistribution α) :
    d.values.toList = ObjectClass.all.map d.probability := by
  conv_lhs => rw [← ofFn_probability d]
  rfl

end Values

structure IsProbability (p : ObjectClass → ℝ) : Prop where
  nonneg : ∀ c, 0 ≤ p c
  sum_eq_one : (ObjectClass.all.map p).sum = 1

noncomputable section

def ofReal (p : ObjectClass → ℝ) : ClassDistribution Exact :=
  ofFn fun c => .finite (p c)

variable {p : ObjectClass → ℝ}

@[simp] theorem probability_ofReal (p : ObjectClass → ℝ) (c : ObjectClass) :
    (ofReal p).probability c = .finite (p c) :=
  probability_ofFn _ c

theorem total_ofReal (p : ObjectClass → ℝ) :
    (ofReal p).total = .finite (ObjectClass.all.map p).sum := by
  have values : (ofReal p).values.toList = (ObjectClass.all.map p).map Exact.finite := by
    rw [toList_values, List.map_map]
    exact List.map_congr_left fun c _ => probability_ofReal p c
  unfold total
  rw [values, Exact.sum_finite]

theorem scaled_ofReal (nonzero : (ObjectClass.all.map p).sum ≠ 0) :
    (ofReal p).scaled = ofReal fun c => p c / (ObjectClass.all.map p).sum := by
  have each (c : ObjectClass) : (ofReal p).scaled.probability c =
      .finite (p c / (ObjectClass.all.map p).sum) := by
    unfold scaled
    dsimp only
    rw [total_ofReal, ← Exact.finite_div_finite nonzero, ← probability_ofReal]
    exact Vector.getElem_map _ _
  rw [← ofFn_probability (ofReal p).scaled, funext each]
  rfl

def classMass (hypotheses : List (Hypothesis Exact)) (c : ObjectClass) : ℝ :=
  ((hypotheses.filter fun h => h.objectClass = c).map Hypothesis.mass).sum

def totalMass (hypotheses : List (Hypothesis Exact)) : ℝ :=
  (ObjectClass.all.map (classMass hypotheses)).sum

/-- The share of each class in the mass of hypotheses, if they carry any. -/
def shares? (hypotheses : List (Hypothesis Exact)) : Option (ObjectClass → ℝ) :=
  if 0 < totalMass hypotheses then
    some fun c => classMass hypotheses c / totalMass hypotheses
  else none

theorem shares?_eq_some_iff {hypotheses : List (Hypothesis Exact)} :
    shares? hypotheses = some p ↔ 0 < totalMass hypotheses ∧
      p = fun c => classMass hypotheses c / totalMass hypotheses := by
  unfold shares?
  split_ifs with positive
  · rw [Option.some_inj]
    exact ⟨fun same => ⟨positive, same.symm⟩, fun given => given.2.symm⟩
  · exact ⟨nofun, fun given => absurd given.1 positive⟩

theorem mass_nonneg (h : Hypothesis Exact) : 0 ≤ h.mass := by
  unfold Hypothesis.mass
  split
  · exact le_max_right _ _
  · exact le_rfl

theorem probability_eq_of_counts {h : Hypothesis Exact} (counted : counts h = true) :
    h.probability = .finite h.mass := by
  obtain ⟨finite, above⟩ := Bool.and_eq_true_iff.mp counted
  obtain ⟨x, same⟩ := Exact.isFinite_iff.mp finite
  rw [same] at above
  have positive : 0 < x := Exact.finite_lt_finite.mp (of_decide_eq_true above)
  unfold Hypothesis.mass
  rw [same]
  exact congrArg Exact.finite (max_eq_left positive.le).symm

theorem mass_eq_zero_of_not_counts {h : Hypothesis Exact} (uncounted : ¬ counts h = true) :
    h.mass = 0 := by
  unfold Hypothesis.mass
  split
  · next x same =>
    refine max_eq_right (not_lt.mp fun positive => uncounted ?_)
    unfold counts
    rw [same, Exact.isFinite_finite, Bool.true_and]
    exact decide_eq_true (Exact.finite_lt_finite.mpr positive)
  · rfl

theorem sum_mass_filter_counts (hypotheses : List (Hypothesis Exact)) :
    ((hypotheses.filter counts).map Hypothesis.mass).sum = (hypotheses.map Hypothesis.mass).sum := by
  induction hypotheses with
  | nil => rfl
  | cons h rest ih =>
    rw [List.filter_cons, List.map_cons, List.sum_cons]
    split_ifs with counted
    · rw [List.map_cons, List.sum_cons, ih]
    · rw [mass_eq_zero_of_not_counts counted, zero_add, ih]

theorem massOf_eq (hypotheses : List (Hypothesis Exact)) :
    massOf hypotheses = ofReal (classMass hypotheses) := by
  refine congrArg ofFn (funext fun c => ?_)
  let ofClass := hypotheses.filter fun h => h.objectClass = c
  have counted : (hypotheses.filter fun h => counts h && h.objectClass = c) =
      ofClass.filter counts := List.filter_filter.symm
  have values : (ofClass.filter counts).map (·.probability) =
      ((ofClass.filter counts).map Hypothesis.mass).map Exact.finite := by
    rw [List.map_map]
    exact List.map_congr_left fun h member =>
      probability_eq_of_counts (List.mem_filter.mp member).2
  rw [counted, values, Exact.sum_finite, sum_mass_filter_counts]
  rfl

theorem total_massOf (hypotheses : List (Hypothesis Exact)) :
    (massOf hypotheses).total = .finite (totalMass hypotheses) := by
  rw [massOf_eq, total_ofReal]
  rfl

theorem scaled_massOf {hypotheses : List (Hypothesis Exact)} (shared : shares? hypotheses = some p) :
    (massOf hypotheses).scaled = ofReal p := by
  obtain ⟨positive, rfl⟩ := shares?_eq_some_iff.mp shared
  rw [massOf_eq, scaled_ofReal positive.ne']
  rfl

/-- What hypotheses describe are their shares. -/
theorem ofHypotheses?_eq (hypotheses : List (Hypothesis Exact)) :
    ofHypotheses? hypotheses = (shares? hypotheses).map ofReal := by
  unfold ofHypotheses?
  dsimp only
  rw [total_massOf]
  simp only [Exact.zero_eq, Exact.finite_lt_finite]
  split_ifs with positive
  · have shared := shares?_eq_some_iff.mpr ⟨positive, rfl⟩
    rw [scaled_massOf shared, shared]
    rfl
  · rw [shares?, if_neg positive]
    rfl

theorem classMass_nonneg (hypotheses : List (Hypothesis Exact)) (c : ObjectClass) :
    0 ≤ classMass hypotheses c := by
  refine List.sum_nonneg fun v member => ?_
  obtain ⟨h, -, rfl⟩ := List.mem_map.mp member
  exact mass_nonneg h

theorem isProbability_div (nonneg : ∀ c, 0 ≤ p c) (positive : 0 < (ObjectClass.all.map p).sum) :
    IsProbability fun c => p c / (ObjectClass.all.map p).sum := by
  refine ⟨fun c => div_nonneg (nonneg c) positive.le, ?_⟩
  simp only [div_eq_mul_inv, List.sum_map_mul_right]
  exact mul_inv_cancel₀ positive.ne'

theorem IsProbability.exists_pos (probability : IsProbability p) : ∃ c ∈ ObjectClass.all, 0 < p c := by
  by_contra none
  push Not at none
  have zero : ObjectClass.all.map p = ObjectClass.all.map fun _ => 0 :=
    List.map_congr_left fun c listed => le_antisymm (none c listed) (probability.nonneg c)
  have total := probability.sum_eq_one
  rw [zero, List.sum_map_zero] at total
  exact zero_ne_one total

theorem isProbability_of_shares? {hypotheses : List (Hypothesis Exact)}
    (shared : shares? hypotheses = some p) : IsProbability p := by
  obtain ⟨positive, rfl⟩ := shares?_eq_some_iff.mp shared
  exact isProbability_div (classMass_nonneg hypotheses) positive

def pointMass (c : ObjectClass) : ObjectClass → ℝ :=
  fun d => if d = c then 1 else 0

theorem pointMass_self (c : ObjectClass) : pointMass c c = 1 :=
  if_pos rfl

theorem pointMass_of_ne {c d : ObjectClass} (other : d ≠ c) : pointMass c d = 0 :=
  if_neg other

theorem pointMass_nonneg (c d : ObjectClass) : 0 ≤ pointMass c d := by
  unfold pointMass
  split_ifs
  · exact zero_le_one
  · exact le_rfl

theorem pointMass_le_one (c d : ObjectClass) : pointMass c d ≤ 1 := by
  unfold pointMass
  split_ifs
  · exact le_rfl
  · exact zero_le_one

theorem isProbability_pointMass (c : ObjectClass) : IsProbability (pointMass c) := by
  refine ⟨pointMass_nonneg c, ?_⟩
  cases c <;> simp [ObjectClass.all, pointMass]

theorem classMass_nil (c : ObjectClass) : classMass [] c = 0 := by
  rw [classMass, List.filter_nil, List.map_nil, List.sum_nil]

theorem classMass_cons (h : Hypothesis Exact) (rest : List (Hypothesis Exact)) (c : ObjectClass) :
    classMass (h :: rest) c = h.mass * pointMass h.objectClass c + classMass rest c := by
  unfold classMass
  rw [List.filter_cons]
  by_cases same : h.objectClass = c
  · rw [if_pos (decide_eq_true same), List.map_cons, List.sum_cons, same, pointMass_self, mul_one]
  · rw [if_neg (by rwa [decide_eq_true_eq]), pointMass_of_ne (Ne.symm same), mul_zero, zero_add]

theorem totalMass_nil : totalMass [] = 0 := by
  unfold totalMass
  rw [funext classMass_nil, List.sum_map_zero]

theorem totalMass_cons (h : Hypothesis Exact) (rest : List (Hypothesis Exact)) :
    totalMass (h :: rest) = h.mass + totalMass rest := by
  unfold totalMass
  rw [funext (classMass_cons h rest), List.sum_map_add, List.sum_map_mul_left,
    (isProbability_pointMass _).sum_eq_one, mul_one]

theorem unknown_eq : unknown = ofReal (pointMass .unknown) := by
  refine congrArg ofFn (funext fun c => ?_)
  unfold pointMass
  split_ifs <;> rfl

end

end ClassDistribution

section Greatest

variable {α : Type} (p : α → ℝ)

theorem argmax_cons_eq (a : α) (rest : List α) : (a :: rest).argmax p =
    some (rest.foldl (fun best b => if p best < p b then b else best) a) := by
  induction rest using List.reverseRecOn with
  | nil => rfl
  | append_singleton rest b ih =>
    rw [← List.cons_append, List.argmax_concat, ih, List.foldl_append, List.foldl_cons,
      List.foldl_nil]
    dsimp only
    split_ifs <;> rfl

theorem falling_trans (a b c : α) (first : decide (p b ≤ p a) = true)
    (second : decide (p c ≤ p b) = true) : decide (p c ≤ p a) = true := by
  rw [decide_eq_true_eq] at *
  exact second.trans first

theorem falling_total (a b : α) : (decide (p b ≤ p a) || decide (p a ≤ p b)) = true := by
  rw [Bool.or_eq_true, decide_eq_true_eq, decide_eq_true_eq]
  exact le_total _ _

theorem head?_mergeSort_eq (l : List α) :
    (l.mergeSort fun a b => p b ≤ p a).head? = l.argmax p := by
  induction l with
  | nil => rw [List.mergeSort_nil, List.head?_nil, List.argmax_nil]
  | cons a l ih =>
    have sorted := List.pairwise_mergeSort (falling_trans p) (falling_total p) (a :: l)
    obtain ⟨before, after, whole, rest, greater⟩ :=
      List.mergeSort_cons (falling_trans p) (falling_total p) a l
    rw [rest] at ih
    rw [whole] at sorted ⊢
    rw [List.argmax_cons, ← ih]
    -- `a` stands behind the elements above it, and in front if there are none
    cases before with
    | nil =>
      cases after with
      | nil => rfl
      | cons b after =>
        have below := List.rel_of_pairwise_cons sorted List.mem_cons_self
        exact (if_neg (not_lt.mpr (of_decide_eq_true below))).symm
    | cons b before =>
      have above := greater b List.mem_cons_self
      rw [Bool.not_eq_true', decide_eq_false_iff_not, not_le] at above
      exact (if_pos above).symm

theorem argmax_filter_pos (l : List α) :
    (l.filter fun a => 0 < p a).argmax p = (l.argmax p).filter fun a => 0 < p a := by
  induction l with
  | nil => rfl
  | cons a l ih =>
    rw [List.argmax_cons]
    -- whatever is left out lies below each positive value, so it matters only where there is none
    by_cases positive : 0 < p a
    · rw [List.filter_cons, if_pos (decide_eq_true positive), List.argmax_cons, ih]
      cases l.argmax p with
      | none => simp only [Option.filter_none, Option.filter_some, positive, decide_true, if_true]
      | some b =>
        by_cases counts : 0 < p b
        · simp only [Option.filter_some, counts, decide_true, if_true]
          split_ifs <;> simp only [Option.filter_some, counts, positive, decide_true, if_true]
        · have less : ¬ p a < p b := fun above => counts (positive.trans above)
          simp only [Option.filter_some, counts, less, positive, decide_true, decide_false,
            if_true, if_false, Bool.false_eq_true]
    · rw [List.filter_cons, if_neg (by rwa [decide_eq_true_eq]), ih]
      cases l.argmax p with
      | none =>
        simp only [Option.filter_none, Option.filter_some, positive, decide_false, if_false,
          Bool.false_eq_true]
      | some b =>
        by_cases counts : 0 < p b
        · have above : p a < p b := (not_lt.mp positive).trans_lt counts
          simp only [above, if_true]
        · simp only [Option.filter_some, counts, decide_false, if_false, Bool.false_eq_true]
          split_ifs <;> simp only [Option.filter_some, counts, positive, decide_false, if_false,
            Bool.false_eq_true]

end Greatest

namespace ClassBelief

noncomputable section

open ClassDistribution

structure IsReal (b : ClassBelief Exact) (p : ObjectClass → ℝ) (s : ℝ) : Prop where
  distribution : b.distribution = ofReal p
  smoothing : b.smoothing = .finite s
  probability : IsProbability p
  weight : 0 < s ∧ s ≤ 1

variable {b : ClassBelief Exact} {p : ObjectClass → ℝ} {s : ℝ}

/-- The least weight of a new observation: the distance from one to the next single-precision
number. -/
def leastWeight : ℝ := 1.1920928955078125e-7

def heldWeight : Exact → ℝ
  | .finite w => max leastWeight (min w 1)
  | .infinity => 1
  | _ => leastWeight

theorem leastWeight_eq : leastWeight = 2⁻¹ ^ 23 := by
  norm_num [leastWeight]

theorem leastWeight_pos : 0 < leastWeight := by
  rw [leastWeight_eq]
  positivity

theorem leastWeight_lt_half : leastWeight < 1 / 2 := by
  rw [leastWeight_eq]
  norm_num

theorem leastWeight_le_one : leastWeight ≤ 1 :=
  leastWeight_lt_half.le.trans (by norm_num)

theorem minimalSmoothing_eq : (minimalSmoothing : Exact) = .finite leastWeight :=
  rfl

theorem clamp_eq {w : Exact} (defined : w ≠ .undefined) :
    Scalar.clamp w minimalSmoothing 1 = .finite (heldWeight w) := by
  unfold Scalar.clamp
  rw [minimalSmoothing_eq, Exact.one_eq]
  cases w with
  | undefined => exact absurd rfl defined
  | negInfinity => exact if_pos ⟨trivial, id⟩
  | infinity => exact (if_neg And.left).trans (if_pos ⟨trivial, id⟩)
  | finite w =>
    simp only [Exact.finite_lt_finite, heldWeight]
    split_ifs with low high
    · rw [min_eq_left (low.le.trans leastWeight_le_one), max_eq_left low.le]
    · rw [min_eq_right high.le, max_eq_right leastWeight_le_one]
    · rw [min_eq_left (not_lt.mp high), max_eq_right (not_lt.mp low)]

theorem heldWeight_bounds (w : Exact) : 0 < heldWeight w ∧ heldWeight w ≤ 1 := by
  cases w with
  | finite w =>
    exact ⟨leastWeight_pos.trans_le (le_max_left _ _),
      max_le leastWeight_le_one (min_le_right _ _)⟩
  | infinity => exact ⟨one_pos, le_rfl⟩
  | _ => exact ⟨leastWeight_pos, leastWeight_le_one⟩

theorem isReal_initial {smoothing : Option Exact} (defined : ∀ w ∈ smoothing, w ≠ .undefined) :
    (initial smoothing).IsReal (pointMass .unknown) (heldWeight (smoothing.getD 0.5)) := by
  refine ⟨unknown_eq, clamp_eq ?_, isProbability_pointMass _, heldWeight_bounds _⟩
  cases smoothing with
  | none =>
    rw [Option.getD_none, Exact.half_eq]
    exact nofun
  | some w => exact defined w rfl

/-- Both sides of a blend are weighed by their shares of one. -/
def blend (s : ℝ) (p o : ObjectClass → ℝ) : ObjectClass → ℝ :=
  fun c => (1 - s) * p c + s * o c

theorem isProbability_blend {o : ObjectClass → ℝ} (weight : 0 < s ∧ s ≤ 1)
    (own : IsProbability p) (other : IsProbability o) : IsProbability (blend s p o) := by
  refine ⟨fun c => ?_, ?_⟩
  · have := own.nonneg c
    have := other.nonneg c
    have := sub_nonneg.mpr weight.2
    have := weight.1.le
    unfold blend
    positivity
  · unfold blend
    rw [List.sum_map_add, List.sum_map_mul_left, List.sum_map_mul_left, own.sum_eq_one,
      other.sum_eq_one]
    ring

theorem IsReal.blended_eq (real : b.IsReal p s) (o : ObjectClass → ℝ) :
    b.blended (ofReal o) = ofReal (blend s p o) := by
  refine congrArg ofFn (funext fun c => ?_)
  rw [real.distribution, real.smoothing, probability_ofReal, probability_ofReal, Exact.one_eq,
    Exact.finite_sub_finite, Exact.finite_mul_finite, Exact.finite_mul_finite,
    Exact.finite_add_finite]
  rfl

theorem scaled_of_isProbability (probability : IsProbability p) : (ofReal p).scaled = ofReal p := by
  rw [scaled_ofReal (probability.sum_eq_one.symm ▸ one_ne_zero), probability.sum_eq_one]
  simp only [div_one]

theorem update_of_massless {hypotheses : List (Hypothesis Exact)}
    (massless : shares? hypotheses = none) : b.update hypotheses = b := by
  unfold ClassBelief.update
  rw [ofHypotheses?_eq, massless]
  rfl

theorem IsReal.update (real : b.IsReal p s) {hypotheses : List (Hypothesis Exact)}
    {o : ObjectClass → ℝ} (shared : shares? hypotheses = some o) :
    (b.update hypotheses).IsReal (blend s p o) s := by
  have probability := isProbability_blend real.weight real.probability
    (isProbability_of_shares? shared)
  refine ⟨?_, ?_, probability, real.weight⟩
  · unfold ClassBelief.update
    rw [ofHypotheses?_eq, shared]
    change (b.blended (ofReal o)).scaled = ofReal (blend s p o)
    rw [real.blended_eq, scaled_of_isProbability probability]
  · unfold ClassBelief.update
    rw [ofHypotheses?_eq, shared]
    exact real.smoothing

theorem isReal_ofHypotheses (hypotheses : List (Hypothesis Exact)) :
    (ofHypotheses hypotheses).IsReal ((shares? hypotheses).getD (pointMass .unknown))
      (heldWeight 0.5) := by
  have start : (initial (none : Option Exact)).IsReal _ _ := isReal_initial nofun
  unfold ClassBelief.ofHypotheses
  rw [ofHypotheses?_eq]
  cases shared : shares? hypotheses with
  | none => exact start
  | some o => exact ⟨rfl, start.smoothing, isProbability_of_shares? shared, start.weight⟩

theorem Reachable.exists_isReal (reachable : b.Reachable) : ∃ p s, b.IsReal p s := by
  induction reachable with
  | initial smoothing defined =>
    exact ⟨_, _, isReal_initial fun w given => Exact.isNaN_eq_false_iff.mp (defined w given)⟩
  | ofHypotheses hypotheses => exact ⟨_, _, isReal_ofHypotheses hypotheses⟩
  | update hypotheses _ ih =>
    obtain ⟨p, s, real⟩ := ih
    cases shared : shares? hypotheses with
    | none =>
      rw [update_of_massless shared]
      exact ⟨p, s, real⟩
    | some o => exact ⟨_, s, real.update shared⟩

theorem IsReal.hypothesis_eq (real : b.IsReal p s) (c : ObjectClass) :
    b.hypothesis c = ⟨c, .finite (p c)⟩ := by
  unfold ClassBelief.hypothesis
  rw [real.distribution, probability_ofReal]

theorem lowestProbability_lt {x : ℝ} (nonneg : 0 ≤ x) :
    (lowestProbability : Exact) < .finite x := by
  unfold lowestProbability
  rw [Exact.scientific_eq, Exact.neg_finite, Exact.finite_lt_finite]
  norm_num
  linarith

theorem IsReal.exists_mostLikely_eq (real : b.IsReal p s) :
    ∃ c, ObjectClass.all.argmax p = some c ∧ b.mostLikely = ⟨c, .finite (p c)⟩ := by
  let later : List ObjectClass :=
    [.car, .truck, .bus, .trailer, .motorcycle, .bicycle, .pedestrian]
  refine ⟨_, argmax_cons_eq p .unknown later, ?_⟩
  unfold mostLikely
  have all : ObjectClass.all.map b.hypothesis =
      b.hypothesis .unknown :: later.map b.hypothesis := rfl
  rw [all, List.foldl_cons, real.hypothesis_eq .unknown,
    if_pos (lowestProbability_lt (real.probability.nonneg _)), List.foldl_map]
  refine (List.foldl_hom (fun c => (⟨c, .finite (p c)⟩ : Hypothesis Exact)) fun best c => ?_)
  dsimp only
  rw [real.hypothesis_eq]
  simp only [Exact.finite_lt_finite]
  split_ifs <;> rfl

theorem IsReal.mostLikely_eq (real : b.IsReal p s) {c : ObjectClass} (greatest : ∀ d, p d ≤ p c)
    (first : ∀ d, p d = p c → c.index ≤ d.index) : b.mostLikely = ⟨c, .finite (p c)⟩ := by
  obtain ⟨d, found, likely⟩ := real.exists_mostLikely_eq
  have least : ObjectClass.all.argmax p = some c := by
    refine List.argmax_eq_some_iff.mpr ⟨c.mem_all, fun d _ => greatest d, fun d _ above => ?_⟩
    rw [ObjectClass.idxOf_all, ObjectClass.idxOf_all]
    exact first d (le_antisymm (greatest d) above)
  obtain rfl := Option.some.inj (least.symm.trans found)
  exact likely

theorem IsReal.mostLikely_of_lt (real : b.IsReal p s) {c : ObjectClass}
    (greater : ∀ d, d ≠ c → p d < p c) : b.mostLikely.objectClass = c := by
  have greatest (d : ObjectClass) : p d ≤ p c := by
    by_cases same : d = c
    · rw [same]
    · exact (greater d same).le
  have alone (d : ObjectClass) (tie : p d = p c) : c.index ≤ d.index := by
    by_cases same : d = c
    · rw [same]
    · exact absurd tie (greater d same).ne
  rw [real.mostLikely_eq greatest alone]

theorem IsReal.ranking_eq (real : b.IsReal p s) : b.ranking =
    ((ObjectClass.all.filter fun c => 0 < p c).mergeSort fun c d => p d ≤ p c).map fun c =>
      ⟨c, .finite (p c)⟩ := by
  unfold ranking
  have each : b.hypothesis = fun c => ⟨c, .finite (p c)⟩ := funext real.hypothesis_eq
  rw [each, List.filter_map]
  simp only [Function.comp_def, Exact.zero_eq, Exact.finite_lt_finite]
  refine (List.map_mergeSort fun c _ d _ => ?_).symm
  simp only [Exact.finite_le_finite]

/-- The first of the ranking is the most likely class. -/
theorem Reachable.head?_ranking (reachable : b.Reachable) : b.ranking.head? = some b.mostLikely := by
  obtain ⟨p, s, real⟩ := reachable.exists_isReal
  obtain ⟨c, greatest, likely⟩ := real.exists_mostLikely_eq
  obtain ⟨d, listed, above⟩ := real.probability.exists_pos
  have positive : 0 < p c := above.trans_le (List.le_of_mem_argmax listed greatest)
  rw [real.ranking_eq, List.head?_map, head?_mergeSort_eq, argmax_filter_pos, greatest, likely]
  simp only [Option.filter_some, positive, decide_true, if_true, Option.map_some]

end

end ClassBelief

end TrackFusion
