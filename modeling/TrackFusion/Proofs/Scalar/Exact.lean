import Mathlib.Algebra.Order.Round
import Mathlib.Analysis.Real.Sqrt
import Mathlib.Analysis.SpecialFunctions.Trigonometric.Basic
import Mathlib.Data.Sign.Basic
import TrackFusion.Scalar.Binary

/-!
Exact numbers as scalars.

An exact number is a real number, one of the two infinities, or undefined. It behaves as a machine
number does, except that nothing is ever rounded and that there is one zero, which counts as
positive. A finite sum, difference or product has finite operands, and a finite quotient has a
finite numerator: this is how a finite result tells that nothing infinite or undefined went into it.

Statements that hold of machine numbers as well only ask that the infinite cost is not finite.
-/

set_option autoImplicit false
set_option relaxedAutoImplicit false

namespace TrackFusion

class InfiniteCost (α : Type) [ExtendedScalar α] : Prop where
  isFinite_infinity : Scalar.isFinite (ExtendedScalar.infinity : α) = false

instance : InfiniteCost Float :=
  ⟨rfl⟩

/-- A real number, an infinity, or the undefined value. -/
inductive Exact where
  | undefined
  | negInfinity
  | finite (value : ℝ)
  | infinity

namespace Exact

noncomputable section

def ofSign : SignType → Exact
  | .neg => negInfinity
  | .zero => undefined
  | .pos => infinity

def sign : Exact → SignType
  | undefined => 0
  | negInfinity => -1
  | finite x => SignType.sign x
  | infinity => 1

def neg : Exact → Exact
  | undefined => undefined
  | negInfinity => infinity
  | finite x => finite (-x)
  | infinity => negInfinity

/-- The sum; opposite infinities have none. -/
def add : Exact → Exact → Exact
  | finite x, finite y => finite (x + y)
  | undefined, _ => undefined
  | _, undefined => undefined
  | infinity, negInfinity => undefined
  | negInfinity, infinity => undefined
  | infinity, _ => infinity
  | _, infinity => infinity
  | negInfinity, _ => negInfinity
  | _, negInfinity => negInfinity

def mul : Exact → Exact → Exact
  | finite x, finite y => finite (x * y)
  | undefined, _ => undefined
  | _, undefined => undefined
  | a, b => ofSign (a.sign * b.sign)

/-- The quotient. Division by zero gives the infinity of the numerator's sign, division by an
infinity gives zero; zero by zero and infinity by infinity are undefined. -/
def div : Exact → Exact → Exact
  | finite x, finite y => if y = 0 then ofSign (SignType.sign x) else finite (x / y)
  | finite _, infinity => finite 0
  | finite _, negInfinity => finite 0
  | infinity, finite y => if y < 0 then negInfinity else infinity
  | negInfinity, finite y => if y < 0 then infinity else negInfinity
  | _, _ => undefined

/-- The order; the undefined value is not comparable, not even with itself. -/
def le : Exact → Exact → Prop
  | undefined, _ => False
  | _, undefined => False
  | finite x, finite y => x ≤ y
  | negInfinity, _ => True
  | _, infinity => True
  | _, _ => False

def lt (a b : Exact) : Prop :=
  le a b ∧ ¬ le b a

def sqrt : Exact → Exact
  | finite x => if x < 0 then undefined else finite (Real.sqrt x)
  | infinity => infinity
  | _ => undefined

def cos : Exact → Exact
  | finite x => finite (Real.cos x)
  | _ => undefined

/-- The nearest integer, halves away from zero. -/
def roundAway (x : ℝ) : ℤ :=
  if 0 ≤ x then round x else -round (-x)

/-- The nearest integer held within the signed 64-bit range, zero for the undefined value. -/
def toInt64 : Exact → ℤ
  | undefined => 0
  | negInfinity => -2 ^ 63
  | finite x => max (-2 ^ 63) (min (2 ^ 63 - 1) (roundAway x))
  | infinity => 2 ^ 63 - 1

def toReal : Exact → ℝ
  | finite x => x
  | _ => 0

instance : Scalar Exact where
  zero := finite 0
  one := finite 1
  add := add
  sub a b := add a (neg b)
  neg := neg
  mul := mul
  div := div
  lt := lt
  le := le
  ofScientific mantissa negative exponent :=
    finite (OfScientific.ofScientific mantissa negative exponent)
  decLt := Classical.decRel _
  decLe := Classical.decRel _
  sqrt := sqrt
  cos := cos
  isFinite
    | finite _ => true
    | _ => false

instance : ExtendedScalar Exact where
  infinity := infinity
  toInt64 := toInt64

instance : InfiniteCost Exact :=
  ⟨rfl⟩

/-! Arithmetic of finite numbers is that of real numbers. -/

theorem zero_eq : (0 : Exact) = finite 0 :=
  rfl

theorem one_eq : (1 : Exact) = finite 1 :=
  rfl

theorem scientific_eq (mantissa : Nat) (negative : Bool) (exponent : Nat) :
    (OfScientific.ofScientific mantissa negative exponent : Exact) =
      finite (OfScientific.ofScientific mantissa negative exponent) :=
  rfl

theorem two_eq : (2.0 : Exact) = finite 2 := by
  rw [scientific_eq]
  norm_num

theorem half_eq : (0.5 : Exact) = finite (1 / 2) := by
  rw [scientific_eq]
  norm_num

@[simp] theorem finite_add_finite (x y : ℝ) : finite x + finite y = finite (x + y) :=
  rfl

@[simp] theorem neg_finite (x : ℝ) : -finite x = finite (-x) :=
  rfl

theorem sub_def (a b : Exact) : a - b = a + -b :=
  rfl

@[simp] theorem finite_sub_finite (x y : ℝ) : finite x - finite y = finite (x - y) := by
  rw [sub_def, neg_finite, finite_add_finite, sub_eq_add_neg]

@[simp] theorem finite_mul_finite (x y : ℝ) : finite x * finite y = finite (x * y) :=
  rfl

theorem finite_div_finite {x y : ℝ} (nonzero : y ≠ 0) : finite x / finite y = finite (x / y) :=
  if_neg nonzero

theorem sqrt_finite {x : ℝ} (nonneg : 0 ≤ x) : Scalar.sqrt (finite x) = finite (Real.sqrt x) :=
  if_neg (not_lt.mpr nonneg)

theorem sum_finite (values : List ℝ) :
    Scalar.sum (values.map finite) = .finite values.sum := by
  suffices longer : ∀ start, (values.map finite).foldl (· + ·) (.finite start) =
      .finite (start + values.sum) by
    have whole := longer 0
    rwa [zero_add] at whole
  induction values with
  | nil => exact fun start => by simp
  | cons x rest ih =>
    intro start
    rw [List.map_cons, List.foldl_cons, finite_add_finite, ih, List.sum_cons, add_assoc]

@[simp] theorem cos_finite (x : ℝ) : Scalar.cos (finite x) = finite (Real.cos x) :=
  rfl

@[simp] theorem finite_le_finite {x y : ℝ} : finite x ≤ finite y ↔ x ≤ y :=
  Iff.rfl

@[simp] theorem finite_lt_finite {x y : ℝ} : finite x < finite y ↔ x < y := by
  change x ≤ y ∧ ¬ y ≤ x ↔ x < y
  rw [lt_iff_le_not_ge]

theorem not_finite_lt_zero {x : ℝ} (nonneg : 0 ≤ x) : ¬ finite x < 0 := by
  rw [zero_eq, finite_lt_finite]
  exact not_lt.mpr nonneg

@[simp] theorem isFinite_finite (x : ℝ) : Scalar.isFinite (finite x) = true :=
  rfl

@[simp] theorem isFinite_infinity : Scalar.isFinite (ExtendedScalar.infinity : Exact) = false :=
  rfl

theorem isFinite_iff {a : Exact} : Scalar.isFinite a = true ↔ ∃ x, a = finite x := by
  cases a with
  | finite x => exact ⟨fun _ => ⟨x, rfl⟩, fun _ => rfl⟩
  | _ => exact ⟨nofun, nofun⟩

/-! Finite results come from finite operands. -/

theorem neg_eq_finite_iff {a : Exact} {z : ℝ} : -a = finite z ↔ a = finite (-z) := by
  constructor
  · intro result
    cases a with
    | finite x =>
      obtain rfl : -x = z := by simpa only [neg_finite, finite.injEq] using result
      rw [neg_neg]
    | _ => cases result
  · rintro rfl
    rw [neg_finite, neg_neg]

theorem add_eq_finite {a b : Exact} {z : ℝ} (result : a + b = finite z) :
    ∃ x y, a = finite x ∧ b = finite y ∧ x + y = z := by
  cases a <;> cases b <;> first | exact ⟨_, _, rfl, rfl, finite.inj result⟩ | cases result

theorem sub_eq_finite {a b : Exact} {z : ℝ} (result : a - b = finite z) :
    ∃ x y, a = finite x ∧ b = finite y ∧ x - y = z := by
  obtain ⟨x, y, first, second, sum⟩ := add_eq_finite (sub_def a b ▸ result)
  exact ⟨x, -y, first, neg_eq_finite_iff.mp second, by rw [sub_neg_eq_add, sum]⟩

private theorem ofSign_ne_finite (s : SignType) (z : ℝ) : ofSign s ≠ finite z := by
  cases s <;> exact nofun

theorem mul_eq_finite {a b : Exact} {z : ℝ} (result : a * b = finite z) :
    ∃ x y, a = finite x ∧ b = finite y ∧ x * y = z := by
  cases a <;> cases b <;>
    first
    | exact ⟨_, _, rfl, rfl, finite.inj result⟩
    | exact absurd result (ofSign_ne_finite _ _)
    | cases result

theorem exists_reciprocal {b : Exact} (positive : 0 < b) :
    ∃ r : ℝ, 0 ≤ r ∧ ∀ (a : Exact) (z : ℝ),
      a / b = finite z ↔ ∃ x, a = finite x ∧ x * r = z := by
  cases b with
  | undefined => exact positive.1.elim
  | negInfinity => exact positive.1.elim
  | finite y =>
    have above : 0 < y := finite_lt_finite.mp positive
    refine ⟨y⁻¹, (inv_pos.mpr above).le, fun a z => ?_⟩
    constructor
    · intro result
      cases a with
      | undefined => cases result
      | finite x =>
        rw [finite_div_finite above.ne', finite.injEq] at result
        exact ⟨x, rfl, by rw [← div_eq_mul_inv, result]⟩
      | _ =>
        have infinite : (if y < 0 then _ else _) = finite z := result
        rw [if_neg (not_lt.mpr above.le)] at infinite
        cases infinite
    · rintro ⟨x, rfl, rfl⟩
      rw [finite_div_finite above.ne', div_eq_mul_inv]
  -- finite numbers over an infinity are zero, and infinite ones are undefined
  | infinity =>
    refine ⟨0, le_rfl, fun a z => ?_⟩
    constructor
    · intro result
      cases a with
      | finite x => exact ⟨x, rfl, by rw [mul_zero]; exact finite.inj result⟩
      | _ => cases result
    · rintro ⟨x, rfl, rfl⟩
      rw [mul_zero]
      rfl

/-! Comparison. -/

theorem isNaN_eq_false_iff {a : Exact} : Scalar.isNaN a = false ↔ a ≠ undefined := by
  unfold Scalar.isNaN
  rw [Bool.not_eq_false', decide_eq_true_eq]
  cases a with
  | undefined => exact ⟨False.elim, fun defined => (defined rfl).elim⟩
  | negInfinity => exact ⟨fun _ => nofun, fun _ => trivial⟩
  | finite x => exact ⟨fun _ => nofun, fun _ => le_refl x⟩
  | infinity => exact ⟨fun _ => nofun, fun _ => trivial⟩

@[simp] theorem isNaN_finite (x : ℝ) : Scalar.isNaN (finite x) = false :=
  isNaN_eq_false_iff.mpr nofun

theorem max_finite (x y : ℝ) : Scalar.max (finite x) (finite y) = finite (max x y) := by
  unfold Scalar.max
  rw [isNaN_finite, Bool.false_or]
  simp only [decide_eq_true_eq, finite_lt_finite]
  split_ifs with below
  · rw [max_eq_right below.le]
  · rw [max_eq_left (not_lt.mp below)]

theorem min_finite (x y : ℝ) : Scalar.min (finite x) (finite y) = finite (min x y) := by
  unfold Scalar.min
  rw [isNaN_finite, Bool.false_or]
  simp only [decide_eq_true_eq, finite_lt_finite]
  split_ifs with below
  · rw [min_eq_right below.le]
  · rw [min_eq_left (not_lt.mp below)]

theorem min_infinity_finite (x : ℝ) : Scalar.min infinity (finite x) = finite x := by
  have below : finite x < infinity := ⟨trivial, id⟩
  exact if_pos (by rw [decide_eq_true below, Bool.or_true])

theorem max_negInfinity_finite (x : ℝ) : Scalar.max negInfinity (finite x) = finite x := by
  have below : negInfinity < finite x := ⟨trivial, id⟩
  exact if_pos (by rw [decide_eq_true below, Bool.or_true])

theorem abs_finite (x : ℝ) : Scalar.abs (finite x) = finite |x| := by
  unfold Scalar.abs
  simp only [zero_eq, finite_lt_finite]
  split_ifs with negative
  · rw [neg_finite, abs_of_neg negative]
  · rw [abs_of_nonneg (not_lt.mp negative)]

theorem sameValue_finite (x y : ℝ) :
    Scalar.sameValue (finite x) (finite y) = decide (x = y) := by
  unfold Scalar.sameValue
  rw [Bool.eq_iff_iff, Bool.and_eq_true, decide_eq_true_eq, decide_eq_true_eq, decide_eq_true_eq,
    finite_le_finite, finite_le_finite]
  exact le_antisymm_iff.symm

theorem signedBy_finite (s x : ℝ) :
    Scalar.signedBy (finite s) (finite x) = finite (if 0 ≤ s then x else -x) := by
  unfold Scalar.signedBy
  simp only [zero_eq, finite_le_finite]
  split_ifs <;> rfl

theorem not_le_undefined (a : Exact) : ¬ a ≤ undefined := by
  intro below
  cases a <;> exact below

theorem not_lt_undefined (a : Exact) : ¬ a < undefined :=
  fun below => not_le_undefined a below.1

theorem finite_le_of_le {x y : ℝ} {a : Exact} (less : x ≤ y) (below : finite y ≤ a) :
    finite x ≤ a := by
  cases a with
  | finite z => exact less.trans (finite_le_finite.mp below)
  | infinity => trivial
  | _ => exact below

theorem le_of_not_lt {a b : Exact} (left : a ≠ undefined) (right : b ≠ undefined)
    (above : ¬ a < b) : b ≤ a := by
  cases a <;> cases b <;>
    first
    | exact absurd rfl left
    | exact absurd rfl right
    | exact not_lt.mp fun below => above (finite_lt_finite.mpr below)
    | trivial
    | exact absurd ⟨trivial, id⟩ above

theorem sqrt_pos {a : Exact} (positive : 0 < a) : 0 < Scalar.sqrt a := by
  cases a with
  | undefined => exact positive.1.elim
  | negInfinity => exact positive.1.elim
  | finite x =>
    have above : 0 < x := finite_lt_finite.mp positive
    rw [sqrt_finite above.le]
    exact finite_lt_finite.mpr (Real.sqrt_pos.mpr above)
  | infinity => exact ⟨trivial, id⟩

theorem toInt64_finite_of_nonneg {x : ℝ} (nonneg : 0 ≤ x) :
    ExtendedScalar.toInt64 (finite x) = min (2 ^ 63 - 1) (round x) := by
  have above : 0 ≤ round x := by
    rw [round_eq]
    exact Int.floor_nonneg.mpr (by linarith)
  change max (-2 ^ 63) (min (2 ^ 63 - 1) (if 0 ≤ x then round x else _)) = _
  rw [if_pos nonneg]
  omega

theorem toInt64_finite {x : ℝ} (nonneg : 0 ≤ x) (fits : round x < 2 ^ 63) :
    ExtendedScalar.toInt64 (finite x) = round x := by
  rw [toInt64_finite_of_nonneg nonneg]
  omega

end

end Exact

end TrackFusion
