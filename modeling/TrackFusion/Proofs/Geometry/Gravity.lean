import Mathlib.Analysis.InnerProductSpace.PiL2
import Mathlib.Analysis.Real.Pi.Bounds
import Mathlib.Geometry.Euclidean.Angle.Unoriented.Basic
import Mathlib.LinearAlgebra.CrossProduct
import TrackFusion.Proofs.Geometry.Rotation

/-!
Which orientations count as gravity aligned.

The check accepts a small rotation about any axis and any rotation about an almost vertical axis.
Of a unit quaternion it thereby guarantees a bound on the horizontal part, which is the sine of half
the angle between the vertical and its image, and it accepts whatever stays below another bound. In
between, the verdict depends on the rotation about the vertical.
-/

set_option autoImplicit false
set_option relaxedAutoImplicit false

namespace TrackFusion

open Matrix

namespace Quaternion

/-- The check compares squares: the scalar part with one, and the vertical with the whole vector
part. -/
theorem isGravityAligned_ofReal (q : Quaternion ℝ) :
    q.ofReal.isGravityAligned = true ↔
      Real.cos 0.05 ^ 2 ≤ q.w ^ 2 ∨
        (0 < q.i ^ 2 + q.j ^ 2 + q.k ^ 2 ∧
          Real.cos 0.1 ^ 2 * (q.i ^ 2 + q.j ^ 2 + q.k ^ 2) ≤ q.k ^ 2) := by
  have half : (0.5 * angleThreshold : Exact) = .finite 0.05 := by
    unfold angleThreshold
    rw [Exact.half_eq, Exact.scientific_eq, Exact.finite_mul_finite]
    norm_num
  have tilt : (axisTiltThreshold : Exact) = .finite 0.1 := rfl
  have square : q.i * q.i + q.j * q.j + q.k * q.k = q.i ^ 2 + q.j ^ 2 + q.k ^ 2 := by ring
  have nonneg : 0 ≤ q.i ^ 2 + q.j ^ 2 + q.k ^ 2 := by positivity
  have cosHalf : 0 ≤ Real.cos 0.05 := (Real.cos_pos_of_le_one (by norm_num [abs_of_pos])).le
  have cosTilt : 0 ≤ Real.cos 0.1 := (Real.cos_pos_of_le_one (by norm_num [abs_of_pos])).le
  unfold isGravityAligned ofReal
  simp only [half, tilt, square, Exact.finite_mul_finite, Exact.finite_add_finite,
    Exact.sqrt_finite nonneg, Exact.abs_finite, Exact.cos_finite, Exact.zero_eq, Bool.or_eq_true,
    Bool.and_eq_true, decide_eq_true_eq, Exact.finite_le_finite, Exact.finite_lt_finite,
    Real.sqrt_pos]
  refine or_congr ?_ (and_congr_right fun positive => ?_)
  · rw [← sq_abs q.w, sq_le_sq₀ cosHalf (abs_nonneg _)]
  · have length : 0 < √(q.i ^ 2 + q.j ^ 2 + q.k ^ 2) := Real.sqrt_pos.mpr positive
    rw [Exact.finite_div_finite length.ne', Exact.finite_le_finite, le_div_iff₀ length,
      ← sq_le_sq₀ (mul_nonneg cosTilt length.le) (abs_nonneg _), mul_pow, Real.sq_sqrt nonneg,
      sq_abs]

theorem isGravityAligned_of_one_le {q : Quaternion ℝ} (long : 1 ≤ q.w ^ 2) :
    q.ofReal.isGravityAligned = true :=
  (isGravityAligned_ofReal q).mpr (.inl ((Real.cos_sq_le_one _).trans long))

instance {α : Type} [Neg α] : Neg (Quaternion α) :=
  ⟨fun q => ⟨-q.i, -q.j, -q.k, -q.w⟩⟩

theorem isGravityAligned_neg (q : Quaternion ℝ) :
    (-q).ofReal.isGravityAligned = q.ofReal.isGravityAligned := by
  have opposite : -q = ⟨-q.i, -q.j, -q.k, -q.w⟩ := rfl
  rw [Bool.eq_iff_iff, isGravityAligned_ofReal, isGravityAligned_ofReal, opposite]
  simp only [neg_sq]

theorem isGravityAligned_conjugate (q : Quaternion ℝ) :
    q.conjugate.ofReal.isGravityAligned = q.ofReal.isGravityAligned := by
  rw [Bool.eq_iff_iff, isGravityAligned_ofReal, isGravityAligned_ofReal]
  simp only [conjugate, neg_sq]

variable {q : Quaternion ℝ}

theorem sin_sq_mono : Real.sin 0.05 ^ 2 ≤ Real.sin 0.1 ^ 2 := by
  have below : (0.1 : ℝ) ≤ Real.pi / 2 := by linarith [Real.pi_gt_three]
  have first : 0 ≤ Real.sin 0.05 := Real.sin_nonneg_of_nonneg_of_le_pi (by norm_num) (by linarith)
  exact pow_le_pow_left₀ first
    (Real.sin_le_sin_of_le_of_le_pi_div_two (by linarith) below (by norm_num)) 2

theorem IsUnit.horizontal_le (unit : q.IsUnit) (accepted : q.ofReal.isGravityAligned = true) :
    q.i ^ 2 + q.j ^ 2 ≤ Real.sin 0.1 ^ 2 := by
  unfold IsUnit at unit
  -- either the whole vector part is short, or its horizontal part is a small share of it
  rcases (isGravityAligned_ofReal q).mp accepted with small | ⟨-, upright⟩
  · have bound := sin_sq_mono
    rw [Real.cos_sq'] at small
    nlinarith [sq_nonneg q.k]
  · rw [Real.cos_sq'] at upright
    have share : Real.sin 0.1 ^ 2 * (q.i ^ 2 + q.j ^ 2 + q.k ^ 2) ≤ Real.sin 0.1 ^ 2 * 1 :=
      mul_le_mul_of_nonneg_left (by nlinarith [sq_nonneg q.w]) (sq_nonneg _)
    linarith

/-- A unit quaternion with a small enough horizontal part is accepted: unless the rotation is small,
the vector part is long, and then its axis is almost vertical. -/
theorem IsUnit.isGravityAligned_of_horizontal_le (unit : q.IsUnit)
    (small : q.i ^ 2 + q.j ^ 2 ≤ Real.sin 0.05 ^ 2 * Real.sin 0.1 ^ 2) :
    q.ofReal.isGravityAligned = true := by
  unfold IsUnit at unit
  rw [isGravityAligned_ofReal, Real.cos_sq', Real.cos_sq']
  by_cases still : 1 - Real.sin 0.05 ^ 2 ≤ q.w ^ 2
  · exact .inl still
  · right
    have long : Real.sin 0.05 ^ 2 < q.i ^ 2 + q.j ^ 2 + q.k ^ 2 := by linarith
    have share : Real.sin 0.05 ^ 2 * Real.sin 0.1 ^ 2 ≤
        (q.i ^ 2 + q.j ^ 2 + q.k ^ 2) * Real.sin 0.1 ^ 2 :=
      mul_le_mul_of_nonneg_right long.le (sq_nonneg _)
    exact ⟨(sq_nonneg _).trans_lt long, by linarith⟩

def vertical : Fin 3 → ℝ :=
  ![0, 0, 1]

/-- The horizontal part is the sine of half the angle by which the vertical turns away. -/
theorem IsUnit.angle_turn_vertical (unit : q.IsUnit) :
    InnerProductGeometry.angle (WithLp.toLp 2 (q.turn *ᵥ vertical)) (WithLp.toLp 2 vertical) =
      Real.arccos (1 - 2 * (q.i ^ 2 + q.j ^ 2)) := by
  have upright : vertical ⬝ᵥ vertical = 1 := by
    simp [vertical, dotProduct, Fin.sum_univ_three]
  have turned : (q.turn *ᵥ vertical) ⬝ᵥ (q.turn *ᵥ vertical) = 1 := by
    rw [dotProduct_mulVec, vecMul_mulVec, unit.transpose_turn_mul, vecMul_one, upright]
  have length {v : Fin 3 → ℝ} (one : v ⬝ᵥ v = 1) : ‖WithLp.toLp 2 v‖ = 1 := by
    rw [norm_eq_sqrt_real_inner, EuclideanSpace.inner_toLp_toLp, star_trivial, one, Real.sqrt_one]
  have cosine : vertical ⬝ᵥ (q.turn *ᵥ vertical) = 1 - 2 * (q.i ^ 2 + q.j ^ 2) := by
    unfold IsUnit at unit
    simp [vertical, turn, mulVec, dotProduct, Fin.sum_univ_three]
    linarith
  unfold InnerProductGeometry.angle
  rw [length turned, length upright, EuclideanSpace.inner_toLp_toLp, star_trivial, cosine, mul_one,
    div_one]

theorem IsUnit.angle_le (unit : q.IsUnit) (small : q.i ^ 2 + q.j ^ 2 ≤ Real.sin 0.1 ^ 2) :
    InnerProductGeometry.angle (WithLp.toLp 2 (q.turn *ᵥ vertical)) (WithLp.toLp 2 vertical) ≤
      0.2 := by
  have cosine : Real.cos 0.2 ≤ 1 - 2 * (q.i ^ 2 + q.j ^ 2) := by
    have double : Real.cos 0.2 = Real.cos (2 * 0.1) := by norm_num
    rw [double, Real.cos_two_mul, Real.cos_sq']
    linarith
  rw [unit.angle_turn_vertical]
  refine (Real.arccos_le_arccos cosine).trans_eq ?_
  exact Real.arccos_cos (by norm_num) (by linarith [Real.pi_gt_three])

structure TurnsBy (q : Quaternion ℝ) (axis : Fin 3 → ℝ) (angle : ℝ) : Prop where
  length : axis ⬝ᵥ axis = 1
  turns : ∀ v, q.turn *ᵥ v = Real.cos angle • v + Real.sin angle • crossProduct axis v +
    ((1 - Real.cos angle) * (axis ⬝ᵥ v)) • axis

theorem TurnsBy.sq_w {axis : Fin 3 → ℝ} {angle : ℝ} (turns : q.TurnsBy axis angle)
    (unit : q.IsUnit) : q.w ^ 2 = Real.cos (angle / 2) ^ 2 := by
  have entry (a : Fin 3) : q.turn a a =
      Real.cos angle + (1 - Real.cos angle) * (axis a * axis a) := by
    have column := congrFun (turns.turns (Pi.single a 1)) a
    rw [mulVec_single_one] at column
    have away : crossProduct axis (Pi.single a 1) a = 0 := by
      fin_cases a <;> simp [cross_apply]
    simp only [Pi.add_apply, Pi.smul_apply, smul_eq_mul, Pi.single_eq_same, away,
      dotProduct_single_one, col_apply] at column
    rw [column]
    ring
  have length := turns.length
  rw [dotProduct, Fin.sum_univ_three] at length
  -- the trace, taken from the quaternion and from the angle
  have trace : q.turn 0 0 + q.turn 1 1 + q.turn 2 2 = 4 * q.w ^ 2 - 1 := by
    unfold IsUnit at unit
    simp [turn]
    linarith
  have sum : q.turn 0 0 + q.turn 1 1 + q.turn 2 2 = 1 + 2 * Real.cos angle := by
    rw [entry, entry, entry]
    linear_combination (1 - Real.cos angle) * length
  have double : Real.cos angle = 2 * Real.cos (angle / 2) ^ 2 - 1 := by
    rw [← Real.cos_two_mul, mul_div_cancel₀ angle two_ne_zero]
  linarith

theorem TurnsBy.isGravityAligned {axis : Fin 3 → ℝ} {angle : ℝ} (turns : q.TurnsBy axis angle)
    (unit : q.IsUnit) (small : |angle| ≤ 0.1) : q.ofReal.isGravityAligned = true := by
  refine (isGravityAligned_ofReal q).mpr (.inl ?_)
  rw [turns.sq_w unit, ← Real.cos_abs (angle / 2), abs_div, abs_two]
  have nonneg : 0 ≤ Real.cos 0.05 := (Real.cos_pos_of_le_one (by norm_num [abs_of_pos])).le
  refine pow_le_pow_left₀ nonneg (Real.cos_le_cos_of_nonneg_of_le_pi (by positivity) ?_ ?_) 2
  · linarith [Real.pi_gt_three]
  · linarith

theorem IsYaw.isGravityAligned (yaw : q.IsYaw) : q.ofReal.isGravityAligned = true := by
  refine yaw.unit.isGravityAligned_of_horizontal_le ?_
  rw [yaw.i, yaw.j]
  nlinarith [sq_nonneg (Real.sin 0.05 * Real.sin 0.1)]

/-- An accepted unit quaternion keeps the vertical within 0.2 radians. Accepted are all with a small
enough horizontal part, so every rotation about the vertical, and all rotations by at most 0.1
radians. The verdict is about the rotation and is the same for the opposite one. -/
theorem IsUnit.isGravityAligned_bounds (unit : q.IsUnit) :
    (q.ofReal.isGravityAligned = true →
      q.i ^ 2 + q.j ^ 2 ≤ Real.sin 0.1 ^ 2 ∧
        ∃ v, q.ofReal.rotate (.ofReal vertical) = .ofReal v ∧
          InnerProductGeometry.angle (WithLp.toLp 2 v) (WithLp.toLp 2 vertical) ≤ 0.2) ∧
      (q.i ^ 2 + q.j ^ 2 ≤ Real.sin 0.05 ^ 2 * Real.sin 0.1 ^ 2 →
        q.ofReal.isGravityAligned = true) ∧
      (q.IsYaw → q.ofReal.isGravityAligned = true) ∧
      (∀ axis angle, q.TurnsBy axis angle → |angle| ≤ 0.1 → q.ofReal.isGravityAligned = true) ∧
      (-q).ofReal.isGravityAligned = q.ofReal.isGravityAligned ∧
      q.conjugate.ofReal.isGravityAligned = q.ofReal.isGravityAligned := by
  refine ⟨fun accepted => ?_, unit.isGravityAligned_of_horizontal_le, IsYaw.isGravityAligned,
    fun axis angle turns small => turns.isGravityAligned unit small, q.isGravityAligned_neg,
    q.isGravityAligned_conjugate⟩
  have small := unit.horizontal_le accepted
  exact ⟨small, _, unit.rotate_ofReal vertical, unit.angle_le small⟩

/-- A roll by 0.1 radians is accepted. -/
theorem IsUnit.isGravityAligned_bounds_roll :
    let q : Quaternion ℝ := ⟨Real.sin 0.05, 0, 0, Real.cos 0.05⟩
    q.IsUnit ∧ q.TurnsBy ![1, 0, 0] 0.1 ∧ q.ofReal.isGravityAligned = true ∧
      ∃ v, q.ofReal.rotate (.ofReal vertical) = .ofReal v ∧
        InnerProductGeometry.angle (WithLp.toLp 2 v) (WithLp.toLp 2 vertical) ≤ 0.2 := by
  intro q
  have circle := Real.sin_sq_add_cos_sq 0.05
  have unit : q.IsUnit := by
    unfold IsUnit
    linear_combination circle
  have double : (0.1 : ℝ) = 2 * 0.05 := by norm_num
  have cosine : Real.cos 0.1 = Real.cos 0.05 ^ 2 - Real.sin 0.05 ^ 2 := by
    rw [double, Real.cos_two_mul']
  have sine : Real.sin 0.1 = 2 * Real.sin 0.05 * Real.cos 0.05 := by
    rw [double, Real.sin_two_mul]
  have turns : q.TurnsBy ![1, 0, 0] 0.1 := by
    refine ⟨by simp [dotProduct, Fin.sum_univ_three], fun v => ?_⟩
    rw [cosine, sine]
    ext a
    fin_cases a <;> simp [q, turn, mulVec, dotProduct, Fin.sum_univ_three,
      cross_apply, vecHead, vecTail]
    · linear_combination v 0 * circle
    · ring
    · ring
  obtain ⟨bounded, -, -, rotations, -⟩ := unit.isGravityAligned_bounds
  have accepted := rotations _ _ turns (abs_of_pos (by norm_num : (0 : ℝ) < 0.1)).le
  exact ⟨unit, turns, accepted, (bounded accepted).2⟩

end Quaternion

end TrackFusion
