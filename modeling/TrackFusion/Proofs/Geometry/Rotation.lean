import Mathlib.Tactic.LinearCombination
import TrackFusion.Geometry.Pose
import TrackFusion.Proofs.Linear.RealMatrix

/-!
Rotations of real vectors.

A vector of exact numbers whose coordinates are finite is a real vector, and unit quaternions turn
real vectors by a rotation matrix. Products of quaternions multiply these matrices, and conjugation
transposes them, so that poses compose and invert as maps of real points.
-/

set_option autoImplicit false
set_option relaxedAutoImplicit false

namespace TrackFusion

open Matrix

@[simp] theorem Vec3.mk_add_mk {α : Type} [Scalar α] (a b c d e f : α) :
    (⟨a, b, c⟩ + ⟨d, e, f⟩ : Vec3 α) = ⟨a + d, b + e, c + f⟩ :=
  rfl

namespace Vec3

noncomputable def ofReal (v : Fin 3 → ℝ) : Vec3 Exact :=
  ⟨.finite (v Space.x), .finite (v Space.y), .finite (v Space.z)⟩

theorem ofReal_eq (v : Fin 3 → ℝ) : ofReal v = ⟨.finite (v 0), .finite (v 1), .finite (v 2)⟩ :=
  rfl

theorem ofReal_injective : Function.Injective ofReal := by
  intro v w same
  obtain ⟨x, y, z⟩ := Vec3.mk.inj same
  funext i
  fin_cases i
  · exact Exact.finite.inj x
  · exact Exact.finite.inj y
  · exact Exact.finite.inj z

theorem isFinite_iff {v : Vec3 Exact} : v.isFinite = true ↔ ∃ w, v = ofReal w := by
  simp only [isFinite, Bool.and_eq_true, Exact.isFinite_iff]
  constructor
  · rintro ⟨⟨⟨x, first⟩, y, second⟩, z, third⟩
    refine ⟨![x, y, z], ?_⟩
    cases v
    dsimp only at first second third
    rw [first, second, third]
    rfl
  · rintro ⟨w, rfl⟩
    exact ⟨⟨⟨_, rfl⟩, _, rfl⟩, _, rfl⟩

theorem exists_map_ofReal {points : List (Vec3 Exact)} (finite : ∀ v ∈ points, v.isFinite = true) :
    ∃ outline : List (Fin 3 → ℝ), points = outline.map ofReal := by
  have images : points ∈ Set.range (List.map ofReal) := by
    rw [Set.range_list_map]
    exact fun v member => (isFinite_iff.mp (finite v member)).imp fun _ => Eq.symm
  exact images.imp fun _ => Eq.symm

theorem planar_ofReal (v : Fin 3 → ℝ) : (ofReal v).planar = ⟨.finite (v 0), .finite (v 1)⟩ :=
  rfl

theorem ofReal_add (v w : Fin 3 → ℝ) : ofReal v + ofReal w = ofReal (v + w) :=
  rfl

theorem neg_ofReal (v : Fin 3 → ℝ) : -ofReal v = ofReal (-v) :=
  rfl

theorem ofReal_sub (v w : Fin 3 → ℝ) : ofReal v - ofReal w = ofReal (v - w) := by
  change (⟨_, _, _⟩ : Vec3 Exact) = ⟨_, _, _⟩
  simp only [ofReal, Exact.finite_sub_finite, Pi.sub_apply]

theorem exists_ofReal_of_add {v w : Vec3 Exact} {s : Fin 3 → ℝ} (sum : v + w = ofReal s) :
    (∃ a, v = ofReal a) ∧ ∃ b, w = ofReal b := by
  obtain ⟨x, y, z⟩ := v
  obtain ⟨x', y', z'⟩ := w
  injection sum with first second third
  obtain ⟨a, b, rfl, rfl, -⟩ := Exact.add_eq_finite first
  obtain ⟨a', b', rfl, rfl, -⟩ := Exact.add_eq_finite second
  obtain ⟨a'', b'', rfl, rfl, -⟩ := Exact.add_eq_finite third
  exact ⟨⟨![a, a', a''], rfl⟩, ![b, b', b''], rfl⟩

end Vec3

theorem Mat.apply_ofReal (m : Matrix (Fin 3) (Fin 3) ℝ) (v : Fin 3 → ℝ) :
    (Mat.ofReal m).apply (.ofReal v) = .ofReal (m *ᵥ v) := by
  simp only [Mat.apply, Mat.entry_ofReal, Vec3.ofReal_eq, Exact.finite_mul_finite,
    Exact.finite_add_finite, mulVec, dotProduct, Fin.sum_univ_three]

theorem Mat.exists_ofReal_of_apply {a : Mat 3 3 Exact} {v : Vec3 Exact} {s : Fin 3 → ℝ}
    (applied : a.apply v = .ofReal s) : ∃ w, v = .ofReal w := by
  obtain ⟨x, y, z⟩ := v
  injection applied with first
  obtain ⟨_, _, left, right, -⟩ := Exact.add_eq_finite first
  obtain ⟨_, _, left, middle, -⟩ := Exact.add_eq_finite left
  obtain ⟨_, p, -, rfl, -⟩ := Exact.mul_eq_finite left
  obtain ⟨_, q, -, rfl, -⟩ := Exact.mul_eq_finite middle
  obtain ⟨_, r, -, rfl, -⟩ := Exact.mul_eq_finite right
  exact ⟨![p, q, r], rfl⟩

namespace Quaternion

section Algebra

variable {α : Type} [Add α] [Sub α] [Neg α] [Mul α]

def mul (p q : Quaternion α) : Quaternion α where
  i := p.w * q.i + p.i * q.w + p.j * q.k - p.k * q.j
  j := p.w * q.j - p.i * q.k + p.j * q.w + p.k * q.i
  k := p.w * q.k + p.i * q.j - p.j * q.i + p.k * q.w
  w := p.w * q.w - p.i * q.i - p.j * q.j - p.k * q.k

def conjugate (q : Quaternion α) : Quaternion α :=
  ⟨-q.i, -q.j, -q.k, q.w⟩

end Algebra

def ofReal (q : Quaternion ℝ) : Quaternion Exact :=
  ⟨.finite q.i, .finite q.j, .finite q.k, .finite q.w⟩

def squaredLength (q : Quaternion ℝ) : ℝ :=
  q.i * q.i + q.j * q.j + q.k * q.k + q.w * q.w

def IsUnit (q : Quaternion ℝ) : Prop :=
  q.i * q.i + q.j * q.j + q.k * q.k + q.w * q.w = 1

/-- The rotation about the vertical axis: a unit quaternion without horizontal part. -/
structure IsYaw (q : Quaternion ℝ) : Prop where
  i : q.i = 0
  j : q.j = 0
  unit : q.IsUnit

noncomputable def turn (q : Quaternion ℝ) : Matrix (Fin 3) (Fin 3) ℝ :=
  !![q.w * q.w + q.i * q.i - q.j * q.j - q.k * q.k, 2 • (q.i * q.j - q.w * q.k),
      2 • (q.w * q.j + q.i * q.k);
    2 • (q.w * q.k + q.i * q.j), q.w * q.w - q.i * q.i + q.j * q.j - q.k * q.k,
      2 • (q.j * q.k - q.w * q.i);
    2 • (q.i * q.k - q.w * q.j), 2 • (q.w * q.i + q.j * q.k),
      q.w * q.w - q.i * q.i - q.j * q.j + q.k * q.k]

variable (p q : Quaternion ℝ)

theorem mul_ofReal : p.ofReal.mul q.ofReal = (p.mul q).ofReal := by
  simp only [mul, ofReal, Exact.finite_mul_finite, Exact.finite_add_finite, Exact.finite_sub_finite]

theorem conjugate_ofReal : q.ofReal.conjugate = q.conjugate.ofReal :=
  rfl

theorem turn_mul : (p.mul q).turn = p.turn * q.turn := by
  ext a b
  rw [mul_apply, Fin.sum_univ_three]
  fin_cases a <;> fin_cases b <;> simp [turn, mul] <;> ring

theorem turn_conjugate : q.conjugate.turn = q.turnᵀ := by
  ext a b
  fin_cases a <;> fin_cases b <;> simp [turn, conjugate] <;> ring

theorem turn_identity : (⟨0, 0, 0, 1⟩ : Quaternion ℝ).turn = 1 := by
  ext a b
  fin_cases a <;> fin_cases b <;> simp [turn]

theorem isUnit_identity : IsUnit ⟨0, 0, 0, 1⟩ := by
  unfold IsUnit
  norm_num

variable {p q}

theorem IsUnit.mul (first : p.IsUnit) (second : q.IsUnit) : (p.mul q).IsUnit := by
  unfold IsUnit Quaternion.mul at *
  linear_combination (q.i * q.i + q.j * q.j + q.k * q.k + q.w * q.w) * first + second

theorem IsUnit.conjugate (unit : q.IsUnit) : q.conjugate.IsUnit := by
  unfold IsUnit Quaternion.conjugate at *
  linear_combination unit

theorem IsYaw.vertical_add_real (yaw : q.IsYaw) : q.k * q.k + q.w * q.w = 1 := by
  have unit := yaw.unit
  unfold IsUnit at unit
  rw [yaw.i, yaw.j] at unit
  linear_combination unit

/-- `w² - k²` and `2 w k` are the cosine and the sine of the turned angle. -/
theorem IsYaw.cosine_sq_add_sine_sq (yaw : q.IsYaw) :
    (q.w * q.w - q.k * q.k) * (q.w * q.w - q.k * q.k) +
      2 * (q.w * q.k) * (2 * (q.w * q.k)) = 1 := by
  linear_combination (q.w * q.w + q.k * q.k + 1) * yaw.vertical_add_real

/-- The rotation matrix stretches by the squared length. -/
theorem transpose_turn_mul (q : Quaternion ℝ) :
    q.turnᵀ * q.turn = (q.squaredLength ^ 2) • (1 : Matrix (Fin 3) (Fin 3) ℝ) := by
  have square : q.conjugate.mul q = ⟨0, 0, 0, q.squaredLength⟩ := by
    simp only [Quaternion.mul, Quaternion.conjugate, squaredLength, mk.injEq]
    refine ⟨by ring, by ring, by ring, by ring⟩
  rw [← turn_conjugate, ← turn_mul, square]
  ext a b
  fin_cases a <;> fin_cases b <;> simp [turn, sq]

theorem IsUnit.transpose_turn_mul (unit : q.IsUnit) : q.turnᵀ * q.turn = 1 := by
  have length : q.squaredLength = 1 := unit
  rw [q.transpose_turn_mul, length, one_pow, one_smul]

/-- Points are turned by the rotation matrix and, unless the quaternion has length one, keep a share
of their place. -/
theorem rotate_ofReal (q : Quaternion ℝ) (v : Fin 3 → ℝ) :
    q.ofReal.rotate (.ofReal v) = .ofReal (q.turn *ᵥ v + (1 - q.squaredLength) • v) := by
  simp only [rotate, imaginary, ofReal, Vec3.ofReal_eq, Vec3.cross, Vec3.scale, Exact.two_eq,
    Exact.finite_mul_finite, Exact.finite_sub_finite, Vec3.mk_add_mk, Exact.finite_add_finite,
    Pi.add_apply, Pi.smul_apply, smul_eq_mul, mulVec, dotProduct, Fin.sum_univ_three,
    Vec3.mk.injEq, Exact.finite.injEq]
  refine ⟨?_, ?_, ?_⟩
  · simp [turn, squaredLength]
    ring
  · simp [turn, squaredLength]
    ring
  · simp [turn, squaredLength]
    ring

theorem IsUnit.rotate_ofReal (unit : q.IsUnit) (v : Fin 3 → ℝ) :
    q.ofReal.rotate (.ofReal v) = .ofReal (q.turn *ᵥ v) := by
  have length : q.squaredLength = 1 := unit
  rw [q.rotate_ofReal, length, sub_self, zero_smul, add_zero]

theorem toMatrix_ofReal (q : Quaternion ℝ) : q.ofReal.toMatrix = Mat.ofReal q.turn := by
  refine Mat.ext fun a b => ?_
  rw [Mat.entry_ofReal]
  unfold toMatrix ofReal
  simp only [Exact.two_eq, Exact.finite_mul_finite, Exact.finite_add_finite,
    Exact.finite_sub_finite]
  fin_cases a <;> fin_cases b <;> refine congrArg Exact.finite ?_ <;> simp [turn] <;> ring

theorem exists_ofReal_of_rotate {q : Quaternion Exact} {v : Vec3 Exact} {s : Fin 3 → ℝ}
    (turned : q.rotate v = .ofReal s) : ∃ w, v = .ofReal w :=
  (Vec3.exists_ofReal_of_add turned).2

end Quaternion

end TrackFusion
