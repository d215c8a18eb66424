import TrackFusion.Proofs.Kalman.Correction
import TrackFusion.Proofs.Sequencing

/-!
Two corrections in a row.

A position and a velocity observe complementary halves of the state, and their noises are independent.
Correcting by one and then by the other is therefore the same as correcting once by all four
coordinates, with the noises as diagonal blocks. With the covariance `P` and this joint noise `N`, the
two gains leave `(1 - K' H') (1 - K H) (P + N) = N`, and eliminating the first measurement from `P + N`
leaves the two innovations as diagonal blocks. Neither the result nor the failures depend on the order.
-/

set_option autoImplicit false
set_option relaxedAutoImplicit false

namespace TrackFusion

open Matrix

noncomputable section

namespace Observed

def other : Observed → Observed
  | .position => .velocity
  | .velocity => .position

theorem realMatrix_mul_transpose (observed : Observed) :
    observed.realMatrix * observed.realMatrixᵀ = 1 := by
  ext i j
  rw [mul_apply, Fin.sum_univ_four]
  cases observed <;> fin_cases i <;> fin_cases j <;> simp [realMatrix]

theorem realMatrix_mul_transpose_other (observed : Observed) :
    observed.realMatrix * observed.other.realMatrixᵀ = 0 := by
  ext i j
  rw [mul_apply, Fin.sum_univ_four]
  cases observed <;> fin_cases i <;> fin_cases j <;> simp [realMatrix, other]

theorem other_mul_transpose_realMatrix (observed : Observed) :
    observed.other.realMatrix * observed.realMatrixᵀ = 0 := by
  rw [← transpose_inj, transpose_mul, transpose_transpose, realMatrix_mul_transpose_other,
    transpose_zero]

theorem transpose_mul_add_other (observed : Observed) :
    observed.realMatrixᵀ * observed.realMatrix +
      observed.other.realMatrixᵀ * observed.other.realMatrix = 1 := by
  ext i j
  rw [Matrix.add_apply, mul_apply, mul_apply, Fin.sum_univ_two, Fin.sum_univ_two]
  cases observed <;> fin_cases i <;> fin_cases j <;> simp [realMatrix, other]

/-- The noise of all four coordinates, independent between the halves. -/
def jointNoise (observed : Observed) (a b : Matrix (Fin 2) (Fin 2) ℝ) :
    Matrix (Fin 4) (Fin 4) ℝ :=
  observed.realMatrixᵀ * a * observed.realMatrix +
    observed.other.realMatrixᵀ * b * observed.other.realMatrix

variable (observed : Observed) (a b : Matrix (Fin 2) (Fin 2) ℝ)

theorem jointNoise_other : observed.other.jointNoise b a = observed.jointNoise a b := by
  cases observed <;> exact add_comm _ _

theorem isSymm_jointNoise (symm : a.IsSymm) (symm' : b.IsSymm) :
    (observed.jointNoise a b).IsSymm := by
  have first := isSymm_mul_mul_transpose symm observed.realMatrixᵀ
  have second := isSymm_mul_mul_transpose symm' observed.other.realMatrixᵀ
  rw [transpose_transpose] at first second
  exact first.add second

theorem realMatrix_mul_jointNoise :
    observed.realMatrix * observed.jointNoise a b = a * observed.realMatrix := by
  unfold jointNoise
  rw [Matrix.mul_add, ← Matrix.mul_assoc, ← Matrix.mul_assoc, ← Matrix.mul_assoc,
    ← Matrix.mul_assoc, realMatrix_mul_transpose, realMatrix_mul_transpose_other, Matrix.one_mul,
    Matrix.zero_mul, Matrix.zero_mul, add_zero]

theorem other_mul_jointNoise :
    observed.other.realMatrix * observed.jointNoise a b = b * observed.other.realMatrix := by
  rw [← jointNoise_other, realMatrix_mul_jointNoise]

theorem posDef_half {s : Matrix (Fin 4) (Fin 4) ℝ} (definite : s.PosDef) :
    (observed.realMatrix * s * observed.realMatrixᵀ).PosDef := by
  rw [← conjTranspose_eq_transpose_of_trivial]
  refine definite.mul_mul_conjTranspose_same fun x y same => ?_
  have whole := congrArg (· ᵥ* observed.realMatrixᵀ) same
  simpa only [vecMul_vecMul, realMatrix_mul_transpose, vecMul_one] using whole

theorem half_jointNoise :
    observed.realMatrix * observed.jointNoise a b * observed.realMatrixᵀ = a := by
  rw [realMatrix_mul_jointNoise, Matrix.mul_assoc, realMatrix_mul_transpose, Matrix.mul_one]

theorem form_half (x : Fin 4 → ℝ) :
    x ⬝ᵥ (observed.realMatrixᵀ * a * observed.realMatrix) *ᵥ x =
      (observed.realMatrix *ᵥ x) ⬝ᵥ a *ᵥ (observed.realMatrix *ᵥ x) := by
  rw [← mulVec_mulVec, ← mulVec_mulVec, dotProduct_mulVec, vecMul_transpose]

variable {a b}

theorem posDef_jointNoise_iff : (observed.jointNoise a b).PosDef ↔ a.PosDef ∧ b.PosDef := by
  constructor
  · intro definite
    have first := observed.posDef_half definite
    have second := observed.other.posDef_half definite
    rw [half_jointNoise] at first
    rw [← jointNoise_other, half_jointNoise] at second
    exact ⟨first, second⟩
  · rintro ⟨first, second⟩
    have symm := observed.isSymm_jointNoise a b (isHermitian_iff_isSymm.mp first.isHermitian)
      (isHermitian_iff_isSymm.mp second.isHermitian)
    refine .of_dotProduct_mulVec_pos (isHermitian_iff_isSymm.mpr symm) fun x nonzero => ?_
    have nonneg := first.posSemidef.dotProduct_mulVec_nonneg (observed.realMatrix *ᵥ x)
    have nonneg' := second.posSemidef.dotProduct_mulVec_nonneg (observed.other.realMatrix *ᵥ x)
    unfold jointNoise
    rw [star_trivial] at nonneg nonneg' ⊢
    rw [add_mulVec, dotProduct_add, form_half, form_half]
    by_cases half : observed.realMatrix *ᵥ x = 0
    · -- a vector without one half has the other one
      have other : observed.other.realMatrix *ᵥ x ≠ 0 := by
        intro zero
        have parts := congrArg (· *ᵥ x) observed.transpose_mul_add_other
        rw [add_mulVec, ← mulVec_mulVec, ← mulVec_mulVec, half, zero, mulVec_zero, mulVec_zero,
          add_zero, one_mulVec] at parts
        exact nonzero parts.symm
      have positive := second.dotProduct_mulVec_pos other
      rw [star_trivial] at positive
      exact add_pos_of_nonneg_of_pos nonneg positive
    · have positive := first.dotProduct_mulVec_pos half
      rw [star_trivial] at positive
      exact add_pos_of_pos_of_nonneg positive nonneg'

end Observed

namespace KinematicState

variable {mean z : Matrix (Fin 4) (Fin 1) ℝ} {p : Matrix (Fin 4) (Fin 4) ℝ}
  {a b : Matrix (Fin 2) (Fin 2) ℝ} (observed : Observed)

def jointlyCorrected (mean : Matrix (Fin 4) (Fin 1) ℝ) (p : Matrix (Fin 4) (Fin 4) ℝ)
    (z : Matrix (Fin 4) (Fin 1) ℝ) (noise : Matrix (Fin 4) (Fin 4) ℝ) : KinematicState Exact :=
  let gain := p * (p + noise)⁻¹
  ofReal (mean + gain * (z - mean)) (p - gain * (p + noise) * gainᵀ)

theorem half_add_jointNoise (p : Matrix (Fin 4) (Fin 4) ℝ) (a b : Matrix (Fin 2) (Fin 2) ℝ) :
    observed.realMatrix * (p + observed.jointNoise a b) * observed.realMatrixᵀ =
      innovation observed p a := by
  unfold innovation
  rw [Matrix.mul_add, Matrix.add_mul, Observed.half_jointNoise]

/-- The first correction leaves the joint innovation its noise, and of the covariance the columns of
the other half. -/
theorem one_sub_gain_mul_joint (symm : p.IsSymm) (symmNoise : a.IsSymm)
    (definite : (innovation observed p a).PosDef) :
    (1 - gain observed p a * observed.realMatrix) * (p + observed.jointNoise a b) =
      corrected observed p a * observed.other.realMatrixᵀ * observed.other.realMatrix +
        observed.jointNoise a b := by
  have kept : gain observed p a * observed.realMatrix * observed.jointNoise a b =
      corrected observed p a * (observed.realMatrixᵀ * observed.realMatrix) := by
    rw [Matrix.mul_assoc, Observed.realMatrix_mul_jointNoise, ← Matrix.mul_assoc,
      ← corrected_mul_transpose observed symm symmNoise definite, Matrix.mul_assoc]
  have halves := congrArg (corrected observed p a * ·) observed.transpose_mul_add_other
  rw [Matrix.mul_add, Matrix.mul_one] at halves
  rw [Matrix.mul_add, one_sub_gain_mul observed symm symmNoise definite, Matrix.sub_mul,
    Matrix.one_mul, kept, Matrix.mul_assoc, eq_sub_of_add_eq' halves]
  abel

theorem both_gains_mul_joint (symm : p.IsSymm) (symmA : a.IsSymm) (symmB : b.IsSymm)
    (first : (innovation observed p a).PosDef)
    (second : (innovation observed.other (corrected observed p a) b).PosDef) :
    (1 - gain observed.other (corrected observed p a) b * observed.other.realMatrix) *
        (1 - gain observed p a * observed.realMatrix) * (p + observed.jointNoise a b) =
      observed.jointNoise a b := by
  have kept := isSymm_corrected observed symm symmA
  have left := one_sub_gain_mul observed.other kept symmB second
  have half := corrected_mul_transpose observed.other kept symmB second
  have noise := observed.other_mul_jointNoise a b
  rw [Matrix.mul_assoc, one_sub_gain_mul_joint observed symm symmA first]
  generalize gain observed.other (corrected observed p a) b = k at *
  generalize corrected observed.other (corrected observed p a) b = q at *
  calc (1 - k * observed.other.realMatrix) *
        (corrected observed p a * observed.other.realMatrixᵀ * observed.other.realMatrix +
          observed.jointNoise a b)
      = (1 - k * observed.other.realMatrix) * corrected observed p a *
            observed.other.realMatrixᵀ * observed.other.realMatrix +
          (observed.jointNoise a b - k * (observed.other.realMatrix * observed.jointNoise a b)) := by
        simp only [Matrix.mul_add, Matrix.sub_mul, Matrix.one_mul, Matrix.mul_assoc]
    _ = observed.jointNoise a b := by
        rw [left, half, noise, Matrix.mul_assoc, add_sub_cancel]

/-- Subtracts from the unobserved half what the first measurement tells of it. -/
def elimination (p : Matrix (Fin 4) (Fin 4) ℝ) (a : Matrix (Fin 2) (Fin 2) ℝ) :
    Matrix (Fin 4) (Fin 4) ℝ :=
  1 - observed.other.realMatrixᵀ * observed.other.realMatrix *
    (gain observed p a * observed.realMatrix)

theorem isUnit_elimination (p : Matrix (Fin 4) (Fin 4) ℝ) (a : Matrix (Fin 2) (Fin 2) ℝ) :
    IsUnit (elimination observed p a) := by
  have apart := observed.realMatrix_mul_transpose_other
  unfold elimination
  generalize gain observed p a = k
  have square : observed.other.realMatrixᵀ * observed.other.realMatrix * (k * observed.realMatrix) *
      (observed.other.realMatrixᵀ * observed.other.realMatrix * (k * observed.realMatrix)) = 0 := by
    calc _ = observed.other.realMatrixᵀ * observed.other.realMatrix * k *
          (observed.realMatrix * observed.other.realMatrixᵀ) *
          (observed.other.realMatrix * (k * observed.realMatrix)) := by
          simp only [Matrix.mul_assoc]
      _ = 0 := by rw [apart, Matrix.mul_zero, Matrix.zero_mul]
  exact IsNilpotent.isUnit_one_sub ⟨2, by rw [sq, square]⟩

theorem elimination_mul_joint (symm : p.IsSymm) (symmNoise : a.IsSymm)
    (definite : (innovation observed p a).PosDef) :
    elimination observed p a * (p + observed.jointNoise a b) =
      observed.realMatrixᵀ * (observed.realMatrix * (p + observed.jointNoise a b)) +
        observed.other.realMatrixᵀ *
          (innovation observed.other (corrected observed p a) b * observed.other.realMatrix) := by
  have halves : elimination observed p a = observed.realMatrixᵀ * observed.realMatrix +
      observed.other.realMatrixᵀ * observed.other.realMatrix *
        (1 - gain observed p a * observed.realMatrix) := by
    unfold elimination
    rw [Matrix.mul_sub, Matrix.mul_one, ← observed.transpose_mul_add_other, add_sub_assoc]
  have unobserved : observed.other.realMatrix * (corrected observed p a *
        observed.other.realMatrixᵀ * observed.other.realMatrix + observed.jointNoise a b) =
      innovation observed.other (corrected observed p a) b * observed.other.realMatrix := by
    rw [Matrix.mul_add, Observed.other_mul_jointNoise]
    simp only [innovation, Matrix.add_mul, Matrix.mul_assoc]
  rw [halves, Matrix.add_mul, Matrix.mul_assoc, Matrix.mul_assoc _ (1 - _),
    one_sub_gain_mul_joint observed symm symmNoise definite, Matrix.mul_assoc _ _ (_ + _),
    unobserved]

/-- The elimination turns the joint innovation into the two innovations, as diagonal blocks. -/
theorem elimination_mul_joint_mul (symm : p.IsSymm) (symmA : a.IsSymm) (symmB : b.IsSymm)
    (definite : (innovation observed p a).PosDef) :
    elimination observed p a * (p + observed.jointNoise a b) * (elimination observed p a)ᵀ =
      observed.jointNoise (innovation observed p a)
        (innovation observed.other (corrected observed p a) b) := by
  have rows := elimination_mul_joint (b := b) observed symm symmA definite
  have total := symm.add (observed.isSymm_jointNoise a b symmA symmB)
  have symmetric := isSymm_innovation observed symm symmA
  -- the columns of the first half are left with its own innovation
  have first : observed.realMatrix * (p + observed.jointNoise a b) * (elimination observed p a)ᵀ =
      innovation observed p a * observed.realMatrix := by
    rw [← transpose_inj, transpose_mul, transpose_mul, transpose_transpose, total.eq,
      ← Matrix.mul_assoc, rows, Matrix.add_mul, transpose_mul, symmetric.eq,
      ← half_add_jointNoise observed p a b]
    simp only [Matrix.mul_assoc, Observed.other_mul_transpose_realMatrix, Matrix.mul_zero, add_zero]
  have second : observed.other.realMatrix * (elimination observed p a)ᵀ =
      observed.other.realMatrix := by
    unfold elimination
    rw [← transpose_inj, transpose_mul, transpose_transpose, Matrix.sub_mul, Matrix.one_mul,
      Matrix.mul_assoc, Matrix.mul_assoc (gain observed p a),
      Observed.realMatrix_mul_transpose_other, Matrix.mul_zero, Matrix.mul_zero, sub_zero]
  rw [rows, Matrix.add_mul, Matrix.mul_assoc, first, Matrix.mul_assoc, Matrix.mul_assoc, second]
  unfold Observed.jointNoise
  simp only [Matrix.mul_assoc]

theorem posDef_joint_iff (symm : p.IsSymm) (symmA : a.IsSymm) (symmB : b.IsSymm) :
    (p + observed.jointNoise a b).PosDef ↔ (innovation observed p a).PosDef ∧
      (innovation observed.other (corrected observed p a) b).PosDef := by
  have eliminate (definite : (innovation observed p a).PosDef) :
      (p + observed.jointNoise a b).PosDef ↔ (innovation observed p a).PosDef ∧
        (innovation observed.other (corrected observed p a) b).PosDef := by
    rw [← observed.posDef_jointNoise_iff,
      ← elimination_mul_joint_mul observed symm symmA symmB definite,
      ← conjTranspose_eq_transpose_of_trivial, ← star_eq_conjTranspose]
    exact (Matrix.IsUnit.posDef_star_right_conjugate_iff (isUnit_elimination observed p a)).symm
  constructor
  · intro joint
    have definite := observed.posDef_half joint
    rw [half_add_jointNoise] at definite
    exact (eliminate definite).mp joint
  · exact fun both => (eliminate both.1).mpr both

theorem both_gains_eq (symm : p.IsSymm) (symmA : a.IsSymm) (symmB : b.IsSymm)
    (joint : (p + observed.jointNoise a b).PosDef) :
    (1 - gain observed.other (corrected observed p a) b * observed.other.realMatrix) *
        (1 - gain observed p a * observed.realMatrix) =
      1 - p * (p + observed.jointNoise a b)⁻¹ := by
  obtain ⟨first, second⟩ := (posDef_joint_iff observed symm symmA symmB).mp joint
  have invertible := joint.det_pos.ne'.isUnit
  have noise : observed.jointNoise a b = (p + observed.jointNoise a b) - p :=
    (add_sub_cancel_left p _).symm
  rw [← mul_nonsing_inv_cancel_right _ (_ * (1 - _)) invertible,
    both_gains_mul_joint observed symm symmA symmB first second]
  nth_rewrite 1 [noise]
  rw [Matrix.sub_mul, mul_nonsing_inv _ invertible]

theorem sub_corrected_mean (p : Matrix (Fin 4) (Fin 4) ℝ) (a : Matrix (Fin 2) (Fin 2) ℝ)
    (mean z : Matrix (Fin 4) (Fin 1) ℝ) :
    z - (mean + gain observed p a * (observed.realMatrix * z - observed.realMatrix * mean)) =
      (1 - gain observed p a * observed.realMatrix) * (z - mean) := by
  rw [← Matrix.mul_sub, Matrix.sub_mul, Matrix.one_mul, Matrix.mul_assoc, sub_add_eq_sub_sub]

/-- Both corrections lead to the state that is corrected at once. -/
theorem corrected_corrected (symm : p.IsSymm) (symmA : a.IsSymm) (symmB : b.IsSymm)
    (joint : (p + observed.jointNoise a b).PosDef) (mean z : Matrix (Fin 4) (Fin 1) ℝ) :
    let between := mean + gain observed p a * (observed.realMatrix * z - observed.realMatrix * mean)
    ofReal (between + gain observed.other (corrected observed p a) b *
        (observed.other.realMatrix * z - observed.other.realMatrix * between))
      (corrected observed.other (corrected observed p a) b) =
        jointlyCorrected mean p z (observed.jointNoise a b) := by
  intro between
  obtain ⟨first, second⟩ := (posDef_joint_iff observed symm symmA symmB).mp joint
  have gains := both_gains_eq observed symm symmA symmB joint
  have total := symm.add (observed.isSymm_jointNoise a b symmA symmB)
  have invertible := joint.det_pos.ne'.isUnit
  refine congrArg₂ ofReal ?_ ?_
  · have missed : z - (between + gain observed.other (corrected observed p a) b *
        (observed.other.realMatrix * z - observed.other.realMatrix * between)) =
          (1 - p * (p + observed.jointNoise a b)⁻¹) * (z - mean) := by
      rw [sub_corrected_mean, sub_corrected_mean, ← Matrix.mul_assoc, gains]
    rw [← sub_right_inj (a := z), missed, Matrix.sub_mul, Matrix.one_mul]
    abel
  · calc corrected observed.other (corrected observed p a) b
        = (1 - gain observed.other (corrected observed p a) b * observed.other.realMatrix) *
            ((1 - gain observed p a * observed.realMatrix) * p) := by
          rw [one_sub_gain_mul observed symm symmA first,
            one_sub_gain_mul observed.other (isSymm_corrected observed symm symmA) symmB second]
      _ = p - p * ((p + observed.jointNoise a b)⁻¹ * p) := by
          rw [← Matrix.mul_assoc, gains, Matrix.sub_mul, Matrix.one_mul, Matrix.mul_assoc]
      _ = p - p * (p + observed.jointNoise a b)⁻¹ * (p + observed.jointNoise a b) *
            (p * (p + observed.jointNoise a b)⁻¹)ᵀ := by
          rw [nonsing_inv_mul_cancel_right _ _ invertible, transpose_mul, transpose_nonsing_inv,
            total.eq, symm.eq]

/-- The outcome is that of a single correction by a measurement of all four coordinates. -/
structure CorrectsJointly (outcome : Except MeasurementError (KinematicState Exact))
    (mean : Matrix (Fin 4) (Fin 1) ℝ) (p : Matrix (Fin 4) (Fin 4) ℝ)
    (z : Matrix (Fin 4) (Fin 1) ℝ) (noise : Matrix (Fin 4) (Fin 4) ℝ) : Prop where
  fails_iff : (∃ e, outcome = .error e) ↔ ¬ (p + noise).PosDef
  succeeds : (p + noise).PosDef → outcome = .ok (jointlyCorrected mean p z noise)

theorem CorrectsJointly.of_cases {outcome : Except MeasurementError (KinematicState Exact)}
    {noise : Matrix (Fin 4) (Fin 4) ℝ}
    (succeeds : (p + noise).PosDef → outcome = .ok (jointlyCorrected mean p z noise))
    (fails : ¬ (p + noise).PosDef → ∃ e, outcome = .error e) :
    CorrectsJointly outcome mean p z noise := by
  refine ⟨⟨?_, fails⟩, succeeds⟩
  rintro ⟨e, failed⟩ definite
  rw [succeeds definite] at failed
  cases failed

theorem correctsJointly (symm : p.IsSymm) (symmA : a.IsSymm) (symmB : b.IsSymm) {x y u w : ℝ}
    (first : !![x; y] = observed.realMatrix * z)
    (second : !![u; w] = observed.other.realMatrix * z) :
    CorrectsJointly
      ((ofReal mean p).correct observed ⟨.finite x, .finite y⟩ (Mat.ofReal a) >>= fun s =>
        s.correct observed.other ⟨.finite u, .finite w⟩ (Mat.ofReal b))
      mean p z (observed.jointNoise a b) := by
  have split := posDef_joint_iff observed symm symmA symmB
  have kept := isSymm_corrected observed symm symmA
  refine .of_cases (fun joint => ?_) fun degenerate => ?_
  · obtain ⟨definite, definite'⟩ := split.mp joint
    rw [correct_ofReal observed x y symm symmA definite, ok_bind,
      correct_ofReal observed.other u w kept symmB definite', first, second,
      corrected_corrected observed symm symmA symmB joint]
  · by_cases definite : (innovation observed p a).PosDef
    · rw [correct_ofReal observed x y symm symmA definite, ok_bind]
      exact ⟨_, correct_ofReal_of_not_posDef observed.other _ kept symmB fun definite' =>
        degenerate (split.mpr ⟨definite, definite'⟩)⟩
    · rw [correct_ofReal_of_not_posDef observed _ symm symmA definite]
      exact ⟨_, rfl⟩

end KinematicState

end

end TrackFusion
