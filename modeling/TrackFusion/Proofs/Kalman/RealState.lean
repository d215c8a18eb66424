import Mathlib.Algebra.Order.Star.Real
import Mathlib.LinearAlgebra.Matrix.Notation
import Mathlib.Tactic.Abel
import TrackFusion.Proofs.Linear.Factor

/-!
The Kalman filter over real numbers.

States whose means and covariances are real stay so. A prediction is `F P Fᵀ + q Q`, a correction
with the gain `K` and the innovation `S` is `P - K S Kᵀ`, which is
`(1 - K H) P (1 - K H)ᵀ + K N Kᵀ`: either keeps a covariance positive semidefinite.
-/

set_option autoImplicit false
set_option relaxedAutoImplicit false

namespace TrackFusion

open Matrix

noncomputable section

section Transport

variable {m n : Nat} {s : Matrix (Fin n) (Fin n) ℝ}

theorem isSymm_mul_mul_transpose (symm : s.IsSymm) (a : Matrix (Fin m) (Fin n) ℝ) :
    (a * s * aᵀ).IsSymm := by
  unfold IsSymm
  rw [transpose_mul, transpose_mul, transpose_transpose, symm.eq, Matrix.mul_assoc]

theorem posSemidef_mul_mul_transpose (semidefinite : s.PosSemidef)
    (a : Matrix (Fin m) (Fin n) ℝ) : (a * s * aᵀ).PosSemidef := by
  have moved := semidefinite.mul_mul_conjTranspose_same a
  rwa [conjTranspose_eq_transpose_of_trivial] at moved

end Transport

def Duration.realSeconds (d : Duration) : ℝ :=
  d.wholeSeconds + d.subsecond / 1e9

theorem Scalar.ofNat_exact (n : Nat) : (Scalar.ofNat n : Exact) = .finite n := by
  unfold Scalar.ofNat
  rw [Exact.scientific_eq]
  refine congrArg Exact.finite ?_
  simp only [OfScientific.ofScientific, Rat.ofScientific]
  simp
  norm_cast

theorem Duration.seconds_exact (d : Duration) : (d.seconds : Exact) = .finite d.realSeconds := by
  unfold seconds realSeconds
  rw [Scalar.ofNat_exact, Scalar.ofNat_exact, Exact.scientific_eq,
    Exact.finite_div_finite (by norm_num), Exact.finite_add_finite]

namespace KinematicState

def ofReal (mean : Matrix (Fin 4) (Fin 1) ℝ) (covariance : Matrix (Fin 4) (Fin 4) ℝ) :
    KinematicState Exact :=
  ⟨Mat.ofReal mean, Mat.ofReal covariance⟩

end KinematicState

def Observed.realMatrix : Observed → Matrix (Fin 2) (Fin 4) ℝ
  | .position => !![1, 0, 0, 0; 0, 1, 0, 0]
  | .velocity => !![0, 0, 1, 0; 0, 0, 0, 1]

theorem Observed.matrix_exact (observed : Observed) :
    (observed.matrix : Mat 2 4 Exact) = Mat.ofReal observed.realMatrix := by
  refine Mat.ext fun i j => ?_
  rw [Mat.entry_ofReal]
  cases observed <;> fin_cases i <;> fin_cases j <;> rfl

namespace MotionModel

def realTransition (dt : ℝ) : Matrix (Fin 4) (Fin 4) ℝ :=
  !![1, 0, dt, 0; 0, 1, 0, dt; 0, 0, 1, 0; 0, 0, 0, 1]

def realGain (dt : ℝ) : Matrix (Fin 4) (Fin 2) ℝ :=
  !![dt ^ 2 / (2 : ℕ), 0; 0, dt ^ 2 / (2 : ℕ); dt, 0; 0, dt]

theorem transition_exact (dt : ℝ) :
    transition (Exact.finite dt) = Mat.ofReal (realTransition dt) := by
  refine Mat.ext fun i j => ?_
  rw [Mat.entry_ofReal]
  fin_cases i <;> fin_cases j <;> rfl

/-- The noise of a unit variance of the acceleration acts through the gain. -/
theorem unitNoise_exact (dt : ℝ) :
    unitNoise (Exact.finite dt) = Mat.ofReal (realGain dt * (realGain dt)ᵀ) := by
  have four : (4.0 : Exact) = .finite 4 := by
    rw [Exact.scientific_eq]
    norm_num
  simp only [unitNoise, four, Exact.two_eq, Exact.finite_mul_finite,
    Exact.finite_div_finite four_ne_zero, Exact.finite_div_finite two_ne_zero]
  refine Mat.ext fun i j => ?_
  rw [Mat.entry_ofReal, mul_apply, Fin.sum_univ_two]
  fin_cases i <;> fin_cases j <;> refine congrArg Exact.finite ?_ <;> simp [realGain] <;> ring

def realPredicted (q dt : ℝ) (p : Matrix (Fin 4) (Fin 4) ℝ) : Matrix (Fin 4) (Fin 4) ℝ :=
  realTransition dt * p * (realTransition dt)ᵀ + q • (realGain dt * (realGain dt)ᵀ)

theorem predict_ofReal (q : ℝ) (mean : Matrix (Fin 4) (Fin 1) ℝ)
    (covariance : Matrix (Fin 4) (Fin 4) ℝ) (dt : Duration) :
    (⟨.finite q⟩ : MotionModel Exact).predict (.ofReal mean covariance) dt =
      .ofReal (realTransition dt.realSeconds * mean)
        (realPredicted q dt.realSeconds covariance) := by
  unfold predict predictSeconds KinematicState.ofReal realPredicted
  rw [Duration.seconds_exact, transition_exact, unitNoise_exact, Mat.transpose_ofReal,
    Mat.scale_ofReal, Mat.ofReal_mul, Mat.ofReal_mul, Mat.ofReal_mul, Mat.ofReal_add]

theorem posSemidef_realPredicted {q : ℝ} (nonneg : 0 ≤ q) (dt : ℝ)
    {p : Matrix (Fin 4) (Fin 4) ℝ} (semidefinite : p.PosSemidef) :
    (realPredicted q dt p).PosSemidef := by
  have moved := posSemidef_mul_mul_transpose semidefinite (realTransition dt)
  have noise := posSemidef_mul_mul_transpose PosSemidef.one (realGain dt)
  rw [Matrix.mul_one] at noise
  exact moved.add (noise.smul nonneg)

end MotionModel

namespace KinematicState

variable {mean : Matrix (Fin 4) (Fin 1) ℝ} {p : Matrix (Fin 4) (Fin 4) ℝ}
  {noise : Matrix (Fin 2) (Fin 2) ℝ}

def innovation (observed : Observed) (p : Matrix (Fin 4) (Fin 4) ℝ)
    (noise : Matrix (Fin 2) (Fin 2) ℝ) : Matrix (Fin 2) (Fin 2) ℝ :=
  observed.realMatrix * p * observed.realMatrixᵀ + noise

def gain (observed : Observed) (p : Matrix (Fin 4) (Fin 4) ℝ)
    (noise : Matrix (Fin 2) (Fin 2) ℝ) : Matrix (Fin 4) (Fin 2) ℝ :=
  ((innovation observed p noise)⁻¹ * (observed.realMatrix * p))ᵀ

def corrected (observed : Observed) (p : Matrix (Fin 4) (Fin 4) ℝ)
    (noise : Matrix (Fin 2) (Fin 2) ℝ) : Matrix (Fin 4) (Fin 4) ℝ :=
  p - gain observed p noise * innovation observed p noise * (gain observed p noise)ᵀ

theorem isSymm_innovation (observed : Observed) (symm : p.IsSymm) (symmNoise : noise.IsSymm) :
    (innovation observed p noise).IsSymm :=
  (isSymm_mul_mul_transpose symm observed.realMatrix).add symmNoise

theorem project_ofReal (observed : Observed) (mean : Matrix (Fin 4) (Fin 1) ℝ)
    (p : Matrix (Fin 4) (Fin 4) ℝ) (noise : Matrix (Fin 2) (Fin 2) ℝ) :
    (ofReal mean p).project observed (Mat.ofReal noise) =
      ⟨Mat.ofReal (observed.realMatrix * mean), Mat.ofReal (innovation observed p noise)⟩ := by
  simp only [project, ofReal, innovation, Observed.matrix_exact, Mat.transpose_ofReal,
    Mat.ofReal_mul, Mat.ofReal_add]

theorem column_finite (x y : ℝ) :
    (⟨.finite x, .finite y⟩ : Vec2 Exact).column = Mat.ofReal !![x; y] := by
  refine Mat.ext fun i j => ?_
  rw [Mat.entry_ofReal]
  fin_cases i <;> fin_cases j <;> rfl

theorem correct_ofReal (observed : Observed) (x y : ℝ) (symm : p.IsSymm) (symmNoise : noise.IsSymm)
    (definite : (innovation observed p noise).PosDef) :
    (ofReal mean p).correct observed ⟨.finite x, .finite y⟩ (Mat.ofReal noise) =
      .ok (ofReal (mean + gain observed p noise * (!![x; y] - observed.realMatrix * mean))
        (corrected observed p noise)) := by
  have factor := (LowerFactor.ofMatrix?_ofReal_eq_some_iff
    (isSymm_innovation observed symm symmNoise)).mpr ⟨definite, rfl⟩
  unfold correct
  rw [project_ofReal]
  dsimp only
  rw [factor]
  simp only [ofReal, Observed.matrix_exact, Mat.ofReal_mul, LowerFactor.solve_ofReal definite,
    Mat.transpose_ofReal, column_finite, Mat.ofReal_sub, Mat.ofReal_add]
  rfl

theorem correct_ofReal_of_not_posDef (observed : Observed) (measured : Vec2 Exact)
    (symm : p.IsSymm) (symmNoise : noise.IsSymm)
    (indefinite : ¬ (innovation observed p noise).PosDef) :
    (ofReal mean p).correct observed measured (Mat.ofReal noise) =
      .error .innovationNotPositiveDefinite := by
  unfold correct
  rw [project_ofReal]
  dsimp only
  rw [LowerFactor.ofMatrix?_ofReal_of_not_posDef (isSymm_innovation observed symm symmNoise)
    indefinite]

theorem correct_ofReal_eq_ok_iff (observed : Observed) (x y : ℝ) (symm : p.IsSymm)
    (symmNoise : noise.IsSymm) {next : KinematicState Exact} :
    (ofReal mean p).correct observed ⟨.finite x, .finite y⟩ (Mat.ofReal noise) = .ok next ↔
      (innovation observed p noise).PosDef ∧
        next = ofReal (mean + gain observed p noise * (!![x; y] - observed.realMatrix * mean))
          (corrected observed p noise) := by
  by_cases definite : (innovation observed p noise).PosDef
  · rw [correct_ofReal observed x y symm symmNoise definite, Except.ok.injEq]
    exact ⟨fun same => ⟨definite, same.symm⟩, fun both => both.2.symm⟩
  · rw [correct_ofReal_of_not_posDef observed _ symm symmNoise definite]
    exact ⟨nofun, fun both => absurd both.1 definite⟩

theorem exists_gatingForm_ofReal (mean : Matrix (Fin 4) (Fin 1) ℝ) (symm : p.IsSymm)
    (symmNoise : noise.IsSymm) (definite : (innovation .position p noise).PosDef) :
    ∃ form, (ofReal mean p).gatingForm (Mat.ofReal noise) = .ok form ∧
      ∀ x y, form ⟨.finite x, .finite y⟩ =
        .finite (((!![x; y] - Observed.position.realMatrix * mean)ᵀ *
          ((innovation .position p noise)⁻¹ *
            (!![x; y] - Observed.position.realMatrix * mean))) 0 0) := by
  have factor := (LowerFactor.ofMatrix?_ofReal_eq_some_iff
    (isSymm_innovation .position symm symmNoise)).mpr ⟨definite, rfl⟩
  unfold gatingForm
  rw [project_ofReal]
  dsimp only
  rw [factor]
  refine ⟨_, rfl, fun x y => ?_⟩
  rw [column_finite, Mat.ofReal_sub, LowerFactor.solve_ofReal definite, Mat.transpose_ofReal,
    Mat.ofReal_mul, Mat.entry_ofReal]

theorem gatingForm_ofReal_of_not_posDef (symm : p.IsSymm) (symmNoise : noise.IsSymm)
    (indefinite : ¬ (innovation .position p noise).PosDef) :
    (ofReal mean p).gatingForm (Mat.ofReal noise) = .error .projectionNotPositiveDefinite := by
  unfold gatingForm
  rw [project_ofReal]
  dsimp only
  rw [LowerFactor.ofMatrix?_ofReal_of_not_posDef (isSymm_innovation .position symm symmNoise)
    indefinite]

theorem gatingDistance_ofReal (x y : ℝ) (symm : p.IsSymm) (symmNoise : noise.IsSymm)
    (definite : (innovation .position p noise).PosDef) :
    (ofReal mean p).gatingDistance (Mat.ofReal noise) ⟨.finite x, .finite y⟩ =
      .ok (.finite (((!![x; y] - Observed.position.realMatrix * mean)ᵀ *
        ((innovation .position p noise)⁻¹ *
          (!![x; y] - Observed.position.realMatrix * mean))) 0 0)) := by
  obtain ⟨form, found, value⟩ := exists_gatingForm_ofReal mean symm symmNoise definite
  unfold gatingDistance
  rw [found]
  exact congrArg Except.ok (value x y)

theorem gatingDistance_ofReal_of_not_posDef (measured : Vec2 Exact) (symm : p.IsSymm)
    (symmNoise : noise.IsSymm) (indefinite : ¬ (innovation .position p noise).PosDef) :
    (ofReal mean p).gatingDistance (Mat.ofReal noise) measured =
      .error .projectionNotPositiveDefinite := by
  unfold gatingDistance
  rw [gatingForm_ofReal_of_not_posDef symm symmNoise indefinite]
  rfl

theorem isSymm_corrected (observed : Observed) (symm : p.IsSymm) (symmNoise : noise.IsSymm) :
    (corrected observed p noise).IsSymm :=
  symm.sub (isSymm_mul_mul_transpose (isSymm_innovation observed symm symmNoise) _)

theorem gain_eq (observed : Observed) (symm : p.IsSymm) (symmNoise : noise.IsSymm) :
    gain observed p noise = p * observed.realMatrixᵀ * (innovation observed p noise)⁻¹ := by
  have symmetric := isSymm_innovation observed symm symmNoise
  unfold gain
  rw [transpose_mul, transpose_mul, symm.eq, transpose_nonsing_inv, symmetric.eq]

/-- The gain solves `K S = P Hᵀ`. -/
theorem gain_mul_innovation (observed : Observed) (symm : p.IsSymm) (symmNoise : noise.IsSymm)
    (definite : (innovation observed p noise).PosDef) :
    gain observed p noise * innovation observed p noise = p * observed.realMatrixᵀ := by
  rw [gain_eq observed symm symmNoise]
  exact nonsing_inv_mul_cancel_right _ _ definite.det_pos.ne'.isUnit

theorem one_sub_gain_mul (observed : Observed) (symm : p.IsSymm) (symmNoise : noise.IsSymm)
    (definite : (innovation observed p noise).PosDef) :
    (1 - gain observed p noise * observed.realMatrix) * p = corrected observed p noise := by
  have solves := gain_mul_innovation observed symm symmNoise definite
  have symmetric := isSymm_innovation observed symm symmNoise
  unfold corrected
  generalize gain observed p noise = k at *
  generalize innovation observed p noise = s at *
  have transposed := congrArg transpose solves
  rw [transpose_mul, transpose_mul, transpose_transpose, symm.eq, symmetric.eq] at transposed
  rw [Matrix.sub_mul, Matrix.one_mul, Matrix.mul_assoc, Matrix.mul_assoc, transposed]

theorem corrected_mul_transpose (observed : Observed) (symm : p.IsSymm) (symmNoise : noise.IsSymm)
    (definite : (innovation observed p noise).PosDef) :
    corrected observed p noise * observed.realMatrixᵀ = gain observed p noise * noise := by
  have solves := gain_mul_innovation observed symm symmNoise definite
  rw [← one_sub_gain_mul observed symm symmNoise definite]
  calc (1 - gain observed p noise * observed.realMatrix) * p * observed.realMatrixᵀ
      = p * observed.realMatrixᵀ - gain observed p noise *
          (observed.realMatrix * p * observed.realMatrixᵀ) := by
        simp only [Matrix.sub_mul, Matrix.one_mul, Matrix.mul_assoc]
    _ = gain observed p noise * innovation observed p noise - gain observed p noise *
          (innovation observed p noise - noise) := by
        rw [← solves]
        unfold innovation
        rw [add_sub_cancel_right]
    _ = gain observed p noise * noise := by rw [← Matrix.mul_sub, sub_sub_cancel]

/-- With the gain `K`, a correction leaves `(1 - K H) P (1 - K H)ᵀ + K N Kᵀ`. -/
theorem corrected_eq (observed : Observed) (symm : p.IsSymm) (symmNoise : noise.IsSymm)
    (definite : (innovation observed p noise).PosDef) :
    corrected observed p noise =
      (1 - gain observed p noise * observed.realMatrix) * p *
          (1 - gain observed p noise * observed.realMatrix)ᵀ +
        gain observed p noise * noise * (gain observed p noise)ᵀ := by
  have left := one_sub_gain_mul observed symm symmNoise definite
  have half := corrected_mul_transpose observed symm symmNoise definite
  rw [left, transpose_sub, transpose_one, transpose_mul, Matrix.mul_sub, Matrix.mul_one,
    ← Matrix.mul_assoc, half, sub_add_cancel]

theorem posSemidef_corrected (observed : Observed) (semidefinite : p.PosSemidef)
    (semidefiniteNoise : noise.PosSemidef) (definite : (innovation observed p noise).PosDef) :
    (corrected observed p noise).PosSemidef := by
  have symm : p.IsSymm := isHermitian_iff_isSymm.mp semidefinite.isHermitian
  have symmNoise : noise.IsSymm := isHermitian_iff_isSymm.mp semidefiniteNoise.isHermitian
  rw [corrected_eq observed symm symmNoise definite]
  exact (posSemidef_mul_mul_transpose semidefinite _).add
    (posSemidef_mul_mul_transpose semidefiniteNoise _)

theorem initiate_ofReal (x y u w : ℝ) (a b : Matrix (Fin 2) (Fin 2) ℝ) :
    initiate ⟨.finite x, .finite y⟩ (Mat.ofReal a) ⟨.finite u, .finite w⟩ (Mat.ofReal b) =
      ofReal !![x; y; u; w]
        (Observed.position.realMatrixᵀ * a * Observed.position.realMatrix +
          Observed.velocity.realMatrixᵀ * b * Observed.velocity.realMatrix) := by
  have mean : (initiate ⟨.finite x, .finite y⟩ (Mat.ofReal a) ⟨.finite u, .finite w⟩
      (Mat.ofReal b)).mean = Mat.ofReal !![x; y; u; w] := by
    refine Mat.ext fun i j => ?_
    rw [Mat.entry_ofReal]
    fin_cases i <;> fin_cases j <;> rfl
  have covariance : (initiate ⟨.finite x, .finite y⟩ (Mat.ofReal a) ⟨.finite u, .finite w⟩
      (Mat.ofReal b)).covariance =
        Mat.ofReal (Observed.position.realMatrixᵀ * a * Observed.position.realMatrix +
          Observed.velocity.realMatrixᵀ * b * Observed.velocity.realMatrix) := by
    refine Mat.ext fun i j => ?_
    rw [Mat.entry_ofReal]
    fin_cases i <;> fin_cases j <;> refine congrArg Exact.finite ?_ <;>
      simp [mul_apply, Observed.realMatrix, Fin.sum_univ_two]
  exact congrArg₂ KinematicState.mk mean covariance

def IsFinite (s : KinematicState Exact) : Prop :=
  ∃ mean p, s = ofReal mean p

theorem IsFinite.predict {s : KinematicState Exact} (finite : s.IsFinite) (q : ℝ) (dt : Duration) :
    ((⟨.finite q⟩ : MotionModel Exact).predict s dt).IsFinite := by
  obtain ⟨mean, p, rfl⟩ := finite
  exact ⟨_, _, MotionModel.predict_ofReal q mean p dt⟩

theorem IsFinite.correct {s next : KinematicState Exact} {observed : Observed} {x y : ℝ}
    (finite : s.IsFinite)
    (corrected : s.correct observed ⟨.finite x, .finite y⟩ (Mat.ofReal noise) = .ok next) :
    next.IsFinite := by
  obtain ⟨mean, p, rfl⟩ := finite
  unfold KinematicState.correct at corrected
  rw [project_ofReal] at corrected
  dsimp only at corrected
  cases factored : LowerFactor.ofMatrix? (Mat.ofReal (innovation observed p noise)) with
  | none =>
    rw [factored] at corrected
    cases corrected
  | some factor =>
    obtain ⟨solution, solved⟩ :=
      LowerFactor.exists_solve_ofReal factored (observed.realMatrix * p)
    simp only [factored, ofReal, Observed.matrix_exact, Mat.ofReal_mul, solved,
      Mat.transpose_ofReal, column_finite, Mat.ofReal_sub, Mat.ofReal_add, Except.ok.injEq]
      at corrected
    exact ⟨_, _, corrected.symm⟩

/-- The mean is real, and the covariance is real and positive semidefinite. -/
def Regular (s : KinematicState Exact) : Prop :=
  ∃ mean p, p.PosSemidef ∧ s = ofReal mean p

theorem regular_initiate (x y u w : ℝ) {a b : Matrix (Fin 2) (Fin 2) ℝ} (first : a.PosSemidef)
    (second : b.PosSemidef) :
    (initiate ⟨.finite x, .finite y⟩ (Mat.ofReal a) ⟨.finite u, .finite w⟩
      (Mat.ofReal b)).Regular := by
  have positions := posSemidef_mul_mul_transpose first Observed.position.realMatrixᵀ
  have velocities := posSemidef_mul_mul_transpose second Observed.velocity.realMatrixᵀ
  rw [transpose_transpose] at positions velocities
  exact ⟨_, _, positions.add velocities, initiate_ofReal x y u w a b⟩

section Regular

variable {s next : KinematicState Exact} {observed : Observed} {x y : ℝ}

theorem Regular.predict (regular : s.Regular) {q : ℝ} (nonneg : 0 ≤ q) (dt : Duration) :
    ((⟨.finite q⟩ : MotionModel Exact).predict s dt).Regular := by
  obtain ⟨mean, p, semidefinite, rfl⟩ := regular
  exact ⟨_, _, MotionModel.posSemidef_realPredicted nonneg _ semidefinite,
    MotionModel.predict_ofReal q mean p dt⟩

theorem Regular.correct (regular : s.Regular) (semidefiniteNoise : noise.PosSemidef)
    (corrected : s.correct observed ⟨.finite x, .finite y⟩ (Mat.ofReal noise) = .ok next) :
    next.Regular := by
  obtain ⟨mean, p, semidefinite, rfl⟩ := regular
  obtain ⟨definite, rfl⟩ := (correct_ofReal_eq_ok_iff observed x y
    (isHermitian_iff_isSymm.mp semidefinite.isHermitian)
    (isHermitian_iff_isSymm.mp semidefiniteNoise.isHermitian)).mp corrected
  exact ⟨_, _, posSemidef_corrected observed semidefinite semidefiniteNoise definite, rfl⟩

/-- A measurement whose noise is positive definite can correct every regular state. -/
theorem Regular.exists_correct (regular : s.Regular) (observed : Observed) (x y : ℝ)
    (definiteNoise : noise.PosDef) :
    ∃ next, s.correct observed ⟨.finite x, .finite y⟩ (Mat.ofReal noise) = .ok next := by
  obtain ⟨mean, p, semidefinite, rfl⟩ := regular
  have moved := posSemidef_mul_mul_transpose semidefinite observed.realMatrix
  exact ⟨_, (correct_ofReal_eq_ok_iff observed x y
    (isHermitian_iff_isSymm.mp semidefinite.isHermitian)
    (isHermitian_iff_isSymm.mp definiteNoise.isHermitian)).mpr
      ⟨PosDef.posSemidef_add moved definiteNoise, rfl⟩⟩

end Regular

end KinematicState

end

end TrackFusion
