import TrackFusion.Proofs.Geometry.FrameChange
import TrackFusion.Proofs.Kalman.RealState

/-!
The Kalman filter under a change of the tracking frame.

The frame change turns positions and velocities alike, by an orthogonal matrix that commutes with
the transition and with what is observed, and isotropic noise looks the same from every side.
Innovations are turned, gains are turned on both sides, and squared Mahalanobis distances stay as
they are.
-/

set_option autoImplicit false
set_option relaxedAutoImplicit false

namespace TrackFusion

open Matrix

noncomputable section

namespace FrameChange

variable (T : FrameChange)

def planar : Matrix (Fin 2) (Fin 2) ℝ :=
  !![T.rotation.w * T.rotation.w - T.rotation.k * T.rotation.k,
      -(2 • (T.rotation.w * T.rotation.k));
    2 • (T.rotation.w * T.rotation.k),
      T.rotation.w * T.rotation.w - T.rotation.k * T.rotation.k]

def motion : Matrix (Fin 4) (Fin 4) ℝ :=
  !![T.planar Plane.x Plane.x, T.planar Plane.x Plane.y, 0, 0;
    T.planar Plane.y Plane.x, T.planar Plane.y Plane.y, 0, 0;
    0, 0, T.planar Plane.x Plane.x, T.planar Plane.x Plane.y;
    0, 0, T.planar Plane.y Plane.x, T.planar Plane.y Plane.y]

/-- The horizontal translation, which does not touch the velocity. -/
def shift : Matrix (Fin 4) (Fin 1) ℝ :=
  !![T.offset Space.x; T.offset Space.y; 0; 0]

theorem planar_mul_transpose : T.planar * T.planarᵀ = 1 := by
  ext a b
  rw [mul_apply, Fin.sum_univ_two]
  fin_cases a <;> fin_cases b <;> simp [planar]
  · linear_combination T.yaw.cosine_sq_add_sine_sq
  · ring
  · ring
  · linear_combination T.yaw.cosine_sq_add_sine_sq

theorem transpose_mul_planar : T.planarᵀ * T.planar = 1 :=
  mul_eq_one_comm.mp T.planar_mul_transpose

theorem realMatrix_mul_motion (observed : Observed) :
    observed.realMatrix * T.motion = T.planar * observed.realMatrix := by
  ext a b
  rw [mul_apply, mul_apply, Fin.sum_univ_four, Fin.sum_univ_two]
  cases observed <;> fin_cases a <;> fin_cases b <;> simp [motion, Observed.realMatrix]

theorem motion_mul_transpose_realMatrix (observed : Observed) :
    T.motion * observed.realMatrixᵀ = observed.realMatrixᵀ * T.planar := by
  ext a b
  rw [mul_apply, mul_apply, Fin.sum_univ_four, Fin.sum_univ_two]
  cases observed <;> fin_cases a <;> fin_cases b <;> simp [motion, Observed.realMatrix]

theorem realTransition_mul_motion (dt : ℝ) :
    MotionModel.realTransition dt * T.motion = T.motion * MotionModel.realTransition dt := by
  ext a b
  rw [mul_apply, mul_apply, Fin.sum_univ_four, Fin.sum_univ_four]
  fin_cases a <;> fin_cases b <;> simp [motion, MotionModel.realTransition, mul_comm]

theorem realTransition_mul_shift (dt : ℝ) : MotionModel.realTransition dt * T.shift = T.shift := by
  ext a b
  rw [mul_apply, Fin.sum_univ_four]
  fin_cases a <;> fin_cases b <;> simp [shift, MotionModel.realTransition]

theorem motion_mul_realGain (dt : ℝ) :
    T.motion * MotionModel.realGain dt = MotionModel.realGain dt * T.planar := by
  ext a b
  rw [mul_apply, mul_apply, Fin.sum_univ_four, Fin.sum_univ_two]
  fin_cases a <;> fin_cases b <;> simp [motion, MotionModel.realGain, mul_comm]

theorem realPredicted_motion (q dt : ℝ) (p : Matrix (Fin 4) (Fin 4) ℝ) :
    MotionModel.realPredicted q dt (T.motion * p * T.motionᵀ) =
      T.motion * MotionModel.realPredicted q dt p * T.motionᵀ := by
  have commutes := T.realTransition_mul_motion dt
  have gains := T.motion_mul_realGain dt
  have orthogonal := T.planar_mul_transpose
  unfold MotionModel.realPredicted
  generalize MotionModel.realTransition dt = f at *
  generalize MotionModel.realGain dt = g at *
  have commutes' : T.motionᵀ * fᵀ = fᵀ * T.motionᵀ := by
    rw [← transpose_mul, commutes, transpose_mul]
  -- the noise acts alike in all directions
  have noise : T.motion * (g * gᵀ) * T.motionᵀ = g * gᵀ := by
    calc T.motion * (g * gᵀ) * T.motionᵀ
        = T.motion * g * (T.motion * g)ᵀ := by
          rw [transpose_mul, Matrix.mul_assoc, Matrix.mul_assoc, Matrix.mul_assoc]
      _ = g * (T.planar * T.planarᵀ) * gᵀ := by
          rw [gains, transpose_mul, Matrix.mul_assoc, Matrix.mul_assoc, Matrix.mul_assoc]
      _ = g * gᵀ := by rw [orthogonal, Matrix.mul_one]
  calc f * (T.motion * p * T.motionᵀ) * fᵀ + q • (g * gᵀ)
      = f * T.motion * p * (T.motionᵀ * fᵀ) + q • (T.motion * (g * gᵀ) * T.motionᵀ) := by
        rw [noise]
        simp only [Matrix.mul_assoc]
    _ = T.motion * (f * p * fᵀ + q • (g * gᵀ)) * T.motionᵀ := by
        rw [commutes, commutes', Matrix.mul_add, Matrix.add_mul, Matrix.mul_smul, Matrix.smul_mul]
        simp only [Matrix.mul_assoc]

theorem posDef_planar_iff {s : Matrix (Fin 2) (Fin 2) ℝ} :
    (T.planar * s * T.planarᵀ).PosDef ↔ s.PosDef := by
  have unit : IsUnit T.planar := IsUnit.of_mul_eq_one _ T.planar_mul_transpose
  have turned := Matrix.IsUnit.posDef_star_right_conjugate_iff (x := s) unit
  rwa [star_eq_conjTranspose, conjTranspose_eq_transpose_of_trivial] at turned

theorem inv_planar (s : Matrix (Fin 2) (Fin 2) ℝ) :
    (T.planar * s * T.planarᵀ)⁻¹ = T.planar * s⁻¹ * T.planarᵀ := by
  rw [Matrix.mul_inv_rev, Matrix.mul_inv_rev, inv_eq_right_inv T.planar_mul_transpose,
    inv_eq_right_inv T.transpose_mul_planar, ← Matrix.mul_assoc]

end FrameChange

namespace KinematicState

variable (T : FrameChange) {mean : Matrix (Fin 4) (Fin 1) ℝ} {p : Matrix (Fin 4) (Fin 4) ℝ}
  {noise : Matrix (Fin 2) (Fin 2) ℝ} {observed : Observed}

def moveBy (s : KinematicState Exact) : KinematicState Exact where
  mean := Mat.ofReal T.motion * s.mean + Mat.ofReal T.shift
  covariance := Mat.ofReal T.motion * s.covariance * (Mat.ofReal T.motion).transpose

theorem moveBy_ofReal (mean : Matrix (Fin 4) (Fin 1) ℝ) (p : Matrix (Fin 4) (Fin 4) ℝ) :
    (ofReal mean p).moveBy T = ofReal (T.motion * mean + T.shift) (T.motion * p * T.motionᵀ) := by
  unfold moveBy ofReal
  rw [Mat.ofReal_mul, Mat.ofReal_add, Mat.transpose_ofReal, Mat.ofReal_mul, Mat.ofReal_mul]

theorem predict_moveBy (q : ℝ) (mean : Matrix (Fin 4) (Fin 1) ℝ) (p : Matrix (Fin 4) (Fin 4) ℝ)
    (dt : Duration) : (⟨.finite q⟩ : MotionModel Exact).predict ((ofReal mean p).moveBy T) dt =
      ((⟨.finite q⟩ : MotionModel Exact).predict (ofReal mean p) dt).moveBy T := by
  rw [MotionModel.predict_ofReal, moveBy_ofReal, moveBy_ofReal, MotionModel.predict_ofReal]
  refine congrArg₂ ofReal ?_ ?_
  · rw [Matrix.mul_add, T.realTransition_mul_shift, ← Matrix.mul_assoc, T.realTransition_mul_motion,
      Matrix.mul_assoc]
  · exact T.realPredicted_motion q dt.realSeconds p

theorem innovation_moveBy (observed : Observed) (p : Matrix (Fin 4) (Fin 4) ℝ)
    (noise : Matrix (Fin 2) (Fin 2) ℝ) :
    innovation observed (T.motion * p * T.motionᵀ) (T.planar * noise * T.planarᵀ) =
      T.planar * innovation observed p noise * T.planarᵀ := by
  have turned := T.realMatrix_mul_motion observed
  have turned' : T.motionᵀ * observed.realMatrixᵀ = observed.realMatrixᵀ * T.planarᵀ := by
    rw [← transpose_mul, turned, transpose_mul]
  calc innovation observed (T.motion * p * T.motionᵀ) (T.planar * noise * T.planarᵀ)
      = observed.realMatrix * T.motion * p * (T.motionᵀ * observed.realMatrixᵀ) +
          T.planar * noise * T.planarᵀ := by
        simp only [innovation, Matrix.mul_assoc]
    _ = T.planar * innovation observed p noise * T.planarᵀ := by
        rw [turned, turned']
        simp only [innovation, Matrix.mul_assoc, Matrix.mul_add, Matrix.add_mul]

theorem posDef_innovation_moveBy_iff (observed : Observed) (p : Matrix (Fin 4) (Fin 4) ℝ)
    (noise : Matrix (Fin 2) (Fin 2) ℝ) :
    (innovation observed (T.motion * p * T.motionᵀ) (T.planar * noise * T.planarᵀ)).PosDef ↔
      (innovation observed p noise).PosDef := by
  rw [innovation_moveBy]
  exact T.posDef_planar_iff

theorem gain_moveBy (observed : Observed) (p : Matrix (Fin 4) (Fin 4) ℝ)
    (noise : Matrix (Fin 2) (Fin 2) ℝ) :
    gain observed (T.motion * p * T.motionᵀ) (T.planar * noise * T.planarᵀ) =
      T.motion * gain observed p noise * T.planarᵀ := by
  unfold gain
  rw [innovation_moveBy, T.inv_planar]
  calc (T.planar * (innovation observed p noise)⁻¹ * T.planarᵀ *
        (observed.realMatrix * (T.motion * p * T.motionᵀ)))ᵀ
      = (T.planar * (innovation observed p noise)⁻¹ *
          (T.planarᵀ * (observed.realMatrix * T.motion)) * p * T.motionᵀ)ᵀ := by
        simp only [Matrix.mul_assoc]
    _ = (T.planar * ((innovation observed p noise)⁻¹ * (observed.realMatrix * p)) *
          T.motionᵀ)ᵀ := by
        rw [T.realMatrix_mul_motion, ← Matrix.mul_assoc T.planarᵀ, T.transpose_mul_planar,
          Matrix.one_mul]
        simp only [Matrix.mul_assoc]
    _ = T.motion * ((innovation observed p noise)⁻¹ * (observed.realMatrix * p))ᵀ * T.planarᵀ := by
        rw [transpose_mul, transpose_mul, transpose_transpose, Matrix.mul_assoc]

theorem corrected_moveBy (observed : Observed) (p : Matrix (Fin 4) (Fin 4) ℝ)
    (noise : Matrix (Fin 2) (Fin 2) ℝ) :
    corrected observed (T.motion * p * T.motionᵀ) (T.planar * noise * T.planarᵀ) =
      T.motion * corrected observed p noise * T.motionᵀ := by
  unfold corrected
  rw [innovation_moveBy, gain_moveBy]
  generalize gain observed p noise = k
  generalize innovation observed p noise = s
  have orthogonal := T.transpose_mul_planar
  calc T.motion * p * T.motionᵀ - T.motion * k * T.planarᵀ * (T.planar * s * T.planarᵀ) *
        (T.motion * k * T.planarᵀ)ᵀ
      = T.motion * p * T.motionᵀ - T.motion * k * (T.planarᵀ * T.planar) * s *
          (T.planarᵀ * T.planar) * kᵀ * T.motionᵀ := by
        simp only [transpose_mul, transpose_transpose, Matrix.mul_assoc]
    _ = T.motion * (p - k * s * kᵀ) * T.motionᵀ := by
        rw [orthogonal, Matrix.mul_one, Matrix.mul_one, Matrix.mul_sub, Matrix.sub_mul]
        simp only [Matrix.mul_assoc]

theorem realMatrix_mul_moveBy (observed : Observed) (mean : Matrix (Fin 4) (Fin 1) ℝ) :
    observed.realMatrix * (T.motion * mean + T.shift) =
      T.planar * (observed.realMatrix * mean) + observed.realMatrix * T.shift := by
  rw [Matrix.mul_add, ← Matrix.mul_assoc, T.realMatrix_mul_motion, Matrix.mul_assoc]

variable {x y x' y' : ℝ}

theorem residual_moveBy
    (moved : !![x'; y'] = T.planar * !![x; y] + observed.realMatrix * T.shift)
    (mean : Matrix (Fin 4) (Fin 1) ℝ) :
    !![x'; y'] - observed.realMatrix * (T.motion * mean + T.shift) =
      T.planar * (!![x; y] - observed.realMatrix * mean) := by
  rw [realMatrix_mul_moveBy, moved, Matrix.mul_sub]
  abel

/-- Correcting the moved state by the moved measurement moves the corrected state. -/
theorem correct_moveBy (symm : p.IsSymm) (symmNoise : noise.IsSymm)
    (moved : !![x'; y'] = T.planar * !![x; y] + observed.realMatrix * T.shift) :
    ((ofReal mean p).moveBy T).correct observed ⟨.finite x', .finite y'⟩
        (Mat.ofReal (T.planar * noise * T.planarᵀ)) =
      ((ofReal mean p).correct observed ⟨.finite x, .finite y⟩ (Mat.ofReal noise)).map
        (moveBy T) := by
  have turned := isSymm_mul_mul_transpose symm T.motion
  have turnedNoise := isSymm_mul_mul_transpose symmNoise T.planar
  have definite_iff := posDef_innovation_moveBy_iff T observed p noise
  rw [moveBy_ofReal]
  by_cases definite : (innovation observed p noise).PosDef
  · rw [correct_ofReal observed x y symm symmNoise definite,
      correct_ofReal observed x' y' turned turnedNoise (definite_iff.mpr definite)]
    refine congrArg Except.ok ?_
    rw [moveBy_ofReal, gain_moveBy, residual_moveBy T moved, corrected_moveBy]
    congr 1
    calc T.motion * mean + T.shift + T.motion * gain observed p noise * T.planarᵀ *
          (T.planar * (!![x; y] - observed.realMatrix * mean))
        = T.motion * mean + T.shift + T.motion * gain observed p noise * (T.planarᵀ * T.planar) *
            (!![x; y] - observed.realMatrix * mean) := by
          simp only [Matrix.mul_assoc]
      _ = T.motion * (mean + gain observed p noise * (!![x; y] - observed.realMatrix * mean)) +
            T.shift := by
          rw [T.transpose_mul_planar, Matrix.mul_one, Matrix.mul_add, Matrix.mul_assoc]
          abel
  · rw [correct_ofReal_of_not_posDef observed _ symm symmNoise definite,
      correct_ofReal_of_not_posDef observed _ turned turnedNoise (mt definite_iff.mp definite)]
    rfl

/-- Squared Mahalanobis distances do not depend on the frame. -/
theorem gatingDistance_moveBy (symm : p.IsSymm) (symmNoise : noise.IsSymm)
    (moved : !![x'; y'] = T.planar * !![x; y] + Observed.position.realMatrix * T.shift) :
    ((ofReal mean p).moveBy T).gatingDistance (Mat.ofReal (T.planar * noise * T.planarᵀ))
        ⟨.finite x', .finite y'⟩ =
      (ofReal mean p).gatingDistance (Mat.ofReal noise) ⟨.finite x, .finite y⟩ := by
  have turned := isSymm_mul_mul_transpose symm T.motion
  have turnedNoise := isSymm_mul_mul_transpose symmNoise T.planar
  have definite_iff := posDef_innovation_moveBy_iff T .position p noise
  rw [moveBy_ofReal]
  by_cases definite : (innovation .position p noise).PosDef
  · rw [gatingDistance_ofReal x y symm symmNoise definite,
      gatingDistance_ofReal x' y' turned turnedNoise (definite_iff.mpr definite), innovation_moveBy,
      T.inv_planar, residual_moveBy T moved]
    generalize !![x; y] - Observed.position.realMatrix * mean = d
    generalize (innovation .position p noise)⁻¹ = s
    have same : (T.planar * d)ᵀ * (T.planar * s * T.planarᵀ * (T.planar * d)) = dᵀ * (s * d) := by
      calc (T.planar * d)ᵀ * (T.planar * s * T.planarᵀ * (T.planar * d))
          = dᵀ * ((T.planarᵀ * T.planar) * (s * ((T.planarᵀ * T.planar) * d))) := by
            simp only [transpose_mul, Matrix.mul_assoc]
        _ = dᵀ * (s * d) := by rw [T.transpose_mul_planar, Matrix.one_mul, Matrix.one_mul]
    rw [same]
  · rw [gatingDistance_ofReal_of_not_posDef _ symm symmNoise definite,
      gatingDistance_ofReal_of_not_posDef _ turned turnedNoise (mt definite_iff.mp definite)]

theorem initiate_moveBy {u w u' w' : ℝ} (a b : Matrix (Fin 2) (Fin 2) ℝ)
    (moved : !![x'; y'] = T.planar * !![x; y] + Observed.position.realMatrix * T.shift)
    (turned : !![u'; w'] = T.planar * !![u; w]) :
    initiate ⟨.finite x', .finite y'⟩ (Mat.ofReal (T.planar * a * T.planarᵀ))
        ⟨.finite u', .finite w'⟩ (Mat.ofReal (T.planar * b * T.planarᵀ)) =
      (initiate ⟨.finite x, .finite y⟩ (Mat.ofReal a) ⟨.finite u, .finite w⟩
        (Mat.ofReal b)).moveBy T := by
  rw [initiate_ofReal, initiate_ofReal, moveBy_ofReal]
  refine congrArg₂ ofReal ?_ ?_
  · have first := congrFun (congrFun moved 0) 0
    have second := congrFun (congrFun moved 1) 0
    have third := congrFun (congrFun turned 0) 0
    have fourth := congrFun (congrFun turned 1) 0
    simp [mul_apply, Fin.sum_univ_two, Observed.realMatrix, FrameChange.shift] at first second
    simp [mul_apply, Fin.sum_univ_two] at third fourth
    ext i j
    rw [Matrix.add_apply, mul_apply, Fin.sum_univ_four]
    fin_cases i <;> fin_cases j <;>
      simp [FrameChange.motion, FrameChange.shift, first, second, third, fourth]
  · have block (observed : Observed) (m : Matrix (Fin 2) (Fin 2) ℝ) :
        observed.realMatrixᵀ * (T.planar * m * T.planarᵀ) * observed.realMatrix =
          T.motion * (observed.realMatrixᵀ * m * observed.realMatrix) * T.motionᵀ := by
      have left := T.motion_mul_transpose_realMatrix observed
      have right : observed.realMatrix * T.motionᵀ = T.planarᵀ * observed.realMatrix := by
        rw [← transpose_inj, transpose_mul, transpose_mul, transpose_transpose, transpose_transpose,
          left]
      calc observed.realMatrixᵀ * (T.planar * m * T.planarᵀ) * observed.realMatrix
          = observed.realMatrixᵀ * T.planar * m * (T.planarᵀ * observed.realMatrix) := by
            simp only [Matrix.mul_assoc]
        _ = T.motion * (observed.realMatrixᵀ * m * observed.realMatrix) * T.motionᵀ := by
            rw [← left, ← right]
            simp only [Matrix.mul_assoc]
    rw [block, block, Matrix.mul_add, Matrix.add_mul]

def IsReal (s : KinematicState Exact) : Prop :=
  ∃ mean p, p.IsSymm ∧ s = ofReal mean p

theorem isReal_initiate (x y u w : ℝ) {a b : Matrix (Fin 2) (Fin 2) ℝ} (first : a.IsSymm)
    (second : b.IsSymm) :
    (initiate ⟨.finite x, .finite y⟩ (Mat.ofReal a) ⟨.finite u, .finite w⟩
      (Mat.ofReal b)).IsReal := by
  have positions := isSymm_mul_mul_transpose first Observed.position.realMatrixᵀ
  have velocities := isSymm_mul_mul_transpose second Observed.velocity.realMatrixᵀ
  rw [transpose_transpose] at positions velocities
  exact ⟨_, _, positions.add velocities, initiate_ofReal x y u w a b⟩

section IsReal

variable {s next : KinematicState Exact}

theorem IsReal.predict (real : s.IsReal) (q : ℝ) (dt : Duration) :
    ((⟨.finite q⟩ : MotionModel Exact).predict s dt).IsReal := by
  obtain ⟨mean, p, symm, rfl⟩ := real
  have transported := isSymm_mul_mul_transpose symm (MotionModel.realTransition dt.realSeconds)
  have added := isSymm_mul_mul_transpose isSymm_one (MotionModel.realGain dt.realSeconds)
  rw [Matrix.mul_one] at added
  exact ⟨_, _, transported.add (added.smul q), MotionModel.predict_ofReal q mean p dt⟩

theorem IsReal.correct (real : s.IsReal) (symmNoise : noise.IsSymm)
    (corrected : s.correct observed ⟨.finite x, .finite y⟩ (Mat.ofReal noise) = .ok next) :
    next.IsReal := by
  obtain ⟨mean, p, symm, rfl⟩ := real
  obtain ⟨-, rfl⟩ := (correct_ofReal_eq_ok_iff observed x y symm symmNoise).mp corrected
  have explained := isSymm_mul_mul_transpose (isSymm_innovation observed symm symmNoise)
    (gain observed p noise)
  exact ⟨_, _, symm.sub explained, rfl⟩

end IsReal

end KinematicState

end

end TrackFusion
