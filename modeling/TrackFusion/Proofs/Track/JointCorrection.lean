import TrackFusion.Proofs.Kalman.JointCorrection
import TrackFusion.Proofs.Scene
import TrackFusion.Proofs.Track.FrameChange

/-!
The update of a track by a position and a velocity.

A detection with a twist corrects a track by the two halves of one measurement. The outcome is the
Bayesian update by all four coordinates: the gain is `P (P + N)⁻¹` for the block diagonal noise `N`,
and there is no outcome exactly if `P + N` is not positive definite.
-/

set_option autoImplicit false
set_option relaxedAutoImplicit false

namespace TrackFusion

open Matrix

noncomputable section

theorem Observed.jointNoise_position (a b : Matrix (Fin 2) (Fin 2) ℝ) :
    Observed.position.jointNoise a b =
      !![a 0 0, a 0 1, 0, 0; a 1 0, a 1 1, 0, 0; 0, 0, b 0 0, b 0 1; 0, 0, b 1 0, b 1 1] := by
  unfold jointNoise
  ext i j
  fin_cases i <;> fin_cases j <;> simp [mul_apply, realMatrix, other, Fin.sum_univ_two]

theorem Observed.realMatrix_mul_column (observed : Observed) (x y u w : ℝ) :
    observed.realMatrix * !![x; y; u; w] =
      match observed with
      | .position => !![x; y]
      | .velocity => !![u; w] := by
  ext i j
  rw [mul_apply, Fin.sum_univ_four]
  cases observed <;> fin_cases i <;> fin_cases j <;> simp [realMatrix]

namespace Track

variable {π : Type}

theorem correctedState_of_twist {t : Track Exact π} {d : Detection Exact π} {twist : Twist Exact}
    (seen : d.twist = some twist) :
    t.correctedState d =
      t.state.correct .position d.centroid.planar (d.positionNoise t.noiseVariance) >>= fun s =>
        s.correct .velocity twist.linear.planar (isotropic t.noiseVariance) := by
  unfold correctedState
  rw [seen]

theorem update_map_state [Scalar π] (t : Track Exact π) (d : Detection Exact π) :
    (t.update d).map Track.state = t.correctedState d := by
  unfold update
  cases t.correctedState d <;> rfl

/-- A correction by a position and by a velocity, in either order, is the correction by both at once,
and it fails with it. A track is updated so by a detection with a twist. -/
theorem update_correctsJointly [Scalar π] (mean : Matrix (Fin 4) (Fin 1) ℝ)
    {p : Matrix (Fin 4) (Fin 4) ℝ} (symm : p.IsSymm) (x y : ℝ) {a : Matrix (Fin 2) (Fin 2) ℝ}
    (symmA : a.IsSymm) (u w : ℝ) {b : Matrix (Fin 2) (Fin 2) ℝ} (symmB : b.IsSymm) :
    let s := KinematicState.ofReal mean p
    let z : Matrix (Fin 4) (Fin 1) ℝ := !![x; y; u; w]
    let noise : Matrix (Fin 4) (Fin 4) ℝ :=
      !![a 0 0, a 0 1, 0, 0; a 1 0, a 1 1, 0, 0; 0, 0, b 0 0, b 0 1; 0, 0, b 1 0, b 1 1]
    let byPosition (s : KinematicState Exact) :=
      s.correct .position ⟨.finite x, .finite y⟩ (Mat.ofReal a)
    let byVelocity (s : KinematicState Exact) :=
      s.correct .velocity ⟨.finite u, .finite w⟩ (Mat.ofReal b)
    KinematicState.CorrectsJointly (byPosition s >>= byVelocity) mean p z noise ∧
      KinematicState.CorrectsJointly (byVelocity s >>= byPosition) mean p z noise ∧
      ∀ (t : Track Exact π) (d : Detection Exact π) (twist : Twist Exact), t.state = s →
        d.centroid.planar = ⟨.finite x, .finite y⟩ →
        d.positionNoise t.noiseVariance = Mat.ofReal a → d.twist = some twist →
        twist.linear.planar = ⟨.finite u, .finite w⟩ →
        isotropic t.noiseVariance = Mat.ofReal b →
        KinematicState.CorrectsJointly ((t.update d).map Track.state) mean p z noise := by
  intro s z noise byPosition byVelocity
  have joint : noise = Observed.position.jointNoise a b := (Observed.jointNoise_position a b).symm
  have position := (Observed.position.realMatrix_mul_column x y u w).symm
  have velocity := (Observed.velocity.realMatrix_mul_column x y u w).symm
  have inOrder : KinematicState.CorrectsJointly (byPosition s >>= byVelocity) mean p z noise := by
    rw [joint]
    exact KinematicState.correctsJointly .position symm symmA symmB position velocity
  refine ⟨inOrder, ?_, fun t d twist state centroid positionNoise seen linear velocityNoise => ?_⟩
  · rw [joint, ← Observed.jointNoise_other]
    exact KinematicState.correctsJointly .velocity symm symmB symmA velocity position
  · rw [update_map_state, correctedState_of_twist seen, state, centroid, positionNoise, linear,
      velocityNoise]
    exact inOrder

/-- A track whose coordinates vary together, by one each, is moved along by one in all of them if a
car at rest is seen five metres ahead with unit noise. -/
theorem update_correctsJointly_together :
    let p : Matrix (Fin 4) (Fin 4) ℝ := .of fun _ _ => 1
    let t : Track Exact Exact := { Scene.tracked 1 1 0 with state := .ofReal 0 p }
    let d : Detection Exact Exact := { Scene.car 5 with twist := some ⟨0, 0⟩ }
    p.IsSymm ∧ (1 : Matrix (Fin 2) (Fin 2) ℝ).IsSymm ∧ (p + 1).PosDef ∧
      (t.update d).map Track.state = .ok (.ofReal (.of fun _ _ => 1) ((1 / 5 : ℝ) • p)) := by
  intro p t d
  have symm : p.IsSymm := isHermitian_iff_isSymm.mp KinematicState.posSemidef_ones.isHermitian
  have definite : (p + 1).PosDef := PosDef.posSemidef_add KinematicState.posSemidef_ones PosDef.one
  have noise : isotropic (Exact.finite 1) = Mat.ofReal 1 := by rw [isotropic_finite, one_smul]
  have block : (!![(1 : Matrix (Fin 2) (Fin 2) ℝ) 0 0, (1 : Matrix (Fin 2) (Fin 2) ℝ) 0 1, 0, 0;
      (1 : Matrix (Fin 2) (Fin 2) ℝ) 1 0, (1 : Matrix (Fin 2) (Fin 2) ℝ) 1 1, 0, 0;
      0, 0, (1 : Matrix (Fin 2) (Fin 2) ℝ) 0 0, (1 : Matrix (Fin 2) (Fin 2) ℝ) 0 1;
      0, 0, (1 : Matrix (Fin 2) (Fin 2) ℝ) 1 0, (1 : Matrix (Fin 2) (Fin 2) ℝ) 1 1] :
        Matrix (Fin 4) (Fin 4) ℝ) = 1 := by
    ext i j
    fin_cases i <;> fin_cases j <;> simp
  have square : p * p = (4 : ℝ) • p := by
    ext i j
    rw [mul_apply, Fin.sum_univ_four]
    norm_num [p]
  have solves : p = (1 / 5 : ℝ) • p * (p + 1) := by
    rw [Matrix.smul_mul, Matrix.mul_add, square, Matrix.mul_one]
    module
  have gain : p * (p + 1)⁻¹ = (1 / 5 : ℝ) • p := by
    nth_rewrite 1 [solves]
    exact mul_nonsing_inv_cancel_right _ _ definite.det_pos.ne'.isUnit
  have mean : (0 : Matrix (Fin 4) (Fin 1) ℝ) +
      ((1 / 5 : ℝ) • p) * ((!![5; 0; 0; 0] : Matrix (Fin 4) (Fin 1) ℝ) - 0) = .of fun _ _ => 1 := by
    ext i j
    rw [zero_add, sub_zero, Matrix.smul_mul, Matrix.smul_apply, mul_apply, Fin.sum_univ_four]
    simp [p]
  have covariance : p - (1 / 5 : ℝ) • p * (p + 1) * ((1 / 5 : ℝ) • p)ᵀ = (1 / 5 : ℝ) • p := by
    rw [← solves, transpose_smul, symm.eq, Matrix.mul_smul, square]
    module
  have moved : KinematicState.jointlyCorrected 0 p !![5; 0; 0; 0] 1 =
      .ofReal (.of fun _ _ => 1) ((1 / 5 : ℝ) • p) := by
    unfold KinematicState.jointlyCorrected
    rw [gain]
    exact congrArg₂ KinematicState.ofReal mean covariance
  have joint := (update_correctsJointly 0 symm 5 0 isSymm_one 0 0 isSymm_one).2.2 t d
    ⟨0, 0⟩ rfl rfl noise rfl rfl noise
  rw [block] at joint
  refine ⟨symm, isSymm_one, definite, ?_⟩
  rw [joint.succeeds definite, moved]

end Track

end

end TrackFusion
