import TrackFusion.Proofs.Kalman.RealState

/-!
Corrections of real states.

A measurement `z` with the noise `N` corrects a state with the mean `m` and the covariance `P` if its
innovation `S = H P Hᵀ + N` is positive definite, and otherwise not at all. The gain is
`K = P Hᵀ S⁻¹`. A correction takes `K S Kᵀ` off the covariance, so that no direction becomes less
certain by it, and what is left is the covariance `(1 - K H) P (1 - K H)ᵀ + K N Kᵀ` of the corrected
error.
-/

set_option autoImplicit false
set_option relaxedAutoImplicit false

namespace TrackFusion

open Matrix

noncomputable section

namespace KinematicState

variable {mean : Matrix (Fin 4) (Fin 1) ℝ} {p : Matrix (Fin 4) (Fin 4) ℝ}
  {noise : Matrix (Fin 2) (Fin 2) ℝ}

/-- A correction fails exactly if the innovation is not positive definite. -/
theorem exists_correct_ofReal_eq_error_iff (observed : Observed) (x y : ℝ) (symm : p.IsSymm)
    (symmNoise : noise.IsSymm) :
    (∃ e, (ofReal mean p).correct observed ⟨.finite x, .finite y⟩ (Mat.ofReal noise) = .error e) ↔
      ¬ (innovation observed p noise).PosDef := by
  constructor
  · rintro ⟨e, failed⟩ definite
    rw [correct_ofReal observed x y symm symmNoise definite] at failed
    cases failed
  · intro indefinite
    exact ⟨_, correct_ofReal_of_not_posDef observed _ symm symmNoise indefinite⟩

theorem posSemidef_sub_corrected (observed : Observed)
    (definite : (innovation observed p noise).PosDef) :
    (p - corrected observed p noise).PosSemidef := by
  unfold corrected
  rw [sub_sub_cancel]
  exact posSemidef_mul_mul_transpose definite.posSemidef _

/-- With the innovation `S = H P Hᵀ + N` and the gain `K = P Hᵀ S⁻¹`, a correction fails unless `S` is
positive definite. It moves the mean by `K (z - H m)`, and the covariance that it leaves is positive
semidefinite, at most `P`, and equal to `(1 - K H) P (1 - K H)ᵀ + K N Kᵀ`. -/
theorem correct_of_posSemidef (observed : Observed) (mean : Matrix (Fin 4) (Fin 1) ℝ) (x y : ℝ)
    (semidefinite : p.PosSemidef) (semidefiniteNoise : noise.PosSemidef) :
    let h := observed.realMatrix
    let s := h * p * hᵀ + noise
    let k := p * hᵀ * s⁻¹
    let outcome := (ofReal mean p).correct observed ⟨.finite x, .finite y⟩ (Mat.ofReal noise)
    ((∃ e, outcome = .error e) ↔ ¬ s.PosDef) ∧
      (s.PosDef → ∃ p', outcome = .ok (ofReal (mean + k * (!![x; y] - h * mean)) p') ∧
        p'.PosSemidef ∧ (p - p').PosSemidef ∧
        p' = (1 - k * h) * p * (1 - k * h)ᵀ + k * noise * kᵀ) := by
  intro h s k outcome
  have symm : p.IsSymm := isHermitian_iff_isSymm.mp semidefinite.isHermitian
  have symmNoise : noise.IsSymm := isHermitian_iff_isSymm.mp semidefiniteNoise.isHermitian
  have sameGain : gain observed p noise = k := gain_eq observed symm symmNoise
  refine ⟨exists_correct_ofReal_eq_error_iff observed x y symm symmNoise, fun definite => ?_⟩
  refine ⟨corrected observed p noise, ?_,
    posSemidef_corrected observed semidefinite semidefiniteNoise definite,
    posSemidef_sub_corrected observed definite, ?_⟩
  · rw [← sameGain]
    exact correct_ofReal observed x y symm symmNoise definite
  · rw [← sameGain]
    exact corrected_eq observed symm symmNoise definite

theorem posSemidef_ones : (.of fun _ _ => 1 : Matrix (Fin 4) (Fin 4) ℝ).PosSemidef := by
  have ones := posSemidef_vecMulVec_self_star (1 : Fin 4 → ℝ)
  convert ones using 1
  ext i j
  simp [vecMulVec_apply]

/-- Coordinates that vary together, by one each, are corrected together: if the first coordinate is
measured at three and the second one at zero with unit noise, all four move to one. -/
theorem correct_of_posSemidef_together :
    let p : Matrix (Fin 4) (Fin 4) ℝ := .of fun _ _ => 1
    let noise : Matrix (Fin 2) (Fin 2) ℝ := 1
    let h := Observed.position.realMatrix
    let k : Matrix (Fin 4) (Fin 2) ℝ := .of fun _ _ => 1 / 3
    p.PosSemidef ∧ noise.PosSemidef ∧ (h * p * hᵀ + noise).PosDef ∧
      ∃ p', (ofReal 0 p).correct .position ⟨.finite 3, .finite 0⟩ (Mat.ofReal noise) =
          .ok (ofReal (.of fun _ _ => 1) p') ∧
        p'.PosSemidef ∧ (p - p').PosSemidef ∧
        p' = (1 - k * h) * p * (1 - k * h)ᵀ + k * noise * kᵀ := by
  intro p noise h k
  have semidefinite : p.PosSemidef := posSemidef_ones
  have definite : (h * p * hᵀ + noise).PosDef :=
    PosDef.posSemidef_add (posSemidef_mul_mul_transpose semidefinite h) PosDef.one
  have mixed : p * hᵀ = .of fun _ _ => 1 := by
    ext i j
    rw [mul_apply, Fin.sum_univ_four]
    fin_cases j <;> simp [p, h, Observed.realMatrix]
  have block : h * p * hᵀ = .of fun _ _ => 1 := by
    rw [Matrix.mul_assoc, mixed]
    ext i j
    rw [mul_apply, Fin.sum_univ_four]
    fin_cases i <;> simp [h, Observed.realMatrix]
  -- a gain with `K S = P Hᵀ` is the gain, so no inverse has to be computed
  have solves : p * hᵀ = k * (h * p * hᵀ + noise) := by
    rw [mixed, block]
    ext i j
    rw [mul_apply, Fin.sum_univ_two]
    fin_cases j <;> norm_num [k, noise]
  have gain : p * hᵀ * (h * p * hᵀ + noise)⁻¹ = k := by
    rw [solves, mul_nonsing_inv_cancel_right _ _ definite.det_pos.ne'.isUnit]
  have moved : k * (!![3; 0] : Matrix (Fin 2) (Fin 1) ℝ) = .of fun _ _ => (1 : ℝ) := by
    ext i j
    rw [mul_apply, Fin.sum_univ_two]
    simp [k]
  obtain ⟨p', corrected, rest⟩ :=
    (correct_of_posSemidef .position 0 3 0 semidefinite PosSemidef.one).2 definite
  rw [gain] at corrected rest
  rw [Matrix.mul_zero, sub_zero, zero_add, moved] at corrected
  exact ⟨semidefinite, PosSemidef.one, definite, p', corrected, rest⟩

end KinematicState

end

end TrackFusion
