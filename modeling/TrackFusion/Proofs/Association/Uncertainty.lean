import TrackFusion.Proofs.Association.Objects
import TrackFusion.Proofs.Kalman.Correction
import TrackFusion.Proofs.Kalman.Mahalanobis
import TrackFusion.Proofs.Scene
import TrackFusion.Proofs.Track.Covariance

/-!
Gating of uncertain detections.

Of the gates only the Mahalanobis distance looks at the covariance of a detection, and it shrinks when
the covariance grows. A detection that would report a larger covariance, with all else unchanged,
passes every gate that it passes now, at no higher cost.
-/

set_option autoImplicit false
set_option relaxedAutoImplicit false

namespace TrackFusion

open Matrix

noncomputable section

variable {π : Type} {mean : Matrix (Fin 4) (Fin 1) ℝ} {p : Matrix (Fin 4) (Fin 4) ℝ}
  {noise larger : Matrix (Fin 2) (Fin 2) ℝ} {t : Track Exact π} {d : Detection Exact π}
  {covariance : Option (Mat 3 3 Exact)} {z : ℝ × ℝ}

section LargerNoise

variable (symm : p.IsSymm) (symmNoise : noise.IsSymm) (more : (larger - noise).PosSemidef)
  (state : t.state = .ofReal mean p) (centroid : d.centroid.planar = .ofReal z)
  (reported : d.positionNoise t.noiseVariance = Mat.ofReal noise)
  (reportedMore :
    { d with covariance := covariance }.positionNoise t.noiseVariance = Mat.ofReal larger)

include symm symmNoise more state centroid reported reportedMore

theorem Track.exists_mahalanobisDistance_le {v : Exact} (distance : t.mahalanobisDistance d = .ok v) :
    ∃ x y : ℝ, y ≤ x ∧ v = .finite x ∧
      t.mahalanobisDistance { d with covariance := covariance } = .ok (.finite y) := by
  unfold mahalanobisDistance at distance ⊢
  rw [state, reported, centroid, KinematicState.gatingDistance_eq_ok_iff mean symm symmNoise]
    at distance
  obtain ⟨definite, rfl⟩ := distance
  refine ⟨_, KinematicState.squaredDistance mean p larger z,
    KinematicState.squaredDistance_antitone mean definite z more, rfl, ?_⟩
  rw [state, reportedMore, centroid, KinematicState.gatingDistance_eq_ok_iff mean symm
    (isSymm_of_posSemidef_sub more symmNoise)]
  exact ⟨KinematicState.posDef_innovation_of_larger definite more, rfl⟩

theorem ObjectGates.cost_le_of_larger {gates : ObjectGates Exact}
    (finite : Scalar.isFinite (gates.cost t d) = true) :
    ∃ x y : ℝ, y ≤ x ∧ gates.cost t d = .finite x ∧
      gates.cost t { d with covariance := covariance } = .finite y := by
  obtain ⟨near, alike, distance, within⟩ := cost_of_isFinite finite
  obtain ⟨x, y, less, same, closer⟩ := Track.exists_mahalanobisDistance_le symm symmNoise more state
    centroid reported reportedMore distance
  rw [same] at within
  exact ⟨x, y, less, same, cost_of_within near alike closer (Exact.finite_le_of_le less within)⟩

end LargerNoise

namespace KinematicState

/-- With the offset `δ` from the projected mean and the projected covariance `S`, gating fails unless
`S` is positive definite and otherwise gives `δᵀ S⁻¹ δ`, which is positive except at the projected
mean. A larger noise makes no call fail and no distance grow, so a detection that reports a larger
covariance still passes the gates that it passed. -/
theorem gatingDistances_antitone (gates : ObjectGates Exact) (mean : Matrix (Fin 4) (Fin 1) ℝ)
    (symm : p.IsSymm) (symmNoise : noise.IsSymm) (measured : List (ℝ × ℝ)) :
    let s := p.submatrix ![Motion.x, Motion.y] ![Motion.x, Motion.y] + noise
    let projected : ℝ × ℝ := (mean Motion.x onlyColumn, mean Motion.y onlyColumn)
    let δ (z : ℝ × ℝ) : Fin 2 → ℝ := ![z.1 - projected.1, z.2 - projected.2]
    let distances (noise : Matrix (Fin 2) (Fin 2) ℝ) : Except MeasurementError (List Exact) :=
      (ofReal mean p).gatingDistances (Mat.ofReal noise) (measured.map Vec2.ofReal)
    (∀ e, distances noise = .error e ↔ ¬ s.PosDef ∧ e = .projectionNotPositiveDefinite) ∧
      (s.PosDef → distances noise = .ok (measured.map fun z => .finite (δ z ⬝ᵥ s⁻¹ *ᵥ δ z)) ∧
        ∀ z, 0 ≤ δ z ⬝ᵥ s⁻¹ *ᵥ δ z ∧ (δ z ⬝ᵥ s⁻¹ *ᵥ δ z = 0 ↔ z = projected)) ∧
      ∀ larger : Matrix (Fin 2) (Fin 2) ℝ, (larger - noise).PosSemidef →
        (∀ before, distances noise = .ok before →
          ∃ after, distances larger = .ok after ∧ List.Forall₂ (· ≤ ·) after before) ∧
        ∀ (t : Track Exact π) (d : Detection Exact π) (covariance : Option (Mat 3 3 Exact))
          (z : ℝ × ℝ),
          let d' : Detection Exact π := { d with covariance := covariance }
          t.state = ofReal mean p → d.centroid.planar = .ofReal z →
          d.positionNoise t.noiseVariance = Mat.ofReal noise →
          d'.positionNoise t.noiseVariance = Mat.ofReal larger →
          (∀ v, t.mahalanobisDistance d = .ok v → v ≤ gates.gatingThreshold →
            ∃ v', t.mahalanobisDistance d' = .ok v' ∧ v' ≤ v ∧ v' ≤ gates.gatingThreshold) ∧
          (Scalar.isFinite (gates.cost t d) = true → Scalar.isFinite (gates.cost t d') = true ∧
            gates.cost t d' ≤ gates.cost t d) := by
  intro s projected δ distances
  have same : innovation .position p noise = s := innovation_position p noise
  refine ⟨fun e => ?_, fun definite => ⟨?_, fun z => ?_⟩, fun larger more => ⟨?_, ?_⟩⟩
  · rw [← same]
    exact gatingDistances_eq_error_iff mean symm symmNoise
  · rw [← same] at definite ⊢
    exact (gatingDistances_eq_ok_iff mean symm symmNoise).mpr ⟨definite, rfl⟩
  · rw [← same] at definite ⊢
    exact ⟨squaredDistance_nonneg mean definite z, squaredDistance_eq_zero_iff mean definite z⟩
  · exact fun before computed => exists_gatingDistances_le mean symm symmNoise more computed
  · intro t d covariance z d' state centroid reported reportedMore
    constructor
    · intro v distance within
      obtain ⟨x, y, less, rfl, closer⟩ := Track.exists_mahalanobisDistance_le symm symmNoise more
        state centroid reported reportedMore distance
      exact ⟨.finite y, closer, less, Exact.finite_le_of_le less within⟩
    · intro finite
      obtain ⟨x, y, less, cost, cost'⟩ := ObjectGates.cost_le_of_larger symm symmNoise more state
        centroid reported reportedMore finite
      rw [cost', cost]
      exact ⟨rfl, less⟩

/-- A track whose coordinates vary together sees a car two metres ahead at the squared distance 8/3,
and not farther away if the car reports that its coordinates vary together too. -/
theorem gatingDistances_antitone_together :
    let p : Matrix (Fin 4) (Fin 4) ℝ := .of fun _ _ => 1
    let noise : Matrix (Fin 2) (Fin 2) ℝ := 1
    let larger : Matrix (Fin 2) (Fin 2) ℝ := !![2, 1; 1, 2]
    let gates : ObjectGates Exact := ⟨.finite 4, .finite 10, .finite 6⟩
    let t : Track Exact Exact := { Scene.tracked 1 1 0 with state := ofReal 0 p }
    let d : Detection Exact Exact := Scene.car 2
    let d' : Detection Exact Exact :=
      { d with covariance := some (Mat.ofReal !![2, 1, 0; 1, 2, 0; 0, 0, 1]) }
    let distances (noise : Matrix (Fin 2) (Fin 2) ℝ) : Except MeasurementError (List Exact) :=
      (ofReal 0 p).gatingDistances (Mat.ofReal noise) ([(2, 0)].map Vec2.ofReal)
    p.IsSymm ∧ noise.IsSymm ∧
      (p.submatrix ![Motion.x, Motion.y] ![Motion.x, Motion.y] + noise).PosDef ∧
      (larger - noise).PosSemidef ∧ distances noise = .ok [.finite (8 / 3)] ∧
      (∃ after, distances larger = .ok after ∧ List.Forall₂ (· ≤ ·) after [.finite (8 / 3)]) ∧
      gates.cost t d = .finite (8 / 3) ∧ Scalar.isFinite (gates.cost t d') = true ∧
      gates.cost t d' ≤ .finite (8 / 3) := by
  intro p noise larger gates t d d' distances
  have ones : p.PosSemidef := posSemidef_ones
  have symm : p.IsSymm := isHermitian_iff_isSymm.mp ones.isHermitian
  have definite : (p.submatrix ![Motion.x, Motion.y] ![Motion.x, Motion.y] + noise).PosDef :=
    PosDef.posSemidef_add (ones.submatrix _) PosDef.one
  have block : p.submatrix ![Motion.x, Motion.y] ![Motion.x, Motion.y] + noise = larger := by
    ext i j
    change 1 + (1 : Matrix (Fin 2) (Fin 2) ℝ) i j = _
    fin_cases i <;> fin_cases j <;> norm_num [larger]
  have more : (larger - noise).PosSemidef := by
    rw [← block, add_sub_cancel_right]
    exact ones.submatrix _
  have inverse : larger⁻¹ = !![2 / 3, -(1 / 3); -(1 / 3), 2 / 3] := by
    refine inv_eq_right_inv ?_
    ext i j
    rw [mul_apply, Fin.sum_univ_two]
    fin_cases i <;> fin_cases j <;> norm_num [larger]
  obtain ⟨-, computes, gated⟩ :=
    gatingDistances_antitone (π := Exact) gates 0 symm isSymm_one [((2 : ℝ), (0 : ℝ))]
  obtain ⟨closer, passes⟩ := gated larger more
  have distances_noise : distances noise = .ok [.finite (8 / 3)] := by
    refine (computes definite).1.trans ?_
    rw [block, inverse]
    refine congrArg (fun x => Except.ok [Exact.finite x]) ?_
    norm_num [dotProduct, mulVec, Fin.sum_univ_two]
  have unreported : d.positionNoise t.noiseVariance = Mat.ofReal noise :=
    (isotropic_finite 1).trans (congrArg Mat.ofReal (one_smul ℝ noise))
  have reported : d'.positionNoise t.noiseVariance = Mat.ofReal larger := by
    refine (Mat.planarBlock_ofReal _).trans (congrArg Mat.ofReal ?_)
    ext i j
    fin_cases i <;> fin_cases j <;> rfl
  have apart : ObjectGates.planarDistance t d = .finite 2 := by
    refine (ObjectGates.planarDistance_of_finite (x := 2) (y := 0) rfl rfl).trans
      (congrArg Exact.finite ((Real.sqrt_eq_iff_mul_self_eq_of_pos two_pos).mpr ?_))
    rw [Matrix.zero_apply, Matrix.zero_apply]
    norm_num
  have area : t.shapeArea = .finite 8 := Scene.shapeArea_tracked 1 1 0
  have cost : gates.cost t d = .finite (8 / 3) := by
    refine ObjectGates.cost_of_within ?_ ?_ ?_ (Exact.finite_le_finite.mpr (by norm_num))
    · rw [apart, Exact.finite_lt_finite]
      norm_num
    · unfold ObjectGates.areaBound ObjectGates.largerArea
      rw [Scene.area_car, area, Exact.min_finite, Exact.max_finite, Exact.finite_mul_finite,
        Exact.finite_lt_finite]
      norm_num
    · refine gatingDistance_eq_ok_iff_gatingDistances.mpr ?_
      rw [unreported]
      exact distances_noise
  obtain ⟨kept, below⟩ := (passes t d _ (2, 0) rfl rfl unreported reported).2
    (by rw [cost, Exact.isFinite_finite])
  rw [cost] at below
  exact ⟨symm, isSymm_one, definite, more, distances_noise, closer _ distances_noise, cost, kept,
    below⟩

end KinematicState

end

end TrackFusion
