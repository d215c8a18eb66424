import TrackFusion.Proofs.Geometry.Box
import TrackFusion.Proofs.Kalman.RealState

/-!
Squared Mahalanobis distances of real states.

With the innovation `S`, the distance of a point whose offset from the mean is `d` is the form
`dᵀ S⁻¹ d`. It is the largest value that `2 x·d - xᵀ S x` takes, and a larger `S` lowers all of these
values at once: a noisier measurement is never farther away.
-/

set_option autoImplicit false
set_option relaxedAutoImplicit false

namespace TrackFusion

open Matrix

noncomputable section

section InverseForm

variable {n : Nat} {s t : Matrix (Fin n) (Fin n) ℝ}

theorem inverseForm_nonneg (definite : s.PosDef) (d : Fin n → ℝ) : 0 ≤ d ⬝ᵥ s⁻¹ *ᵥ d :=
  definite.inv.posSemidef.dotProduct_mulVec_nonneg d

theorem inverseForm_eq_zero_iff (definite : s.PosDef) {d : Fin n → ℝ} :
    d ⬝ᵥ s⁻¹ *ᵥ d = 0 ↔ d = 0 := by
  constructor
  · intro vanishes
    by_contra nonzero
    exact (definite.inv.dotProduct_mulVec_pos nonzero).ne' vanishes
  · rintro rfl
    exact zero_dotProduct _

/-- Completing the square at `S⁻¹ d`. -/
theorem inverseForm_sub (definite : s.PosDef) (d x : Fin n → ℝ) :
    d ⬝ᵥ s⁻¹ *ᵥ d - (2 * (x ⬝ᵥ d) - x ⬝ᵥ s *ᵥ x) =
      (x - s⁻¹ *ᵥ d) ⬝ᵥ s *ᵥ (x - s⁻¹ *ᵥ d) := by
  have symm : s.IsSymm := isHermitian_iff_isSymm.mp definite.isHermitian
  have solves : s *ᵥ (s⁻¹ *ᵥ d) = d := by
    rw [mulVec_mulVec, mul_nonsing_inv _ definite.det_pos.ne'.isUnit, one_mulVec]
  have mixed : (s⁻¹ *ᵥ d) ⬝ᵥ s *ᵥ x = x ⬝ᵥ d := by
    rw [dotProduct_mulVec, ← mulVec_transpose, symm.eq, solves, dotProduct_comm]
  rw [mulVec_sub, solves, sub_dotProduct, dotProduct_sub, dotProduct_sub, mixed,
    dotProduct_comm (s⁻¹ *ᵥ d) d]
  ring

/-- The form of the inverse is the largest value of `2 x·d - xᵀ S x`. -/
theorem isGreatest_inverseForm (definite : s.PosDef) (d : Fin n → ℝ) :
    IsGreatest (Set.range fun x => 2 * (x ⬝ᵥ d) - x ⬝ᵥ s *ᵥ x) (d ⬝ᵥ s⁻¹ *ᵥ d) := by
  constructor
  · refine ⟨s⁻¹ *ᵥ d, (sub_eq_zero.mp ?_).symm⟩
    rw [inverseForm_sub definite, sub_self, zero_dotProduct]
  · rintro _ ⟨x, rfl⟩
    have square := definite.posSemidef.dotProduct_mulVec_nonneg (x - s⁻¹ *ᵥ d)
    rw [star_trivial, ← inverseForm_sub definite] at square
    exact sub_nonneg.mp square

section Larger

variable (more : (t - s).PosSemidef)

include more

theorem isSymm_of_posSemidef_sub (symm : s.IsSymm) : t.IsSymm := by
  have sum := symm.add (isHermitian_iff_isSymm.mp more.isHermitian)
  rwa [add_sub_cancel] at sum

theorem posDef_of_posSemidef_sub (definite : s.PosDef) : t.PosDef := by
  have sum := definite.add_posSemidef more
  rwa [add_sub_cancel] at sum

theorem inverseForm_antitone (definite : s.PosDef) (d : Fin n → ℝ) :
    d ⬝ᵥ t⁻¹ *ᵥ d ≤ d ⬝ᵥ s⁻¹ *ᵥ d := by
  -- the vector at which the larger matrix attains its form bounds the form of the smaller one
  obtain ⟨⟨x, attained⟩, -⟩ := isGreatest_inverseForm (posDef_of_posSemidef_sub more definite) d
  obtain ⟨-, bound⟩ := isGreatest_inverseForm definite d
  have grows : x ⬝ᵥ s *ᵥ x ≤ x ⬝ᵥ t *ᵥ x := by
    have difference := more.dotProduct_mulVec_nonneg x
    rw [star_trivial, sub_mulVec, dotProduct_sub] at difference
    exact sub_nonneg.mp difference
  calc d ⬝ᵥ t⁻¹ *ᵥ d = 2 * (x ⬝ᵥ d) - x ⬝ᵥ t *ᵥ x := attained.symm
    _ ≤ 2 * (x ⬝ᵥ d) - x ⬝ᵥ s *ᵥ x := sub_le_sub_left grows _
    _ ≤ d ⬝ᵥ s⁻¹ *ᵥ d := bound ⟨x, rfl⟩

end Larger

end InverseForm

namespace KinematicState

variable {p : Matrix (Fin 4) (Fin 4) ℝ} {noise larger : Matrix (Fin 2) (Fin 2) ℝ}

theorem innovation_position (p : Matrix (Fin 4) (Fin 4) ℝ) (noise : Matrix (Fin 2) (Fin 2) ℝ) :
    innovation .position p noise =
      p.submatrix ![Motion.x, Motion.y] ![Motion.x, Motion.y] + noise := by
  unfold innovation
  congr 1
  ext i j
  rw [mul_apply, Fin.sum_univ_four]
  fin_cases i <;> fin_cases j <;> simp [mul_apply, Observed.realMatrix, Fin.sum_univ_four]

theorem posSemidef_innovation_sub (observed : Observed) (more : (larger - noise).PosSemidef) :
    (innovation observed p larger - innovation observed p noise).PosSemidef := by
  unfold innovation
  rwa [add_sub_add_left_eq_sub]

theorem posDef_innovation_of_larger {observed : Observed}
    (definite : (innovation observed p noise).PosDef) (more : (larger - noise).PosSemidef) :
    (innovation observed p larger).PosDef :=
  posDef_of_posSemidef_sub (posSemidef_innovation_sub observed more) definite

def offset (mean : Matrix (Fin 4) (Fin 1) ℝ) (z : ℝ × ℝ) : Fin 2 → ℝ :=
  ![z.1 - mean Motion.x onlyColumn, z.2 - mean Motion.y onlyColumn]

theorem offset_eq_zero_iff {mean : Matrix (Fin 4) (Fin 1) ℝ} {z : ℝ × ℝ} :
    offset mean z = 0 ↔ z = (mean Motion.x onlyColumn, mean Motion.y onlyColumn) := by
  rw [Prod.ext_iff, funext_iff, Fin.forall_fin_two]
  exact and_congr sub_eq_zero sub_eq_zero

theorem column_sub_projected (mean : Matrix (Fin 4) (Fin 1) ℝ) (x y : ℝ) :
    !![x; y] - Observed.position.realMatrix * mean =
      replicateCol (Fin 1) (offset mean (x, y)) := by
  ext i j
  rw [Matrix.sub_apply, mul_apply, Fin.sum_univ_four]
  fin_cases i <;> fin_cases j <;> simp [offset, Observed.realMatrix]

def squaredDistance (mean : Matrix (Fin 4) (Fin 1) ℝ) (p : Matrix (Fin 4) (Fin 4) ℝ)
    (noise : Matrix (Fin 2) (Fin 2) ℝ) (z : ℝ × ℝ) : ℝ :=
  offset mean z ⬝ᵥ (innovation .position p noise)⁻¹ *ᵥ offset mean z

section Distance

variable (mean : Matrix (Fin 4) (Fin 1) ℝ) (definite : (innovation .position p noise).PosDef)
  (z : ℝ × ℝ)

include definite

theorem squaredDistance_nonneg : 0 ≤ squaredDistance mean p noise z :=
  inverseForm_nonneg definite _

theorem squaredDistance_eq_zero_iff : squaredDistance mean p noise z = 0 ↔
    z = (mean Motion.x onlyColumn, mean Motion.y onlyColumn) :=
  (inverseForm_eq_zero_iff definite).trans offset_eq_zero_iff

theorem squaredDistance_antitone (more : (larger - noise).PosSemidef) :
    squaredDistance mean p larger z ≤ squaredDistance mean p noise z :=
  inverseForm_antitone (posSemidef_innovation_sub .position more) definite _

end Distance

theorem gatingDistance_eq_ok_iff_gatingDistances {α : Type} [Scalar α] {s : KinematicState α}
    {noise : Mat 2 2 α} {z : Vec2 α} {v : α} :
    s.gatingDistance noise z = .ok v ↔ s.gatingDistances noise [z] = .ok [v] := by
  unfold gatingDistance gatingDistances
  cases s.gatingForm noise with
  | error e => exact ⟨nofun, nofun⟩
  | ok form =>
    rw [Except.map, Except.map, Except.ok.injEq, Except.ok.injEq, List.map_singleton,
      List.singleton_inj]

section Gating

variable (mean : Matrix (Fin 4) (Fin 1) ℝ) (symm : p.IsSymm) (symmNoise : noise.IsSymm)

include symm symmNoise

theorem exists_gatingForm_eq (definite : (innovation .position p noise).PosDef) :
    ∃ form, (ofReal mean p).gatingForm (Mat.ofReal noise) = .ok form ∧
      ∀ z, form (.ofReal z) = .finite (squaredDistance mean p noise z) := by
  obtain ⟨form, found, value⟩ := exists_gatingForm_ofReal mean symm symmNoise definite
  refine ⟨form, found, fun z => (value z.1 z.2).trans (congrArg Exact.finite ?_)⟩
  rw [column_sub_projected]
  rfl

theorem gatingDistances_eq_ok_iff {measured : List (ℝ × ℝ)} {distances : List Exact} :
    (ofReal mean p).gatingDistances (Mat.ofReal noise) (measured.map Vec2.ofReal) =
        .ok distances ↔
      (innovation .position p noise).PosDef ∧
        distances = measured.map fun z => .finite (squaredDistance mean p noise z) := by
  unfold gatingDistances
  by_cases definite : (innovation .position p noise).PosDef
  · obtain ⟨form, found, value⟩ := exists_gatingForm_eq mean symm symmNoise definite
    have images : (measured.map Vec2.ofReal).map form =
        measured.map fun z => .finite (squaredDistance mean p noise z) := by
      rw [List.map_map]
      exact List.map_congr_left fun z _ => value z
    rw [found, Except.map, images, Except.ok.injEq]
    exact ⟨fun same => ⟨definite, same.symm⟩, fun both => both.2.symm⟩
  · rw [gatingForm_ofReal_of_not_posDef symm symmNoise definite]
    exact ⟨nofun, fun both => absurd both.1 definite⟩

theorem gatingDistances_eq_error_iff {measured : List (Vec2 Exact)} {e : MeasurementError} :
    (ofReal mean p).gatingDistances (Mat.ofReal noise) measured = .error e ↔
      ¬ (innovation .position p noise).PosDef ∧ e = .projectionNotPositiveDefinite := by
  unfold gatingDistances
  by_cases definite : (innovation .position p noise).PosDef
  · obtain ⟨form, found, -⟩ := exists_gatingForm_eq mean symm symmNoise definite
    rw [found]
    exact ⟨nofun, fun both => absurd definite both.1⟩
  · rw [gatingForm_ofReal_of_not_posDef symm symmNoise definite, Except.map, Except.error.injEq]
    exact ⟨fun same => ⟨definite, same.symm⟩, fun both => both.2.symm⟩

/-- Distances that can be computed can be computed with a larger noise, and none of them grows. -/
theorem exists_gatingDistances_le (more : (larger - noise).PosSemidef) {measured : List (ℝ × ℝ)}
    {before : List Exact}
    (computed : (ofReal mean p).gatingDistances (Mat.ofReal noise) (measured.map Vec2.ofReal) =
      .ok before) :
    ∃ after, (ofReal mean p).gatingDistances (Mat.ofReal larger) (measured.map Vec2.ofReal) =
        .ok after ∧ List.Forall₂ (· ≤ ·) after before := by
  obtain ⟨definite, rfl⟩ := (gatingDistances_eq_ok_iff mean symm symmNoise).mp computed
  refine ⟨_, (gatingDistances_eq_ok_iff mean symm (isSymm_of_posSemidef_sub more symmNoise)).mpr
    ⟨posDef_innovation_of_larger definite more, rfl⟩, ?_⟩
  rw [List.forall₂_map_left_iff, List.forall₂_map_right_iff, List.forall₂_same]
  exact fun z _ => Exact.finite_le_finite.mpr (squaredDistance_antitone mean definite z more)

theorem gatingDistance_eq_ok_iff {z : ℝ × ℝ} {v : Exact} :
    (ofReal mean p).gatingDistance (Mat.ofReal noise) (.ofReal z) = .ok v ↔
      (innovation .position p noise).PosDef ∧
        v = .finite (squaredDistance mean p noise z) := by
  rw [gatingDistance_eq_ok_iff_gatingDistances]
  change (ofReal mean p).gatingDistances _ ([z].map Vec2.ofReal) = _ ↔ _
  rw [gatingDistances_eq_ok_iff mean symm symmNoise, List.map_singleton, List.singleton_inj]

end Gating

end KinematicState

end

end TrackFusion
