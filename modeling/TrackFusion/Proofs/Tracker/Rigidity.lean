import TrackFusion.Proofs.Detection.FrameChange
import TrackFusion.Proofs.Tracker.Rejection

/-!
When a detection is moved rigidly into the tracking frame.

Points are turned by the product of quaternions, velocities and covariances by a matrix. Both are
the same rotation if the quaternion of the odometry has length one, and only then: otherwise points
keep a share of their place while velocities and covariances are stretched. Nothing in the check of
a cycle looks at this length.
-/

set_option autoImplicit false
set_option relaxedAutoImplicit false

namespace TrackFusion

open Matrix

noncomputable section

def euclidean (v : Fin 3 → ℝ) : ℝ :=
  √(v ⬝ᵥ v)

namespace Quaternion

variable (q : Quaternion ℝ)

theorem squaredLength_nonneg : 0 ≤ q.squaredLength := by
  have squares := add_nonneg (add_nonneg (add_nonneg (mul_self_nonneg q.i) (mul_self_nonneg q.j))
    (mul_self_nonneg q.k)) (mul_self_nonneg q.w)
  exact squares

theorem euclidean_turn (v : Fin 3 → ℝ) :
    euclidean (q.turn *ᵥ v) = q.squaredLength * euclidean v := by
  have square : (q.turn *ᵥ v) ⬝ᵥ (q.turn *ᵥ v) = q.squaredLength ^ 2 * v ⬝ᵥ v := by
    rw [dotProduct_mulVec, vecMul_mulVec, q.transpose_turn_mul, vecMul_smul, vecMul_one,
      smul_dotProduct, smul_eq_mul]
  unfold euclidean
  rw [square, Real.sqrt_mul (sq_nonneg _), Real.sqrt_sq q.squaredLength_nonneg]

theorem trace_conjugate_turn (m : Matrix (Fin 3) (Fin 3) ℝ) :
    (q.turn * m * q.turnᵀ).trace = q.squaredLength ^ 2 * m.trace := by
  rw [trace_mul_comm, ← Matrix.mul_assoc, q.transpose_turn_mul, smul_mul, one_mul, trace_smul,
    smul_eq_mul]

end Quaternion

variable {π : Type}

def Detection.points (d : Detection Exact π) : List (Vec3 Exact) :=
  d.centroid :: d.shape.polygon

namespace Odometry

/-- What an odometry does to the real parts of a detection: differences of points are mapped by `P`,
the covariance and the velocity, up to that of the frame, by `R`. Lengths are scaled by `R`. -/
structure MovesBy (o : Odometry Exact) (P R : Matrix (Fin 3) (Fin 3) ℝ) (scale : ℝ)
    (d : Detection Exact π) : Prop where
  points : ∀ (i j : Nat) (a b : Fin 3 → ℝ), d.points[i]? = some (.ofReal a) →
    d.points[j]? = some (.ofReal b) → ∃ a' b', (d.transform o).points[i]? = some (.ofReal a') ∧
      (d.transform o).points[j]? = some (.ofReal b') ∧ a' - b' = P *ᵥ (a - b)
  velocity : ∀ (twist : Twist Exact) (v : Fin 3 → ℝ), d.twist = some twist →
    twist.linear = .ofReal v →
    (d.transform o).twist = some { twist with linear := o.twist.linear + .ofReal (R *ᵥ v) } ∧
      euclidean (R *ᵥ v) = scale * euclidean v
  covariance : ∀ m : Matrix (Fin 3) (Fin 3) ℝ, d.covariance = some (Mat.ofReal m) →
    (d.transform o).covariance = some (Mat.ofReal (R * m * Rᵀ)) ∧
      (R * m * Rᵀ).trace = scale ^ 2 * m.trace

/-- One map moves differences of points, the velocity and the covariance, and it keeps distances,
the speed and the trace. -/
structure MovesRigidly (o : Odometry Exact) (R : Matrix (Fin 3) (Fin 3) ℝ)
    (d : Detection Exact π) : Prop extends o.MovesBy R R 1 d where
  distances : ∀ (i j : Nat) (a b a' b' : Fin 3 → ℝ), d.points[i]? = some (.ofReal a) →
    d.points[j]? = some (.ofReal b) → (d.transform o).points[i]? = some (.ofReal a') →
    (d.transform o).points[j]? = some (.ofReal b') → euclidean (a' - b') = euclidean (a - b)

variable {o : Odometry Exact} {q : Quaternion ℝ} {offset : Fin 3 → ℝ}

theorem getElem?_points_transform (pose : o.pose = .ofReal q offset) {d : Detection Exact π}
    {i : Nat} {a : Fin 3 → ℝ} (place : d.points[i]? = some (.ofReal a)) :
    (d.transform o).points[i]? =
      some (.ofReal (q.turn *ᵥ a + (1 - q.squaredLength) • a + offset)) := by
  change (d.points.map o.pose.apply)[i]? = _
  rw [List.getElem?_map, place, Option.map_some, pose]
  unfold Pose.apply Pose.ofReal
  rw [q.rotate_ofReal, Vec3.ofReal_add]

/-- Whatever its length, the quaternion turns and stretches velocities and covariances, while points
keep what the length exceeds one by. -/
theorem movesBy_of_pose (pose : o.pose = .ofReal q offset) (d : Detection Exact π) :
    o.MovesBy (q.turn + (1 - q.squaredLength) • 1) q.turn q.squaredLength d where
  points := by
    intro i j a b first second
    refine ⟨_, _, getElem?_points_transform pose first, getElem?_points_transform pose second, ?_⟩
    rw [add_mulVec, smul_mulVec, one_mulVec, mulVec_sub, smul_sub]
    abel
  velocity := by
    intro twist v seen linear
    refine ⟨?_, q.euclidean_turn v⟩
    unfold Detection.transform
    dsimp only
    rw [seen, Option.map_some, toMatrix_rotation pose, linear, Mat.apply_ofReal]
  covariance := fun m measured =>
    ⟨Detection.covariance_transform pose measured, q.trace_conjugate_turn m⟩

theorem movesRigidly_of_isUnit (pose : o.pose = .ofReal q offset) (unit : q.IsUnit)
    (d : Detection Exact π) : o.MovesRigidly q.turn d := by
  have length : q.squaredLength = 1 := unit
  have moves := movesBy_of_pose pose d
  rw [length, sub_self, zero_smul, add_zero] at moves
  refine ⟨moves, fun i j a b a' b' first second third fourth => ?_⟩
  obtain ⟨_, _, first', second', difference⟩ := moves.points i j a b first second
  obtain rfl := Vec3.ofReal_injective (Option.some.inj (third.symm.trans first'))
  obtain rfl := Vec3.ofReal_injective (Option.some.inj (fourth.symm.trans second'))
  rw [difference, q.euclidean_turn, length, one_mul]

theorem isUnit_of_movesRigidly (pose : o.pose = .ofReal q offset)
    {R : Matrix (Fin 3) (Fin 3) ℝ} {d : Detection Exact π}
    (measured : d.covariance = some (Mat.ofReal 1)) (rigid : o.MovesRigidly R d) : q.IsUnit := by
  obtain ⟨kept, trace⟩ := rigid.covariance 1 measured
  obtain ⟨stretched, trace'⟩ := (movesBy_of_pose pose d).covariance 1 measured
  have same : R * 1 * Rᵀ = q.turn * 1 * q.turnᵀ :=
    Mat.ofReal_injective (Option.some.inj (kept.symm.trans stretched))
  have nonzero : (1 : Matrix (Fin 3) (Fin 3) ℝ).trace ≠ 0 := by
    rw [trace_one, Fintype.card_fin]
    norm_num
  rw [same, trace'] at trace
  have square : q.squaredLength ^ 2 = 1 ^ 2 := mul_right_cancel₀ nonzero trace
  exact (sq_eq_sq₀ q.squaredLength_nonneg zero_le_one).mp square

/-- Every odometry turns and stretches by its quaternion, and it moves all detections rigidly
exactly if that has length one. -/
theorem movesRigidly_iff_isUnit [Scalar π] (pose : o.pose = .ofReal q offset) :
    (∀ d : Detection Exact π,
      o.MovesBy (q.turn + (1 - q.squaredLength) • 1) q.turn q.squaredLength d) ∧
    ((∃ R, ∀ d : Detection Exact π, o.MovesRigidly R d) ↔ q.IsUnit) := by
  refine ⟨movesBy_of_pose pose, fun ⟨R, rigid⟩ => ?_, fun unit =>
    ⟨q.turn, movesRigidly_of_isUnit pose unit⟩⟩
  let measured : Detection Exact π := ⟨0, [], 0, some (Mat.ofReal 1), none, ⟨[], 0⟩⟩
  exact isUnit_of_movesRigidly pose rfl (rigid measured)

/-- A sensor that is turned about the vertical moves detections rigidly: a car, its velocity and the
covariance of its place are turned by 7/25 as cosine and 24/25 as sine. -/
theorem movesRigidly_of_turned :
    let o : Odometry Exact :=
      { Scene.odometry with
        pose := .ofReal ⟨0, 0, 3 / 5, 4 / 5⟩ ![1, 2, 0]
        twist := ⟨.ofReal ![1, 0, 0], 0⟩ }
    let d : Detection Exact Exact :=
      { Scene.car 25 with
        covariance := some (Mat.ofReal !![4, 1, 0; 1, 2, 0; 0, 0, 1])
        twist := some ⟨.ofReal ![25, 0, 0], 0⟩ }
    (∃ R, ∀ e : Detection Exact Exact, o.MovesRigidly R e) ∧
      (d.transform o).centroid = .ofReal ![8, 26, 0] ∧
      (d.transform o).twist = some ⟨.ofReal ![8, 24, 0], 0⟩ ∧
      (d.transform o).covariance = some (Mat.ofReal
        !![1012 / 625, -(191 / 625), 0; -(191 / 625), 2738 / 625, 0; 0, 0, 1]) := by
  intro o d
  have pose : o.pose = .ofReal ⟨0, 0, 3 / 5, 4 / 5⟩ ![1, 2, 0] := rfl
  have length : (⟨0, 0, 3 / 5, 4 / 5⟩ : Quaternion ℝ).squaredLength = 1 := by
    norm_num [Quaternion.squaredLength]
  have turn : (⟨0, 0, 3 / 5, 4 / 5⟩ : Quaternion ℝ).turn =
      !![7 / 25, -(24 / 25), 0; 24 / 25, 7 / 25, 0; 0, 0, 1] := by
    ext i j
    fin_cases i <;> fin_cases j <;> norm_num [Quaternion.turn]
  obtain ⟨moves, rigid⟩ := movesRigidly_iff_isUnit (π := Exact) pose
  refine ⟨rigid.mpr length, ?_, ?_, ?_⟩
  · have moved := getElem?_points_transform pose (d := d) (i := 0) (a := ![25, 0, 0]) rfl
    refine (Option.some.inj moved).trans (congrArg Vec3.ofReal ?_)
    rw [turn, length]
    ext i
    fin_cases i <;> norm_num [mulVec, dotProduct, Fin.sum_univ_three]
  · obtain ⟨turned, -⟩ := (moves d).velocity _ ![25, 0, 0] rfl rfl
    have own : o.twist.linear = .ofReal ![1, 0, 0] := rfl
    rw [turned, own, Vec3.ofReal_add, turn]
    congr 3
    ext i
    fin_cases i <;> norm_num [mulVec, dotProduct, Fin.sum_univ_three]
  · obtain ⟨turned, -⟩ := (moves d).covariance _ rfl
    have back : (!![7 / 25, -(24 / 25), 0; 24 / 25, 7 / 25, 0; 0, 0, 1] :
        Matrix (Fin 3) (Fin 3) ℝ)ᵀ = !![7 / 25, 24 / 25, 0; -(24 / 25), 7 / 25, 0; 0, 0, 1] :=
      eta_fin_three _
    rw [turned, turn, back, mul_fin_three, mul_fin_three]
    norm_num

end Odometry

theorem Quaternion.isGravityAligned_double :
    (⟨0, 0, 0, 2⟩ : Quaternion ℝ).ofReal.isGravityAligned = true :=
  isGravityAligned_of_one_le (by norm_num)

theorem Tracker.validate_start {options : TrackerOptions Exact} {batch : DetectionBatch Exact π}
    {o : Odometry Exact} (sensorFrame : batch.header.frame = o.childFrame)
    (trackingFrame : o.header.frame = options.frame)
    (upright : o.pose.rotation.isGravityAligned = true) :
    (start options : Tracker Exact π).validate batch o = .ok := by
  refine validate_eq_ok_iff.mpr fun s objects => ?_
  cases s with
  | ok => exact objects
  | invalidShape => exact objects
  | wentBackInTime =>
    obtain ⟨last, previous, -⟩ := objects
    cases previous
  | detectionFrameMismatch => exact objects sensorFrame
  | trackerFrameMismatch => exact objects trackingFrame
  | frameNotGravityAligned =>
    have tilted : o.pose.rotation.isGravityAligned = false := objects
    rw [upright] at tilted
    cases tilted

/-- The check of a cycle accepts an odometry that leaves a detection in its place, but multiplies
its velocity by four and its covariance by sixteen. -/
theorem Tracker.accepts_stretching :
    let o : Odometry Exact := { Scene.odometry with pose := .ofReal ⟨0, 0, 0, 2⟩ 0 }
    let d : Detection Exact Exact :=
      { Scene.car 10 with
        covariance := some (Mat.ofReal 1)
        twist := some ⟨.ofReal ![3, 0, 0], 0⟩ }
    (Tracker.start .standard : Tracker Exact Exact).validate (Scene.batch Scene.second [d]) o =
        .ok ∧
      (d.transform o).centroid = d.centroid ∧
      (d.transform o).twist = some ⟨.ofReal ![12, 0, 0], 0⟩ ∧
      (d.transform o).covariance = some (Mat.ofReal ((16 : ℝ) • 1)) ∧
      ¬ ∃ R, o.MovesRigidly R d := by
  intro o d
  have pose : o.pose = .ofReal ⟨0, 0, 0, 2⟩ 0 := rfl
  have turn : (⟨0, 0, 0, 2⟩ : Quaternion ℝ).turn = (4 : ℝ) • (1 : Matrix (Fin 3) (Fin 3) ℝ) := by
    ext i j
    fin_cases i <;> fin_cases j <;> norm_num [Quaternion.turn]
  have length : (⟨0, 0, 0, 2⟩ : Quaternion ℝ).squaredLength = 4 := by
    norm_num [Quaternion.squaredLength]
  have moves := Odometry.movesBy_of_pose pose d
  rw [turn, length] at moves
  refine ⟨Tracker.validate_start rfl rfl Quaternion.isGravityAligned_double, ?_, ?_, ?_, ?_⟩
  · have moved := Odometry.getElem?_points_transform pose (d := d) (i := 0) (a := ![10, 0, 0]) rfl
    have place : d.centroid = .ofReal ![10, 0, 0] := rfl
    refine (Option.some.inj moved).trans ((congrArg Vec3.ofReal ?_).trans place.symm)
    rw [turn, length, smul_mulVec, one_mulVec, add_zero, ← add_smul]
    norm_num
  · obtain ⟨turned, -⟩ := moves.velocity _ ![3, 0, 0] rfl rfl
    have sum : o.twist.linear + .ofReal (((4 : ℝ) • (1 : Matrix (Fin 3) (Fin 3) ℝ)) *ᵥ ![3, 0, 0]) =
        .ofReal ![12, 0, 0] := by
      have still : o.twist.linear = .ofReal 0 := rfl
      rw [still, Vec3.ofReal_add, zero_add, smul_mulVec, one_mulVec]
      norm_num
    rw [turned, sum]
  · obtain ⟨turned, -⟩ := moves.covariance 1 rfl
    rw [turned, mul_one, transpose_smul, transpose_one, smul_mul_smul_comm, one_mul]
    norm_num
  · rintro ⟨R, rigid⟩
    have unit := Odometry.isUnit_of_movesRigidly pose rfl rigid
    unfold Quaternion.IsUnit at unit
    norm_num at unit

end

end TrackFusion
