import TrackFusion.Proofs.Kalman.FrameChange
import TrackFusion.Proofs.Linear.Semidefinite
import TrackFusion.Proofs.Track.Covariance

/-!
Detections under a change of the tracking frame.

A sensor whose pose and velocity are moved along sees the moved detections: a detection is valid
in both frames or in neither, and if it is, then moving it from the sensor into the new tracking
frame is the same as moving it into the old one and from there into the new one.
-/

set_option autoImplicit false
set_option relaxedAutoImplicit false

namespace TrackFusion

open Matrix

noncomputable section

variable {π : Type} (T : FrameChange)

namespace Odometry

def moveBy (o : Odometry Exact) : Odometry Exact :=
  { o with
    pose := T.pose.compose o.pose
    twist := { o.twist with linear := T.pose.rotation.rotate o.twist.linear } }

/-- The sensor is turned about the vertical axis only. -/
def IsLevel (o : Odometry Exact) : Prop :=
  ∃ q : Quaternion ℝ, q.IsYaw ∧ o.pose.rotation = q.ofReal

variable {o : Odometry Exact} {q : Quaternion ℝ} {offset : Fin 3 → ℝ}

theorem toMatrix_rotation (pose : o.pose = .ofReal q offset) :
    o.pose.rotation.toMatrix = Mat.ofReal q.turn := by
  rw [pose]
  exact Quaternion.toMatrix_ofReal q

theorem pose_moveBy (pose : o.pose = .ofReal q offset) :
    (o.moveBy T).pose = .ofReal (T.rotation.mul q) (T.move offset) := by
  change T.pose.compose o.pose = _
  rw [pose]
  exact Pose.compose_ofReal T.yaw.unit T.offset offset

end Odometry

namespace Detection

def moveBy (d : Detection Exact π) : Detection Exact π :=
  { d with
    centroid := T.pose.apply d.centroid
    covariance := d.covariance.map fun c =>
      T.pose.rotation.toMatrix * c * T.pose.rotation.toMatrix.transpose
    twist := d.twist.map fun twist =>
      { twist with linear := T.pose.rotation.rotate twist.linear }
    shape := d.shape.transform T.pose }

section Parts

variable {d : Detection Exact π}

theorem centroid_moveBy {c : Fin 3 → ℝ} (centroid : d.centroid = .ofReal c) :
    (d.moveBy T).centroid = .ofReal (T.move c) := by
  rw [← T.pose_apply, ← centroid]
  rfl

theorem covariance_moveBy_of_none (absent : d.covariance = none) :
    (d.moveBy T).covariance = none := by
  unfold moveBy
  rw [absent, Option.map_none]

theorem covariance_moveBy_of_some {m : Matrix (Fin 3) (Fin 3) ℝ}
    (measured : d.covariance = some (Mat.ofReal m)) : (d.moveBy T).covariance =
      some (Mat.ofReal (T.rotation.turn * m * T.rotation.turnᵀ)) := by
  unfold moveBy
  rw [measured, Option.map_some, T.toMatrix_pose, Mat.transpose_ofReal, Mat.ofReal_mul,
    Mat.ofReal_mul]

theorem twist_moveBy_of_none (unseen : d.twist = none) : (d.moveBy T).twist = none := by
  unfold moveBy
  rw [unseen, Option.map_none]

theorem twist_moveBy_of_some {twist : Twist Exact} {v : Fin 3 → ℝ} (seen : d.twist = some twist)
    (linear : twist.linear = .ofReal v) :
    (d.moveBy T).twist = some { twist with linear := .ofReal (T.rotation.turn *ᵥ v) } := by
  unfold moveBy
  rw [seen, Option.map_some, linear, T.rotate_ofReal]

theorem shape_moveBy {outline : List (Fin 3 → ℝ)} {height : ℝ}
    (shape : d.shape = .ofReal outline height) :
    (d.moveBy T).shape = .ofReal (outline.map T.move) height := by
  rw [← Shape.transform_ofReal, ← shape]
  rfl

end Parts

section RealPose

variable {d : Detection Exact π} {odometry : Odometry Exact} {q : Quaternion ℝ}
  {offset : Fin 3 → ℝ} (pose : odometry.pose = .ofReal q offset)

include pose

theorem centroid_transform (unit : q.IsUnit) {c : Fin 3 → ℝ} (centroid : d.centroid = .ofReal c) :
    (d.transform odometry).centroid = .ofReal (q.turn *ᵥ c + offset) := by
  change odometry.pose.apply d.centroid = _
  rw [centroid, pose, Pose.apply_ofReal unit]

theorem covariance_transform {m : Matrix (Fin 3) (Fin 3) ℝ}
    (measured : d.covariance = some (Mat.ofReal m)) :
    (d.transform odometry).covariance = some (Mat.ofReal (q.turn * m * q.turnᵀ)) := by
  unfold transform
  dsimp only
  rw [measured, Option.map_some, Odometry.toMatrix_rotation pose, Mat.transpose_ofReal,
    Mat.ofReal_mul, Mat.ofReal_mul]

theorem twist_transform {twist : Twist Exact} {u v : Fin 3 → ℝ} (seen : d.twist = some twist)
    (linear : twist.linear = .ofReal v) (frame : odometry.twist.linear = .ofReal u) :
    (d.transform odometry).twist = some { twist with linear := .ofReal (u + q.turn *ᵥ v) } := by
  unfold transform
  dsimp only
  rw [seen, Option.map_some, Odometry.toMatrix_rotation pose, linear, frame, Mat.apply_ofReal,
    Vec3.ofReal_add]

theorem shape_transform (unit : q.IsUnit) {outline : List (Fin 3 → ℝ)} {height : ℝ}
    (shape : d.shape = .ofReal outline height) :
    (d.transform odometry).shape = .ofReal (outline.map (q.turn *ᵥ · + offset)) height := by
  change d.shape.transform odometry.pose = _
  rw [shape, pose]
  exact Shape.transform_ofReal_of_apply (Pose.apply_ofReal unit offset) outline height

end RealPose

structure Movable (odometry : Odometry Exact) (d : Detection Exact π) : Prop where
  centroid : ∃ c, d.centroid = .ofReal c
  offset : ∃ offset, odometry.pose.offset = .ofReal offset
  twist : ∀ twist, d.twist = some twist →
    (∃ v, twist.linear = .ofReal v) ∧ ∃ u, odometry.twist.linear = .ofReal u
  shape : d.shape.IsReal

variable {odometry : Odometry Exact} {d : Detection Exact π}

theorem movable_of_isValid (valid : (d.transform odometry).isValid = true) :
    d.Movable odometry := by
  simp only [isValid, Bool.and_eq_true, Option.all_eq_true] at valid
  obtain ⟨⟨⟨shape, centroid⟩, -⟩, twist⟩ := valid
  obtain ⟨c, moved⟩ := Vec3.isFinite_iff.mp centroid
  obtain ⟨offset, original⟩ := Pose.exists_ofReal_of_apply moved
  refine ⟨original, offset, fun tw seen => ?_, ?_⟩
  · have turned : (d.transform odometry).twist = some { tw with
        linear := odometry.twist.linear + odometry.pose.rotation.toMatrix.apply tw.linear } := by
      unfold transform
      rw [seen]
      rfl
    obtain ⟨s, sum⟩ := Vec3.isFinite_iff.mp (twist _ turned).1
    obtain ⟨frame, ⟨v, applied⟩⟩ := Vec3.exists_ofReal_of_add sum
    exact ⟨Mat.exists_ofReal_of_apply applied, frame⟩
  · simp only [Shape.isValid, Bool.and_eq_true, List.all_eq_true] at shape
    refine Shape.isReal_of_isFinite (fun v member => ?_) shape.1.1.2
    have listed : odometry.pose.apply v ∈ (d.transform odometry).shape.polygon :=
      List.mem_map_of_mem member
    obtain ⟨w, moved⟩ := Vec3.isFinite_iff.mp (shape.1.1.1.2 _ listed)
    exact Vec3.isFinite_iff.mpr (Pose.exists_ofReal_of_apply moved).2

theorem Movable.of_moveBy (movable : d.Movable (odometry.moveBy T)) : d.Movable odometry := by
  obtain ⟨offset, moved⟩ := movable.offset
  refine ⟨movable.centroid, (Pose.exists_ofReal_of_apply moved).2, fun tw seen => ?_, movable.shape⟩
  obtain ⟨linear, u, turned⟩ := movable.twist tw seen
  exact ⟨linear, Quaternion.exists_ofReal_of_rotate turned⟩

theorem eq_of_parts {a b : Detection Exact π} (existence : a.existence = b.existence)
    (hypotheses : a.hypotheses = b.hypotheses) (centroid : a.centroid = b.centroid)
    (covariance : a.covariance = b.covariance) (twist : a.twist = b.twist)
    (shape : a.shape = b.shape) : a = b := by
  cases a
  cases b
  simp_all only

theorem Movable.exists_pose (movable : d.Movable odometry) (level : odometry.IsLevel) :
    ∃ (q : Quaternion ℝ) (offset : Fin 3 → ℝ), q.IsYaw ∧ odometry.pose = .ofReal q offset := by
  obtain ⟨q, yaw, rotation⟩ := level
  obtain ⟨offset, translation⟩ := movable.offset
  exact ⟨q, offset, yaw, Pose.eq_ofReal rotation translation⟩

/-- A sensor that is moved sees the moved detection. -/
theorem Movable.transform_moveBy (movable : d.Movable odometry) (level : odometry.IsLevel)
    (semidefinite : d.Semidefinite) :
    d.transform (odometry.moveBy T) = (d.transform odometry).moveBy T := by
  obtain ⟨q, offset, yaw, pose⟩ := movable.exists_pose level
  have pose' := odometry.pose_moveBy T pose
  have unit' := T.yaw.unit.mul yaw.unit
  refine eq_of_parts rfl rfl ?_ ?_ ?_ ?_
  · obtain ⟨c, centroid⟩ := movable.centroid
    rw [centroid_transform pose' unit' centroid,
      centroid_moveBy T (centroid_transform pose yaw.unit centroid), T.move_turn_add]
  · cases measured : d.covariance with
    | none =>
      have absent : (d.transform odometry).covariance = none :=
        congrArg (Option.map _) measured
      rw [covariance_moveBy_of_none T absent]
      exact congrArg (Option.map _) measured
    | some c =>
      obtain ⟨m, -, rfl⟩ := semidefinite c measured
      rw [covariance_transform pose' measured,
        covariance_moveBy_of_some T (covariance_transform pose measured), Quaternion.turn_mul,
        transpose_mul]
      simp only [Matrix.mul_assoc]
  · cases seen : d.twist with
    | none =>
      have unseen : (d.transform odometry).twist = none := congrArg (Option.map _) seen
      rw [twist_moveBy_of_none T unseen]
      exact congrArg (Option.map _) seen
    | some tw =>
      obtain ⟨⟨v, linear⟩, u, frame⟩ := movable.twist tw seen
      have frame' : (odometry.moveBy T).twist.linear = .ofReal (T.rotation.turn *ᵥ u) := by
        rw [← T.rotate_ofReal, ← frame]
        rfl
      rw [twist_transform pose' seen linear frame',
        twist_moveBy_of_some T (twist_transform pose seen linear frame) rfl, mulVec_add,
        mulVec_mulVec, Quaternion.turn_mul]
  · obtain ⟨outline, height, shape⟩ := movable.shape
    rw [shape_transform pose' unit' shape, shape_moveBy T (shape_transform pose yaw.unit shape),
      List.map_map]
    congr 2
    funext v
    exact (T.move_turn_add q offset v).symm

theorem Movable.isReal (movable : d.Movable odometry) (level : odometry.IsLevel)
    (semidefinite : d.Semidefinite) : (d.transform odometry).IsReal := by
  obtain ⟨q, offset, yaw, pose⟩ := movable.exists_pose level
  obtain ⟨c, centroid⟩ := movable.centroid
  obtain ⟨outline, height, shape⟩ := movable.shape
  refine ⟨⟨_, centroid_transform pose yaw.unit centroid⟩, ?_, fun tw seen => ?_,
    ⟨_, _, shape_transform pose yaw.unit shape⟩⟩
  · refine semidefinite_transform semidefinite fun c turned => ?_
    obtain ⟨c, measured, -⟩ := Option.map_eq_some_iff.mp turned
    obtain ⟨m, -, rfl⟩ := semidefinite c measured
    obtain rfl := Option.some.inj (turned.symm.trans (covariance_transform pose measured))
    exact Mat.isFinite_iff.mpr ⟨_, rfl⟩
  · obtain ⟨tw, original, -⟩ := Option.map_eq_some_iff.mp seen
    obtain ⟨⟨v, linear⟩, u, frame⟩ := movable.twist tw original
    obtain rfl := Option.some.inj (seen.symm.trans (twist_transform pose original linear frame))
    exact ⟨_, rfl⟩

theorem IsReal.isValid_moveBy (real : d.IsReal) : (d.moveBy T).isValid = d.isValid := by
  have shape : (d.moveBy T).shape.isValid = d.shape.isValid :=
    Shape.isValid_transform real.shape T
  have centroid : (d.moveBy T).centroid.isFinite = d.centroid.isFinite := by
    obtain ⟨c, same⟩ := real.centroid
    rw [centroid_moveBy T same, same]
    rfl
  have covariance : (d.moveBy T).covariance.all Mat.isCovariance =
      d.covariance.all Mat.isCovariance := by
    cases measured : d.covariance with
    | none => rw [covariance_moveBy_of_none T measured]
    | some c =>
      obtain ⟨m, positive, rfl⟩ := real.semidefinite c measured
      have moved := posSemidef_mul_mul_transpose positive T.rotation.turn
      rw [covariance_moveBy_of_some T measured, Option.all_some, Option.all_some,
        Mat.isCovariance_of_posSemidef moved, Mat.isCovariance_of_posSemidef positive]
  have twist : ((d.moveBy T).twist.all fun tw => tw.linear.isFinite && tw.angular.isFinite) =
      d.twist.all fun tw => tw.linear.isFinite && tw.angular.isFinite := by
    cases seen : d.twist with
    | none => rw [twist_moveBy_of_none T seen]
    | some tw =>
      obtain ⟨v, linear⟩ := real.twist tw seen
      rw [twist_moveBy_of_some T seen linear, Option.all_some, Option.all_some, linear]
      rfl
  unfold isValid
  rw [shape, centroid, covariance, twist]

theorem isValid_transform_moveBy (level : odometry.IsLevel) (semidefinite : d.Semidefinite) :
    (d.transform (odometry.moveBy T)).isValid = (d.transform odometry).isValid ∧
      ((d.transform odometry).isValid = true →
        d.transform (odometry.moveBy T) = (d.transform odometry).moveBy T) := by
  by_cases movable : d.Movable odometry
  · have moved := movable.transform_moveBy T level semidefinite
    rw [moved, (movable.isReal level semidefinite).isValid_moveBy T]
    exact ⟨rfl, fun _ => rfl⟩
  · have before : (d.transform odometry).isValid = false :=
      Bool.eq_false_iff.mpr fun valid => movable (movable_of_isValid valid)
    have after : (d.transform (odometry.moveBy T)).isValid = false :=
      Bool.eq_false_iff.mpr fun valid => movable ((movable_of_isValid valid).of_moveBy T)
    rw [before, after]
    exact ⟨rfl, nofun⟩

end Detection

end

end TrackFusion
