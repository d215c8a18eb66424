import TrackFusion.Proofs.Detection.FrameChange
import TrackFusion.Proofs.Scene

/-!
Detections that pass through several frames.

Rigid odometries act on finite detections: passing through two frames is the same as passing through
one whose pose is the product of the two poses, and the way back restores every detection. Points are
turned by quaternions, covariances and velocities by matrices; the laws hold because the matrix of a
product is the product of the matrices.
-/

set_option autoImplicit false
set_option relaxedAutoImplicit false

namespace TrackFusion

open Matrix

variable {π : Type}

section Laws

variable {p q : Quaternion ℝ}

theorem Quaternion.turn_mulVec_turn_add (p q : Quaternion ℝ) (s t v : Fin 3 → ℝ) :
    q.turn *ᵥ (p.turn *ᵥ v + s) + t = (q.mul p).turn *ᵥ v + (q.turn *ᵥ s + t) := by
  rw [mulVec_add, mulVec_mulVec, ← turn_mul, add_assoc]

theorem Quaternion.IsUnit.conjugate_mul (unit : q.IsUnit) :
    q.conjugate.mul q = ⟨0, 0, 0, 1⟩ := by
  unfold IsUnit at unit
  simp only [Quaternion.mul, Quaternion.conjugate, mk.injEq]
  refine ⟨by ring, by ring, by ring, by linear_combination unit⟩

end Laws

namespace Odometry

section Group

variable {α : Type} [Scalar α]

/-- The odometry that places the child frame of `a` in the parent frame of `b`, where `b` places the
parent frame of `a`. -/
def after (b a : Odometry α) : Odometry α where
  header := b.header
  childFrame := a.childFrame
  pose := b.pose.compose a.pose
  twist :=
    { b.twist with
      linear := b.twist.linear + b.pose.rotation.toMatrix.apply a.twist.linear }

def reversed (a : Odometry α) : Odometry α where
  header := { a.header with frame := a.childFrame }
  childFrame := a.header.frame
  pose := a.pose.inverse
  twist := { a.twist with linear := -a.pose.rotation.conjugate.toMatrix.apply a.twist.linear }

end Group

structure IsRigid (o : Odometry Exact) : Prop where
  pose : ∃ (q : Quaternion ℝ) (offset : Fin 3 → ℝ), q.IsUnit ∧ o.pose = .ofReal q offset
  velocity : ∃ u, o.twist.linear = .ofReal u

variable {a b : Odometry Exact} {p q : Quaternion ℝ} {s t u w : Fin 3 → ℝ}

theorem pose_after (unit : q.IsUnit) (first : a.pose = .ofReal p s)
    (second : b.pose = .ofReal q t) : (b.after a).pose = .ofReal (q.mul p) (q.turn *ᵥ s + t) := by
  change b.pose.compose a.pose = _
  rw [first, second, Pose.compose_ofReal unit]

theorem velocity_after (second : b.pose = .ofReal q t) (before : a.twist.linear = .ofReal u)
    (frame : b.twist.linear = .ofReal w) :
    (b.after a).twist.linear = .ofReal (w + q.turn *ᵥ u) := by
  change b.twist.linear + b.pose.rotation.toMatrix.apply a.twist.linear = _
  rw [toMatrix_rotation second, before, frame, Mat.apply_ofReal, Vec3.ofReal_add]

theorem pose_reversed (unit : q.IsUnit) (pose : a.pose = .ofReal q t) :
    a.reversed.pose = .ofReal q.conjugate (q.turnᵀ *ᵥ -t) := by
  change a.pose.inverse = _
  rw [pose, Pose.inverse_ofReal unit]

theorem velocity_reversed (pose : a.pose = .ofReal q t) (velocity : a.twist.linear = .ofReal u) :
    a.reversed.twist.linear = .ofReal (-(q.turnᵀ *ᵥ u)) := by
  change -a.pose.rotation.conjugate.toMatrix.apply a.twist.linear = _
  have turned : a.pose.rotation.conjugate = q.conjugate.ofReal := by
    rw [pose]
    exact q.conjugate_ofReal
  rw [turned, velocity, Quaternion.toMatrix_ofReal, Mat.apply_ofReal, Quaternion.turn_conjugate,
    Vec3.neg_ofReal]

theorem IsRigid.reversed (rigid : a.IsRigid) : a.reversed.IsRigid := by
  obtain ⟨⟨q, t, unit, pose⟩, u, velocity⟩ := rigid
  exact ⟨⟨_, _, unit.conjugate, pose_reversed unit pose⟩, _, velocity_reversed pose velocity⟩

theorem IsRigid.reversed_after (rigid : a.IsRigid) :
    (a.reversed.after a).pose = .ofReal ⟨0, 0, 0, 1⟩ 0 ∧
      (a.reversed.after a).twist.linear = .ofReal 0 := by
  obtain ⟨⟨q, t, unit, pose⟩, u, velocity⟩ := rigid
  have back := pose_reversed unit pose
  constructor
  · rw [pose_after unit.conjugate pose back, unit.conjugate_mul, Quaternion.turn_conjugate,
      ← mulVec_add, add_neg_cancel, mulVec_zero]
  · rw [velocity_after back velocity (velocity_reversed pose velocity), Quaternion.turn_conjugate,
      neg_add_cancel]

end Odometry

namespace Detection

structure IsFinite (d : Detection Exact π) : Prop where
  centroid : ∃ c, d.centroid = .ofReal c
  covariance : ∀ c, d.covariance = some c → ∃ m, c = Mat.ofReal m
  twist : ∀ twist, d.twist = some twist → ∃ v, twist.linear = .ofReal v
  shape : d.shape.IsReal

/-- How the passage through an odometry leaves a detection `d` as `e`: the outline turns around the
centroid, and all that has no place or direction stays as it is. -/
structure PassesThrough (o : Odometry Exact) (d e : Detection Exact π) : Prop where
  existence : e.existence = d.existence
  hypotheses : e.hypotheses = d.hypotheses
  height : e.shape.height = d.shape.height
  covariance : e.covariance.isSome = d.covariance.isSome
  angular : e.twist.map Twist.angular = d.twist.map Twist.angular
  outline : e.relativeShape.polygon =
    d.relativeShape.polygon.map o.pose.rotation.toMatrix.apply

variable {d : Detection Exact π} {a b o : Odometry Exact}

theorem covariance_transform_of_none (absent : d.covariance = none) :
    (d.transform o).covariance = none := by
  simp only [transform, absent, Option.map_none]

theorem twist_transform_of_none (absent : d.twist = none) : (d.transform o).twist = none := by
  simp only [transform, absent, Option.map_none]

theorem IsFinite.transform_of_still (finite : d.IsFinite) (pose : o.pose = .ofReal ⟨0, 0, 0, 1⟩ 0)
    (velocity : o.twist.linear = .ofReal 0) : d.transform o = d := by
  have unit := Quaternion.isUnit_identity
  refine eq_of_parts rfl rfl ?_ ?_ ?_ ?_
  · obtain ⟨c, centroid⟩ := finite.centroid
    rw [centroid_transform pose unit centroid, Quaternion.turn_identity, one_mulVec, add_zero,
      centroid]
  · cases measured : d.covariance with
    | none => exact covariance_transform_of_none measured
    | some c =>
      obtain ⟨m, rfl⟩ := finite.covariance c measured
      rw [covariance_transform pose measured, Quaternion.turn_identity, transpose_one,
        Matrix.one_mul, Matrix.mul_one]
  · cases seen : d.twist with
    | none => exact twist_transform_of_none seen
    | some twist =>
      obtain ⟨v, linear⟩ := finite.twist twist seen
      rw [twist_transform pose seen linear velocity, Quaternion.turn_identity, one_mulVec, zero_add,
        ← linear]
  · obtain ⟨outline, height, shape⟩ := finite.shape
    rw [shape_transform pose unit shape, Quaternion.turn_identity, shape]
    simp only [one_mulVec, add_zero, List.map_id']

theorem IsFinite.transform_transform (finite : d.IsFinite) (first : a.IsRigid)
    (second : b.IsRigid) : (d.transform a).transform b = d.transform (b.after a) := by
  obtain ⟨⟨p, s, unitP, poseA⟩, u, velocityA⟩ := first
  obtain ⟨⟨q, t, unitQ, poseB⟩, w, velocityB⟩ := second
  have unit := unitQ.mul unitP
  have pose := Odometry.pose_after unitQ poseA poseB
  have velocity := Odometry.velocity_after poseB velocityA velocityB
  refine eq_of_parts rfl rfl ?_ ?_ ?_ ?_
  · obtain ⟨c, centroid⟩ := finite.centroid
    rw [centroid_transform poseB unitQ (centroid_transform poseA unitP centroid),
      centroid_transform pose unit centroid, Quaternion.turn_mulVec_turn_add]
  · cases measured : d.covariance with
    | none =>
      rw [covariance_transform_of_none (covariance_transform_of_none measured),
        covariance_transform_of_none measured]
    | some c =>
      obtain ⟨m, rfl⟩ := finite.covariance c measured
      rw [covariance_transform poseB (covariance_transform poseA measured),
        covariance_transform pose measured, Quaternion.turn_mul, transpose_mul]
      simp only [Matrix.mul_assoc]
  · cases seen : d.twist with
    | none =>
      rw [twist_transform_of_none (twist_transform_of_none seen), twist_transform_of_none seen]
    | some twist =>
      obtain ⟨v, linear⟩ := finite.twist twist seen
      rw [twist_transform poseB (twist_transform poseA seen linear velocityA) rfl velocityB,
        twist_transform pose seen linear velocity, Quaternion.turn_mul, mulVec_add, mulVec_mulVec,
        add_assoc]
  · obtain ⟨outline, height, shape⟩ := finite.shape
    rw [shape_transform poseB unitQ (shape_transform poseA unitP shape),
      shape_transform pose unit shape, List.map_map]
    congr 2
    funext v
    exact Quaternion.turn_mulVec_turn_add p q s t v

theorem IsFinite.transform_reversed (finite : d.IsFinite) (rigid : a.IsRigid) :
    (d.transform a).transform a.reversed = d := by
  obtain ⟨pose, velocity⟩ := rigid.reversed_after
  rw [finite.transform_transform rigid rigid.reversed, finite.transform_of_still pose velocity]

/-- Around its centroid the outline is only turned, wherever the frame stands. -/
theorem IsFinite.passesThrough (finite : d.IsFinite) (rigid : o.IsRigid) :
    PassesThrough o d (d.transform o) where
  existence := rfl
  hypotheses := rfl
  height := rfl
  covariance := Option.isSome_map
  angular := by
    cases seen : d.twist <;> simp only [transform, seen, Option.map_none, Option.map_some]
  outline := by
    obtain ⟨⟨q, t, unit, pose⟩, -⟩ := rigid
    obtain ⟨c, centroid⟩ := finite.centroid
    obtain ⟨outline, height, shape⟩ := finite.shape
    unfold relativeShape
    rw [centroid_transform pose unit centroid, shape_transform pose unit shape, centroid, shape,
      Vec3.neg_ofReal, Vec3.neg_ofReal, Shape.translate_ofReal, Shape.translate_ofReal,
      Odometry.toMatrix_rotation pose]
    simp only [Shape.ofReal, List.map_map]
    congr 1
    funext v
    simp only [Function.comp_apply, Mat.apply_ofReal, mulVec_add, mulVec_neg]
    congr 1
    abel

end Detection

theorem Scene.isFinite_car (x : ℝ) : (Scene.car x).IsFinite := by
  have valid := Scene.isValid_car x
  simp only [Detection.isValid, Bool.and_eq_true] at valid
  refine ⟨⟨![x, 0, 0], rfl⟩, fun c measured => ?_, fun twist seen => ?_,
    Shape.isReal_of_isValid valid.1.1.1⟩
  · cases measured
  · cases seen

namespace DetectionBatch

/-- Rigid odometries act on finite batches: two in a row are their composition, the one that leads
back restores the batch, and each turns the detections, in their order, around their centroids. -/
theorem transform_acts {batch : DetectionBatch Exact π} {a b : Odometry Exact}
    (finite : ∀ d ∈ batch.objects, d.IsFinite) (first : a.IsRigid) (second : b.IsRigid)
    (between frame : String) :
    (batch.transform a between).transform b frame = batch.transform (b.after a) frame ∧
      (batch.transform a between).transform a.reversed batch.header.frame = batch ∧
      List.Forall₂ (Detection.PassesThrough a) batch.objects
        (batch.transform a between).objects := by
  refine ⟨?_, ?_, ?_⟩
  · refine congrArg (DetectionBatch.mk _) ((List.map_map ..).trans ?_)
    exact List.map_congr_left fun d member => (finite d member).transform_transform first second
  · refine congrArg (DetectionBatch.mk _) ((List.map_map ..).trans ?_)
    refine (List.map_congr_left fun d member => ?_).trans (List.map_id _)
    exact (finite d member).transform_reversed first
  · refine List.forall₂_map_right_iff.mpr (List.forall₂_same.mpr fun d member => ?_)
    exact (finite d member).passesThrough first

/-- A car is seen from a frame that rolls, drives and stands in one that pitches. -/
theorem transform_acts_rolled_pitched :
    let rolled : Odometry Exact :=
      { Scene.odometry with
        pose := .ofReal ⟨3 / 5, 0, 0, 4 / 5⟩ ![1, 2, 3]
        twist := ⟨.ofReal ![5, 0, 0], 0⟩ }
    let pitched : Odometry Exact :=
      { Scene.odometry with pose := .ofReal ⟨0, 3 / 5, 0, 4 / 5⟩ ![0, 0, 1] }
    let d : Detection Exact Exact :=
      { Scene.car 10 with
        covariance := some (Mat.ofReal 1)
        twist := some ⟨.ofReal ![3, 0, 0], 0⟩ }
    let batch := Scene.batch Scene.second [d]
    (∀ d ∈ batch.objects, d.IsFinite) ∧ rolled.IsRigid ∧ pitched.IsRigid ∧
      (batch.transform rolled "base").transform pitched "map" =
        batch.transform (pitched.after rolled) "map" ∧
      (batch.transform rolled "base").transform rolled.reversed batch.header.frame = batch ∧
      List.Forall₂ (Detection.PassesThrough rolled) batch.objects
        (batch.transform rolled "base").objects := by
  intro rolled pitched d batch
  have finite : ∀ d ∈ batch.objects, d.IsFinite := by
    intro e member
    obtain rfl := List.mem_singleton.mp member
    refine ⟨⟨![10, 0, 0], rfl⟩, ?_, ?_, (Scene.isFinite_car 10).shape⟩
    · rintro c ⟨⟩
      exact ⟨1, rfl⟩
    · rintro twist ⟨⟩
      exact ⟨![3, 0, 0], rfl⟩
  have first : rolled.IsRigid := by
    refine ⟨⟨_, _, ?_, rfl⟩, _, rfl⟩
    norm_num [Quaternion.IsUnit]
  have second : pitched.IsRigid := by
    refine ⟨⟨_, _, ?_, rfl⟩, 0, rfl⟩
    norm_num [Quaternion.IsUnit]
  exact ⟨finite, first, second, transform_acts finite first second "base" "map"⟩

end DetectionBatch

end TrackFusion
