import TrackFusion.Classification
import TrackFusion.Duration
import TrackFusion.Geometry.Shape
import TrackFusion.Linear.Eigenvalues

/-!
Detections of a range sensor, their validity and their passage into the tracking frame.

A detection can be tracked when its shape can be interpreted, its centroid and velocities are finite
and its covariance is symmetric and positive semidefinite up to rounding. `DetectionBatch.transform`
moves a whole batch by the pose of the sensor; validity is judged afterwards.
-/

set_option autoImplicit false
set_option relaxedAutoImplicit false

namespace TrackFusion

structure Header where
  stamp : Duration
  frame : String
  deriving DecidableEq

structure Twist (ρ : Type) where
  linear : Vec3 ρ
  angular : Vec3 ρ
  deriving DecidableEq

/-- One object seen by a range sensor. Coordinates are `ρ`, probabilities are `π`. -/
structure Detection (ρ π : Type) where
  existence : π
  hypotheses : List (Hypothesis π)
  centroid : Vec3 ρ
  covariance : Option (Mat 3 3 ρ)
  twist : Option (Twist ρ)
  shape : Shape ρ
  deriving DecidableEq

structure DetectionBatch (ρ π : Type) where
  header : Header
  objects : List (Detection ρ π)
  deriving DecidableEq

/-- The pose of a child frame in a parent frame, which the header names, and its velocity in the
parent frame. -/
structure Odometry (ρ : Type) where
  header : Header
  childFrame : String
  pose : Pose ρ
  twist : Twist ρ
  deriving DecidableEq

variable {ρ π : Type} [Scalar ρ]

/-- How far a covariance may be from symmetric and semidefinite, relative to its largest entry. -/
def covarianceTolerance : ρ := 1e-9

def Mat.isCovariance (c : Mat 3 3 ρ) : Bool :=
  let tolerance := covarianceTolerance * Scalar.max c.maxAbs 1
  c.isFinite && !(decide (tolerance < (c - c.transpose).maxAbs)) &&
    c.eigenvalues.all fun v => -tolerance ≤ v

namespace Detection

def isValid (d : Detection ρ π) : Bool :=
  d.shape.isValid && d.centroid.isFinite && d.covariance.all Mat.isCovariance &&
    d.twist.all fun twist => twist.linear.isFinite && twist.angular.isFinite

def planarCovariance (d : Detection ρ π) : Option (Mat 2 2 ρ) :=
  d.covariance.map Mat.planarBlock

def relativeShape (d : Detection ρ π) : Shape ρ :=
  d.shape.translate (-d.centroid)

/-- The detection moved from the child frame of an odometry into its parent frame. Positions move by
the pose, the covariance turns with it, and the velocity turns and gains the velocity of the frame.
-/
def transform (odometry : Odometry ρ) (d : Detection ρ π) : Detection ρ π :=
  let pose := odometry.pose
  let rotation := pose.rotation.toMatrix
  { d with
    centroid := pose.apply d.centroid
    covariance := d.covariance.map fun c => rotation * c * rotation.transpose
    twist := d.twist.map fun twist =>
      { twist with linear := odometry.twist.linear + rotation.apply twist.linear }
    shape := d.shape.transform pose }

end Detection

def DetectionBatch.transform (batch : DetectionBatch ρ π) (odometry : Odometry ρ) (frame : String) :
    DetectionBatch ρ π where
  header := { batch.header with frame := frame }
  objects := batch.objects.map (Detection.transform odometry)

end TrackFusion
