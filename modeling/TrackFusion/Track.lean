import TrackFusion.Detection
import TrackFusion.Kalman

/-!
A tracked object.

A track is predicted, corrected by the detections associated with it and counted as missed
otherwise. A correction replaces the state only when every part of it succeeds, so that a failed one
leaves the track as it was. The shape is kept relative to the centroid of the detection it comes
from and is shown at the estimated position.
-/

set_option autoImplicit false
set_option relaxedAutoImplicit false

namespace TrackFusion

structure Track (ρ π : Type) where
  id : Nat
  model : MotionModel ρ
  state : KinematicState ρ
  elevation : ρ
  relativeShape : Shape ρ
  belief : ClassBelief π
  existence : π
  noiseVariance : ρ
  timeSinceUpdate : Duration
  ticksSinceUpdate : Nat
  hits : Nat
  deriving DecidableEq

/-- The noise of new tracks: the motion model, the variance of what a detection does not measure,
and the variance of a measurement that carries no covariance. -/
structure TrackNoise (ρ : Type) where
  model : MotionModel ρ
  defaultVariance : ρ
  noiseVariance : ρ
  deriving DecidableEq

structure Snapshot (ρ π : Type) where
  id : Nat
  existence : π
  ranking : List (Hypothesis π)
  position : Vec3 ρ
  positionCovariance : Mat 3 3 ρ
  velocity : Vec3 ρ
  shape : Shape ρ
  timeSinceUpdate : Duration
  ticksSinceUpdate : Nat
  deriving DecidableEq

variable {ρ π : Type} [Scalar ρ]

def isotropic (variance : ρ) : Mat 2 2 ρ :=
  Mat.identity.scale variance

def Detection.positionNoise (d : Detection ρ π) (variance : ρ) : Mat 2 2 ρ :=
  d.planarCovariance.getD (isotropic variance)

namespace Track

def position (t : Track ρ π) : Vec3 ρ :=
  ⟨t.state.position.x, t.state.position.y, t.elevation⟩

def velocity (t : Track ρ π) : Vec3 ρ :=
  ⟨t.state.velocity.x, t.state.velocity.y, 0⟩

def shape (t : Track ρ π) : Shape ρ :=
  t.relativeShape.translate t.position

def shapeArea (t : Track ρ π) : ρ :=
  t.relativeShape.area

def predict (t : Track ρ π) (dt : Duration) : Except DurationOverflow (Track ρ π) := do
  let elapsed ← t.timeSinceUpdate.add dt
  return { t with state := t.model.predict t.state dt, timeSinceUpdate := elapsed }

/-- The state corrected by the position of a detection and then by its velocity, if it has one. -/
def correctedState (t : Track ρ π) (d : Detection ρ π) :
    Except MeasurementError (KinematicState ρ) := do
  let corrected ←
    t.state.correct .position d.centroid.planar (d.positionNoise t.noiseVariance)
  match d.twist with
  | some twist => corrected.correct .velocity twist.linear.planar (isotropic t.noiseVariance)
  | none => return corrected

def mahalanobisDistance (t : Track ρ π) (d : Detection ρ π) : Except MeasurementError ρ :=
  t.state.gatingDistance (d.positionNoise t.noiseVariance) d.centroid.planar

def miss (t : Track ρ π) : Track ρ π :=
  { t with ticksSinceUpdate := t.ticksSinceUpdate + 1 }

def isStale (t : Track ρ π) (time : Duration) (ticks : Nat) : Bool :=
  time < t.timeSinceUpdate || ticks < t.ticksSinceUpdate

/-- Two tracks are the same track when they have the same identity, whatever their estimates. -/
def sameTrack (a b : Track ρ π) : Bool :=
  a.id == b.id

variable [Scalar π]

def ofDetection (id : Nat) (noise : TrackNoise ρ) (d : Detection ρ π) : Track ρ π where
  id := id
  model := noise.model
  state :=
    let velocity : Vec2 ρ × Mat 2 2 ρ :=
      match d.twist with
      | some twist => (twist.linear.planar, isotropic noise.noiseVariance)
      | none => (0, isotropic noise.defaultVariance)
    .initiate d.centroid.planar (d.positionNoise noise.defaultVariance) velocity.1 velocity.2
  elevation := d.centroid.z
  relativeShape := d.relativeShape
  belief := .ofHypotheses d.hypotheses
  existence := d.existence
  noiseVariance := noise.noiseVariance
  timeSinceUpdate := 0
  ticksSinceUpdate := 0
  hits := 1

def update (t : Track ρ π) (d : Detection ρ π) : Except MeasurementError (Track ρ π) := do
  let state ← t.correctedState d
  return { t with
    state := state
    elevation := d.centroid.z
    relativeShape := d.relativeShape
    existence := d.existence
    belief := t.belief.update d.hypotheses
    hits := t.hits + 1
    timeSinceUpdate := 0
    ticksSinceUpdate := 0 }

/-- The track after a cycle: corrected by its detection, or missed if it has none or the correction
fails. -/
def advance (t : Track ρ π) : Option (Detection ρ π) → Track ρ π
  | some d =>
    match t.update d with
    | .ok updated => updated
    | .error _ => t.miss
  | none => t.miss

def observeClasses (t : Track ρ π) (hypotheses : List (Hypothesis π)) : Track ρ π :=
  { t with belief := t.belief.update hypotheses }

def seedClasses (t : Track ρ π) (hypotheses : List (Hypothesis π)) : Track ρ π :=
  { t with belief := .ofHypotheses hypotheses }

/-- What is reported of the track. Of the position covariance only the horizontal block is
estimated. -/
def snapshot (t : Track ρ π) : Snapshot ρ π where
  id := t.id
  existence := t.existence
  ranking := t.belief.ranking
  position := t.position
  positionCovariance :=
    let p := t.state.positionCovariance.entry
    ⟨#v[#v[p Plane.x Plane.x, p Plane.x Plane.y, 0],
        #v[p Plane.y Plane.x, p Plane.y Plane.y, 0], #v[0, 0, 0]]⟩
  velocity := t.velocity
  shape := t.shape
  timeSinceUpdate := t.timeSinceUpdate
  ticksSinceUpdate := t.ticksSinceUpdate

end Track

end TrackFusion
