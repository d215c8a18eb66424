import TrackFusion.Duration
import TrackFusion.Geometry.Vector
import TrackFusion.Linear.Cholesky

/-!
The Kalman filter of an object on the ground plane.

The state is `(x, y, vx, vy)`: a position and a velocity. Between measurements an object keeps its
velocity up to white noise acceleration; a measurement observes either the position or the velocity.
A correction fails exactly when its innovation covariance has no triangular factor.
-/

set_option autoImplicit false
set_option relaxedAutoImplicit false

namespace TrackFusion

/-- A normal distribution over `(x, y, vx, vy)`. -/
structure KinematicState (α : Type) where
  mean : Mat 4 1 α
  covariance : Mat 4 4 α
  deriving DecidableEq

structure PlanarState (α : Type) where
  mean : Mat 2 1 α
  covariance : Mat 2 2 α
  deriving DecidableEq

/-- The constant velocity model: the variance of the acceleration, in (m/s²)². -/
structure MotionModel (α : Type) where
  processNoise : α
  deriving DecidableEq

inductive MeasurementError where
  | innovationNotPositiveDefinite
  | projectionNotPositiveDefinite
  deriving DecidableEq, Repr

def MeasurementError.message : MeasurementError → String
  | .innovationNotPositiveDefinite => "innovation covariance is not positive definite"
  | .projectionNotPositiveDefinite => "projected covariance is not positive definite"

/-- The 0.95 quantiles of the chi-square distribution with 1 to 9 degrees of freedom. -/
def chiSquareQuantiles {α : Type} [Scalar α] : List (Nat × α) :=
  [(1, 3.8415), (2, 5.9915), (3, 7.8147), (4, 9.4877), (5, 11.070), (6, 12.592), (7, 14.067),
    (8, 15.507), (9, 16.919)]

def planarQuantile {α : Type} [Scalar α] : α := 5.9915

variable {α : Type} [Scalar α]

def Vec2.column (v : Vec2 α) : Mat 2 1 α :=
  ⟨#v[#v[v.x], #v[v.y]]⟩

namespace KinematicState

def initiate (position : Vec2 α) (positionCovariance : Mat 2 2 α) (velocity : Vec2 α)
    (velocityCovariance : Mat 2 2 α) : KinematicState α where
  mean := ⟨#v[#v[position.x], #v[position.y], #v[velocity.x], #v[velocity.y]]⟩
  -- position and velocity were measured independently, so nothing couples them
  covariance :=
    let p := positionCovariance.entry
    let v := velocityCovariance.entry
    ⟨#v[#v[p Plane.x Plane.x, p Plane.x Plane.y, 0, 0],
        #v[p Plane.y Plane.x, p Plane.y Plane.y, 0, 0],
        #v[0, 0, v Plane.x Plane.x, v Plane.x Plane.y],
        #v[0, 0, v Plane.y Plane.x, v Plane.y Plane.y]]⟩

def position (s : KinematicState α) : Vec2 α :=
  ⟨s.mean.entry Motion.x onlyColumn, s.mean.entry Motion.y onlyColumn⟩

def velocity (s : KinematicState α) : Vec2 α :=
  ⟨s.mean.entry Motion.vx onlyColumn, s.mean.entry Motion.vy onlyColumn⟩

def positionCovariance (s : KinematicState α) : Mat 2 2 α :=
  ⟨#v[#v[s.covariance.entry Motion.x Motion.x, s.covariance.entry Motion.x Motion.y],
      #v[s.covariance.entry Motion.y Motion.x, s.covariance.entry Motion.y Motion.y]]⟩

end KinematicState

inductive Observed where
  | position
  | velocity
  deriving DecidableEq, Repr

def Observed.matrix : Observed → Mat 2 4 α
  | .position => ⟨#v[#v[1, 0, 0, 0], #v[0, 1, 0, 0]]⟩
  | .velocity => ⟨#v[#v[0, 0, 1, 0], #v[0, 0, 0, 1]]⟩

namespace MotionModel

def transition (dt : α) : Mat 4 4 α :=
  ⟨#v[#v[1, 0, dt, 0], #v[0, 1, 0, dt], #v[0, 0, 1, 0], #v[0, 0, 0, 1]]⟩

/-- The covariance that a unit variance of the acceleration adds in `dt` seconds. -/
def unitNoise (dt : α) : Mat 4 4 α :=
  let square := dt * dt
  let position := square * square / 4.0
  let mixed := dt * square / 2.0
  ⟨#v[#v[position, 0, mixed, 0], #v[0, position, 0, mixed], #v[mixed, 0, square, 0],
      #v[0, mixed, 0, square]]⟩

def predictSeconds (model : MotionModel α) (s : KinematicState α) (dt : α) : KinematicState α where
  mean := transition dt * s.mean
  covariance :=
    transition dt * s.covariance * (transition dt).transpose +
      (unitNoise dt).scale model.processNoise

def predict (model : MotionModel α) (s : KinematicState α) (dt : Duration) : KinematicState α :=
  model.predictSeconds s dt.seconds

end MotionModel

namespace KinematicState

def project (s : KinematicState α) (observed : Observed) (noise : Mat 2 2 α) : PlanarState α :=
  let h : Mat 2 4 α := observed.matrix
  { mean := h * s.mean
    covariance := h * s.covariance * h.transpose + noise }

/-- The state after a measurement with the given noise. The gain is `P Hᵀ S⁻¹`, read off from the
solution of `S X = H P` since `S` and `P` are symmetric. -/
def correct (s : KinematicState α) (observed : Observed) (measured : Vec2 α) (noise : Mat 2 2 α) :
    Except MeasurementError (KinematicState α) :=
  let h : Mat 2 4 α := observed.matrix
  let projected := s.project observed noise
  match LowerFactor.ofMatrix? projected.covariance with
  | none => .error .innovationNotPositiveDefinite
  | some factor =>
    let gain := (factor.solve (h * s.covariance)).transpose
    .ok
      { mean := s.mean + gain * (measured.column - projected.mean)
        covariance := s.covariance - gain * projected.covariance * gain.transpose }

def gatingForm (s : KinematicState α) (noise : Mat 2 2 α) :
    Except MeasurementError (Vec2 α → α) :=
  let projected := s.project .position noise
  match LowerFactor.ofMatrix? projected.covariance with
  | none => .error .projectionNotPositiveDefinite
  | some factor =>
    -- the factor does not depend on the measured position
    .ok fun measured =>
      let d := measured.column - projected.mean
      (d.transpose * factor.solve d).entry onlyColumn onlyColumn

def gatingDistance (s : KinematicState α) (noise : Mat 2 2 α) (measured : Vec2 α) :
    Except MeasurementError α :=
  (s.gatingForm noise).map fun form => form measured

def gatingDistances (s : KinematicState α) (noise : Mat 2 2 α) (measured : List (Vec2 α)) :
    Except MeasurementError (List α) :=
  (s.gatingForm noise).map fun form => measured.map form

end KinematicState

end TrackFusion
