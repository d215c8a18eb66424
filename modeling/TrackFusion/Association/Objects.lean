import TrackFusion.Association.Basic
import TrackFusion.Track

/-!
Association of range sensor detections with tracks.

A pair costs its squared Mahalanobis distance. It is gated, at infinite cost, when the centroids are
too far apart, the footprint areas differ too much, the distance exceeds the threshold or cannot be
computed. Invalid detections are never assigned.
-/

set_option autoImplicit false
set_option relaxedAutoImplicit false

namespace TrackFusion

/-- The gates of object association: planar distance in metres, ratio of the larger to the smaller
footprint, and squared Mahalanobis distance. -/
structure ObjectGates (ρ : Type) where
  maxDistance : ρ
  maxAreaRatio : ρ
  gatingThreshold : ρ
  deriving DecidableEq

namespace ObjectGates

/-- Four metres, a ratio of ten and the planar 0.95 quantile. -/
def standard {ρ : Type} [Scalar ρ] : ObjectGates ρ :=
  ⟨4.0, 10.0, planarQuantile⟩

variable {ρ π : Type} [ExtendedScalar ρ]

def cost (gates : ObjectGates ρ) (t : Track ρ π) (d : Detection ρ π) : ρ :=
  let trackArea := t.shapeArea
  let detectionArea := d.shape.area
  if gates.maxDistance < (d.centroid - t.position).planar.norm then ExtendedScalar.infinity
  else if gates.maxAreaRatio * Scalar.min trackArea detectionArea <
      Scalar.max trackArea detectionArea then ExtendedScalar.infinity
  else
    match t.mahalanobisDistance d with
    | .ok distance => if distance ≤ gates.gatingThreshold then distance else ExtendedScalar.infinity
    | .error _ => ExtendedScalar.infinity

def costs (gates : ObjectGates ρ) (tracks : List (Track ρ π)) (detections : List (Detection ρ π)) :
    Mat tracks.length detections.length ρ :=
  Mat.ofFn fun i j =>
    if (detections.get j).isValid then gates.cost (tracks.get i) (detections.get j)
    else ExtendedScalar.infinity

def associate (gates : ObjectGates ρ) (solver : Solver) (detections : List (Detection ρ π))
    (tracks : List (Track ρ π)) : Association :=
  .ofMatching tracks.length detections.length
    (minCostMatching solver (gates.costs tracks detections) gates.gatingThreshold)
    (detections.any fun d => !d.isValid)

end ObjectGates

end TrackFusion
