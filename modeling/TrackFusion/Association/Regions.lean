import TrackFusion.Association.Basic
import TrackFusion.Camera
import TrackFusion.Track

/-!
Association of image regions with shapes and tracks.

A shape is projected into the image and paired with the regions whose boxes overlap its own one.
Shapes out of sight and regions without a box are never assigned.
-/

set_option autoImplicit false
set_option relaxedAutoImplicit false

namespace TrackFusion

/-- The camera of region association and the least intersection over union of a match. -/
structure VisionGates (ρ : Type) where
  intrinsics : Intrinsics ρ
  iouThreshold : ρ
  deriving DecidableEq

namespace VisionGates

def standard {ρ : Type} [Scalar ρ] : VisionGates ρ :=
  ⟨.standard, 0.1⟩

variable {ρ π : Type} [ExtendedScalar ρ]

def projections (gates : VisionGates ρ) (view : Pose ρ) (shapes : List (Shape ρ)) :
    List (Option (Box ρ)) :=
  shapes.map (gates.intrinsics.projectShape? view)

/-- The association of regions with shapes of greatest overlap. `view` carries the frame of the
shapes into the optical frame. -/
def associateShapes (gates : VisionGates ρ) (solver : Solver) (regions : List (Region ρ π))
    (shapes : List (Shape ρ)) (view : Pose ρ) : Association :=
  let boxes := regions.map Region.box?
  .ofMatching shapes.length regions.length
    (minCostMatching solver (overlapCost (gates.projections view shapes) boxes)
      (1 - gates.iouThreshold))
    (boxes.any Option.isNone)

def associate (gates : VisionGates ρ) (solver : Solver) (regions : List (Region ρ π))
    (view : Pose ρ) (tracks : List (Track ρ π)) : Association :=
  gates.associateShapes solver regions (tracks.map Track.shape) view

end VisionGates

end TrackFusion
