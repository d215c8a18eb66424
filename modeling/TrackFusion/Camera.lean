import TrackFusion.Classification
import TrackFusion.Duration
import TrackFusion.Detection
import TrackFusion.Geometry.Box

/-!
Camera images: classified regions and the projection of shapes.

Points are seen in the optical frame, with `z` forward, `x` to the right and `y` down. A shape
appears as the least box around the pixels of its corners, as far as these lie in front of the
camera, clipped to the image.
-/

set_option autoImplicit false
set_option relaxedAutoImplicit false

namespace TrackFusion

/-- A pinhole camera: image size, focal lengths and principal point, all in pixels. -/
structure Intrinsics (ρ : Type) where
  width : ρ
  height : ρ
  fx : ρ
  fy : ρ
  ox : ρ
  oy : ρ
  deriving DecidableEq

structure Region (ρ π : Type) where
  hypotheses : List (Hypothesis π)
  polygon : List (Vec2 ρ)
  deriving DecidableEq

structure RegionBatch (ρ π : Type) where
  header : Header
  regions : List (Region ρ π)
  deriving DecidableEq

variable {ρ π : Type}

def Region.box? [ExtendedScalar ρ] (r : Region ρ π) : Option (Box ρ) :=
  if r.polygon.length < 3 then none else Box.ofPoints? r.polygon

namespace Intrinsics

section Pixels

variable [Scalar ρ]

def standard : Intrinsics ρ :=
  ⟨1920.0, 1080.0, 1000.0, 1000.0, 960.0, 540.0⟩

def project? (camera : Intrinsics ρ) (p : Vec3 ρ) : Option (Vec2 ρ) :=
  if p.z ≤ Scalar.epsilon || !p.isFinite then none
  else some ⟨camera.fx * p.x / p.z + camera.ox, camera.fy * p.y / p.z + camera.oy⟩

end Pixels

/-- The box in which a shape appears, if any part of it is visible. `view` carries the frame of the
shape into the optical frame. -/
def projectShape? [ExtendedScalar ρ] (camera : Intrinsics ρ) (view : Pose ρ) (s : Shape ρ) :
    Option (Box ρ) := do
  let around ← Box.ofPoints? (s.vertices.filterMap fun v => camera.project? (view.apply v))
  around.clip? camera.width camera.height

end Intrinsics

end TrackFusion
