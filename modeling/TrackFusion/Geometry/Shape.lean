import TrackFusion.Geometry.Pose

/-!
The extent of an object: a footprint polygon extruded upwards.

The area of a footprint is the shoelace sum around its outline, so it ignores heights and does not
depend on where the outline starts or which way it runs.
-/

set_option autoImplicit false
set_option relaxedAutoImplicit false

namespace TrackFusion

/-- A footprint, whose vertices lie at the bottom of the object, and the extent above it. -/
structure Shape (α : Type) where
  polygon : List (Vec3 α)
  height : α
  deriving DecidableEq

namespace Shape

variable {α : Type} [Scalar α]

def ofBox (center : Vec3 α) (length width height : α) : Shape α :=
  let dx := length / 2.0
  let dy := width / 2.0
  { polygon :=
      [⟨center.x - dx, center.y - dy, center.z⟩, ⟨center.x + dx, center.y - dy, center.z⟩,
        ⟨center.x + dx, center.y + dy, center.z⟩, ⟨center.x - dx, center.y + dy, center.z⟩]
    height := height }

def edgeTerm (a b : Vec3 α) : α :=
  a.x * b.y - b.x * a.y

def edges (outline : List (Vec3 α)) : List (Vec3 α × Vec3 α) :=
  outline.zip (outline.tail ++ outline.take 1)

def area (s : Shape α) : α :=
  if s.polygon.length < 3 then 0
  else Scalar.abs (Scalar.sum ((edges s.polygon).map fun (a, b) => edgeTerm a b)) / 2.0

/-- The shape can be interpreted: at least three finite vertices around an area above rounding, and
a finite height that is not negative. -/
def isValid (s : Shape α) : Bool :=
  3 ≤ s.polygon.length && s.polygon.all Vec3.isFinite && Scalar.isFinite s.height &&
    0 ≤ s.height && Scalar.epsilon < s.area

def transform (pose : Pose α) (s : Shape α) : Shape α :=
  { s with polygon := s.polygon.map pose.apply }

def translate (offset : Vec3 α) (s : Shape α) : Shape α :=
  { s with polygon := s.polygon.map (· + offset) }

def vertices (s : Shape α) : List (Vec3 α) :=
  s.polygon ++ s.polygon.map (· + ⟨0, 0, s.height⟩)

end Shape

end TrackFusion
