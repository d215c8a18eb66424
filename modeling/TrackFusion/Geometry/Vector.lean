import TrackFusion.Scalar

/-!
Points and vectors of the image plane and of space.
-/

set_option autoImplicit false
set_option relaxedAutoImplicit false

namespace TrackFusion

structure Vec2 (α : Type) where
  x : α
  y : α
  deriving DecidableEq

structure Vec3 (α : Type) where
  x : α
  y : α
  z : α
  deriving DecidableEq

variable {α : Type} [Scalar α]

namespace Vec2

instance : Zero (Vec2 α) := ⟨⟨0, 0⟩⟩

instance : Add (Vec2 α) := ⟨fun a b => ⟨a.x + b.x, a.y + b.y⟩⟩

instance : Sub (Vec2 α) := ⟨fun a b => ⟨a.x - b.x, a.y - b.y⟩⟩

def norm (v : Vec2 α) : α :=
  Scalar.sqrt (v.x * v.x + v.y * v.y)

def isFinite (v : Vec2 α) : Bool :=
  Scalar.isFinite v.x && Scalar.isFinite v.y

end Vec2

namespace Vec3

instance : Zero (Vec3 α) := ⟨⟨0, 0, 0⟩⟩

instance : Add (Vec3 α) := ⟨fun a b => ⟨a.x + b.x, a.y + b.y, a.z + b.z⟩⟩

instance : Sub (Vec3 α) := ⟨fun a b => ⟨a.x - b.x, a.y - b.y, a.z - b.z⟩⟩

instance : Neg (Vec3 α) := ⟨fun a => ⟨-a.x, -a.y, -a.z⟩⟩

def scale (c : α) (v : Vec3 α) : Vec3 α :=
  ⟨c * v.x, c * v.y, c * v.z⟩

def cross (a b : Vec3 α) : Vec3 α :=
  ⟨a.y * b.z - a.z * b.y, a.z * b.x - a.x * b.z, a.x * b.y - a.y * b.x⟩

def planar (v : Vec3 α) : Vec2 α :=
  ⟨v.x, v.y⟩

def isFinite (v : Vec3 α) : Bool :=
  Scalar.isFinite v.x && Scalar.isFinite v.y && Scalar.isFinite v.z

end Vec3

end TrackFusion
