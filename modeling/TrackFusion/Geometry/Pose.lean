import TrackFusion.Geometry.Vector
import TrackFusion.Linear.Matrix

/-!
Orientations, poses and gravity alignment.

A quaternion is used as given and never normalised. `Quaternion.rotate` turns points and
`Quaternion.toMatrix` is the matrix that turns covariances and velocities; on unit quaternions both
are the same rotation.
-/

set_option autoImplicit false
set_option relaxedAutoImplicit false

namespace TrackFusion

/-- An orientation: the vector part `(i, j, k)` and the scalar part `w`. -/
structure Quaternion (α : Type) where
  i : α
  j : α
  k : α
  w : α
  deriving DecidableEq

structure Pose (α : Type) where
  rotation : Quaternion α
  offset : Vec3 α
  deriving DecidableEq

variable {α : Type} [Scalar α]

namespace Quaternion

def identity : Quaternion α :=
  ⟨0, 0, 0, 1⟩

def imaginary (q : Quaternion α) : Vec3 α :=
  ⟨q.i, q.j, q.k⟩

def rotate (q : Quaternion α) (p : Vec3 α) : Vec3 α :=
  -- for a unit quaternion this is `q p q⁻¹`, in two cross products
  let turn := (q.imaginary.cross p).scale 2.0
  turn.scale q.w + q.imaginary.cross turn + p

def toMatrix (q : Quaternion α) : Mat 3 3 α :=
  let ww := q.w * q.w
  let ii := q.i * q.i
  let jj := q.j * q.j
  let kk := q.k * q.k
  let ij := q.i * q.j * 2.0
  let wk := q.w * q.k * 2.0
  let wj := q.w * q.j * 2.0
  let ik := q.i * q.k * 2.0
  let jk := q.j * q.k * 2.0
  let wi := q.w * q.i * 2.0
  ⟨#v[#v[ww + ii - jj - kk, ij - wk, wj + ik],
      #v[wk + ij, ww - ii + jj - kk, jk - wi],
      #v[ik - wj, wi + jk, ww - ii - jj + kk]]⟩

/-- The largest rotation angle, in radians, that counts as gravity aligned about any axis. -/
def angleThreshold : α := 0.1

/-- The largest tilt of the rotation axis from the vertical, in radians, that counts as gravity
aligned at any angle. -/
def axisTiltThreshold : α := 0.1

def isGravityAligned (q : Quaternion α) : Bool :=
  let axis := Scalar.sqrt (q.i * q.i + q.j * q.j + q.k * q.k)
  Scalar.cos (0.5 * angleThreshold) ≤ Scalar.abs q.w ||
    (0 < axis && Scalar.cos axisTiltThreshold ≤ Scalar.abs q.k / axis)

end Quaternion

def Mat.apply (a : Mat 3 3 α) (v : Vec3 α) : Vec3 α :=
  ⟨a.entry Space.x Space.x * v.x + a.entry Space.x Space.y * v.y + a.entry Space.x Space.z * v.z,
    a.entry Space.y Space.x * v.x + a.entry Space.y Space.y * v.y + a.entry Space.y Space.z * v.z,
    a.entry Space.z Space.x * v.x + a.entry Space.z Space.y * v.y + a.entry Space.z Space.z * v.z⟩

namespace Pose

def identity : Pose α :=
  ⟨Quaternion.identity, 0⟩

def apply (pose : Pose α) (p : Vec3 α) : Vec3 α :=
  pose.rotation.rotate p + pose.offset

end Pose

end TrackFusion
