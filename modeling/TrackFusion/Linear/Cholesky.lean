import TrackFusion.Linear.Matrix

/-!
Triangular factors of 2 × 2 matrices.

Only the lower triangle of a matrix is read. A factor exists when both pivots are positive, which on
a symmetric matrix says that it is positive definite; `solve` then applies the inverse.
-/

set_option autoImplicit false
set_option relaxedAutoImplicit false

namespace TrackFusion

structure LowerFactor (α : Type) where
  upperDiagonal : α
  corner : α
  lowerDiagonal : α
  deriving DecidableEq

namespace LowerFactor

variable {α : Type} [Scalar α] {n : Nat}

def pivotRoot? (pivot : α) : Option α :=
  if 0 < pivot then some (Scalar.sqrt pivot) else none

/-- The factor `L` with `L Lᵀ = s`, if the pivots are positive. -/
def ofMatrix? (s : Mat 2 2 α) : Option (LowerFactor α) := do
  let upper ← pivotRoot? (s.entry Plane.x Plane.x)
  let corner := s.entry Plane.y Plane.x / upper
  let lower ← pivotRoot? (s.entry Plane.y Plane.y - corner * corner)
  some ⟨upper, corner, lower⟩

def solve (l : LowerFactor α) (b : Mat 2 n α) : Mat 2 n α :=
  let forward : Vector (α × α) n := Vector.ofFn fun j =>
    let first := b.entry Plane.x j / l.upperDiagonal
    (first, (b.entry Plane.y j - l.corner * first) / l.lowerDiagonal)
  let backward : Vector (α × α) n := forward.map fun (first, second) =>
    let last := second / l.lowerDiagonal
    ((first - l.corner * last) / l.upperDiagonal, last)
  Mat.ofFn fun i j => if i = Plane.x then (backward.get j).1 else (backward.get j).2

end LowerFactor

end TrackFusion
