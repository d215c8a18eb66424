import TrackFusion.Linear.Matrix

/-!
Eigenvalues of symmetric matrices of three rows.

Only the lower triangle is read. The matrix is scaled to entries of at most one, reflections bring
it to tridiagonal form, and shifted rotations shrink what stands beside the diagonal until it is
negligible. Reflections and rotations keep the eigenvalues, and dropping a coupling of a positive
semidefinite matrix leaves it positive semidefinite.
-/

set_option autoImplicit false
set_option relaxedAutoImplicit false

namespace TrackFusion

variable {α : Type} [Scalar α]

structure Symmetric2 (α : Type) where
  xx : α
  yx : α
  yy : α
  deriving DecidableEq

namespace Symmetric2

def eigenvalues (m : Symmetric2 α) : α × α :=
  let half := (m.xx - m.yy) * 0.5
  let root := Scalar.sqrt (m.yx * m.yx + half * half)
  let middle := (m.xx + m.yy) * 0.5
  (middle + root, middle - root)

/-- Reflects the plane so that the vector `(x, y)` falls on the first axis. Gives its coordinate
there and the matrix of the reflected form. The normal `(u, v)` of the reflection is scaled to
length one twice, since the first scale loses digits for tiny vectors. -/
def reflect (m : Symmetric2 α) (x y : α) : α × Symmetric2 α :=
  let square := x * x + y * y
  let norm := Scalar.sqrt square
  let length := Scalar.signedBy x norm
  let factor := (square + Scalar.signedBy x x * norm) * 2.0
  if Scalar.sameValue factor 0 then (length, m)
  else
    let (u, v) := ((x + length) / Scalar.sqrt factor, y / Scalar.sqrt factor)
    let size := Scalar.sqrt (u * u + v * v)
    let (u, v) := (u / size, v / size)
    let p := 2.0 * u * m.xx + 2.0 * Scalar.sum [m.yx * v]
    let q := 2.0 * u * m.yx + 2.0 * Scalar.sum [m.yy * v]
    let dot := Scalar.sum [u * p, v * q] * 2.0
    (-length,
      ⟨m.xx - u * p - p * u + dot * u * u,
        m.yx - u * q - p * v + dot * u * v,
        m.yy - v * q - q * v + dot * v * v⟩)

end Symmetric2

structure Rotation (α : Type) where
  cosine : α
  sine : α
  deriving DecidableEq

namespace Rotation

/-- The rotation that turns the vector `(x, y)` onto the first axis, and its coordinate there; none
if it lies there already. -/
def ofVector? (x y : α) : Option (Rotation α × α) :=
  if Scalar.sameValue y 0 then none
  else
    let magnitude := Scalar.signedBy x x
    let norm := Scalar.sqrt (magnitude * magnitude + y * y)
    let length := Scalar.signedBy x norm
    some (⟨magnitude / norm, -y / length⟩, length)

def turn (r : Rotation α) (m : Symmetric2 α) : Symmetric2 α :=
  let cc := r.cosine * r.cosine
  let ss := r.sine * r.sine
  let cs := r.cosine * r.sine
  let mixed := cs * 2.0 * m.yx
  ⟨cc * m.xx + ss * m.yy - mixed,
    cs * (m.xx - m.yy) + m.yx * (cc - ss),
    ss * m.xx + cc * m.yy + mixed⟩

end Rotation

structure Tridiagonal (α : Type) where
  xx : α
  yy : α
  zz : α
  yx : α
  zy : α
  deriving DecidableEq

namespace Tridiagonal

def ofMatrix (a : Mat 3 3 α) : Tridiagonal α :=
  let below : Symmetric2 α :=
    ⟨a.entry Space.y Space.y, a.entry Space.z Space.y, a.entry Space.z Space.z⟩
  let (yx, block) := below.reflect (a.entry Space.y Space.x) (a.entry Space.z Space.x)
  let (zy, last) := (Symmetric2.mk block.yy 0 0).reflect block.yx 0
  ⟨a.entry Space.x Space.x, block.xx, last.xx, Scalar.abs yx, Scalar.abs zy⟩

def negligible (a b : α) : α :=
  Scalar.epsilon * (Scalar.abs a + Scalar.abs b)

def shift (t : Tridiagonal α) : α :=
  let square := t.zy * t.zy
  if Scalar.sameValue square 0 then t.zz
  else
    let half := (t.yy - t.zz) * 0.5
    t.zz - square / (half + Scalar.unitSign half * Scalar.sqrt (half * half + square))

/-- One sweep: a rotation of the first two rows, chosen by the shift, and one of the last two rows
that removes the entry which the first one put into the corner. -/
def sweep (t : Tridiagonal α) : Tridiagonal α :=
  match Rotation.ofVector? (t.xx - t.shift) t.yx with
  | none => t
  | some (first, _) =>
    let upper := first.turn ⟨t.xx, t.yx, t.yy⟩
    let corner := -first.sine * t.zy
    let zy := t.zy * first.cosine
    match Rotation.ofVector? upper.yx corner with
    | none => ⟨upper.xx, upper.yy, t.zz, upper.yx, zy⟩
    | some (second, yx) =>
      let lower := second.turn ⟨upper.yy, zy, t.zz⟩
      ⟨upper.xx, lower.xx, lower.yy, yx, lower.yx⟩

def eigenvalues : Nat → Tridiagonal α → List α
  | 0, t => [t.xx, t.yy, t.zz]
  | sweeps + 1, t =>
    -- a negligible coupling splits off an eigenvalue and leaves two rows to a formula
    if negligible t.yy t.zz < Scalar.abs t.zy then
      if Scalar.abs t.yx ≤ negligible t.xx t.yy then
        let (high, low) := (Symmetric2.mk t.yy t.zy t.zz).eigenvalues
        [t.xx, high, low]
      else eigenvalues sweeps t.sweep
    else if negligible t.xx t.yy < Scalar.abs t.yx then
      let (high, low) := (Symmetric2.mk t.xx t.yx t.yy).eigenvalues
      [high, low, t.zz]
    else [t.xx, t.yy, t.zz]

end Tridiagonal

def greatestSweeps : Nat := 1000

def Mat.eigenvalues (a : Mat 3 3 α) : List α :=
  -- entries of magnitude one at most keep the squares from overflowing
  let largest := a.maxAbs
  let scaled := if Scalar.sameValue largest 0 then a else a.map (· / largest)
  ((Tridiagonal.ofMatrix scaled).eigenvalues greatestSweeps).map (· * largest)

end TrackFusion
