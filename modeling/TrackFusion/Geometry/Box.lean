import TrackFusion.Geometry.Vector
import TrackFusion.Linear.Matrix

/-!
Axis-aligned boxes in an image and their overlap.
-/

set_option autoImplicit false
set_option relaxedAutoImplicit false

namespace TrackFusion

/-- The region from the corner `(x, y)` over a width to the right and a height downwards. -/
structure Box (α : Type) where
  x : α
  y : α
  width : α
  height : α
  deriving DecidableEq

namespace Box

variable {α : Type} [Scalar α]

def ofCorners? (least greatest : Vec2 α) : Option (Box α) :=
  if least.x < greatest.x ∧ least.y < greatest.y then
    some ⟨least.x, least.y, greatest.x - least.x, greatest.y - least.y⟩
  else none

def least (b : Box α) : Vec2 α :=
  ⟨b.x, b.y⟩

def greatest (b : Box α) : Vec2 α :=
  ⟨b.x + b.width, b.y + b.height⟩

def clip? (b : Box α) (imageWidth imageHeight : α) : Option (Box α) :=
  ofCorners? ⟨Scalar.max b.x 0, Scalar.max b.y 0⟩
    ⟨Scalar.min (b.x + b.width) imageWidth, Scalar.min (b.y + b.height) imageHeight⟩

def area (b : Box α) : α :=
  b.width * b.height

def sameValue (a b : Box α) : Bool :=
  Scalar.sameValue a.x b.x && Scalar.sameValue a.y b.y && Scalar.sameValue a.width b.width &&
    Scalar.sameValue a.height b.height

def intersectionArea (a b : Box α) : α :=
  let width := Scalar.min b.greatest.x a.greatest.x - Scalar.max b.x a.x
  let height := Scalar.min b.greatest.y a.greatest.y - Scalar.max b.y a.y
  Scalar.max width 0 * Scalar.max height 0

def intersectionOverUnion (a b : Box α) : α :=
  let common := a.intersectionArea b
  common / (a.area + b.area - common)

def intersectionsOverUnion (a : Box α) (candidates : List (Box α)) : List α :=
  candidates.map a.intersectionOverUnion

section Points

variable {α : Type} [ExtendedScalar α]

def enclose? (corners : Vec2 α × Vec2 α) (p : Vec2 α) : Option (Vec2 α × Vec2 α) :=
  let (low, high) := corners
  if p.isFinite then
    some (⟨Scalar.min low.x p.x, Scalar.min low.y p.y⟩,
      ⟨Scalar.max high.x p.x, Scalar.max high.y p.y⟩)
  else none

/-- Corners that enclose nothing yet: the first point replaces both. -/
def noCorners : Vec2 α × Vec2 α :=
  (⟨ExtendedScalar.infinity, ExtendedScalar.infinity⟩,
    ⟨-ExtendedScalar.infinity, -ExtendedScalar.infinity⟩)

def ofPoints? (points : List (Vec2 α)) : Option (Box α) := do
  let (low, high) ← points.foldlM enclose? noCorners
  ofCorners? low high

end Points

def placed {α : Type} (boxes : List (Option (Box α))) : List (Nat × Box α) :=
  boxes.zipIdx.filterMap fun (box, place) => box.map fun b => (place, b)

end Box

section Cost

variable {α : Type} [ExtendedScalar α]

/-- The costs of pairing one projection with candidates, each at the place of its region. All other
places, and without a projection all places, have an infinite cost. -/
def overlapRow (n : Nat) (places : List Nat) (candidates : List (Box α)) :
    Option (Box α) → Vector α n
  | none => .replicate n ExtendedScalar.infinity
  | some projection =>
    (places.zip (projection.intersectionsOverUnion candidates)).foldl
      (fun costs (place, share) => costs.setIfInBounds place (1 - share))
      (.replicate n ExtendedScalar.infinity)

/-- The costs of pairing each projection with each region. Regions without a box are no candidates,
so that the shares of the others are put back at their places. -/
def overlapCost (projections regions : List (Option (Box α))) :
    Mat projections.length regions.length α :=
  let (places, candidates) := (Box.placed regions).unzip
  ⟨.ofFn fun i => overlapRow regions.length places candidates (projections.get i)⟩

end Cost

end TrackFusion
