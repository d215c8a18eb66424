import Mathlib.MeasureTheory.Measure.Lebesgue.Basic
import TrackFusion.Proofs.Geometry.Box

/-!
Boxes as sets of real points.

A box holds the points between its corners, and the area of such a set is its Lebesgue measure: the
product of the two extents, none of them counting as negative.
-/

set_option autoImplicit false
set_option relaxedAutoImplicit false

namespace TrackFusion

open MeasureTheory

namespace Box

def ofReal (b : Box ℝ) : Box Exact :=
  ⟨.finite b.x, .finite b.y, .finite b.width, .finite b.height⟩

def nearCorner (b : Box ℝ) : ℝ × ℝ :=
  (b.x, b.y)

noncomputable def farCorner (b : Box ℝ) : ℝ × ℝ :=
  (b.x + b.width, b.y + b.height)

noncomputable def ofCorners (near far : ℝ × ℝ) : Box ℝ :=
  ⟨near.1, near.2, far.1 - near.1, far.2 - near.2⟩

def points (b : Box ℝ) : Set (ℝ × ℝ) :=
  Set.Icc b.nearCorner b.farCorner

def IsSolid (b : Box ℝ) : Prop :=
  0 < b.width ∧ 0 < b.height

theorem ofReal_eq_between (b : Box ℝ) : b.ofReal = between b.nearCorner b.farCorner := by
  unfold ofReal between nearCorner farCorner
  simp only [add_sub_cancel_left]

theorem nearCorner_ofCorners (near far : ℝ × ℝ) : (ofCorners near far).nearCorner = near :=
  rfl

theorem farCorner_ofCorners (near far : ℝ × ℝ) : (ofCorners near far).farCorner = far := by
  unfold farCorner ofCorners
  simp only [add_sub_cancel]

theorem points_ofCorners (near far : ℝ × ℝ) : (ofCorners near far).points = Set.Icc near far := by
  rw [points, nearCorner_ofCorners, farCorner_ofCorners]

theorem isSolid_iff (b : Box ℝ) : b.IsSolid ↔ Encloses b.nearCorner b.farCorner := by
  unfold IsSolid Encloses nearCorner farCorner
  simp only [lt_add_iff_pos_right]

theorem corners_of_points {b : Box ℝ} {near far : ℝ × ℝ} (ordered : near ≤ far)
    (same : b.points = Set.Icc near far) : b.nearCorner = near ∧ b.farCorner = far := by
  obtain ⟨p, inside⟩ : b.points.Nonempty := same ▸ Set.nonempty_Icc.mpr ordered
  have least := isLeast_Icc (inside.1.trans inside.2)
  have greatest := isGreatest_Icc (inside.1.trans inside.2)
  rw [← points, same] at least greatest
  exact ⟨least.unique (isLeast_Icc ordered), greatest.unique (isGreatest_Icc ordered)⟩

theorem ofCorners_corners (b : Box ℝ) : ofCorners b.nearCorner b.farCorner = b := by
  unfold ofCorners nearCorner farCorner
  simp only [add_sub_cancel_left]

theorem volume_Icc (near far : ℝ × ℝ) :
    volume (Set.Icc near far) = ENNReal.ofReal (far.1 - near.1) * ENNReal.ofReal (far.2 - near.2) := by
  rw [Set.Icc_prod_eq, Measure.volume_eq_prod, Measure.prod_prod, Real.volume_Icc, Real.volume_Icc]

theorem volume_Icc_pos_iff {near far : ℝ × ℝ} :
    0 < volume (Set.Icc near far) ↔ Encloses near far := by
  rw [volume_Icc, ENNReal.mul_pos_iff, ENNReal.ofReal_pos, ENNReal.ofReal_pos, sub_pos, sub_pos]
  rfl

theorem real_volume_Icc (near far : ℝ × ℝ) :
    volume.real (Set.Icc near far) = max (far.1 - near.1) 0 * max (far.2 - near.2) 0 := by
  rw [Measure.real, volume_Icc, ENNReal.toReal_mul, ENNReal.toReal_ofReal', ENNReal.toReal_ofReal']

end Box

end TrackFusion
