import Mathlib.Algebra.Order.Monoid.Prod
import Mathlib.MeasureTheory.Group.Prod
import Mathlib.MeasureTheory.Measure.Lebesgue.EqHaar
import Mathlib.MeasureTheory.Measure.Real
import TrackFusion.Proofs.Geometry.OverlapCost
import TrackFusion.Proofs.Geometry.RealBox

/-!
The intersection over union of two boxes.

In exact numbers it is the quotient of two areas, that of the common points and that of all points of
the boxes. What maps of the plane do to all areas alike does not change it, it is one only if neither
box leaves an open part of the other one free, and zero only if no open part is common. The table of
costs holds its complement for each pair of boxes, and an infinite cost exactly where a box is missing.
-/

set_option autoImplicit false
set_option relaxedAutoImplicit false

namespace TrackFusion

open MeasureTheory

open scoped Pointwise

namespace Box

/-- The share of the points of two boxes, by area, that is common to both. -/
noncomputable def overlap (a b : Box ℝ) : ℝ :=
  volume.real (a.points ∩ b.points) / volume.real (a.points ∪ b.points)

noncomputable def translate (offset : ℝ × ℝ) (b : Box ℝ) : Box ℝ :=
  ⟨b.x + offset.1, b.y + offset.2, b.width, b.height⟩

noncomputable def scale (factor : ℝ) (b : Box ℝ) : Box ℝ :=
  ⟨factor * b.x, factor * b.y, factor * b.width, factor * b.height⟩

/-- What holds of the share of the union of two boxes that is common to both. -/
structure MeasuresOverlap (share : Box Exact → Box Exact → Exact) : Prop where
  computes : ∀ a b : Box ℝ, a.IsSolid → b.IsSolid → share a.ofReal b.ofReal = .finite (overlap a b)
  bounds : ∀ a b : Box ℝ, a.IsSolid → b.IsSolid →
    0 ≤ share a.ofReal b.ofReal ∧ share a.ofReal b.ofReal ≤ 1
  comm : ∀ a b : Box ℝ, a.IsSolid → b.IsSolid → share a.ofReal b.ofReal = share b.ofReal a.ofReal
  translate : ∀ (offset : ℝ × ℝ) (a b : Box ℝ), a.IsSolid → b.IsSolid →
    share (a.translate offset).ofReal (b.translate offset).ofReal = share a.ofReal b.ofReal
  scale : ∀ (factor : ℝ) (a b : Box ℝ), 0 < factor → a.IsSolid → b.IsSolid →
    share (a.scale factor).ofReal (b.scale factor).ofReal = share a.ofReal b.ofReal
  eq_one_iff : ∀ a b : Box ℝ, a.IsSolid → b.IsSolid → (share a.ofReal b.ofReal = 1 ↔ a = b)
  eq_zero_iff : ∀ a b : Box ℝ, a.IsSolid → b.IsSolid →
    (share a.ofReal b.ofReal = 0 ↔ interior a.points ∩ interior b.points = ∅)

section Sets

variable (a b : Box ℝ)

theorem isClosed_points : IsClosed b.points :=
  isClosed_Icc

theorem volume_points_ne_top : volume b.points ≠ ⊤ :=
  isCompact_Icc.measure_ne_top

theorem points_inter_points :
    a.points ∩ b.points = Set.Icc (a.nearCorner ⊔ b.nearCorner) (a.farCorner ⊓ b.farCorner) :=
  Set.Icc_inter_Icc

theorem interior_points : interior b.points =
    Set.Ioo b.nearCorner.1 b.farCorner.1 ×ˢ Set.Ioo b.nearCorner.2 b.farCorner.2 := by
  rw [points, Set.Icc_prod_eq, interior_prod_eq, interior_Icc, interior_Icc]

variable {a b}

theorem IsSolid.closure_interior (solid : b.IsSolid) : closure (interior b.points) = b.points := by
  obtain ⟨right, down⟩ := b.isSolid_iff.mp solid
  rw [interior_points, closure_prod_eq, closure_Ioo right.ne, closure_Ioo down.ne,
    ← Set.Icc_prod_eq, points]

theorem IsSolid.real_volume_pos (solid : b.IsSolid) : 0 < volume.real b.points :=
  ENNReal.toReal_pos (volume_Icc_pos_iff.mpr (b.isSolid_iff.mp solid)).ne' b.volume_points_ne_top

theorem IsSolid.real_volume (solid : b.IsSolid) :
    volume.real b.points = b.width * b.height := by
  rw [points, real_volume_Icc]
  unfold nearCorner farCorner
  simp only [add_sub_cancel_left, max_eq_left solid.1.le, max_eq_left solid.2.le]

theorem IsSolid.eq_of_points_eq (solid : b.IsSolid) (same : a.points = b.points) : a = b := by
  obtain ⟨right, down⟩ := b.isSolid_iff.mp solid
  obtain ⟨near, far⟩ := corners_of_points ⟨right.le, down.le⟩ same
  rw [← a.ofCorners_corners, near, far, ofCorners_corners]

theorem real_volume_inter_eq_zero_iff : volume.real (a.points ∩ b.points) = 0 ↔
    interior a.points ∩ interior b.points = ∅ := by
  have finite : volume (a.points ∩ b.points) ≠ ⊤ :=
    measure_ne_top_of_subset Set.inter_subset_left a.volume_points_ne_top
  rw [measureReal_eq_zero_iff finite, ← interior_inter]
  constructor
  · intro null
    have inside : volume (interior (a.points ∩ b.points)) = 0 :=
      measure_mono_null interior_subset null
    exact (isOpen_interior.measure_eq_zero_iff volume).mp inside
  · intro empty
    by_contra positive
    rw [points_inter_points] at empty positive
    obtain ⟨right, down⟩ := volume_Icc_pos_iff.mp (pos_iff_ne_zero.mpr positive)
    have common := interior_points
      (ofCorners (a.nearCorner ⊔ b.nearCorner) (a.farCorner ⊓ b.farCorner))
    rw [points_ofCorners, nearCorner_ofCorners, farCorner_ofCorners, empty] at common
    have inhabited := (Set.nonempty_Ioo.mpr right).prod (Set.nonempty_Ioo.mpr down)
    rw [← common] at inhabited
    exact Set.not_nonempty_empty inhabited

theorem real_volume_union (a b : Box ℝ) : volume.real (a.points ∪ b.points) =
    volume.real a.points + volume.real b.points - volume.real (a.points ∩ b.points) :=
  eq_sub_of_add_eq (measureReal_union_add_inter b.isClosed_points.measurableSet a.volume_points_ne_top
    b.volume_points_ne_top)

theorem volume_union_ne_top (a b : Box ℝ) : volume (a.points ∪ b.points) ≠ ⊤ :=
  measure_union_ne_top a.volume_points_ne_top b.volume_points_ne_top

theorem real_volume_inter_le_union (a b : Box ℝ) :
    volume.real (a.points ∩ b.points) ≤ volume.real (a.points ∪ b.points) :=
  measureReal_mono (Set.inter_subset_left.trans Set.subset_union_left) (volume_union_ne_top a b)

theorem IsSolid.real_volume_union_pos (solid : a.IsSolid) (b : Box ℝ) :
    0 < volume.real (a.points ∪ b.points) :=
  solid.real_volume_pos.trans_le (measureReal_mono Set.subset_union_left (volume_union_ne_top a b))

/-- If all that the boxes cover is common to both, up to what has no area, one lies in the other. -/
theorem IsSolid.subset_of_real_volume_eq (solid : a.IsSolid)
    (full : volume.real (a.points ∩ b.points) = volume.real (a.points ∪ b.points)) :
    a.points ⊆ b.points := by
  have free : volume (a.points \ b.points) = 0 := by
    have split := measureReal_inter_add_sdiff (μ := volume) (s := a.points)
      b.isClosed_points.measurableSet a.volume_points_ne_top
    have whole : volume.real a.points ≤ volume.real (a.points ∪ b.points) :=
      measureReal_mono Set.subset_union_left (volume_union_ne_top a b)
    have nonneg := measureReal_nonneg (μ := volume) (s := a.points \ b.points)
    rw [← measureReal_eq_zero_iff
      (measure_ne_top_of_subset Set.sdiff_subset a.volume_points_ne_top)]
    linarith
  -- an open set without area is empty
  have inside : interior a.points ⊆ b.points := by
    have null : volume (interior a.points \ b.points) = 0 :=
      measure_mono_null (Set.sdiff_subset_sdiff_left interior_subset) free
    exact Set.sdiff_eq_empty.mp
      (((isOpen_interior.sdiff b.isClosed_points).measure_eq_zero_iff volume).mp null)
  rw [← solid.closure_interior]
  exact closure_minimal inside b.isClosed_points

theorem overlap_eq_one_iff (first : a.IsSolid) (second : b.IsSolid) : overlap a b = 1 ↔ a = b := by
  unfold overlap
  rw [div_eq_one_iff_eq (first.real_volume_union_pos b).ne']
  constructor
  · intro full
    refine second.eq_of_points_eq (Set.Subset.antisymm (first.subset_of_real_volume_eq full) ?_)
    refine second.subset_of_real_volume_eq ?_
    rw [Set.inter_comm, Set.union_comm, full]
  · rintro rfl
    rw [Set.inter_self, Set.union_self]

theorem overlap_eq_zero_iff (first : a.IsSolid) (b : Box ℝ) :
    overlap a b = 0 ↔ interior a.points ∩ interior b.points = ∅ := by
  unfold overlap
  rw [div_eq_zero_iff, or_iff_left (first.real_volume_union_pos b).ne',
    real_volume_inter_eq_zero_iff]

theorem overlap_bounds (first : a.IsSolid) (b : Box ℝ) : 0 ≤ overlap a b ∧ overlap a b ≤ 1 :=
  ⟨div_nonneg measureReal_nonneg measureReal_nonneg,
    (div_le_one (first.real_volume_union_pos b)).mpr (real_volume_inter_le_union a b)⟩

theorem overlap_comm (a b : Box ℝ) : overlap a b = overlap b a := by
  unfold overlap
  rw [Set.inter_comm, Set.union_comm]

end Sets

section Maps

variable {a b : Box ℝ}

instance : (volume : Measure (ℝ × ℝ)).IsAddHaarMeasure := by
  rw [Measure.volume_eq_prod]
  infer_instance

theorem overlap_of_image {move : ℝ × ℝ → ℝ × ℝ} {ratio : ℝ} (injective : Function.Injective move)
    (nonzero : ratio ≠ 0)
    (areas : ∀ points : Set (ℝ × ℝ), volume.real (move '' points) = ratio * volume.real points)
    {a' b' : Box ℝ} (first : a'.points = move '' a.points)
    (second : b'.points = move '' b.points) : overlap a' b' = overlap a b := by
  unfold overlap
  rw [first, second, ← Set.image_inter injective, ← Set.image_union, areas, areas,
    mul_div_mul_left _ _ nonzero]

theorem points_translate (offset : ℝ × ℝ) (b : Box ℝ) :
    (b.translate offset).points = (offset + ·) '' b.points := by
  rw [points, points, Set.image_const_add_Icc]
  unfold translate nearCorner farCorner
  congr 1
  · exact Prod.ext (add_comm _ _) (add_comm _ _)
  · exact Prod.ext (by simp; ring) (by simp; ring)

theorem overlap_translate (offset : ℝ × ℝ) (a b : Box ℝ) :
    overlap (a.translate offset) (b.translate offset) = overlap a b := by
  refine overlap_of_image (add_right_injective offset) one_ne_zero (fun points => ?_)
    (points_translate offset a) (points_translate offset b)
  rw [Set.image_add_left, Measure.real, measure_preimage_add, one_mul, Measure.real]

theorem points_scale {factor : ℝ} (positive : 0 < factor) (b : Box ℝ) :
    (b.scale factor).points = (factor • ·) '' b.points := by
  have image := (OrderIso.smulRight positive).image_Icc b.nearCorner b.farCorner
  refine Eq.trans ?_ image.symm
  rw [points]
  unfold scale nearCorner farCorner
  congr 1
  exact Prod.ext (mul_add _ _ _).symm (mul_add _ _ _).symm

theorem overlap_scale {factor : ℝ} (positive : 0 < factor) (a b : Box ℝ) :
    overlap (a.scale factor) (b.scale factor) = overlap a b := by
  have nonzero : |factor ^ Module.finrank ℝ (ℝ × ℝ)| ≠ 0 :=
    abs_ne_zero.mpr (pow_ne_zero _ positive.ne')
  refine overlap_of_image (smul_right_injective _ positive.ne') nonzero (fun points => ?_)
    (points_scale positive a) (points_scale positive b)
  rw [Set.image_smul, Measure.real, Measure.addHaar_smul, ENNReal.toReal_mul,
    ENNReal.toReal_ofReal (abs_nonneg _), Measure.real]

theorem IsSolid.translate (solid : b.IsSolid) (offset : ℝ × ℝ) : (b.translate offset).IsSolid :=
  solid

theorem IsSolid.scale {factor : ℝ} (positive : 0 < factor) (solid : b.IsSolid) :
    (b.scale factor).IsSolid :=
  ⟨mul_pos positive solid.1, mul_pos positive solid.2⟩

end Maps

section Computed

variable (a b : Box ℝ)

theorem intersectionArea_ofReal :
    a.ofReal.intersectionArea b.ofReal = .finite (volume.real (a.points ∩ b.points)) := by
  rw [points_inter_points, real_volume_Icc]
  unfold intersectionArea greatest ofReal nearCorner farCorner
  simp only [Exact.finite_add_finite, Exact.min_finite, Exact.max_finite, Exact.finite_sub_finite,
    Exact.zero_eq, Exact.finite_mul_finite, Prod.fst_sup, Prod.snd_sup, Prod.fst_inf, Prod.snd_inf]
  rw [min_comm (b.x + b.width), min_comm (b.y + b.height), max_comm b.x, max_comm b.y]

theorem intersectionOverUnion_ofReal : a.ofReal.intersectionOverUnion b.ofReal =
    .finite (volume.real (a.points ∩ b.points)) / .finite
      (a.width * a.height + b.width * b.height - volume.real (a.points ∩ b.points)) := by
  unfold intersectionOverUnion
  rw [intersectionArea_ofReal]
  unfold area ofReal
  simp only [Exact.finite_mul_finite, Exact.finite_add_finite, Exact.finite_sub_finite]

variable {a b}

theorem IsSolid.intersectionOverUnion_eq (first : a.IsSolid) (second : b.IsSolid) :
    a.ofReal.intersectionOverUnion b.ofReal = .finite (overlap a b) := by
  rw [intersectionOverUnion_ofReal, ← first.real_volume, ← second.real_volume,
    ← real_volume_union, Exact.finite_div_finite (first.real_volume_union_pos b).ne']
  rfl

theorem measuresOverlap_intersectionOverUnion : MeasuresOverlap intersectionOverUnion where
  computes _ _ first second := first.intersectionOverUnion_eq second
  bounds a b first second := by
    rw [first.intersectionOverUnion_eq second]
    exact overlap_bounds first b
  comm a b first second := by
    rw [first.intersectionOverUnion_eq second, second.intersectionOverUnion_eq first, overlap_comm]
  translate offset a b first second := by
    rw [first.intersectionOverUnion_eq second,
      (first.translate offset).intersectionOverUnion_eq (second.translate offset),
      overlap_translate]
  scale factor a b positive first second := by
    rw [first.intersectionOverUnion_eq second,
      (first.scale positive).intersectionOverUnion_eq (second.scale positive),
      overlap_scale positive]
  eq_one_iff a b first second := by
    rw [first.intersectionOverUnion_eq second, Exact.one_eq, Exact.finite.injEq,
      overlap_eq_one_iff first second]
  eq_zero_iff a b first second := by
    rw [first.intersectionOverUnion_eq second, Exact.zero_eq, Exact.finite.injEq,
      overlap_eq_zero_iff first]

theorem isSolid_of_common_area (area : volume.real (a.points ∩ b.points) ≠ 0) :
    a.IsSolid ∧ b.IsSolid := by
  have positive : 0 < volume (a.points ∩ b.points) :=
    pos_iff_ne_zero.mpr fun null => area (by rw [Measure.real, null, ENNReal.toReal_zero])
  rw [points_inter_points, volume_Icc_pos_iff] at positive
  exact ⟨a.isSolid_iff.mpr (positive.mono le_sup_left inf_le_left),
    b.isSolid_iff.mpr (positive.mono le_sup_right inf_le_right)⟩

theorem one_sub_intersectionOverUnion_ne_infinity (a b : Box ℝ) :
    1 - a.ofReal.intersectionOverUnion b.ofReal ≠ ExtendedScalar.infinity := by
  by_cases null : volume.real (a.points ∩ b.points) = 0
  · rw [intersectionOverUnion_ofReal, null]
    by_cases flat : a.width * a.height + b.width * b.height - 0 = 0
    · have undefined : Exact.finite 0 / Exact.finite 0 = .undefined := by
        change (if (0 : ℝ) = 0 then Exact.ofSign (SignType.sign (0 : ℝ)) else _) = _
        rw [if_pos rfl, sign_zero]
        rfl
      rw [flat, undefined]
      exact nofun
    · rw [Exact.finite_div_finite flat]
      exact nofun
  · obtain ⟨first, second⟩ := isSolid_of_common_area null
    rw [first.intersectionOverUnion_eq second]
    exact nofun

end Computed

/-- What the table of costs of projections and regions holds. -/
structure TabulatesOverlap (projections regions : List (Option (Box Exact))) : Prop where
  present : ∀ i j p r, projections.get i = some p → regions.get j = some r →
    (overlapCost projections regions).entry i j = 1 - p.intersectionOverUnion r
  /-- The cost is infinite exactly if a box is missing, the boxes that are there being real. -/
  infinite_iff : (∀ p, some p ∈ projections → ∃ b : Box ℝ, p = b.ofReal) →
    (∀ r, some r ∈ regions → ∃ b : Box ℝ, r = b.ofReal) → ∀ i j,
    (overlapCost projections regions).entry i j = ExtendedScalar.infinity ↔
      projections.get i = none ∨ regions.get j = none

theorem tabulatesOverlap (projections regions : List (Option (Box Exact))) :
    TabulatesOverlap projections regions where
  present i j p r visible outlined := entry_overlapCost_of_some visible outlined
  infinite_iff real real' i j := by
    rw [entry_overlapCost]
    cases visible : projections.get i with
    | none => exact iff_of_true rfl (.inl rfl)
    | some p =>
      cases outlined : regions.get j with
      | none => exact iff_of_true rfl (.inr rfl)
      | some r =>
        obtain ⟨a, rfl⟩ := real p (visible ▸ List.get_mem projections i)
        obtain ⟨b, rfl⟩ := real' r (outlined ▸ List.get_mem regions j)
        exact iff_of_false (one_sub_intersectionOverUnion_ne_infinity a b) (by simp)

/-- Intersection over union measures how far boxes overlap, and the table of costs holds it for exactly
the pairs of boxes that are there. -/
theorem overlap_exact : MeasuresOverlap intersectionOverUnion ∧
    ∀ projections regions, TabulatesOverlap projections regions :=
  ⟨measuresOverlap_intersectionOverUnion, tabulatesOverlap⟩

end Box

end TrackFusion
