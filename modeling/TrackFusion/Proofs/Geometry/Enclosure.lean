import Mathlib.Order.Bounds.Basic
import TrackFusion.Proofs.Geometry.RealBox

/-!
The box around points, and the part of a box inside an image.

The corners of the box around points are their greatest lower and their least upper bound, which depend
on the set of the points alone. Clipping meets a box with the image, and meeting with two images one
after the other is meeting with what they have in common.
-/

set_option autoImplicit false
set_option relaxedAutoImplicit false

namespace TrackFusion

open MeasureTheory

section Bounds

variable {α : Type}

theorem isGLB_foldl_inf [SemilatticeInf α] (first : α) (rest : List α) :
    IsGLB {p | p ∈ first :: rest} (rest.foldl (· ⊓ ·) first) := by
  refine ⟨fun p member => foldl_inf_le first rest p member, fun c below => ?_⟩
  induction rest generalizing first with
  | nil => exact below (List.mem_singleton.mpr rfl)
  | cons next rest ih =>
    refine ih (first ⊓ next) fun p member => ?_
    rcases List.mem_cons.mp member with rfl | later
    · exact le_inf (below List.mem_cons_self) (below (List.mem_cons_of_mem _ List.mem_cons_self))
    · exact below (List.mem_cons_of_mem _ (List.mem_cons_of_mem _ later))

theorem isLUB_foldl_sup [SemilatticeSup α] (first : α) (rest : List α) :
    IsLUB {p | p ∈ first :: rest} (rest.foldl (· ⊔ ·) first) :=
  isGLB_foldl_inf (α := αᵒᵈ) first rest

theorem lt_iff_exists_ne [LinearOrder α] {numbers : Set α} {low high : α}
    (least : IsGLB numbers low) (greatest : IsLUB numbers high) (nonempty : numbers.Nonempty) :
    low < high ↔ ∃ p ∈ numbers, ∃ q ∈ numbers, p ≠ q := by
  constructor
  · intro apart
    by_contra! same
    obtain ⟨p, member⟩ := nonempty
    have above : p ≤ low := least.2 fun q other => (same p member q other).le
    have below : high ≤ p := greatest.2 fun q other => (same p member q other).ge
    exact absurd apart (below.trans above).not_gt
  · rintro ⟨p, member, q, other, differ⟩
    by_contra! flat
    have squeeze {r : α} (within : r ∈ numbers) : r = low :=
      le_antisymm ((greatest.1 within).trans flat) (least.1 within)
    exact differ ((squeeze member).trans (squeeze other).symm)

end Bounds

namespace Vec2

theorem isFinite_iff {p : Vec2 Exact} : p.isFinite = true ↔ ∃ place, p = ofReal place := by
  unfold isFinite
  rw [Bool.and_eq_true, Exact.isFinite_iff, Exact.isFinite_iff]
  constructor
  · rintro ⟨⟨x, first⟩, y, second⟩
    obtain ⟨px, py⟩ := p
    dsimp only at first second
    subst first second
    exact ⟨(x, y), rfl⟩
  · rintro ⟨place, rfl⟩
    exact ⟨⟨_, rfl⟩, _, rfl⟩

theorem exists_map_ofReal {points : List (Vec2 Exact)} (finite : ∀ p ∈ points, p.isFinite = true) :
    ∃ places : List (ℝ × ℝ), points = places.map ofReal := by
  have images : points ∈ Set.range (List.map ofReal) := by
    rw [Set.range_list_map]
    exact fun p member => (isFinite_iff.mp (finite p member)).imp fun _ => Eq.symm
  exact images.imp fun _ => Eq.symm

end Vec2

namespace Box

/-- What the least box around points is. -/
structure DrawsLeastBox (draw : List (Vec2 Exact) → Option (Box Exact)) : Prop where
  /-- There is a box if all points are finite and neither coordinate is the same for all of them. -/
  exists_iff : ∀ points, (∃ B, draw points = some B) ↔
    (∀ p ∈ points, p.isFinite = true) ∧ (∃ p ∈ points, ∃ q ∈ points, p.x ≠ q.x) ∧
      ∃ p ∈ points, ∃ q ∈ points, p.y ≠ q.y
  least : ∀ points B, draw points = some B → ∃ b : Box ℝ, B = b.ofReal ∧
    IsLeast {K | (∃ c : Box ℝ, K = c.points) ∧ ∀ p, .ofReal p ∈ points → p ∈ K} b.points
  congr : ∀ points others, (∀ p, p ∈ points ↔ p ∈ others) → draw points = draw others

def AreDrawable (points : List (Vec2 Exact)) : Prop :=
  points ≠ [] ∧ ∀ p ∈ points, p.isFinite = true

theorem ofPoints?_of_not_drawable {points : List (Vec2 Exact)} (poor : ¬ AreDrawable points) :
    ofPoints? points = none := by
  by_cases empty : points = []
  · rw [empty, ofPoints?_nil]
  · obtain ⟨p, member, infinite⟩ : ∃ p ∈ points, p.isFinite = false := by
      by_contra! finite
      exact poor ⟨empty, fun p member => Bool.eq_true_of_not_eq_false (finite p member)⟩
    rw [ofPoints?, foldlM_enclose?_of_infinite member infinite]
    rfl

/-- The corners are the bounds of points. -/
structure AreBounds (places : List (ℝ × ℝ)) (near far : ℝ × ℝ) : Prop where
  near : IsGLB {p | p ∈ places} near
  far : IsLUB {p | p ∈ places} far

theorem AreDrawable.exists_bounds {points : List (Vec2 Exact)} (drawable : AreDrawable points) :
    ∃ places near far, points = places.map Vec2.ofReal ∧ AreBounds places near far ∧
      ofPoints? points = ofCorners? (.ofReal near) (.ofReal far) := by
  obtain ⟨places, rfl⟩ := Vec2.exists_map_ofReal drawable.2
  cases places with
  | nil => exact absurd rfl drawable.1
  | cons first rest =>
    exact ⟨_, _, _, rfl, ⟨isGLB_foldl_inf first rest, isLUB_foldl_sup first rest⟩,
      ofPoints?_ofReal first rest⟩

namespace AreBounds

variable {places others : List (ℝ × ℝ)} {near far near' far' : ℝ × ℝ}

theorem encloses_iff (bounds : AreBounds places near far) (nonempty : places ≠ []) :
    Encloses near far ↔ (∃ p ∈ places, ∃ q ∈ places, p.1 ≠ q.1) ∧
      ∃ p ∈ places, ∃ q ∈ places, p.2 ≠ q.2 := by
  obtain ⟨lowX, lowY⟩ := isGLB_prod.mp bounds.near
  obtain ⟨highX, highY⟩ := isLUB_prod.mp bounds.far
  have inhabited : {p | p ∈ places}.Nonempty := List.exists_mem_of_ne_nil places nonempty
  unfold Encloses
  rw [lt_iff_exists_ne lowX highX (inhabited.image _),
    lt_iff_exists_ne lowY highY (inhabited.image _)]
  simp only [Set.exists_mem_image, Set.mem_ofPred_eq]

theorem isLeast (bounds : AreBounds places near far) :
    IsLeast {K | (∃ c : Box ℝ, K = c.points) ∧ ∀ p, .ofReal p ∈ places.map Vec2.ofReal → p ∈ K}
      (ofCorners near far).points := by
  simp only [List.mem_map_of_injective Vec2.ofReal_injective]
  constructor
  · refine ⟨⟨_, rfl⟩, fun p member => ?_⟩
    rw [points_ofCorners]
    exact ⟨bounds.near.1 member, bounds.far.1 member⟩
  · rintro _ ⟨⟨c, rfl⟩, holds⟩
    rw [points_ofCorners]
    exact Set.Icc_subset_Icc (bounds.near.2 fun p member => (holds p member).1)
      (bounds.far.2 fun p member => (holds p member).2)

theorem congr (bounds : AreBounds places near far) (bounds' : AreBounds others near' far')
    (same : ∀ p, p ∈ places ↔ p ∈ others) : near = near' ∧ far = far' := by
  have sets : {p | p ∈ places} = {p | p ∈ others} := Set.ext same
  obtain ⟨low, high⟩ := bounds'
  rw [← sets] at low high
  exact ⟨bounds.near.unique low, bounds.far.unique high⟩

end AreBounds

theorem drawsLeastBox_ofPoints? : DrawsLeastBox ofPoints? where
  exists_iff points := by
    by_cases drawable : AreDrawable points
    · obtain ⟨places, near, far, rfl, bounds, drawn⟩ := drawable.exists_bounds
      have nonempty : places ≠ [] := fun empty => drawable.1 (congrArg _ empty)
      rw [drawn, and_iff_right drawable.2]
      simp only [ofCorners?_eq_some_iff, exists_and_left, exists_eq, and_true,
        bounds.encloses_iff nonempty, List.mem_map, exists_exists_and_eq_and]
      simp only [Vec2.ofReal, ne_eq, Exact.finite.injEq]
    · refine iff_of_false (by simp [ofPoints?_of_not_drawable drawable]) ?_
      rintro ⟨finite, ⟨p, member, -⟩, -⟩
      exact drawable ⟨List.ne_nil_of_mem member, finite⟩
  least points B drawn := by
    by_cases drawable : AreDrawable points
    · obtain ⟨places, near, far, rfl, bounds, same⟩ := drawable.exists_bounds
      rw [same, ofCorners?_eq_some_iff] at drawn
      exact ⟨ofCorners near far, drawn.2, bounds.isLeast⟩
    · rw [ofPoints?_of_not_drawable drawable] at drawn
      cases drawn
  congr points others same := by
    have both : AreDrawable points ↔ AreDrawable others := by
      unfold AreDrawable
      simp only [ne_eq, List.eq_nil_iff_forall_not_mem, same]
    by_cases drawable : AreDrawable points
    · obtain ⟨places, near, far, rfl, bounds, drawn⟩ := drawable.exists_bounds
      obtain ⟨places', near', far', rfl, bounds', drawn'⟩ := (both.mp drawable).exists_bounds
      obtain ⟨rfl, rfl⟩ := bounds.congr bounds' fun p => by
        simpa only [List.mem_map_of_injective Vec2.ofReal_injective] using same (.ofReal p)
      rw [drawn, drawn']
    · rw [ofPoints?_of_not_drawable drawable, ofPoints?_of_not_drawable (mt both.mpr drawable)]

/-- What clipping a real box to images comes to. -/
structure ClipsExactly (b : Box ℝ) (clip : ℝ × ℝ → Option (Box Exact)) : Prop where
  some_iff : ∀ size B, clip size = some B ↔ ∃ c : Box ℝ, B = c.ofReal ∧
    c.points = b.points ∩ Set.Icc 0 size ∧ 0 < volume (b.points ∩ Set.Icc 0 size)
  idempotent : ∀ size : ℝ × ℝ,
    (clip size).bind (·.clip? (.finite size.1) (.finite size.2)) = clip size
  clip_clip : ∀ first second : ℝ × ℝ,
    (clip first).bind (·.clip? (.finite second.1) (.finite second.2)) =
      clip (min first.1 second.1, min first.2 second.2)

section Clip

variable (b : Box ℝ) (size : ℝ × ℝ)

theorem clip?_ofReal : b.ofReal.clip? (.finite size.1) (.finite size.2) =
    ofCorners? (.ofReal (b.nearCorner ⊔ 0)) (.ofReal (b.farCorner ⊓ size)) := by
  rw [ofReal_eq_between, clip?_between]

theorem points_inter_image :
    b.points ∩ Set.Icc 0 size = Set.Icc (b.nearCorner ⊔ 0) (b.farCorner ⊓ size) :=
  Set.Icc_inter_Icc

theorem bind_clip?_clip? (other : ℝ × ℝ) :
    (b.ofReal.clip? (.finite size.1) (.finite size.2)).bind
        (·.clip? (.finite other.1) (.finite other.2)) =
      b.ofReal.clip? (.finite (min size.1 other.1)) (.finite (min size.2 other.2)) := by
  rw [clip?_ofReal, bind_clip?_ofCorners?, sup_assoc, sup_idem, inf_assoc]
  exact (clip?_ofReal b (size ⊓ other)).symm

theorem clipsExactly :
    ClipsExactly b fun size => b.ofReal.clip? (.finite size.1) (.finite size.2) where
  some_iff size B := by
    rw [clip?_ofReal, ofCorners?_eq_some_iff, points_inter_image, volume_Icc_pos_iff]
    constructor
    · rintro ⟨encloses, rfl⟩
      exact ⟨ofCorners _ _, rfl, points_ofCorners _ _, encloses⟩
    · rintro ⟨c, rfl, same, encloses⟩
      obtain ⟨near, far⟩ := corners_of_points ⟨encloses.1.le, encloses.2.le⟩ same
      exact ⟨encloses, by rw [ofReal_eq_between, near, far]⟩
  idempotent size := by
    rw [bind_clip?_clip?, min_self, min_self]
  clip_clip first second := bind_clip?_clip? b first second

end Clip

/-- The box around points is the least one, and clipping keeps exactly what the image has in common
with a box. -/
theorem enclosure_exact :
    DrawsLeastBox ofPoints? ∧ ∀ b : Box ℝ,
      ClipsExactly b fun size => b.ofReal.clip? (.finite size.1) (.finite size.2) :=
  ⟨drawsLeastBox_ofPoints?, clipsExactly⟩

end Box

end TrackFusion
