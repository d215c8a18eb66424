import Mathlib.Algebra.BigOperators.Ring.List
import Mathlib.Data.List.Rotate
import Mathlib.Logic.Relation
import TrackFusion.Proofs.Geometry.FrameChange

/-!
The area of a footprint.

An edge of the outline contributes a term that changes its sign with the direction of the edge, and a
motion adds to it what cancels around the whole outline. So the area depends neither on where the
outline starts nor on which way it runs, and it stays as it is when the footprint is moved. A shape
that is moved or listed differently is valid exactly if it was.
-/

set_option autoImplicit false
set_option relaxedAutoImplicit false

namespace TrackFusion

open Matrix

namespace Shape

def startingAt {α : Type} (n : Nat) (s : Shape α) : Shape α :=
  { s with polygon := s.polygon.rotate n }

def turnedBack {α : Type} (s : Shape α) : Shape α :=
  { s with polygon := s.polygon.reverse }

def stretch {α : Type} [Scalar α] (factor : α) (s : Shape α) : Shape α :=
  { s with polygon := s.polygon.map fun v => ⟨factor * v.x, factor * v.y, v.z⟩ }

/-- One footprint comes from another one by a motion or by another way to list its outline. -/
inductive Redrawn : Shape Exact → Shape Exact → Prop
  | translate (s : Shape Exact) (offset : Fin 3 → ℝ) : Redrawn s (s.translate (.ofReal offset))
  | transform (s : Shape Exact) (T : FrameChange) : Redrawn s (s.transform T.pose)
  | startingAt (s : Shape Exact) (n : Nat) : Redrawn s (s.startingAt n)
  | turnedBack (s : Shape Exact) : Redrawn s s.turnedBack

def IsCongruent : Shape Exact → Shape Exact → Prop :=
  Relation.ReflTransGen Redrawn

def HasFiniteOutline (s : Shape Exact) : Prop :=
  ∀ v ∈ s.polygon, v.isFinite = true

/-- The area of a footprint measures it: it is that of every congruent footprint, never negative, and
quadratic in the lengths. -/
structure HasGeometricArea (s : Shape Exact) : Prop where
  congruent : ∀ t, IsCongruent s t → t.area = s.area
  nonneg : 0 ≤ s.area
  stretch : ∀ factor : ℝ, (s.stretch (.finite factor)).area = .finite (factor ^ 2) * s.area
  isValid : ∀ t, IsCongruent s t → t.isValid = s.isValid

section Outline

variable {β : Type}

theorem tail_append_take (outline : List β) :
    outline.tail ++ outline.take 1 = outline.rotate 1 := by
  cases outline with
  | nil => rfl
  | cons v rest => rw [List.rotate_cons_succ, List.rotate_zero]; rfl

theorem rotate_rotate_one (outline : List β) :
    (outline.rotate (outline.length - 1 % outline.length)).rotate 1 = outline := by
  rw [List.rotate_rotate]
  match outline with
  | [] => rfl
  | [v] => exact List.rotate_singleton v _
  | v :: w :: rest =>
    have start : 1 % (v :: w :: rest).length = 1 := Nat.mod_eq_of_lt (by simp)
    rw [start, Nat.sub_add_cancel (by simp), List.rotate_length]

end Outline

def signedTerm (a b : Fin 3 → ℝ) : ℝ :=
  a Space.x * b Space.y - b Space.x * a Space.y

theorem signedTerm_swap (a b : Fin 3 → ℝ) : signedTerm b a = -signedTerm a b := by
  unfold signedTerm
  ring

theorem doubledArea_eq (outline : List (Fin 3 → ℝ)) :
    doubledArea outline = (List.zipWith signedTerm outline (outline.rotate 1)).sum := by
  unfold doubledArea
  rw [tail_append_take, List.map_zip_eq_zipWith]
  rfl

theorem doubledArea_rotate (outline : List (Fin 3 → ℝ)) (n : Nat) :
    doubledArea (outline.rotate n) = doubledArea outline := by
  have next : (outline.rotate n).rotate 1 = (outline.rotate 1).rotate n := by
    rw [List.rotate_rotate, List.rotate_rotate, Nat.add_comm]
  rw [doubledArea_eq, doubledArea_eq, next,
    ← List.zipWith_rotate_distrib _ _ _ _ (List.length_rotate ..).symm]
  exact (List.rotate_perm _ n).sum_eq

theorem doubledArea_reverse (outline : List (Fin 3 → ℝ)) :
    doubledArea outline.reverse = -doubledArea outline := by
  have back := rotate_rotate_one outline
  generalize turned : outline.rotate (outline.length - 1 % outline.length) = last at back
  have length : last.length = outline.length := by rw [← turned, List.length_rotate]
  calc doubledArea outline.reverse
      = (List.zipWith signedTerm outline.reverse last.reverse).sum := by
        rw [doubledArea_eq, List.rotate_reverse, turned]
    _ = (List.zipWith signedTerm outline last).sum := by
        rw [← List.reverse_zipWith length.symm, List.sum_reverse]
    _ = ((List.zipWith signedTerm last outline).map Neg.neg).sum := by
        rw [List.zipWith_comm, List.map_zipWith]
        simp only [← signedTerm_swap]
    _ = -(List.zipWith signedTerm last (last.rotate 1)).sum := by
        rw [back, ← List.sum_neg]
    _ = -doubledArea outline := by
        rw [← doubledArea_eq, ← turned, doubledArea_rotate]

def Lists (s : Shape Exact) (outline : List (Fin 3 → ℝ)) : Prop :=
  s.polygon = outline.map Vec3.ofReal

namespace Lists

variable {s t : Shape Exact} {outline : List (Fin 3 → ℝ)}

theorem area_eq (lists : s.Lists outline) :
    s.area = if outline.length < 3 then 0 else .finite (|doubledArea outline| / 2) :=
  (congrArg (fun points => Shape.area ⟨points, s.height⟩) lists).trans (area_ofReal outline 0)

theorem translate (lists : s.Lists outline) (offset : Fin 3 → ℝ) :
    (s.translate (.ofReal offset)).Lists (outline.map (· + offset)) :=
  (congrArg (List.map (· + Vec3.ofReal offset)) lists).trans
    (congrArg polygon (translate_ofReal outline 0 offset))

theorem transform (lists : s.Lists outline) (T : FrameChange) :
    (s.transform T.pose).Lists (outline.map T.move) :=
  (congrArg (List.map T.pose.apply) lists).trans
    (congrArg polygon (transform_ofReal T outline 0))

theorem startingAt (lists : s.Lists outline) (n : Nat) :
    (s.startingAt n).Lists (outline.rotate n) :=
  (congrArg (List.rotate · n) lists).trans (List.map_rotate ..).symm

theorem turnedBack (lists : s.Lists outline) : s.turnedBack.Lists outline.reverse :=
  (congrArg List.reverse lists).trans List.map_reverse.symm

theorem stretch (lists : s.Lists outline) (factor : ℝ) :
    (s.stretch (.finite factor)).Lists
      (outline.map fun v => ![factor * v 0, factor * v 1, v 2]) := by
  unfold Lists Shape.stretch at *
  dsimp only
  rw [lists, List.map_map, List.map_map]
  rfl

end Lists

theorem doubledArea_map_add (offset : Fin 3 → ℝ) (outline : List (Fin 3 → ℝ)) :
    doubledArea (outline.map (· + offset)) = doubledArea outline := by
  have shifts (v : Fin 3 → ℝ) : v + offset =
      FrameChange.move ⟨⟨0, 0, 0, 1⟩, ⟨rfl, rfl, Quaternion.isUnit_identity⟩, offset⟩ v := by
    rw [FrameChange.move_eq, Quaternion.turn_identity, one_mulVec]
  simp only [shifts]
  exact doubledArea_map_move _ outline

theorem doubledArea_stretch (factor : ℝ) (outline : List (Fin 3 → ℝ)) :
    doubledArea (outline.map fun v => ![factor * v 0, factor * v 1, v 2]) =
      factor ^ 2 * doubledArea outline := by
  have edge (a b : Fin 3 → ℝ) :
      signedTerm ![factor * a 0, factor * a 1, a 2] ![factor * b 0, factor * b 1, b 2] =
        factor ^ 2 * signedTerm a b := by
    change factor * a 0 * (factor * b 1) - factor * b 0 * (factor * a 1) =
      factor ^ 2 * (a 0 * b 1 - b 0 * a 1)
    ring
  rw [doubledArea_eq, doubledArea_eq, ← List.map_rotate, List.zipWith_map]
  simp only [edge]
  rw [← List.map_zipWith, List.sum_map_mul_left, List.map_id']

theorem Redrawn.lists {s t : Shape Exact} {outline : List (Fin 3 → ℝ)} (redrawn : Redrawn s t)
    (lists : s.Lists outline) :
    ∃ other, t.Lists other ∧ other.length = outline.length ∧
      |doubledArea other| = |doubledArea outline| ∧ t.height = s.height := by
  cases redrawn with
  | translate offset =>
    exact ⟨_, lists.translate offset, List.length_map .., by rw [doubledArea_map_add], rfl⟩
  | transform T =>
    exact ⟨_, lists.transform T, List.length_map .., by rw [doubledArea_map_move], rfl⟩
  | startingAt n =>
    exact ⟨_, lists.startingAt n, List.length_rotate .., by rw [doubledArea_rotate], rfl⟩
  | turnedBack =>
    exact ⟨_, lists.turnedBack, List.length_reverse, by rw [doubledArea_reverse, abs_neg], rfl⟩

theorem IsCongruent.lists {s t : Shape Exact} {outline : List (Fin 3 → ℝ)}
    (congruent : IsCongruent s t) (lists : s.Lists outline) :
    ∃ other, t.Lists other ∧ other.length = outline.length ∧
      |doubledArea other| = |doubledArea outline| ∧ t.height = s.height := by
  induction congruent with
  | refl => exact ⟨outline, lists, rfl, rfl, rfl⟩
  | tail _ redrawn ih =>
    obtain ⟨between, listed, length, area, height⟩ := ih
    obtain ⟨other, last, length', area', height'⟩ := redrawn.lists listed
    exact ⟨other, last, length'.trans length, area'.trans area, height'.trans height⟩

/-- The area of a footprint with a finite outline is geometric. -/
theorem HasFiniteOutline.hasGeometricArea {s : Shape Exact} (finite : s.HasFiniteOutline) :
    s.HasGeometricArea := by
  obtain ⟨outline, lists⟩ : ∃ outline, s.Lists outline := Vec3.exists_map_ofReal finite
  have congruent (t : Shape Exact) (same : IsCongruent s t) : t.area = s.area := by
    obtain ⟨other, listed, length, area, -⟩ := same.lists lists
    rw [listed.area_eq, lists.area_eq, length, area]
  refine ⟨congruent, ?_, fun factor => ?_, fun t same => ?_⟩
  · rw [lists.area_eq, Exact.zero_eq]
    split_ifs
    · exact Exact.finite_le_finite.mpr le_rfl
    · exact Exact.finite_le_finite.mpr (by positivity)
  · rw [(lists.stretch factor).area_eq, lists.area_eq, List.length_map, doubledArea_stretch]
    split_ifs
    · rw [Exact.zero_eq, Exact.finite_mul_finite, mul_zero]
    · rw [Exact.finite_mul_finite, abs_mul, abs_of_nonneg (sq_nonneg factor), mul_div_assoc]
  · obtain ⟨other, listed, length, -, height⟩ := same.lists lists
    exact isValid_congr listed lists length height (congruent t same)

theorem hasGeometricArea_triangle :
    (ofReal [![0, 0, 0], ![2, 0, 0], ![0, 2, 0]] 1).HasFiniteOutline ∧
      (ofReal [![0, 0, 0], ![2, 0, 0], ![0, 2, 0]] 1).area = .finite 2 ∧
      (ofReal [![0, 0, 0], ![2, 0, 0], ![0, 2, 0]] 1).HasGeometricArea := by
  have finite : (ofReal [![0, 0, 0], ![2, 0, 0], ![0, 2, 0]] 1).HasFiniteOutline := by
    intro v mem
    obtain ⟨point, -, rfl⟩ := List.mem_map.mp mem
    exact Vec3.isFinite_iff.mpr ⟨point, rfl⟩
  refine ⟨finite, ?_, finite.hasGeometricArea⟩
  rw [area_ofReal, if_neg (by decide)]
  unfold doubledArea
  norm_num

end Shape

end TrackFusion
