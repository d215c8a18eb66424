import TrackFusion.Proofs.Association.Contract
import TrackFusion.Proofs.Track.FrameChange

/-!
Associations do not depend on the tracking frame.

Moved tracks and moved detections are as far apart as the tracks and the detections, their
footprints have the same areas, and a camera that is moved along sees moved shapes in the same
boxes. All pairs therefore cost the same in both frames, and a solver that is given the same costs
answers the same.
-/

set_option autoImplicit false
set_option relaxedAutoImplicit false

namespace TrackFusion

open Matrix

variable {π : Type} (T : FrameChange)

/-- One detection is the other one, seen from the new frame: both are valid or none is, and a
valid one is moved. -/
structure Detection.MovesTo (d d' : Detection Exact π) : Prop where
  sameValid : d'.isValid = d.isValid
  real : d.isValid = true → d.IsReal
  moved : d.isValid = true → d' = d.moveBy T

namespace ObjectGates

variable {t : Track Exact π} {d : Detection Exact π}

theorem planarDistance_moveBy (real : t.IsReal) (detected : d.IsReal) :
    planarDistance (t.moveBy T) (d.moveBy T) = planarDistance t d := by
  obtain ⟨⟨p, position⟩, moved⟩ := real.position_moveBy T
  obtain ⟨c, centroid⟩ := detected.centroid
  have length (v w : Fin 3 → ℝ) : (Vec3.ofReal v - Vec3.ofReal w).planar.norm =
      Scalar.sqrt (.finite ((v 0 - w 0) * (v 0 - w 0) + (v 1 - w 1) * (v 1 - w 1))) := by
    rw [Vec3.ofReal_sub]
    rfl
  unfold planarDistance
  change (T.pose.apply d.centroid - (t.moveBy T).position).planar.norm = _
  rw [moved, position, centroid, T.pose_apply, T.pose_apply, length, length, T.move_eq, T.move_eq,
    T.yaw.turn_eq]
  congr 2
  simp [dotProduct, Fin.sum_univ_three]
  linear_combination ((c 0 - p 0) * (c 0 - p 0) + (c 1 - p 1) * (c 1 - p 1)) *
    T.yaw.cosine_sq_add_sine_sq

theorem cost_moveBy (gates : ObjectGates Exact) (real : t.IsReal) (detected : d.IsReal) :
    gates.cost (t.moveBy T) (d.moveBy T) = gates.cost t d := by
  have distance := planarDistance_moveBy T real detected
  have trackArea := real.shapeArea_moveBy T
  have area : (d.moveBy T).shape.area = d.shape.area := Shape.area_transform detected.shape T
  have gating := real.mahalanobisDistance_moveBy T detected
  unfold planarDistance at distance
  unfold cost
  rw [distance, trackArea, area, gating]

/-- The association of moved detections with moved tracks is the one of the detections with the
tracks. -/
theorem associate_moveBy (gates : ObjectGates Exact) (solver : Solver)
    {tracks : List (Track Exact π)} {detections detections' : List (Detection Exact π)}
    (real : ∀ t ∈ tracks, t.IsReal)
    (moves : List.Forall₂ (Detection.MovesTo T) detections detections') :
    gates.associate solver detections' (tracks.map (Track.moveBy T)) =
      gates.associate solver detections tracks := by
  have errors : (detections'.any fun d => !d.isValid) = detections.any fun d => !d.isValid := by
    induction moves with
    | nil => rfl
    | cons first _ ih => rw [List.any_cons, List.any_cons, ih, first.sameValid]
  unfold associate
  rw [errors]
  refine Association.ofMatching_congr (List.length_map _) moves.length_eq.symm (fun i j => ?_) _ _ _
  have member : tracks.get (i.cast (List.length_map _)) ∈ tracks := List.get_mem _ _
  have track : (tracks.map (Track.moveBy T)).get i =
      (tracks.get (i.cast (List.length_map _))).moveBy T := List.getElem_map _
  have moved : Detection.MovesTo T (detections.get (j.cast moves.length_eq.symm))
      (detections'.get j) := moves.get _ j.isLt
  unfold costs
  rw [Mat.entry_ofFn, Mat.entry_ofFn, track, moved.sameValid]
  by_cases valid : (detections.get (j.cast moves.length_eq.symm)).isValid = true
  · rw [if_pos valid, if_pos valid, moved.moved valid]
    exact gates.cost_moveBy T (real _ member) (moved.real valid)
  · rw [if_neg valid, if_neg valid]

end ObjectGates

namespace VisionGates

/-- A camera that is moved along is associated with moved shapes as it was with the shapes. -/
theorem associateShapes_after (gates : VisionGates Exact) (solver : Solver)
    (regions : List (Region Exact π)) {shapes : List (Shape Exact)} {view : Pose Exact}
    (rigid : view.IsRigid) (real : ∀ s ∈ shapes, s.IsReal) :
    gates.associateShapes solver regions (shapes.map fun s => s.transform T.pose) (view.after T) =
      gates.associateShapes solver regions shapes view := by
  have visible : gates.projections (view.after T) (shapes.map fun s => s.transform T.pose) =
      gates.projections view shapes := by
    unfold projections
    rw [List.map_map]
    exact List.map_congr_left fun s member =>
      gates.intrinsics.projectShape?_after T rigid (real s member)
  unfold associateShapes
  rw [visible, List.length_map]

theorem associate_after (gates : VisionGates Exact) (solver : Solver)
    (regions : List (Region Exact π)) {tracks : List (Track Exact π)} {view : Pose Exact}
    (rigid : view.IsRigid) (real : ∀ t ∈ tracks, t.IsReal) :
    gates.associate solver regions (view.after T) (tracks.map (Track.moveBy T)) =
      gates.associate solver regions view tracks := by
  have shapes : (tracks.map (Track.moveBy T)).map Track.shape =
      (tracks.map Track.shape).map fun s => s.transform T.pose := by
    rw [List.map_map, List.map_map]
    exact List.map_congr_left fun t member => ((real t member).shape_moveBy T).2
  unfold associate
  rw [shapes]
  refine gates.associateShapes_after T solver regions rigid fun s member => ?_
  obtain ⟨t, listed, rfl⟩ := List.mem_map.mp member
  exact ((real t listed).shape_moveBy T).1

end VisionGates

end TrackFusion
