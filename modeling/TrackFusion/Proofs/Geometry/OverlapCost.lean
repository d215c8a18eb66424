import Mathlib.Data.List.Induction
import TrackFusion.Geometry.Box

/-!
The entries of the table of overlap costs.

The candidates of a row are the regions that have a box, and their costs are put at the places of these
regions. No two candidates have one place, so every place ends with the cost of its own region, or as
infinite as it was.
-/

set_option autoImplicit false
set_option relaxedAutoImplicit false

namespace TrackFusion

namespace Box

variable {α β : Type}

theorem placed_concat (boxes : List (Option (Box α))) (last : Option (Box α)) :
    placed (boxes ++ [last]) =
      placed boxes ++ (last.map fun b => (boxes.length, b)).toList := by
  unfold placed
  rw [List.zipIdx_append, List.filterMap_append]
  cases last with
  | none => rfl
  | some b => simp

theorem join_getElem?_concat (boxes : List (Option (Box α))) (last : Option (Box α)) (j : Nat) :
    (boxes ++ [last])[j]?.join = if boxes.length = j then last else boxes[j]?.join := by
  split_ifs with here
  · rw [← here, List.getElem?_concat_length, Option.join_some]
  · congr 1
    rcases Nat.lt_or_gt_of_ne here with behind | before
    · rw [List.getElem?_eq_none (Nat.le_of_lt behind), List.getElem?_eq_none]
      rw [List.length_append, List.length_singleton]
      exact behind
    · exact List.getElem?_append_left before

theorem getElem_foldl_placed {n : Nat} (boxes : List (Option (Box α))) (value : Box α → β)
    (start : Vector β n) (j : Fin n) :
    ((placed boxes).foldl (fun filled e => filled.setIfInBounds e.1 (value e.2)) start)[j] =
      boxes[j.val]?.join.elim start[j] value := by
  induction boxes using List.reverseRecOn with
  | nil => rfl
  | append_singleton boxes last ih =>
    rw [placed_concat, List.foldl_append, join_getElem?_concat]
    cases last with
    | none =>
      refine ih.trans ?_
      split_ifs with here
      · rw [List.getElem?_eq_none (Nat.le_of_eq here)]
        rfl
      · rfl
    | some b =>
      change (Vector.setIfInBounds _ boxes.length (value b))[j.val] = _
      rw [Vector.getElem_setIfInBounds]
      split_ifs
      · rfl
      · exact ih

end Box

variable {α : Type} [ExtendedScalar α] {projections regions : List (Option (Box α))}

/-- Every entry is made of the two boxes that it stands for, and infinite if one of them is missing. -/
theorem entry_overlapCost (projections regions : List (Option (Box α)))
    (i : Fin projections.length) (j : Fin regions.length) :
    (overlapCost projections regions).entry i j =
      match projections.get i, regions.get j with
      | some projection, some region => 1 - projection.intersectionOverUnion region
      | _, _ => ExtendedScalar.infinity := by
  have row : (overlapCost projections regions).rows.get i =
      overlapRow regions.length ((Box.placed regions).map Prod.fst)
        ((Box.placed regions).map Prod.snd) (projections.get i) := by
    unfold overlapCost
    rw [List.unzip_eq_map]
    exact Vector.getElem_ofFn i.isLt
  have found : regions[j.val]?.join = regions.get j := by
    rw [List.getElem?_eq_getElem j.isLt]
    rfl
  unfold Mat.entry
  rw [row]
  cases projections.get i with
  | none => exact Vector.getElem_replicate j.isLt
  | some p =>
    rw [overlapRow, Box.intersectionsOverUnion, List.map_map, List.zip_map', List.foldl_map]
    refine (Box.getElem_foldl_placed regions (fun b => 1 - p.intersectionOverUnion b) _ j).trans ?_
    rw [found]
    cases regions.get j with
    | none => exact Vector.getElem_replicate j.isLt
    | some b => rfl

theorem entry_overlapCost_of_some {i : Fin projections.length} {j : Fin regions.length}
    {p b : Box α} (visible : projections.get i = some p) (outlined : regions.get j = some b) :
    (overlapCost projections regions).entry i j = 1 - p.intersectionOverUnion b := by
  rw [entry_overlapCost, visible, outlined]

end TrackFusion
