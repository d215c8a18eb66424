import TrackFusion.Camera
import TrackFusion.Geometry.Shape
import TrackFusion.Proofs.Geometry.Rotation

/-!
A change of the tracking frame: a rotation about the vertical axis and a translation.

A frame change moves points and shapes. It keeps heights above each other and the areas of
footprints, and a camera that is moved along sees every moved shape in the same box.
-/

set_option autoImplicit false
set_option relaxedAutoImplicit false

namespace TrackFusion

open Matrix

namespace Pose

section Group

variable {α : Type} [Scalar α]

def compose (a b : Pose α) : Pose α :=
  ⟨a.rotation.mul b.rotation, a.apply b.offset⟩

def inverse (a : Pose α) : Pose α :=
  ⟨a.rotation.conjugate, a.rotation.conjugate.rotate (-a.offset)⟩

end Group

noncomputable def ofReal (q : Quaternion ℝ) (offset : Fin 3 → ℝ) : Pose Exact :=
  ⟨q.ofReal, .ofReal offset⟩

variable {p q : Quaternion ℝ}

theorem eq_ofReal {pose : Pose Exact} {offset : Fin 3 → ℝ} (turned : pose.rotation = q.ofReal)
    (moved : pose.offset = .ofReal offset) : pose = ofReal q offset := by
  cases pose
  dsimp only at turned moved
  rw [turned, moved]
  rfl

theorem apply_ofReal (unit : q.IsUnit) (offset v : Fin 3 → ℝ) :
    (ofReal q offset).apply (.ofReal v) = .ofReal (q.turn *ᵥ v + offset) := by
  unfold apply ofReal
  rw [unit.rotate_ofReal, Vec3.ofReal_add]

theorem compose_ofReal (unit : p.IsUnit) (a b : Fin 3 → ℝ) :
    (ofReal p a).compose (ofReal q b) = ofReal (p.mul q) (p.turn *ᵥ b + a) := by
  refine (congrArg₂ Pose.mk (Quaternion.mul_ofReal p q) ?_ :)
  exact apply_ofReal unit a b

theorem inverse_ofReal (unit : q.IsUnit) (offset : Fin 3 → ℝ) :
    (ofReal q offset).inverse = ofReal q.conjugate (q.turnᵀ *ᵥ -offset) := by
  unfold inverse ofReal
  rw [Quaternion.conjugate_ofReal, Vec3.neg_ofReal, unit.conjugate.rotate_ofReal,
    Quaternion.turn_conjugate]

theorem exists_ofReal_of_apply {pose : Pose Exact} {v : Vec3 Exact} {s : Fin 3 → ℝ}
    (moved : pose.apply v = .ofReal s) :
    (∃ offset, pose.offset = .ofReal offset) ∧ ∃ w, v = .ofReal w := by
  obtain ⟨⟨r, turned⟩, offset⟩ := Vec3.exists_ofReal_of_add moved
  exact ⟨offset, Quaternion.exists_ofReal_of_rotate turned⟩

end Pose

/-- A rotation about the vertical axis, followed by a translation. -/
structure FrameChange where
  rotation : Quaternion ℝ
  yaw : rotation.IsYaw
  offset : Fin 3 → ℝ

namespace FrameChange

noncomputable def pose (T : FrameChange) : Pose Exact :=
  .ofReal T.rotation T.offset

def turning (T : FrameChange) : FrameChange :=
  { T with offset := 0 }

noncomputable def move (T : FrameChange) (v : Fin 3 → ℝ) : Fin 3 → ℝ :=
  T.rotation.turn *ᵥ v + T.offset

theorem pose_apply (T : FrameChange) (v : Fin 3 → ℝ) :
    T.pose.apply (.ofReal v) = .ofReal (T.move v) :=
  Pose.apply_ofReal T.yaw.unit T.offset v

end FrameChange

theorem FrameChange.move_eq (T : FrameChange) (v : Fin 3 → ℝ) :
    T.move v = T.rotation.turn *ᵥ v + T.offset :=
  rfl

theorem FrameChange.rotate_ofReal (T : FrameChange) (v : Fin 3 → ℝ) :
    T.pose.rotation.rotate (.ofReal v) = .ofReal (T.rotation.turn *ᵥ v) :=
  T.yaw.unit.rotate_ofReal v

theorem FrameChange.toMatrix_pose (T : FrameChange) :
    T.pose.rotation.toMatrix = Mat.ofReal T.rotation.turn :=
  Quaternion.toMatrix_ofReal T.rotation

theorem FrameChange.move_turn_add (T : FrameChange) (q : Quaternion ℝ) (offset v : Fin 3 → ℝ) :
    T.move (q.turn *ᵥ v + offset) = (T.rotation.mul q).turn *ᵥ v + T.move offset := by
  rw [T.move_eq, T.move_eq, Quaternion.turn_mul, ← mulVec_mulVec, mulVec_add, add_assoc]

theorem Quaternion.IsYaw.turn_eq {q : Quaternion ℝ} (yaw : q.IsYaw) :
    q.turn = !![q.w * q.w - q.k * q.k, -(2 * (q.w * q.k)), 0;
      2 * (q.w * q.k), q.w * q.w - q.k * q.k, 0; 0, 0, 1] := by
  ext a b
  fin_cases a <;> fin_cases b <;> simp [turn, yaw.i, yaw.j]
  linear_combination yaw.vertical_add_real

theorem Quaternion.IsYaw.mul {p q : Quaternion ℝ} (first : p.IsYaw) (second : q.IsYaw) :
    (p.mul q).IsYaw := by
  refine ⟨?_, ?_, first.unit.mul second.unit⟩
  · simp [Quaternion.mul, first.i, first.j, second.i, second.j]
  · simp [Quaternion.mul, first.i, first.j, second.i, second.j]

namespace Shape

noncomputable def ofReal (outline : List (Fin 3 → ℝ)) (height : ℝ) : Shape Exact :=
  ⟨outline.map Vec3.ofReal, .finite height⟩

def IsReal (s : Shape Exact) : Prop :=
  ∃ outline height, s = ofReal outline height

theorem isReal_of_isFinite {s : Shape Exact} (polygon : ∀ v ∈ s.polygon, v.isFinite = true)
    (height : Scalar.isFinite s.height = true) : s.IsReal := by
  obtain ⟨h, same⟩ := Exact.isFinite_iff.mp height
  obtain ⟨outline, points⟩ := Vec3.exists_map_ofReal polygon
  exact ⟨outline, h, by rw [ofReal, ← points, ← same]⟩

theorem isReal_of_isValid {s : Shape Exact} (valid : s.isValid = true) : s.IsReal := by
  simp only [isValid, Bool.and_eq_true, List.all_eq_true] at valid
  exact isReal_of_isFinite valid.1.1.1.2 valid.1.1.2

theorem transform_ofReal_of_apply {pose : Pose Exact} {f : (Fin 3 → ℝ) → Fin 3 → ℝ}
    (moves : ∀ v, pose.apply (.ofReal v) = .ofReal (f v)) (outline : List (Fin 3 → ℝ))
    (height : ℝ) : (ofReal outline height).transform pose = ofReal (outline.map f) height := by
  unfold transform ofReal
  simp only [List.map_map]
  congr 2
  funext v
  exact moves v

theorem transform_ofReal (T : FrameChange) (outline : List (Fin 3 → ℝ)) (height : ℝ) :
    (ofReal outline height).transform T.pose = ofReal (outline.map T.move) height :=
  transform_ofReal_of_apply T.pose_apply outline height

theorem translate_ofReal (outline : List (Fin 3 → ℝ)) (height : ℝ) (u : Fin 3 → ℝ) :
    (ofReal outline height).translate (.ofReal u) = ofReal (outline.map (· + u)) height := by
  unfold translate ofReal
  simp only [List.map_map]
  rfl

/-- The doubled signed area of a real outline. -/
def doubledArea (outline : List (Fin 3 → ℝ)) : ℝ :=
  ((outline.zip (outline.tail ++ outline.take 1)).map fun e =>
    e.1 Space.x * e.2 Space.y - e.2 Space.x * e.1 Space.y).sum

theorem area_ofReal (outline : List (Fin 3 → ℝ)) (height : ℝ) :
    (ofReal outline height).area =
      if outline.length < 3 then 0 else .finite (|doubledArea outline| / 2) := by
  have terms : (edges (outline.map Vec3.ofReal)).map (fun (a, b) => edgeTerm a b) =
      ((outline.zip (outline.tail ++ outline.take 1)).map
        fun e => e.1 0 * e.2 1 - e.2 0 * e.1 1).map Exact.finite := by
    unfold edges
    rw [← List.map_tail, ← List.map_take, ← List.map_append, List.zip_map, List.map_map,
      List.map_map]
    rfl
  unfold area ofReal
  simp only [List.length_map]
  rw [terms, Exact.sum_finite, Exact.abs_finite, Exact.two_eq, Exact.finite_div_finite two_ne_zero]
  rfl

theorem sum_differences (f : (Fin 3 → ℝ) → ℝ) (outline : List (Fin 3 → ℝ)) :
    ((outline.zip (outline.tail ++ outline.take 1)).map fun e => f e.2 - f e.1).sum = 0 := by
  have same : (outline.tail ++ outline.take 1).length = outline.length := by
    cases outline <;> simp
  have seconds : ((outline.zip (outline.tail ++ outline.take 1)).map fun e => f e.2).sum =
      (outline.map f).sum := by
    rw [← Function.comp_def f Prod.snd, ← List.map_map, List.map_snd_zip same.le]
    cases outline with
    | nil => rfl
    | cons v rest => simp [add_comm]
  have firsts : ((outline.zip (outline.tail ++ outline.take 1)).map fun e => f e.1).sum =
      (outline.map f).sum := by
    rw [← Function.comp_def f Prod.fst, ← List.map_map, List.map_fst_zip same.ge]
  have split : ((outline.zip (outline.tail ++ outline.take 1)).map fun e => f e.2).sum =
      ((outline.zip (outline.tail ++ outline.take 1)).map fun e => f e.2 - f e.1).sum +
        ((outline.zip (outline.tail ++ outline.take 1)).map fun e => f e.1).sum := by
    rw [← List.sum_map_add]
    simp only [sub_add_cancel]
  linarith

theorem doubledArea_map_move (T : FrameChange) (outline : List (Fin 3 → ℝ)) :
    doubledArea (outline.map T.move) = doubledArea outline := by
  -- an edge contributes what it did before, and a multiple of a difference along it
  have edge (a b : Fin 3 → ℝ) : T.move a 0 * T.move b 1 - T.move b 0 * T.move a 1 =
      (a 0 * b 1 - b 0 * a 1) +
        ((T.offset 0 * (T.rotation.turn *ᵥ b) 1 - T.offset 1 * (T.rotation.turn *ᵥ b) 0) -
          (T.offset 0 * (T.rotation.turn *ᵥ a) 1 - T.offset 1 * (T.rotation.turn *ᵥ a) 0)) := by
    unfold FrameChange.move
    rw [T.yaw.turn_eq]
    simp [mulVec, dotProduct, Fin.sum_univ_three]
    linear_combination (a 0 * b 1 - b 0 * a 1) * T.yaw.cosine_sq_add_sine_sq
  unfold doubledArea
  rw [← List.map_tail, ← List.map_take, ← List.map_append, List.zip_map, List.map_map]
  simp only [Function.comp_def, Prod.map, edge]
  rw [List.sum_map_add, sum_differences (fun v => T.offset 0 * (T.rotation.turn *ᵥ v) 1 -
    T.offset 1 * (T.rotation.turn *ᵥ v) 0), add_zero]

theorem area_transform {s : Shape Exact} (real : s.IsReal) (T : FrameChange) :
    (s.transform T.pose).area = s.area := by
  obtain ⟨outline, height, rfl⟩ := real
  rw [transform_ofReal, area_ofReal, area_ofReal, doubledArea_map_move, List.length_map]

/-- Whether a shape on real points is valid depends on their number, the height and the area. -/
theorem isValid_congr {s t : Shape Exact} {first second : List (Fin 3 → ℝ)}
    (points : s.polygon = first.map Vec3.ofReal) (others : t.polygon = second.map Vec3.ofReal)
    (length : first.length = second.length) (height : s.height = t.height)
    (area : s.area = t.area) : s.isValid = t.isValid := by
  have every (outline : List (Fin 3 → ℝ)) : (outline.map Vec3.ofReal).all Vec3.isFinite = true := by
    rw [List.all_map, List.all_eq_true]
    exact fun v _ => Vec3.isFinite_iff.mpr ⟨v, rfl⟩
  unfold isValid
  rw [points, others, every, every, List.length_map, List.length_map, length, height, area]

theorem isValid_transform {s : Shape Exact} (real : s.IsReal) (T : FrameChange) :
    (s.transform T.pose).isValid = s.isValid := by
  have area := area_transform real T
  obtain ⟨outline, height, rfl⟩ := real
  exact isValid_congr (congrArg polygon (transform_ofReal T outline height)) rfl
    (List.length_map ..) rfl area

theorem vertices_ofReal (outline : List (Fin 3 → ℝ)) (height : ℝ) :
    (ofReal outline height).vertices =
      (outline ++ outline.map (· + ![0, 0, height])).map Vec3.ofReal := by
  unfold vertices ofReal
  rw [List.map_append, List.map_map, List.map_map]
  rfl

end Shape

theorem FrameChange.move_raise (T : FrameChange) (v : Fin 3 → ℝ) (height : ℝ) :
    T.move (v + ![0, 0, height]) = T.move v + ![0, 0, height] := by
  unfold move
  rw [mulVec_add, T.yaw.turn_eq, add_right_comm]
  congr 1
  ext a
  fin_cases a <;> simp [mulVec, dotProduct, Fin.sum_univ_three]

def Pose.IsRigid (pose : Pose Exact) : Prop :=
  ∃ q : Quaternion ℝ, q.IsUnit ∧ pose.rotation = q.ofReal

noncomputable def Pose.after (view : Pose Exact) (T : FrameChange) : Pose Exact :=
  view.compose T.pose.inverse

theorem Pose.apply_eq_add {view : Pose Exact} {q : Quaternion ℝ} (unit : q.IsUnit)
    (turned : view.rotation = q.ofReal) (v : Fin 3 → ℝ) :
    view.apply (.ofReal v) = .ofReal (q.turn *ᵥ v) + view.offset := by
  unfold apply
  rw [turned, unit.rotate_ofReal]

/-- The moved camera sees the moved points where the camera saw the points. -/
theorem Pose.apply_after (T : FrameChange) {view : Pose Exact} (rigid : view.IsRigid)
    (v : Fin 3 → ℝ) :
    (∃ w, view.apply (.ofReal v) = .ofReal w ∧
      (view.after T).apply (.ofReal (T.move v)) = .ofReal w) ∨
    ((view.apply (.ofReal v)).isFinite = false ∧
      ((view.after T).apply (.ofReal (T.move v))).isFinite = false) := by
  obtain ⟨q, unit, turned⟩ := rigid
  have back := T.yaw.unit.conjugate
  by_cases finite : ∃ offset, view.offset = .ofReal offset
  · left
    obtain ⟨offset, same⟩ := finite
    obtain rfl := eq_ofReal turned same
    refine ⟨q.turn *ᵥ v + offset, apply_ofReal unit offset v, ?_⟩
    unfold after FrameChange.pose
    rw [inverse_ofReal T.yaw.unit, compose_ofReal unit, apply_ofReal (unit.mul back)]
    congr 1
    rw [Quaternion.turn_mul, Quaternion.turn_conjugate, FrameChange.move, mulVec_add, mulVec_mulVec,
      Matrix.mul_assoc, T.yaw.unit.transpose_turn_mul, Matrix.mul_one, ← mulVec_mulVec, mulVec_neg,
      mulVec_neg]
    abel
  · right
    have infinite (r : Fin 3 → ℝ) : (Vec3.ofReal r + view.offset).isFinite = false := by
      rw [Bool.eq_false_iff]
      intro sum
      obtain ⟨w, same⟩ := Vec3.isFinite_iff.mp sum
      exact finite (Vec3.exists_ofReal_of_add same).2
    have turned' : (view.after T).rotation = (q.mul T.rotation.conjugate).ofReal := by
      change view.rotation.mul _ = _
      rw [turned]
      exact Quaternion.mul_ofReal q T.rotation.conjugate
    constructor
    · rw [apply_eq_add unit turned]
      exact infinite _
    · rw [apply_eq_add (unit.mul back) turned']
      rw [Bool.eq_false_iff]
      intro sum
      obtain ⟨w, same⟩ := Vec3.isFinite_iff.mp sum
      -- the offset of the moved camera is the old one and a real vector
      obtain ⟨-, offset, offset_eq⟩ := Vec3.exists_ofReal_of_add same
      exact finite (Vec3.exists_ofReal_of_add offset_eq).2

namespace Intrinsics

theorem project?_of_not_finite (camera : Intrinsics Exact) {v : Vec3 Exact}
    (infinite : v.isFinite = false) : camera.project? v = none := by
  unfold project?
  rw [infinite, Bool.not_false, Bool.or_true, if_pos rfl]

theorem project?_after (camera : Intrinsics Exact) (T : FrameChange) {view : Pose Exact}
    (rigid : view.IsRigid) (v : Fin 3 → ℝ) :
    camera.project? ((view.after T).apply (.ofReal (T.move v))) =
      camera.project? (view.apply (.ofReal v)) := by
  rcases Pose.apply_after T rigid v with ⟨w, before, after⟩ | ⟨before, after⟩
  · rw [before, after]
  · rw [camera.project?_of_not_finite before, camera.project?_of_not_finite after]

/-- A camera that is moved along sees a moved shape in the same box. -/
theorem projectShape?_after (camera : Intrinsics Exact) (T : FrameChange) {view : Pose Exact}
    (rigid : view.IsRigid) {s : Shape Exact} (real : s.IsReal) :
    camera.projectShape? (view.after T) (s.transform T.pose) = camera.projectShape? view s := by
  obtain ⟨outline, height, rfl⟩ := real
  have pixels : ((Shape.ofReal outline height).transform T.pose).vertices.filterMap
        (fun v => camera.project? ((view.after T).apply v)) =
      (Shape.ofReal outline height).vertices.filterMap
        fun v => camera.project? (view.apply v) := by
    have raised : outline.map T.move ++ (outline.map T.move).map (· + ![0, 0, height]) =
        (outline ++ outline.map (· + ![0, 0, height])).map T.move := by
      rw [List.map_append, List.map_map, List.map_map]
      congr 2
      funext v
      exact (T.move_raise v height).symm
    rw [Shape.transform_ofReal, Shape.vertices_ofReal, Shape.vertices_ofReal, raised,
      List.filterMap_map, List.filterMap_map, List.filterMap_map]
    congr 1
    funext v
    exact camera.project?_after T rigid v
  unfold projectShape?
  rw [pixels]

end Intrinsics

end TrackFusion
