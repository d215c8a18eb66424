import Mathlib.Algebra.Order.Monoid.Prod
import Mathlib.Analysis.Convex.Hull
import TrackFusion.Proofs.Geometry.Box
import TrackFusion.Proofs.Geometry.FrameChange

/-!
What a camera shows of a shape.

The perspective division carries a segment in front of the camera into a segment of the image. So
what lies between the corners of a shape appears between the pixels of the corners, and clipping the
box around these pixels to the image keeps all that the image shows.
-/

set_option autoImplicit false
set_option relaxedAutoImplicit false

namespace TrackFusion

open Matrix

noncomputable section

namespace Shape

def corners (s : Shape Exact) : Set (Fin 3 → ℝ) :=
  {v | Vec3.ofReal v ∈ s.vertices}

/-- The points of the extruded shape: the weighted means of its corners. -/
def hull (s : Shape Exact) : Set (Fin 3 → ℝ) :=
  convexHull ℝ s.corners

theorem mem_corners_ofReal {outline : List (Fin 3 → ℝ)} {height : ℝ} {v : Fin 3 → ℝ} :
    v ∈ (ofReal outline height).corners ↔ v ∈ outline ++ outline.map (· + ![0, 0, height]) := by
  unfold corners
  rw [Set.mem_ofPred_eq, vertices_ofReal, List.mem_map_of_injective Vec3.ofReal_injective]

end Shape

namespace Intrinsics

def ofReal (camera : Intrinsics ℝ) : Intrinsics Exact :=
  ⟨.finite camera.width, .finite camera.height, .finite camera.fx, .finite camera.fy,
    .finite camera.ox, .finite camera.oy⟩

variable (camera : Intrinsics ℝ)

def image : Set (ℝ × ℝ) :=
  Set.Icc 0 (camera.width, camera.height)

def pixels (view : Pose Exact) (points : Set (Fin 3 → ℝ)) : Set (ℝ × ℝ) :=
  {u | ∃ v ∈ points, camera.ofReal.project? (view.apply (.ofReal v)) = some (.ofReal u)}

def appearance (view : Pose Exact) (s : Shape Exact) : Set (ℝ × ℝ) :=
  camera.pixels view s.hull ∩ camera.image

/-- A side of a box, where one coordinate is constant, lies on the border of the image or in line
with the pixel of a corner, which touches the side if it lies in the image. -/
def Anchored (view : Pose Exact) (s : Shape Exact) (box : Set (ℝ × ℝ)) (coordinate : ℝ × ℝ → ℝ)
    (side border : ℝ) : Prop :=
  side = border ∨
    ∃ u ∈ camera.pixels view s.corners, coordinate u = side ∧ (u ∈ camera.image → u ∈ box)

/-- The box between two points shows all of a shape that is in the image, and no more than the
corners and the image require. -/
structure Frames (view : Pose Exact) (s : Shape Exact) (a b : ℝ × ℝ) : Prop where
  covers : camera.appearance view s ⊆ Set.Icc a b
  inside : 0 ≤ a ∧ b ≤ (camera.width, camera.height)
  left : camera.Anchored view s (Set.Icc a b) Prod.fst a.1 0
  top : camera.Anchored view s (Set.Icc a b) Prod.snd a.2 0
  right : camera.Anchored view s (Set.Icc a b) Prod.fst b.1 camera.width
  bottom : camera.Anchored view s (Set.Icc a b) Prod.snd b.2 camera.height

def place (w : Fin 3 → ℝ) : ℝ × ℝ :=
  (camera.fx * w Space.x / w Space.z + camera.ox, camera.fy * w Space.y / w Space.z + camera.oy)

def Ahead (w : Fin 3 → ℝ) : Prop :=
  Scalar.epsilon < Exact.finite (w Space.z)

theorem exists_ahead_iff : ∃ ε : ℝ, 0 < ε ∧ ∀ w, Ahead w ↔ ε < w 2 := by
  unfold Ahead Scalar.epsilon
  rw [Exact.scientific_eq]
  exact ⟨_, by positivity, fun w => Exact.finite_lt_finite⟩

theorem Ahead.pos {w : Fin 3 → ℝ} (ahead : Ahead w) : 0 < w 2 := by
  obtain ⟨ε, positive, far⟩ := exists_ahead_iff
  exact positive.trans ((far w).mp ahead)

theorem Ahead.project? {w : Fin 3 → ℝ} (ahead : Ahead w) :
    camera.ofReal.project? (.ofReal w) = some (.ofReal (camera.place w)) := by
  have visible : ¬ Exact.finite (w 2) ≤ Scalar.epsilon := ahead.2
  have finite : (Vec3.ofReal w).isFinite = true := Vec3.isFinite_iff.mpr ⟨w, rfl⟩
  have depth : w 2 ≠ 0 := ahead.pos.ne'
  unfold Intrinsics.project? ofReal
  rw [finite]
  simp only [Vec3.ofReal_eq, visible, decide_false, Bool.not_true, Bool.or_false,
    Bool.false_eq_true, if_false, Exact.finite_mul_finite, Exact.finite_div_finite depth,
    Exact.finite_add_finite]
  rfl

theorem place_mem_segment {u v w : Fin 3 → ℝ} (first : 0 < u 2) (second : 0 < v 2)
    (between : w ∈ segment ℝ u v) :
    camera.place w ∈ segment ℝ (camera.place u) (camera.place v) := by
  obtain ⟨s, t, nonneg, nonneg', one, rfl⟩ := between
  -- the weights of the places are those of the points times their share of the depth
  have depth : 0 < s * u 2 + t * v 2 := by
    rcases nonneg.eq_or_lt with zero | positive
    · have : t = 1 := by linarith
      rw [← zero, this]
      linarith
    · have := mul_pos positive first
      have := mul_nonneg nonneg' second.le
      linarith
  refine ⟨s * u 2 / (s * u 2 + t * v 2), t * v 2 / (s * u 2 + t * v 2), ?_, ?_, ?_, ?_⟩
  · exact div_nonneg (mul_nonneg nonneg first.le) depth.le
  · exact div_nonneg (mul_nonneg nonneg' second.le) depth.le
  · rw [← add_div, div_self depth.ne']
  · have := first.ne'
    have := second.ne'
    have := depth.ne'
    unfold place
    ext
    · simp only [Prod.fst_add, Prod.smul_fst, smul_eq_mul, Pi.add_apply, Pi.smul_apply]
      field_simp
      ring
    · simp only [Prod.snd_add, Prod.smul_snd, smul_eq_mul, Pi.add_apply, Pi.smul_apply]
      field_simp
      ring

theorem convex_setOf_place_mem {K : Set (ℝ × ℝ)} (convex : Convex ℝ K) :
    Convex ℝ {w | Ahead w ∧ camera.place w ∈ K} := by
  obtain ⟨ε, -, far⟩ := exists_ahead_iff
  rw [convex_iff_segment_subset]
  rintro u ⟨first, inside⟩ v ⟨second, inside'⟩ w between
  refine ⟨?_, convex.segment_subset inside inside'
    (camera.place_mem_segment first.pos second.pos between)⟩
  obtain ⟨s, t, nonneg, nonneg', one, rfl⟩ := between
  rw [far] at first second ⊢
  exact convex_Ioi ε first second nonneg nonneg' one

/-- A side that clipping leaves at an extreme of the pixels, or puts on the border, is anchored. -/
theorem anchored_of_clipped {view : Pose Exact} {s : Shape Exact} {box : Set (ℝ × ℝ)}
    (covers : camera.appearance view s ⊆ box) {coordinate : ℝ × ℝ → ℝ} {side extreme border : ℝ}
    (clipped : side = extreme ∨ side = border)
    (reached : ∃ u ∈ camera.pixels view s.corners, coordinate u = extreme) :
    camera.Anchored view s box coordinate side border := by
  rcases clipped with rfl | rfl
  · obtain ⟨u, ⟨v, corner, seen⟩, same⟩ := reached
    have point : u ∈ camera.pixels view s.hull := ⟨v, subset_convexHull ℝ _ corner, seen⟩
    exact .inr ⟨u, ⟨v, corner, seen⟩, same, fun inside => covers ⟨point, inside⟩⟩
  · exact .inl rfl

def places (q : Quaternion ℝ) (offset : Fin 3 → ℝ) (outline : List (Fin 3 → ℝ)) (height : ℝ) :
    List (ℝ × ℝ) :=
  (outline ++ outline.map (· + ![0, 0, height])).map fun v => camera.place (q.turn *ᵥ v + offset)

section Rigid

variable {q : Quaternion ℝ} {offset : Fin 3 → ℝ} {outline : List (Fin 3 → ℝ)} {height : ℝ}

theorem hull_ahead {s : Shape Exact} {K : Set (ℝ × ℝ)} (convex : Convex ℝ K)
    (corners : ∀ v ∈ s.corners,
      Ahead (q.turn *ᵥ v + offset) ∧ camera.place (q.turn *ᵥ v + offset) ∈ K) :
    ∀ v ∈ s.hull, Ahead (q.turn *ᵥ v + offset) ∧ camera.place (q.turn *ᵥ v + offset) ∈ K := by
  have region := camera.convex_setOf_place_mem convex
  have moved := (region.translate_preimage_left offset).linear_preimage q.turn.mulVecLin
  exact fun v member => convexHull_min corners moved member

variable (unit : q.IsUnit)

include unit

theorem ahead_of_depth
    (depth : ∀ v ∈ (Shape.ofReal outline height).vertices,
      Scalar.epsilon < ((Pose.ofReal q offset).apply v).z) :
    ∀ v ∈ (Shape.ofReal outline height).corners, Ahead (q.turn *ᵥ v + offset) := by
  intro v corner
  have far := depth _ corner
  rw [Pose.apply_ofReal unit] at far
  exact far

theorem mem_pixels_iff {points : Set (Fin 3 → ℝ)}
    (ahead : ∀ v ∈ points, Ahead (q.turn *ᵥ v + offset)) {u : ℝ × ℝ} :
    u ∈ camera.pixels (.ofReal q offset) points ↔
      ∃ v ∈ points, camera.place (q.turn *ᵥ v + offset) = u := by
  refine exists_congr fun v => and_congr_right fun member => ?_
  rw [Pose.apply_ofReal unit, (ahead v member).project? camera]
  exact ⟨fun same => Vec2.ofReal_injective (Option.some.inj same), fun same => same ▸ rfl⟩

variable (ahead : ∀ v ∈ (Shape.ofReal outline height).corners, Ahead (q.turn *ᵥ v + offset))

include ahead

theorem mem_pixels_corners_iff {u : ℝ × ℝ} :
    u ∈ camera.pixels (.ofReal q offset) (Shape.ofReal outline height).corners ↔
      u ∈ camera.places q offset outline height := by
  rw [camera.mem_pixels_iff unit ahead, places, List.mem_map]
  exact exists_congr fun v => and_congr_left fun _ => Shape.mem_corners_ofReal

theorem appearance_subset {a b : ℝ × ℝ}
    (within : ∀ u ∈ camera.places q offset outline height, u ∈ Set.Icc a b) :
    camera.appearance (.ofReal q offset) (.ofReal outline height) ⊆
      Set.Icc (a ⊔ 0) (b ⊓ (camera.width, camera.height)) := by
  have seen := camera.hull_ahead (convex_Icc a b) fun v member =>
    ⟨ahead v member, within _ ((camera.mem_pixels_corners_iff unit ahead).mp
      ((camera.mem_pixels_iff unit ahead).mpr ⟨v, member, rfl⟩))⟩
  rintro u ⟨shown, inside⟩
  obtain ⟨v, member, rfl⟩ :=
    (camera.mem_pixels_iff unit fun v member => (seen v member).1).mp shown
  rw [← Set.Icc_inter_Icc]
  exact ⟨(seen v member).2, inside⟩

theorem projectShape?_ofReal :
    camera.ofReal.projectShape? (.ofReal q offset) (.ofReal outline height) =
      (Box.ofPoints? ((camera.places q offset outline height).map Vec2.ofReal)).bind
        (·.clip? (.finite camera.width) (.finite camera.height)) := by
  have seen : ∀ v ∈ outline ++ outline.map (· + ![0, 0, height]),
      camera.ofReal.project? ((Pose.ofReal q offset).apply (.ofReal v)) =
        some (.ofReal (camera.place (q.turn *ᵥ v + offset))) := by
    intro v member
    rw [Pose.apply_ofReal unit, (ahead v (Shape.mem_corners_ofReal.mpr member)).project? camera]
  have pixels : ((Shape.ofReal outline height).vertices.filterMap fun v =>
        camera.ofReal.project? ((Pose.ofReal q offset).apply v)) =
      (camera.places q offset outline height).map Vec2.ofReal := by
    rw [Shape.vertices_ofReal, List.filterMap_map, places, List.map_map]
    exact (List.filterMap_congr seen).trans (congrFun List.filterMap_eq_map _)
  unfold projectShape?
  rw [pixels]
  rfl

/-- The least and the greatest coordinates of the places, clipped to the image, frame the shape. -/
theorem frames_of_places {first : ℝ × ℝ} {rest : List (ℝ × ℝ)}
    (listed : camera.places q offset outline height = first :: rest) :
    camera.Frames (.ofReal q offset) (.ofReal outline height) (rest.foldl (· ⊓ ·) first ⊔ 0)
      (rest.foldl (· ⊔ ·) first ⊓ (camera.width, camera.height)) := by
  have covers := camera.appearance_subset unit ahead fun u member =>
    ⟨foldl_inf_le first rest u (listed ▸ member), le_foldl_sup first rest u (listed ▸ member)⟩
  -- every extreme coordinate is that of some corner
  have reached {step : ℝ × ℝ → ℝ × ℝ → ℝ × ℝ} {read : ℝ × ℝ → ℝ}
      (keeps : ∀ u v, read (step u v) = read u ∨ read (step u v) = read v) :
      ∃ u ∈ camera.pixels (.ofReal q offset) (Shape.ofReal outline height).corners,
        read u = read (rest.foldl step first) := by
    obtain ⟨u, member, extreme⟩ := exists_mem_foldl keeps first rest
    exact ⟨u, (camera.mem_pixels_corners_iff unit ahead).mpr (listed ▸ member), extreme⟩
  exact {
    covers := covers
    inside := ⟨le_sup_right, inf_le_right⟩
    left := camera.anchored_of_clipped covers (max_choice _ _)
      (reached fun u v => min_choice u.1 v.1)
    top := camera.anchored_of_clipped covers (max_choice _ _)
      (reached fun u v => min_choice u.2 v.2)
    right := camera.anchored_of_clipped covers (min_choice _ _)
      (reached fun u v => max_choice u.1 v.1)
    bottom := camera.anchored_of_clipped covers (min_choice _ _)
      (reached fun u v => max_choice u.2 v.2) }

end Rigid

/-- The box in which the camera draws a shape covers what the image shows of the shape, and it is no
larger than the corners and the image require. Without a box, the image shows at most a line. -/
theorem projectShape?_frames {q : Quaternion ℝ} (unit : q.IsUnit) {offset : Fin 3 → ℝ}
    {outline : List (Fin 3 → ℝ)} {height : ℝ}
    (depth : ∀ v ∈ (Shape.ofReal outline height).vertices,
      Scalar.epsilon < ((Pose.ofReal q offset).apply v).z) :
    (∀ v ∈ (Shape.ofReal outline height).hull,
      ∃ u, camera.ofReal.project? ((Pose.ofReal q offset).apply (.ofReal v)) = some (.ofReal u)) ∧
    match camera.ofReal.projectShape? (.ofReal q offset) (.ofReal outline height) with
    | some B => ∃ a b, B.least = .ofReal a ∧ B.greatest = .ofReal b ∧
        camera.Frames (.ofReal q offset) (.ofReal outline height) a b
    | none =>
        (∃ x, ∀ u ∈ camera.appearance (.ofReal q offset) (.ofReal outline height), u.1 = x) ∨
          ∃ y, ∀ u ∈ camera.appearance (.ofReal q offset) (.ofReal outline height), u.2 = y := by
  have ahead := ahead_of_depth unit depth
  refine ⟨fun v member => ?_, ?_⟩
  · have seen := camera.hull_ahead convex_univ (fun v corner => ⟨ahead v corner, trivial⟩) v member
    rw [Pose.apply_ofReal unit]
    exact ⟨_, seen.1.project? camera⟩
  rw [camera.projectShape?_ofReal unit ahead]
  cases listed : camera.places q offset outline height with
  -- a shape without corners has no points, and shows nothing
  | nil =>
    have nowhere : ∀ u ∈ camera.places q offset outline height, u ∈ Set.Icc (0 : ℝ × ℝ) 0 :=
      fun u member => absurd (listed ▸ member) List.not_mem_nil
    rw [List.map_nil, Box.ofPoints?_nil, Option.bind_none]
    refine Box.on_line_of_not_encloses (fun encloses => ?_)
      (camera.appearance_subset unit ahead nowhere)
    exact (lt_irrefl (0 : ℝ)) (encloses.mono le_sup_right inf_le_left).1
  | cons first rest =>
    have frames := camera.frames_of_places unit ahead listed
    rw [Box.ofPoints?_ofReal, Box.bind_clip?_ofCorners? _ _ (camera.width, camera.height)]
    cases drawn : Box.ofCorners? (.ofReal (rest.foldl (· ⊓ ·) first ⊔ 0))
        (.ofReal (rest.foldl (· ⊔ ·) first ⊓ (camera.width, camera.height))) with
    | none => exact Box.on_line_of_not_encloses (Box.ofCorners?_eq_none_iff.mp drawn) frames.covers
    | some B =>
      obtain ⟨-, rfl⟩ := Box.ofCorners?_eq_some_iff.mp drawn
      exact ⟨_, _, Box.least_between _ _, Box.greatest_between _ _, frames⟩

end Intrinsics

namespace Scene

def camera : Intrinsics ℝ :=
  ⟨1920, 1080, 1000, 1000, 960, 540⟩

def wall : List (Fin 3 → ℝ) :=
  [![-1, -20, 0], ![1, -20, 0], ![1, 20, 0], ![-1, 20, 0]]

theorem ahead_wall : ∀ v ∈ (Shape.ofReal wall 10).vertices,
    Scalar.epsilon < ((Pose.ofReal ⟨0, 0, 0, 1⟩ ![0, 0, 10]).apply v).z := by
  rw [Shape.vertices_ofReal, List.forall_mem_map]
  intro v corner
  have above : 0 ≤ v 2 := by
    simp only [wall, List.map_cons, List.map_nil, List.cons_append, List.nil_append,
      List.mem_cons, List.not_mem_nil, or_false] at corner
    rcases corner with rfl | rfl | rfl | rfl | rfl | rfl | rfl | rfl <;> simp
  have depth : ((Pose.ofReal ⟨0, 0, 0, 1⟩ ![0, 0, 10]).apply (.ofReal v)).z =
      .finite (v 2 + 10) := by
    rw [Pose.apply_ofReal Quaternion.isUnit_identity, Quaternion.turn_identity, one_mulVec]
    rfl
  rw [depth, Scalar.epsilon, Exact.scientific_eq, Exact.finite_lt_finite]
  norm_num
  linarith

theorem places_wall : camera.places ⟨0, 0, 0, 1⟩ ![0, 0, 10] wall 10 =
    [(860, -1460), (1060, -1460), (1060, 2540), (860, 2540),
      (910, -460), (1010, -460), (1010, 1540), (910, 1540)] := by
  simp only [Intrinsics.places, wall, Quaternion.turn_identity, one_mulVec, Intrinsics.place,
    camera, List.map_cons, List.map_nil, List.cons_append, List.nil_append, Pi.add_apply, Space.x,
    Space.y, Space.z, Matrix.cons_val]
  norm_num

theorem projectShape?_wall :
    camera.ofReal.projectShape? (.ofReal ⟨0, 0, 0, 1⟩ ![0, 0, 10]) (.ofReal wall 10) =
      some ⟨.finite 860, .finite 0, .finite 200, .finite 1080⟩ := by
  have ahead := Intrinsics.ahead_of_depth Quaternion.isUnit_identity ahead_wall
  rw [camera.projectShape?_ofReal Quaternion.isUnit_identity ahead, places_wall,
    Box.ofPoints?_ofReal]
  refine (Box.bind_clip?_ofCorners? _ _ (1920, 1080)).trans
    (Box.ofCorners?_eq_some_iff.mpr ⟨?_, ?_⟩)
  · constructor <;> norm_num
  · norm_num [Box.between]

end Scene

namespace Intrinsics

theorem projectShape?_frames_wall :
    Quaternion.IsUnit ⟨0, 0, 0, 1⟩ ∧
    (∀ v ∈ (Shape.ofReal Scene.wall 10).vertices,
      Scalar.epsilon < ((Pose.ofReal ⟨0, 0, 0, 1⟩ ![0, 0, 10]).apply v).z) ∧
    ∃ B a b, Scene.camera.ofReal.projectShape? (.ofReal ⟨0, 0, 0, 1⟩ ![0, 0, 10])
        (.ofReal Scene.wall 10) = some B ∧ B.least = .ofReal a ∧ B.greatest = .ofReal b ∧
      Scene.camera.Frames (.ofReal ⟨0, 0, 0, 1⟩ ![0, 0, 10]) (.ofReal Scene.wall 10) a b := by
  refine ⟨Quaternion.isUnit_identity, Scene.ahead_wall, ?_⟩
  have framed :=
    (Scene.camera.projectShape?_frames Quaternion.isUnit_identity Scene.ahead_wall).2
  rw [Scene.projectShape?_wall] at framed
  obtain ⟨a, b, least, greatest, frames⟩ := framed
  exact ⟨_, a, b, Scene.projectShape?_wall, least, greatest, frames⟩

/-- The image cuts the wall off above and below, where its corners are, so that no corner touches
the sides between the cuts. -/
theorem left_of_wall_untouched :
    Quaternion.IsUnit ⟨0, 0, 0, 1⟩ ∧
    (∀ v ∈ (Shape.ofReal Scene.wall 10).vertices,
      Scalar.epsilon < ((Pose.ofReal ⟨0, 0, 0, 1⟩ ![0, 0, 10]).apply v).z) ∧
    Scene.camera.ofReal.projectShape? (.ofReal ⟨0, 0, 0, 1⟩ ![0, 0, 10]) (.ofReal Scene.wall 10) =
      some ⟨.finite 860, .finite 0, .finite 200, .finite 1080⟩ ∧
    ¬ ((860 : ℝ) = 0 ∨ ∃ u ∈ Scene.camera.pixels (.ofReal ⟨0, 0, 0, 1⟩ ![0, 0, 10])
      (Shape.ofReal Scene.wall 10).corners, u.1 = 860 ∧ u ∈ Set.Icc (860, 0) (1060, 1080)) := by
  refine ⟨Quaternion.isUnit_identity, Scene.ahead_wall, Scene.projectShape?_wall, ?_⟩
  have ahead := ahead_of_depth Quaternion.isUnit_identity Scene.ahead_wall
  rintro (border | ⟨u, corner, -, ⟨-, top⟩, -, bottom⟩)
  · norm_num at border
  rw [Scene.camera.mem_pixels_corners_iff Quaternion.isUnit_identity ahead, Scene.places_wall]
    at corner
  have cut : u.2 < 0 ∨ 1080 < u.2 := by
    simp only [List.mem_cons, List.not_mem_nil, or_false] at corner
    rcases corner with rfl | rfl | rfl | rfl | rfl | rfl | rfl | rfl <;> norm_num
  exact cut.elim (not_lt.mpr top) (not_lt.mpr bottom)

end Intrinsics

end

end TrackFusion
