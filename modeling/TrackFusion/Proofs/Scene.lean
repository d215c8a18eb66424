import TrackFusion.Proofs.Geometry.Box
import TrackFusion.Proofs.Geometry.Footprint
import TrackFusion.Proofs.Geometry.Gravity
import TrackFusion.Proofs.Kalman.GatingDistance
import TrackFusion.Tracker.Basic

/-!
A small scene in exact numbers: cars on a line, seen from a sensor that stands in the origin of the
tracking frame. It is the setting in which general statements are applied to one concrete case.
-/

set_option autoImplicit false
set_option relaxedAutoImplicit false

namespace TrackFusion

theorem Quaternion.isGravityAligned_identity :
    (Quaternion.identity : Quaternion Exact).isGravityAligned = true :=
  isGravityAligned_of_one_le (q := ⟨0, 0, 0, 1⟩) (one_pow 2).ge

theorem Quaternion.rotate_identity (x y z : ℝ) :
    (Quaternion.identity : Quaternion Exact).rotate ⟨.finite x, .finite y, .finite z⟩ =
      ⟨.finite x, .finite y, .finite z⟩ := by
  have two : (2.0 : Exact) = .finite 2 := Exact.two_eq
  simp only [rotate, identity, imaginary, Vec3.cross, Vec3.scale, Vec3.mk_add_mk, two, Exact.zero_eq,
    Exact.one_eq, Exact.finite_mul_finite, Exact.finite_sub_finite, Exact.finite_add_finite]
  norm_num

namespace Scene

noncomputable section

/-- A car of 4 by 2 metres with its centre at a place on the first axis. -/
def car (x : ℝ) : Detection Exact Exact where
  existence := 1
  hypotheses := []
  centroid := ⟨.finite x, 0, 0⟩
  covariance := none
  twist := none
  shape := .ofBox ⟨.finite x, 0, 0⟩ (.finite 4) (.finite 2) (.finite 1.5)

def blur (x : ℝ) : Detection Exact Exact :=
  { car x with shape := ⟨[], 0⟩ }

def odometry : Odometry Exact where
  header := ⟨0, "map"⟩
  childFrame := "base_link"
  pose := .identity
  twist := ⟨0, 0⟩

def second : Duration :=
  ⟨1000000000, Nat.le_of_ble_eq_true rfl⟩

def batch (stamp : Duration) (objects : List (Detection Exact Exact)) :
    DetectionBatch Exact Exact where
  header := ⟨stamp, "base_link"⟩
  objects := objects

theorem area_car (x : ℝ) : (car x).shape.area = .finite 8 := by
  refine (Shape.area_ofBox _ _ (by norm_num) (by norm_num)).trans ?_
  norm_num

theorem isValid_car (x : ℝ) : (car x).isValid = true := by
  have spacious : Scalar.epsilon < Exact.finite (4 * 2) := by
    unfold Scalar.epsilon
    rw [Exact.scientific_eq, Exact.finite_lt_finite]
    norm_num
  have shape : (car x).shape.isValid = true :=
    Shape.isValid_ofBox (by norm_num) (by norm_num) (by norm_num) spacious
  unfold Detection.isValid
  rw [shape]
  rfl

def tracked (p r x : ℝ) : Track Exact Exact :=
  .ofDetection 0 ⟨⟨1⟩, .finite p, .finite r⟩ (car x)

theorem shapeArea_tracked (p r x : ℝ) : (tracked p r x).shapeArea = .finite 8 := by
  have moved : (car x).relativeShape =
      .ofBox ⟨.finite (x + -x), .finite (0 + -0), 0 + -0⟩ (.finite 4) (.finite 2) (.finite 1.5) :=
    Shape.translate_ofBox x 0 (-x) (-0) 4 2 0 (-0) (.finite 1.5)
  change (car x).relativeShape.area = _
  rw [moved]
  refine (Shape.area_ofBox _ _ (by norm_num) (by norm_num)).trans ?_
  norm_num

theorem mahalanobisDistance_tracked {p r : ℝ} (positive : 0 < p + r) (x y : ℝ) :
    (tracked p r x).mahalanobisDistance (car y) = .ok (.finite ((y - x) ^ 2 / (p + r))) := by
  refine (KinematicState.gatingDistance_isotropic x 0 y 0 0 0 p positive).trans ?_
  norm_num

/-- A camera ten metres below the origin that looks upwards. -/
def below : Pose Exact :=
  ⟨.identity, ⟨0, 0, .finite 10⟩⟩

theorem project?_below (x y : ℝ) {z : ℝ} (above : 0 ≤ z) :
    (Intrinsics.standard : Intrinsics Exact).project?
        (below.apply ⟨.finite x, .finite y, .finite z⟩) =
      some ⟨.finite (1000 * x / (z + 10) + 960), .finite (1000 * y / (z + 10) + 540)⟩ := by
  have moved : below.apply ⟨.finite x, .finite y, .finite z⟩ =
      ⟨.finite x, .finite y, .finite (z + 10)⟩ := by
    unfold Pose.apply
    rw [below, Quaternion.rotate_identity]
    simp only [Vec3.mk_add_mk, Exact.zero_eq, Exact.finite_add_finite, add_zero]
  have visible : ¬ Exact.finite (z + 10) ≤ Scalar.epsilon := by
    unfold Scalar.epsilon
    rw [Exact.scientific_eq, Exact.finite_le_finite]
    norm_num
    linarith
  have nonzero : z + 10 ≠ 0 := by linarith
  rw [moved]
  unfold Intrinsics.project? Intrinsics.standard
  simp only [Vec3.isFinite, Exact.isFinite_finite, visible, Bool.and_self, Bool.not_true,
    decide_false, Bool.or_false, Bool.false_eq_true, if_false, Exact.scientific_eq,
    Exact.finite_mul_finite, Exact.finite_div_finite nonzero, Exact.finite_add_finite]
  norm_num

theorem projectShape?_car : Intrinsics.standard.projectShape? below (car 0).shape =
    some ⟨.finite 760, .finite 440, .finite 400, .finite 200⟩ := by
  -- the corners at the bottom, and then those at the top, which are farther away
  let pixels : List (ℝ × ℝ) :=
    [(760, 440), (1160, 440), (1160, 640), (760, 640), (18080 / 23, 10420 / 23),
      (26080 / 23, 10420 / 23), (26080 / 23, 14420 / 23), (18080 / 23, 14420 / 23)]
  have seen : ((car 0).shape.vertices.filterMap fun v =>
      (Intrinsics.standard : Intrinsics Exact).project? (below.apply v)) =
        pixels.map Vec2.ofReal := by
    have zero : (0 : Exact) = .finite 0 := rfl
    simp only [car, zero, Shape.ofBox_eq, Shape.vertices, List.map_cons, List.map_nil,
      List.cons_append, List.nil_append, Vec3.mk_add_mk, Exact.finite_add_finite]
    simp (disch := norm_num) only [List.filterMap_cons, project?_below, List.filterMap_nil]
    norm_num [pixels, Vec2.ofReal]
  have around : Box.ofPoints? (pixels.map Vec2.ofReal) =
      some ⟨.finite 760, .finite 440, .finite 400, .finite 200⟩ := by
    rw [Box.ofPoints?_ofReal, Box.ofCorners?_eq_some_iff]
    norm_num [Box.Encloses, Box.between]
  unfold Intrinsics.projectShape?
  rw [seen, around, Option.bind_eq_bind, Option.bind_some]
  simp only [Box.clip?, Intrinsics.standard, Exact.scientific_eq, Exact.zero_eq, Exact.max_finite,
    Exact.min_finite, Exact.finite_add_finite, Box.ofCorners?, Exact.finite_lt_finite,
    Exact.finite_sub_finite]
  norm_num

def region : Region Exact Exact where
  hypotheses := [⟨.bus, 1⟩]
  polygon := [⟨.finite 760, .finite 440⟩, ⟨.finite 1160, .finite 440⟩,
    ⟨.finite 1160, .finite 640⟩]

theorem box?_region :
    region.box? = some ⟨.finite 760, .finite 440, .finite 400, .finite 200⟩ := by
  have outline : region.polygon =
      ([(760, 440), (1160, 440), (1160, 640)] : List (ℝ × ℝ)).map Vec2.ofReal := rfl
  rw [Region.box?, if_neg (by decide), outline, Box.ofPoints?_ofReal, Box.ofCorners?_eq_some_iff]
  norm_num [Box.Encloses, Box.between]

/-- The standard options, except that regions have to confirm new tracks. -/
def confirming : TrackerOptions Exact :=
  { TrackerOptions.standard with
    creation := { CreationSettings.standard with policy := .visionConfirmed } }

theorem accepts {t : Tracker Exact Exact} (sameFrame : t.options.frame = "map")
    {stamp : Duration} {objects : List (Detection Exact Exact)}
    (recent : ∀ last, t.lastUpdate = some last → last ≤ stamp) :
    t.validate (batch stamp objects) odometry = .ok := by
  have notOlder :
      (t.lastUpdate.any fun last => (batch stamp objects).header.stamp < last) = false := by
    cases previous : t.lastUpdate with
    | none => rfl
    | some last =>
      rw [Option.any_some, decide_eq_false_iff_not]
      exact Nat.not_lt.mpr (recent last previous)
  have sensorFrame : ¬(batch stamp objects).header.frame ≠ odometry.childFrame := not_not.mpr rfl
  have trackingFrame : ¬odometry.header.frame ≠ t.options.frame := not_not.mpr sameFrame.symm
  have upright : (!odometry.pose.rotation.isGravityAligned) = false :=
    congrArg Bool.not Quaternion.isGravityAligned_identity
  unfold Tracker.validate
  rw [if_neg (by rw [notOlder]; exact Bool.false_ne_true), if_neg sensorFrame,
    if_neg trackingFrame, if_neg (by rw [upright]; exact Bool.false_ne_true)]

end

end Scene

end TrackFusion
