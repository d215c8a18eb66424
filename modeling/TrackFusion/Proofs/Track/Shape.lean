import TrackFusion.Proofs.Detection.Composition
import TrackFusion.Proofs.Kalman.JointCorrection
import TrackFusion.Proofs.Track.FrameChange

/-!
What a track shows of its source.

The source of a track is the detection that it started at or that last corrected it. The track keeps
the outline of the source relative to the measured centroid and shows it around the estimated
position, so that corrections and predictions move the outline without changing it.
-/

set_option autoImplicit false
set_option relaxedAutoImplicit false

namespace TrackFusion

open Matrix

variable {π : Type}

def FrameChange.translation (u : Fin 3 → ℝ) : FrameChange :=
  ⟨⟨0, 0, 0, 1⟩, ⟨rfl, rfl, Quaternion.isUnit_identity⟩, u⟩

theorem FrameChange.move_translation (u v : Fin 3 → ℝ) : (translation u).move v = v + u := by
  rw [move_eq]
  change (⟨0, 0, 0, 1⟩ : Quaternion ℝ).turn *ᵥ v + u = v + u
  rw [Quaternion.turn_identity, one_mulVec]

theorem Shape.area_translate_ofReal (outline : List (Fin 3 → ℝ)) (height : ℝ) (u : Fin 3 → ℝ) :
    ((ofReal outline height).translate (.ofReal u)).area = (ofReal outline height).area := by
  have moves : (FrameChange.translation u).move = (· + u) :=
    funext (FrameChange.move_translation u)
  rw [translate_ofReal, ← area_transform ⟨outline, height, rfl⟩ (.translation u), transform_ofReal,
    moves]

theorem Shape.translate_translate_ofReal (outline : List (Fin 3 → ℝ)) (height : ℝ)
    (u w : Fin 3 → ℝ) :
    ((ofReal outline height).translate (.ofReal u)).translate (.ofReal w) =
      (ofReal outline height).translate (.ofReal (u + w)) := by
  rw [translate_ofReal, translate_ofReal, translate_ofReal, List.map_map]
  refine congrArg (ofReal · height) (List.map_congr_left fun v _ => ?_)
  exact add_assoc v u w

/-- Every vertex lies off its original by the offset, and the height is the same. -/
structure Shape.Shifted (offset : Vec3 Exact) (s shifted : Shape Exact) : Prop where
  polygon : s.polygon.Forall₂ (fun v w => w = v + offset) shifted.polygon
  height : shifted.height = s.height

theorem Shape.shifted_translate (offset : Vec3 Exact) (s : Shape Exact) :
    Shifted offset s (s.translate offset) := by
  refine ⟨?_, rfl⟩
  unfold translate
  rw [List.forall₂_map_right_iff]
  exact List.forall₂_same.mpr fun _ _ => rfl

theorem Detection.IsFinite.exists_positionNoise {d : Detection Exact π} (finite : d.IsFinite)
    (v : ℝ) : ∃ n, d.positionNoise (.finite v) = Mat.ofReal n := by
  unfold positionNoise planarCovariance
  cases measured : d.covariance with
  | none => exact ⟨_, isotropic_finite v⟩
  | some c =>
    obtain ⟨m, rfl⟩ := finite.covariance c measured
    exact ⟨_, Mat.planarBlock_ofReal m⟩

namespace Track

structure IsFinite (t : Track Exact π) : Prop where
  state : t.state.IsFinite
  model : ∃ q, t.model = ⟨.finite q⟩
  noise : ∃ r, t.noiseVariance = .finite r

/-- The track shows the shape of a detection, moved with the centroid to the estimated position,
which is as high as the centroid. -/
structure Shows (t : Track Exact π) (d : Detection Exact π) : Prop where
  shape : Shape.Shifted (t.position - d.centroid) d.shape t.shape
  elevation : t.position.z = d.centroid.z
  existence : t.existence = d.existence
  area : t.shapeArea = d.shape.area

/-- A prediction carries the shape along with the velocity. -/
def Drifts (t : Track Exact π) : Prop :=
  ∀ dt p, t.predict dt = .ok p →
    Shape.Shifted (t.velocity.scale dt.seconds) t.shape p.shape

structure IsReported [Scalar π] (t : Track Exact π) : Prop where
  position : t.snapshot.position = t.position
  shape : t.snapshot.shape = t.shape
  covariance : t.snapshot.positionCovariance.planarBlock = t.state.positionCovariance
  vertical : ∀ i, t.snapshot.positionCovariance.entry i Space.z = 0 ∧
    t.snapshot.positionCovariance.entry Space.z i = 0

variable {t p : Track Exact π} {d : Detection Exact π}

theorem IsFinite.predict {dt : Duration} (finite : t.IsFinite) (predicted : t.predict dt = .ok p) :
    p.IsFinite := by
  obtain ⟨age, -, rfl⟩ := predict_eq_ok_iff.mp predicted
  obtain ⟨q, model⟩ := finite.model
  have state := finite.state.predict q dt
  rw [← model] at state
  exact ⟨state, finite.model, finite.noise⟩

theorem IsFinite.correctedState (finite : t.IsFinite) (measured : d.IsFinite)
    {s : KinematicState Exact} (corrected : t.correctedState d = .ok s) : s.IsFinite := by
  obtain ⟨r, noise⟩ := finite.noise
  obtain ⟨c, centroid⟩ := measured.centroid
  obtain ⟨n, uncertain⟩ := measured.exists_positionNoise r
  obtain ⟨first, position, rest⟩ := correctedState_cases corrected
  rw [noise, uncertain, centroid] at position
  have between : first.IsFinite := finite.state.correct position
  rcases rest with rfl | ⟨twist, seen, velocity⟩
  · exact between
  · obtain ⟨v, linear⟩ := measured.twist twist seen
    rw [linear, noise, isotropic_finite] at velocity
    exact between.correct velocity

theorem isFinite_ofDetection [Scalar π] (id : Nat) {noise : TrackNoise Exact} (real : noise.IsReal)
    (measured : d.IsFinite) : (ofDetection id noise d).IsFinite := by
  obtain ⟨q, v, r, rfl⟩ := real
  obtain ⟨c, centroid⟩ := measured.centroid
  obtain ⟨n, uncertain⟩ := measured.exists_positionNoise v
  obtain ⟨x, y, u, -, state⟩ :=
    exists_ofDetection_state_eq id q v r centroid uncertain measured.twist
  exact ⟨⟨_, _, state.trans (KinematicState.initiate_ofReal (c 0) (c 1) x y n (u • 1))⟩, ⟨q, rfl⟩,
    r, rfl⟩

theorem IsFinite.position_predict {dt : Duration} (finite : t.IsFinite)
    (level : ∃ z, t.elevation = .finite z) (predicted : t.predict dt = .ok p) :
    ∃ x v, t.position = .ofReal x ∧ t.velocity.scale dt.seconds = .ofReal v ∧
      p.position = .ofReal (x + v) := by
  obtain ⟨mean, cov, state⟩ := finite.state
  obtain ⟨q, model⟩ := finite.model
  obtain ⟨z, elevation⟩ := level
  have next : p.state = t.model.predict t.state dt ∧ p.elevation = t.elevation := by
    obtain ⟨age, -, rfl⟩ := predict_eq_ok_iff.mp predicted
    exact ⟨rfl, rfl⟩
  have moved := MotionModel.predict_ofReal q mean cov dt
  rw [← state, ← model] at moved
  refine ⟨_, dt.realSeconds • ![mean 2 0, mean 3 0, 0], position_ofReal state elevation, ?_, ?_⟩
  · rw [velocity_ofReal state, Duration.seconds_exact]
    rfl
  · refine (position_ofReal (next.1.trans moved) (next.2.trans elevation)).trans
      (congrArg Vec3.ofReal ?_)
    ext i
    fin_cases i <;> simp [mul_apply, Fin.sum_univ_four, MotionModel.realTransition]

/-- The track keeps what it shows of a detection. -/
structure Keeps (t : Track Exact π) (d : Detection Exact π) : Prop where
  finite : t.IsFinite
  source : d.IsFinite
  elevation : t.elevation = d.centroid.z
  relativeShape : t.relativeShape = d.relativeShape
  existence : t.existence = d.existence

theorem Keeps.exists_elevation (kept : t.Keeps d) : ∃ z, t.elevation = .finite z := by
  obtain ⟨c, centroid⟩ := kept.source.centroid
  exact ⟨_, kept.elevation.trans (congrArg Vec3.z centroid)⟩

theorem Keeps.shape_eq (kept : t.Keeps d) :
    t.shape = d.shape.translate (t.position - d.centroid) := by
  obtain ⟨c, centroid⟩ := kept.source.centroid
  obtain ⟨outline, height, shape⟩ := kept.source.shape
  obtain ⟨mean, cov, state⟩ := kept.finite.state
  obtain ⟨z, elevation⟩ := kept.exists_elevation
  unfold Track.shape
  rw [kept.relativeShape, Detection.relativeShape, position_ofReal state elevation, centroid,
    shape, Vec3.neg_ofReal, Shape.translate_translate_ofReal, Vec3.ofReal_sub, neg_add_eq_sub]

theorem Keeps.shows (kept : t.Keeps d) : t.Shows d := by
  obtain ⟨c, centroid⟩ := kept.source.centroid
  obtain ⟨outline, height, shape⟩ := kept.source.shape
  refine ⟨?_, kept.elevation, kept.existence, ?_⟩
  · rw [kept.shape_eq]
    exact Shape.shifted_translate _ _
  · unfold shapeArea
    rw [kept.relativeShape, Detection.relativeShape, centroid, shape, Vec3.neg_ofReal,
      Shape.area_translate_ofReal]

theorem Keeps.shape_predict {dt : Duration} (kept : t.Keeps d) (predicted : t.predict dt = .ok p) :
    p.shape = t.shape.translate (t.velocity.scale dt.seconds) := by
  obtain ⟨c, centroid⟩ := kept.source.centroid
  obtain ⟨outline, height, shape⟩ := kept.source.shape
  obtain ⟨x, v, before, velocity, after⟩ :=
    kept.finite.position_predict kept.exists_elevation predicted
  have same : p.relativeShape = t.relativeShape := by
    obtain ⟨age, -, rfl⟩ := predict_eq_ok_iff.mp predicted
    rfl
  unfold Track.shape
  rw [same, after, before, velocity, kept.relativeShape, Detection.relativeShape, centroid, shape,
    Vec3.neg_ofReal, Shape.translate_translate_ofReal, Shape.translate_translate_ofReal,
    Shape.translate_translate_ofReal, add_assoc]

theorem Keeps.drifts (kept : t.Keeps d) : t.Drifts := by
  intro dt p predicted
  rw [kept.shape_predict predicted]
  exact Shape.shifted_translate _ _

theorem Keeps.predict {dt : Duration} (kept : t.Keeps d) (predicted : t.predict dt = .ok p) :
    p.Keeps d := by
  have finite := kept.finite.predict predicted
  obtain ⟨age, -, rfl⟩ := predict_eq_ok_iff.mp predicted
  exact ⟨finite, kept.source, kept.elevation, kept.relativeShape, kept.existence⟩

inductive Call (ρ π : Type)
  | predict (dt : Duration)
  | update (d : Detection ρ π)
  | observeClasses (hypotheses : List (Hypothesis π))
  | miss

/-- A track with its source: the detection that it started at or that last corrected it. -/
structure Sourced (ρ π : Type) where
  track : Track ρ π
  source : Detection ρ π

namespace Sourced

section Run

variable {ρ : Type} [Scalar ρ] [Scalar π]

/-- A correction that fails leaves the track and its source as they were. -/
def perform (s : Sourced ρ π) : Call ρ π → Except DurationOverflow (Sourced ρ π)
  | .predict dt => do
    let p ← s.track.predict dt
    return { s with track := p }
  | .update d =>
    match s.track.update d with
    | .ok u => .ok ⟨u, d⟩
    | .error _ => .ok s
  | .observeClasses hypotheses => .ok { s with track := s.track.observeClasses hypotheses }
  | .miss => .ok { s with track := s.track.miss }

def performAll (s : Sourced ρ π) (calls : List (Call ρ π)) :
    Except DurationOverflow (Sourced ρ π) :=
  calls.foldlM perform s

variable {s s' : Sourced ρ π} {d : Detection ρ π} {u : Track ρ π}

theorem perform_update_of_ok (updated : s.track.update d = .ok u) :
    s.perform (.update d) = .ok ⟨u, d⟩ := by
  simp only [perform, updated]

theorem perform_update_of_error {e : MeasurementError} (failed : s.track.update d = .error e) :
    s.perform (.update d) = .ok s := by
  simp only [perform, failed]

theorem performAll_cons_eq_ok_iff {call : Call ρ π} {calls : List (Call ρ π)} :
    s.performAll (call :: calls) = .ok s' ↔
      ∃ middle, s.perform call = .ok middle ∧ middle.performAll calls = .ok s' := by
  unfold performAll
  rw [List.foldlM_cons, bind_eq_ok_iff]

end Run

end Sourced

variable [Scalar π]

theorem isReported (t : Track Exact π) : t.IsReported where
  position := rfl
  shape := rfl
  covariance := rfl
  vertical i := by fin_cases i <;> exact ⟨rfl, rfl⟩

theorem position_ofDetection (id : Nat) (noise : TrackNoise Exact) (d : Detection Exact π) :
    (ofDetection id noise d).position = d.centroid :=
  rfl

theorem keeps_ofDetection (id : Nat) {noise : TrackNoise Exact} (real : noise.IsReal)
    (measured : d.IsFinite) : (ofDetection id noise d).Keeps d :=
  ⟨isFinite_ofDetection id real measured, measured, rfl, rfl, rfl⟩

theorem Keeps.update {e : Detection Exact π} (kept : t.Keeps d) (measured : e.IsFinite)
    (updated : t.update e = .ok p) : p.Keeps e := by
  obtain ⟨s, corrected, same⟩ := bind_eq_ok_iff.mp updated
  obtain rfl := pure_eq_ok_iff.mp same
  exact ⟨⟨kept.finite.correctedState measured corrected, kept.finite.model, kept.finite.noise⟩,
    measured, rfl, rfl, rfl⟩

namespace Sourced

variable {s s' : Sourced Exact π}

theorem keeps_perform {call : Call Exact π} (kept : s.track.Keeps s.source)
    (measured : ∀ d, call = .update d → d.IsFinite) (performed : s.perform call = .ok s') :
    s'.track.Keeps s'.source := by
  cases call with
  | predict dt =>
    obtain ⟨p, predicted, same⟩ := bind_eq_ok_iff.mp performed
    obtain rfl := pure_eq_ok_iff.mp same
    exact kept.predict predicted
  | update d =>
    cases updated : s.track.update d with
    | error e =>
      rw [perform_update_of_error updated] at performed
      cases performed
      exact kept
    | ok u =>
      rw [perform_update_of_ok updated] at performed
      cases performed
      exact kept.update (measured d rfl) updated
  -- classes and counters are no part of what is shown
  | observeClasses hypotheses =>
    cases performed
    exact ⟨⟨kept.finite.state, kept.finite.model, kept.finite.noise⟩, kept.source, kept.elevation,
      kept.relativeShape, kept.existence⟩
  | miss =>
    cases performed
    exact ⟨⟨kept.finite.state, kept.finite.model, kept.finite.noise⟩, kept.source, kept.elevation,
      kept.relativeShape, kept.existence⟩

theorem keeps_performAll {calls : List (Call Exact π)} (kept : s.track.Keeps s.source)
    (measured : ∀ d, .update d ∈ calls → d.IsFinite) (ran : s.performAll calls = .ok s') :
    s'.track.Keeps s'.source := by
  induction calls generalizing s with
  | nil =>
    obtain rfl := pure_eq_ok_iff.mp ran
    exact kept
  | cons call calls ih =>
    obtain ⟨middle, first, rest⟩ := performAll_cons_eq_ok_iff.mp ran
    refine ih (keeps_perform kept (fun d same => ?_) first) (fun d later => ?_) rest
    · exact measured d (same ▸ List.mem_cons_self)
    · exact measured d (List.mem_cons_of_mem _ later)

end Sourced

/-- Whatever is asked of a track, it shows the shape of its source around the estimated position. -/
theorem shows_of_performAll (id : Nat) {noise : TrackNoise Exact} (real : noise.IsReal)
    (finite : d.IsFinite) {calls : List (Call Exact π)}
    (measured : ∀ d, .update d ∈ calls → d.IsFinite) :
    (ofDetection id noise d).shape = d.shape ∧
      ∀ s, Sourced.performAll ⟨ofDetection id noise d, d⟩ calls = .ok s →
        s.track.IsFinite ∧ s.track.Shows s.source ∧ s.track.Drifts ∧ s.track.IsReported := by
  have started := keeps_ofDetection id real finite
  constructor
  · obtain ⟨c, centroid⟩ := finite.centroid
    obtain ⟨outline, height, shape⟩ := finite.shape
    have still : (fun v : Fin 3 → ℝ => v + 0) = fun v => v := funext add_zero
    rw [started.shape_eq, position_ofDetection, centroid, shape, Vec3.ofReal_sub, sub_self,
      Shape.translate_ofReal, still, List.map_id']
  · intro s ran
    have kept := Sourced.keeps_performAll started measured ran
    exact ⟨kept.finite, kept.shows, kept.drifts, s.track.isReported⟩

end Track

namespace Scene

open Track.Sourced

noncomputable section

def pinned (x : ℝ) : Detection Exact Exact :=
  { car x with covariance := some (Mat.ofReal 0) }

theorem isFinite_pinned (x : ℝ) : (pinned x).IsFinite :=
  ⟨(isFinite_car x).centroid, fun _ measured => ⟨0, (Option.some.inj measured).symm⟩,
    (isFinite_car x).twist, (isFinite_car x).shape⟩

theorem isReal_pinned (x : ℝ) : (pinned x).IsReal :=
  ⟨(isFinite_car x).centroid,
    fun _ measured => ⟨0, PosSemidef.zero, (Option.some.inj measured).symm⟩,
    (isFinite_car x).twist, (isFinite_car x).shape⟩

def pinnedTrack : Track Exact Exact :=
  .ofDetection 0 ⟨⟨.finite 1⟩, .finite 1, .finite 1⟩ (pinned 0)

theorem regular_pinnedTrack : pinnedTrack.Regular :=
  Track.regular_ofDetection 0 one_pos one_pos zero_le_one (isReal_pinned 0)

theorem positionNoise_pinned (x v : ℝ) : (pinned x).positionNoise (.finite v) = Mat.ofReal 0 :=
  Mat.planarBlock_ofReal 0

theorem update_pinnedTrack : ∃ e, pinnedTrack.update (pinned 1) = .error e := by
  have started := KinematicState.initiate_ofReal 0 0 0 0 0 ((1 : ℝ) • 1)
  rw [← isotropic_finite, ← positionNoise_pinned 0 1] at started
  have state : pinnedTrack.state = .ofReal _ (Observed.position.jointNoise 0 ((1 : ℝ) • 1)) :=
    started
  have symm := Observed.position.isSymm_jointNoise _ _ isSymm_zero (isotropic_isSymm 1)
  have innovation : KinematicState.innovation .position
      (Observed.position.jointNoise 0 ((1 : ℝ) • 1)) 0 = 0 := by
    unfold KinematicState.innovation
    rw [Observed.realMatrix_mul_jointNoise, Matrix.zero_mul, Matrix.zero_mul, add_zero]
  refine Track.update_eq_error_iff.mpr (.position (e := .innovationNotPositiveDefinite) ?_)
  change pinnedTrack.state.correct .position ⟨.finite 1, .finite 0⟩
    ((pinned 1).positionNoise (.finite 1)) = _
  rw [positionNoise_pinned, state]
  refine KinematicState.correct_ofReal_of_not_posDef .position _ symm isSymm_zero fun definite => ?_
  rw [innovation] at definite
  exact lt_irrefl (0 : ℝ) (definite.diag_pos (i := 0))

/-- What happens to the track: it cannot be corrected and is missed, and a second later it is. -/
def pinnedCalls : List (Track.Call Exact Exact) :=
  [.update (pinned 1), .miss, .observeClasses [⟨.bus, 1⟩], .predict second, .update (car 1)]

theorem exists_performAll_pinned : ∃ u,
    Track.Sourced.performAll ⟨pinnedTrack, pinned 0⟩ pinnedCalls = .ok ⟨u, car 1⟩ := by
  obtain ⟨e, failed⟩ := update_pinnedTrack
  have seen : (pinnedTrack.miss.observeClasses [⟨.bus, 1⟩]).Regular :=
    ⟨regular_pinnedTrack.state, regular_pinnedTrack.noise, regular_pinnedTrack.process⟩
  obtain ⟨p, predicted⟩ :
      ∃ p, (pinnedTrack.miss.observeClasses [⟨.bus, 1⟩]).predict second = .ok p :=
    Track.exists_predict_eq_ok (Nat.le_of_ble_eq_true rfl)
  -- the third car reports no covariance, so it is measured with positive definite noise
  obtain ⟨u, updated⟩ : ∃ u, p.update (car 1) = .ok u := by
    have regular := seen.predict predicted
    have noise : p.noiseVariance = .finite 1 := by
      obtain ⟨age, -, rfl⟩ := Track.predict_eq_ok_iff.mp predicted
      rfl
    have real : (car 1).IsReal := by
      refine ⟨(isFinite_car 1).centroid, fun c measured => ?_, (isFinite_car 1).twist,
        (isFinite_car 1).shape⟩
      cases measured
    obtain ⟨s, corrected⟩ := regular.state.exists_correct .position 1 0
      (PosDef.one.smul one_pos : ((1 : ℝ) • (1 : Matrix (Fin 2) (Fin 2) ℝ)).PosDef)
    have uncertain : (car 1).positionNoise p.noiseVariance = Mat.ofReal ((1 : ℝ) • 1) := by
      rw [noise]
      exact isotropic_finite 1
    rw [← uncertain] at corrected
    obtain ⟨next, both, -⟩ := regular.exists_correctedState real corrected
    exact ⟨_, bind_eq_ok_iff.mpr ⟨next, both, rfl⟩⟩
  refine ⟨u, performAll_cons_eq_ok_iff.mpr ⟨_, perform_update_of_error failed, ?_⟩⟩
  refine performAll_cons_eq_ok_iff.mpr ⟨_, rfl, performAll_cons_eq_ok_iff.mpr ⟨_, rfl, ?_⟩⟩
  refine performAll_cons_eq_ok_iff.mpr ⟨_, bind_eq_ok_iff.mpr ⟨p, predicted, rfl⟩, ?_⟩
  exact performAll_cons_eq_ok_iff.mpr ⟨_, perform_update_of_ok updated, rfl⟩

end

end Scene

/-- A pinned car cannot be corrected by another one, and a second later it is by a third. -/
theorem Track.shows_of_performAll_pinned :
    let noise : TrackNoise Exact := ⟨⟨.finite 1⟩, .finite 1, .finite 1⟩
    noise.IsReal ∧ (Scene.pinned 0).IsFinite ∧
    (∀ d, .update d ∈ Scene.pinnedCalls → d.IsFinite) ∧
    (ofDetection 0 noise (Scene.pinned 0)).shape = (Scene.pinned 0).shape ∧
    ∃ u, Sourced.performAll ⟨ofDetection 0 noise (Scene.pinned 0), Scene.pinned 0⟩
        Scene.pinnedCalls = .ok ⟨u, Scene.car 1⟩ ∧
      u.IsFinite ∧ u.Shows (Scene.car 1) ∧ u.Drifts ∧ u.IsReported := by
  intro noise
  have real : noise.IsReal := ⟨1, 1, 1, rfl⟩
  have finite := Scene.isFinite_pinned 0
  have measured : ∀ d, .update d ∈ Scene.pinnedCalls → d.IsFinite := by
    intro d member
    simp only [Scene.pinnedCalls, List.mem_cons, List.not_mem_nil, or_false, Call.update.injEq,
      reduceCtorEq, false_or] at member
    rcases member with rfl | rfl
    · exact Scene.isFinite_pinned 1
    · exact Scene.isFinite_car 1
  obtain ⟨started, shown⟩ := shows_of_performAll 0 real finite measured
  obtain ⟨u, ran⟩ := Scene.exists_performAll_pinned
  exact ⟨real, finite, measured, started, u, ran, shown _ ran⟩

end TrackFusion
