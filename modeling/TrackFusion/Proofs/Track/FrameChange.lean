import TrackFusion.Proofs.Detection.FrameChange
import TrackFusion.Proofs.Track.Lifecycle

/-!
Tracks under a change of the tracking frame.

A track that is moved stands where the frame change takes it. Its predictions, its distances to
moved detections and its corrections by them are those of the track, moved: none of them depends
on the frame.
-/

set_option autoImplicit false
set_option relaxedAutoImplicit false

namespace TrackFusion

open Matrix

noncomputable section

variable {π : Type} (T : FrameChange)

namespace FrameChange

theorem planar_move (v : Fin 3 → ℝ) : (!![T.move v 0; T.move v 1] : Matrix (Fin 2) (Fin 1) ℝ) =
    T.planar * !![v 0; v 1] + Observed.position.realMatrix * T.shift := by
  rw [move_eq, T.yaw.turn_eq]
  ext i j
  rw [Matrix.add_apply, mul_apply, mul_apply, Fin.sum_univ_two, Fin.sum_univ_four]
  fin_cases i <;> fin_cases j <;>
    simp [planar, shift, Observed.realMatrix, dotProduct, Fin.sum_univ_three]

theorem planar_turn (v : Fin 3 → ℝ) :
    (!![(T.rotation.turn *ᵥ v) 0; (T.rotation.turn *ᵥ v) 1] : Matrix (Fin 2) (Fin 1) ℝ) =
      T.planar * !![v 0; v 1] := by
  rw [T.yaw.turn_eq]
  ext i j
  rw [mul_apply, Fin.sum_univ_two]
  fin_cases i <;> fin_cases j <;> simp [planar, mulVec, dotProduct, Fin.sum_univ_three]

theorem move_add (v w : Fin 3 → ℝ) : T.move (v + w) = T.turning.move v + T.move w := by
  rw [move_eq, move_eq, move_eq, mulVec_add]
  change _ = T.rotation.turn *ᵥ v + 0 + (T.rotation.turn *ᵥ w + T.offset)
  abel

theorem turning_move_sub (v w : Fin 3 → ℝ) : T.turning.move (v + -w) = T.move v + -T.move w := by
  rw [move_eq, move_eq, move_eq, mulVec_add, mulVec_neg]
  change T.rotation.turn *ᵥ v + -(T.rotation.turn *ᵥ w) + 0 = _
  abel

theorem move_height (v : Fin 3 → ℝ) : T.move v 2 = v 2 + T.offset 2 := by
  rw [move_eq, T.yaw.turn_eq]
  simp [dotProduct, Fin.sum_univ_three]

theorem velocity_mul_shift : Observed.velocity.realMatrix * T.shift = 0 := by
  ext i j
  rw [mul_apply, Fin.sum_univ_four]
  fin_cases i <;> fin_cases j <;> simp [shift, Observed.realMatrix]

/-- The horizontal block of a turned covariance is turned. -/
theorem submatrix_turn (m : Matrix (Fin 3) (Fin 3) ℝ) :
    (T.rotation.turn * m * T.rotation.turnᵀ).submatrix ![0, 1] ![0, 1] =
      T.planar * m.submatrix ![0, 1] ![0, 1] * T.planarᵀ := by
  rw [T.yaw.turn_eq]
  ext i j
  simp only [submatrix_apply, mul_apply, Fin.sum_univ_three, Fin.sum_univ_two]
  fin_cases i <;> fin_cases j <;> simp [planar]

theorem planar_isotropic (v : ℝ) : T.planar * (v • 1) * T.planarᵀ = v • 1 := by
  rw [Matrix.mul_smul, Matrix.mul_one, Matrix.smul_mul, T.planar_mul_transpose]

end FrameChange

theorem isotropic_isSymm (v : ℝ) : (v • (1 : Matrix (Fin 2) (Fin 2) ℝ)).IsSymm := by
  rw [IsSymm, transpose_smul, transpose_one]

theorem KinematicState.IsReal.correct_velocity_moveBy {s : KinematicState Exact} (real : s.IsReal)
    (r : ℝ) (v : Fin 3 → ℝ) :
    (s.moveBy T).correct .velocity (Vec3.ofReal (T.rotation.turn *ᵥ v)).planar
        (isotropic (.finite r)) =
      (s.correct .velocity (Vec3.ofReal v).planar (isotropic (.finite r))).map (moveBy T) := by
  obtain ⟨mean, p, symm, rfl⟩ := real
  have turned : (!![(T.rotation.turn *ᵥ v) 0; (T.rotation.turn *ᵥ v) 1] :
      Matrix (Fin 2) (Fin 1) ℝ) =
        T.planar * !![v 0; v 1] + Observed.velocity.realMatrix * T.shift := by
    rw [T.velocity_mul_shift, add_zero, T.planar_turn]
  have moved : ((ofReal mean p).moveBy T).correct .velocity _ _ = _ :=
    correct_moveBy T symm (isotropic_isSymm r) turned
  rw [T.planar_isotropic] at moved
  rw [Vec3.planar_ofReal, Vec3.planar_ofReal, isotropic_finite]
  exact moved

theorem Detection.IsReal.exists_positionNoise_moveBy {d : Detection Exact π} (real : d.IsReal)
    (v : ℝ) : ∃ n : Matrix (Fin 2) (Fin 2) ℝ, n.IsSymm ∧
      d.positionNoise (.finite v) = Mat.ofReal n ∧ ∀ T : FrameChange,
        (d.moveBy T).positionNoise (.finite v) = Mat.ofReal (T.planar * n * T.planarᵀ) := by
  unfold positionNoise planarCovariance
  cases measured : d.covariance with
  | none =>
    refine ⟨v • 1, isotropic_isSymm v, isotropic_finite v, fun T => ?_⟩
    rw [covariance_moveBy_of_none T measured, T.planar_isotropic]
    exact isotropic_finite v
  | some c =>
    obtain ⟨m, positive, rfl⟩ := real.semidefinite c measured
    refine ⟨m.submatrix ![0, 1] ![0, 1], ?_, Mat.planarBlock_ofReal m, fun T => ?_⟩
    · exact (isHermitian_iff_isSymm.mp positive.isHermitian).submatrix _
    · rw [covariance_moveBy_of_some T measured, ← T.submatrix_turn]
      exact Mat.planarBlock_ofReal _

theorem Detection.IsReal.height_moveBy {d : Detection Exact π} (real : d.IsReal) :
    (d.moveBy T).centroid.z = d.centroid.z + .finite (T.offset 2) := by
  obtain ⟨c, centroid⟩ := real.centroid
  rw [Detection.centroid_moveBy T centroid, centroid]
  exact congrArg Exact.finite (T.move_height c)

theorem Detection.IsReal.relativeShape_moveBy {d : Detection Exact π} (real : d.IsReal) :
    d.relativeShape.IsReal ∧ ∀ T : FrameChange,
      (d.moveBy T).relativeShape = d.relativeShape.transform T.turning.pose := by
  obtain ⟨c, centroid⟩ := real.centroid
  obtain ⟨outline, height, shape⟩ := real.shape
  have before : d.relativeShape = .ofReal (outline.map (· + -c)) height := by
    unfold relativeShape
    rw [centroid, shape, Vec3.neg_ofReal, Shape.translate_ofReal]
  refine ⟨⟨_, _, before⟩, fun T => ?_⟩
  rw [before, Shape.transform_ofReal]
  unfold relativeShape
  rw [centroid_moveBy T centroid, shape_moveBy T shape, Vec3.neg_ofReal, Shape.translate_ofReal,
    List.map_map, List.map_map]
  congr 2
  funext v
  exact (T.turning_move_sub v c).symm

def TrackNoise.IsReal (noise : TrackNoise Exact) : Prop :=
  ∃ q v r : ℝ, noise = ⟨⟨.finite q⟩, .finite v, .finite r⟩

namespace Track

def moveBy (t : Track Exact π) : Track Exact π :=
  { t with
    state := t.state.moveBy T
    elevation := t.elevation + .finite (T.offset Space.z)
    relativeShape := t.relativeShape.transform T.turning.pose }

/-- All numbers of the track but the probabilities are real, and its covariance is symmetric. -/
structure IsReal (t : Track Exact π) : Prop where
  state : t.state.IsReal
  model : ∃ q, t.model = ⟨.finite q⟩
  noise : ∃ r, t.noiseVariance = .finite r
  elevation : ∃ z, t.elevation = .finite z
  shape : t.relativeShape.IsReal

variable {t p u : Track Exact π} {d : Detection Exact π}

theorem IsReal.predict {dt : Duration} (real : t.IsReal) (predicted : t.predict dt = .ok p) :
    p.IsReal := by
  obtain ⟨age, -, rfl⟩ := predict_eq_ok_iff.mp predicted
  obtain ⟨q, model⟩ := real.model
  have state := real.state.predict q dt
  rw [← model] at state
  exact ⟨state, real.model, real.noise, real.elevation, real.shape⟩

theorem IsReal.predict_moveBy (real : t.IsReal) (dt : Duration) :
    (t.moveBy T).predict dt = (t.predict dt).map (moveBy T) := by
  obtain ⟨mean, cov, -, state⟩ := real.state
  obtain ⟨q, model⟩ := real.model
  have moved := KinematicState.predict_moveBy T q mean cov dt
  rw [← state, ← model] at moved
  unfold Track.predict
  change (t.timeSinceUpdate.add dt >>= _) = _
  cases t.timeSinceUpdate.add dt with
  | error e => rfl
  | ok age =>
    change Except.ok ({ t.moveBy T with
        state := t.model.predict (t.state.moveBy T) dt, timeSinceUpdate := age } : Track Exact π) =
      .ok (({ t with state := t.model.predict t.state dt, timeSinceUpdate := age } :
        Track Exact π).moveBy T)
    rw [moved]
    rfl

theorem position_ofReal {mean : Matrix (Fin 4) (Fin 1) ℝ} {cov : Matrix (Fin 4) (Fin 4) ℝ} {z : ℝ}
    (state : t.state = .ofReal mean cov) (elevation : t.elevation = .finite z) :
    t.position = .ofReal ![mean 0 0, mean 1 0, z] := by
  unfold position KinematicState.position
  rw [state, elevation]
  simp only [KinematicState.ofReal, Mat.entry_ofReal]
  rfl

theorem velocity_ofReal {mean : Matrix (Fin 4) (Fin 1) ℝ} {cov : Matrix (Fin 4) (Fin 4) ℝ}
    (state : t.state = .ofReal mean cov) : t.velocity = .ofReal ![mean 2 0, mean 3 0, 0] := by
  unfold velocity KinematicState.velocity
  rw [state]
  simp only [KinematicState.ofReal, Mat.entry_ofReal]
  rfl

theorem IsReal.position_moveBy (real : t.IsReal) :
    (∃ v, t.position = .ofReal v) ∧ (t.moveBy T).position = T.pose.apply t.position := by
  obtain ⟨mean, cov, -, state⟩ := real.state
  obtain ⟨z, elevation⟩ := real.elevation
  have before := position_ofReal state elevation
  refine ⟨⟨_, before⟩, ?_⟩
  rw [before, T.pose_apply, T.move_eq, T.yaw.turn_eq]
  unfold position moveBy KinematicState.position
  rw [state, elevation, KinematicState.moveBy_ofReal]
  simp only [KinematicState.ofReal, Mat.entry_ofReal, Exact.finite_add_finite]
  simp only [Vec3.ofReal_eq]
  simp only [Vec3.mk.injEq, Exact.finite.injEq, Matrix.add_apply, mul_apply, Fin.sum_univ_four]
  simp [FrameChange.motion, FrameChange.planar, FrameChange.shift]
  constructor <;> ring

theorem IsReal.velocity_moveBy (real : t.IsReal) :
    (t.moveBy T).velocity = T.pose.rotation.rotate t.velocity := by
  obtain ⟨mean, cov, -, state⟩ := real.state
  have before := velocity_ofReal state
  rw [before, T.rotate_ofReal, T.yaw.turn_eq]
  unfold velocity moveBy KinematicState.velocity
  rw [state, KinematicState.moveBy_ofReal]
  simp only [KinematicState.ofReal, Mat.entry_ofReal]
  simp only [Vec3.ofReal_eq]
  simp only [Vec3.mk.injEq, Exact.finite.injEq, Exact.zero_eq, Matrix.add_apply, mul_apply,
    Fin.sum_univ_four]
  simp [FrameChange.motion, FrameChange.planar, FrameChange.shift, Motion.vx, Motion.vy]
  constructor <;> ring

theorem IsReal.shape_moveBy (real : t.IsReal) :
    t.shape.IsReal ∧ (t.moveBy T).shape = t.shape.transform T.pose := by
  obtain ⟨outline, height, relative⟩ := real.shape
  obtain ⟨⟨v, position⟩, moved⟩ := real.position_moveBy T
  have before : t.shape = .ofReal (outline.map (· + v)) height := by
    unfold Track.shape
    rw [position, relative, Shape.translate_ofReal]
  refine ⟨⟨_, _, before⟩, ?_⟩
  rw [before, Shape.transform_ofReal]
  unfold Track.shape
  rw [moved, position, T.pose_apply]
  unfold moveBy
  dsimp only
  rw [relative, Shape.transform_ofReal, Shape.translate_ofReal, List.map_map, List.map_map]
  congr 2
  funext w
  exact (T.move_add w v).symm

theorem IsReal.shapeArea_moveBy (real : t.IsReal) : (t.moveBy T).shapeArea = t.shapeArea :=
  Shape.area_transform real.shape T.turning

theorem IsReal.mahalanobisDistance_moveBy (real : t.IsReal) (detected : d.IsReal) :
    (t.moveBy T).mahalanobisDistance (d.moveBy T) = t.mahalanobisDistance d := by
  obtain ⟨mean, cov, symm, state⟩ := real.state
  obtain ⟨r, noise⟩ := real.noise
  obtain ⟨c, centroid⟩ := detected.centroid
  obtain ⟨n, symmNoise, before, after⟩ := detected.exists_positionNoise_moveBy r
  unfold mahalanobisDistance
  change (t.state.moveBy T).gatingDistance ((d.moveBy T).positionNoise t.noiseVariance)
    (T.pose.apply d.centroid).planar = _
  rw [noise, after T, before, centroid, T.pose_apply, state]
  exact KinematicState.gatingDistance_moveBy T symm symmNoise (T.planar_move c)

/-- Correcting a moved track moves the corrected state. -/
theorem IsReal.correctedState_moveBy (real : t.IsReal) (detected : d.IsReal) :
    (t.moveBy T).correctedState (d.moveBy T) =
      (t.correctedState d).map (KinematicState.moveBy T) := by
  obtain ⟨mean, cov, symm, state⟩ := real.state
  obtain ⟨r, noise⟩ := real.noise
  obtain ⟨c, centroid⟩ := detected.centroid
  obtain ⟨n, symmNoise, before, after⟩ := detected.exists_positionNoise_moveBy r
  have position : (t.state.moveBy T).correct .position (T.pose.apply d.centroid).planar
      ((d.moveBy T).positionNoise t.noiseVariance) =
        (t.state.correct .position d.centroid.planar (d.positionNoise t.noiseVariance)).map
          (KinematicState.moveBy T) := by
    rw [noise, after T, before, centroid, T.pose_apply, state]
    exact KinematicState.correct_moveBy T symm symmNoise (T.planar_move c)
  unfold correctedState
  refine (congrArg (· >>= _) position).trans (map_bind_eq_map fun s corrected => ?_)
  have real' : s.IsReal := by
    rw [noise, before, centroid] at corrected
    exact real.state.correct symmNoise corrected
  cases seen : d.twist with
  | none =>
    rw [Detection.twist_moveBy_of_none T seen]
    rfl
  | some twist =>
    obtain ⟨v, linear⟩ := detected.twist twist seen
    rw [Detection.twist_moveBy_of_some T seen linear]
    dsimp only
    change (s.moveBy T).correct .velocity _ (isotropic t.noiseVariance) = _
    rw [linear, noise]
    exact real'.correct_velocity_moveBy T r v

theorem IsReal.correctedState (real : t.IsReal) (detected : d.IsReal) {s : KinematicState Exact}
    (corrected : t.correctedState d = .ok s) : s.IsReal := by
  obtain ⟨r, noise⟩ := real.noise
  obtain ⟨c, centroid⟩ := detected.centroid
  obtain ⟨n, symmNoise, before, -⟩ := detected.exists_positionNoise_moveBy r
  obtain ⟨first, position, rest⟩ := correctedState_cases corrected
  rw [noise, before, centroid] at position
  have between := real.state.correct symmNoise position
  rcases rest with rfl | ⟨twist, seen, velocity⟩
  · exact between
  · obtain ⟨v, linear⟩ := detected.twist twist seen
    rw [linear, noise, isotropic_finite] at velocity
    exact between.correct (isotropic_isSymm r) velocity

variable [Scalar π]

theorem IsReal.update (real : t.IsReal) (detected : d.IsReal) (updated : t.update d = .ok u) :
    u.IsReal := by
  obtain ⟨s, corrected, same⟩ := bind_eq_ok_iff.mp updated
  obtain rfl := pure_eq_ok_iff.mp same
  obtain ⟨c, centroid⟩ := detected.centroid
  exact ⟨real.correctedState detected corrected, real.model, real.noise,
    ⟨c 2, congrArg Vec3.z centroid⟩, detected.relativeShape_moveBy.1⟩

theorem IsReal.update_moveBy (real : t.IsReal) (detected : d.IsReal) :
    (t.moveBy T).update (d.moveBy T) = (t.update d).map (moveBy T) := by
  unfold Track.update
  rw [real.correctedState_moveBy T detected]
  refine map_bind_eq_map fun s _ => ?_
  rw [detected.height_moveBy T, detected.relativeShape_moveBy.2 T]
  rfl

theorem IsReal.advance (real : t.IsReal) {given : Option (Detection Exact π)}
    (detected : ∀ d, given = some d → d.IsReal) : (t.advance given).IsReal := by
  rcases advance_cases t given with ⟨d, same, updated, -⟩ | ⟨-, same⟩
  · exact real.update (detected d same) updated
  · rw [same]
    exact ⟨real.state, real.model, real.noise, real.elevation, real.shape⟩

theorem IsReal.advance_moveBy (real : t.IsReal) {given : Option (Detection Exact π)}
    (detected : ∀ d, given = some d → d.IsReal) :
    (t.moveBy T).advance (given.map (Detection.moveBy T)) = (t.advance given).moveBy T := by
  cases given with
  | none => rfl
  | some d =>
    have updates := real.update_moveBy T (detected d rfl)
    rw [Option.map_some]
    unfold Track.advance
    dsimp only
    rw [updates]
    cases t.update d <;> rfl

variable {noise : TrackNoise Exact}

theorem isReal_ofDetection (id : Nat) (real : noise.IsReal) (detected : d.IsReal) :
    (ofDetection id noise d).IsReal := by
  obtain ⟨q, v, r, rfl⟩ := real
  obtain ⟨c, centroid⟩ := detected.centroid
  obtain ⟨n, symmNoise, before, -⟩ := detected.exists_positionNoise_moveBy v
  obtain ⟨x, y, u, -, state⟩ :=
    exists_ofDetection_state_eq id q v r centroid before detected.twist
  refine ⟨?_, ⟨q, rfl⟩, ⟨r, rfl⟩, ⟨c 2, congrArg Vec3.z centroid⟩,
    detected.relativeShape_moveBy.1⟩
  rw [state]
  exact KinematicState.isReal_initiate (c 0) (c 1) x y symmNoise (isotropic_isSymm u)

theorem ofDetection_state_moveBy (id : Nat) (real : noise.IsReal) (detected : d.IsReal) :
    (ofDetection id noise (d.moveBy T)).state = (ofDetection id noise d).state.moveBy T := by
  obtain ⟨q, v, r, rfl⟩ := real
  obtain ⟨c, centroid⟩ := detected.centroid
  obtain ⟨n, -, before, after⟩ := detected.exists_positionNoise_moveBy v
  unfold ofDetection
  dsimp only
  rw [after T, before, Detection.centroid_moveBy T centroid, centroid, Vec3.planar_ofReal,
    Vec3.planar_ofReal]
  cases seen : d.twist with
  | none =>
    have rest : (0 : Vec2 Exact) = ⟨.finite 0, .finite 0⟩ := rfl
    -- rest is the same in every frame
    have still : (!![0; 0] : Matrix (Fin 2) (Fin 1) ℝ) = T.planar * !![(0 : ℝ); 0] := by
      simpa using T.planar_turn 0
    have started := KinematicState.initiate_moveBy T n (v • 1) (T.planar_move c) still
    rw [T.planar_isotropic] at started
    rw [Detection.twist_moveBy_of_none T seen]
    dsimp only
    rw [isotropic_finite, rest]
    exact started
  | some twist =>
    obtain ⟨w, linear⟩ := detected.twist twist seen
    have started := KinematicState.initiate_moveBy T n (r • 1) (T.planar_move c) (T.planar_turn w)
    rw [T.planar_isotropic] at started
    rw [Detection.twist_moveBy_of_some T seen linear]
    dsimp only
    rw [linear, Vec3.planar_ofReal, Vec3.planar_ofReal, isotropic_finite]
    exact started

theorem ofDetection_moveBy (id : Nat) (real : noise.IsReal) (detected : d.IsReal) :
    ofDetection id noise (d.moveBy T) = (ofDetection id noise d).moveBy T := by
  have state := ofDetection_state_moveBy T id real detected
  have height := detected.height_moveBy T
  have shape := detected.relativeShape_moveBy.2 T
  unfold ofDetection at state ⊢
  unfold moveBy
  dsimp only at state ⊢
  rw [state, height, shape]
  rfl

end Track

def Snapshot.moveBy (s : Snapshot Exact π) : Snapshot Exact π :=
  { s with
    position := T.pose.apply s.position
    positionCovariance :=
      T.pose.rotation.toMatrix * s.positionCovariance * T.pose.rotation.toMatrix.transpose
    velocity := T.pose.rotation.rotate s.velocity
    shape := s.shape.transform T.pose }

namespace Track

def reportedCovariance (p : Matrix (Fin 4) (Fin 4) ℝ) : Matrix (Fin 3) (Fin 3) ℝ :=
  !![p Motion.x Motion.x, p Motion.x Motion.y, 0; p Motion.y Motion.x, p Motion.y Motion.y, 0;
    0, 0, 0]

theorem reportedCovariance_moveBy (p : Matrix (Fin 4) (Fin 4) ℝ) :
    reportedCovariance (T.motion * p * T.motionᵀ) =
      T.rotation.turn * reportedCovariance p * T.rotation.turnᵀ := by
  unfold reportedCovariance
  rw [T.yaw.turn_eq]
  ext i j
  simp only [mul_apply, Fin.sum_univ_three, Fin.sum_univ_four]
  fin_cases i <;> fin_cases j <;> simp [FrameChange.motion, FrameChange.planar]

variable [Scalar π] {t : Track Exact π}

theorem positionCovariance_snapshot {mean : Matrix (Fin 4) (Fin 1) ℝ} {p : Matrix (Fin 4) (Fin 4) ℝ}
    (state : t.state = .ofReal mean p) :
    t.snapshot.positionCovariance = Mat.ofReal (reportedCovariance p) := by
  unfold snapshot KinematicState.positionCovariance
  rw [state]
  simp only [KinematicState.ofReal, Mat.entry_ofReal]
  rfl

theorem IsReal.snapshot_moveBy (real : t.IsReal) :
    (t.moveBy T).snapshot = t.snapshot.moveBy T := by
  obtain ⟨mean, p, -, state⟩ := real.state
  have moved : (t.moveBy T).state =
      .ofReal (T.motion * mean + T.shift) (T.motion * p * T.motionᵀ) := by
    rw [← KinematicState.moveBy_ofReal, ← state]
    rfl
  have covariance : (t.moveBy T).snapshot.positionCovariance =
      (t.snapshot.moveBy T).positionCovariance := by
    unfold Snapshot.moveBy
    rw [positionCovariance_snapshot moved, positionCovariance_snapshot state, T.toMatrix_pose,
      Mat.transpose_ofReal, Mat.ofReal_mul, Mat.ofReal_mul, reportedCovariance_moveBy]
  have position := (real.position_moveBy T).2
  have velocity := real.velocity_moveBy T
  have shape := (real.shape_moveBy T).2
  unfold snapshot Snapshot.moveBy at covariance ⊢
  dsimp only at covariance ⊢
  rw [covariance, position, velocity, shape]
  rfl

end Track

end

end TrackFusion
