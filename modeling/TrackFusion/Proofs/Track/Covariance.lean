import TrackFusion.Proofs.Geometry.FrameChange
import TrackFusion.Proofs.Kalman.RealState
import TrackFusion.Proofs.Track.Lifecycle

/-!
The covariance of a track over real numbers.

A track is regular if its state is real, its covariance positive semidefinite and its noise
usable. A track that starts at a real detection is regular, and predictions and corrections keep
it so. A correction of a regular track by a detection to which its distance can be computed
succeeds: the position is corrected by the innovation that the distance has factored already, and
the innovation of a velocity is positive definite by its noise.
-/

set_option autoImplicit false
set_option relaxedAutoImplicit false

namespace TrackFusion

open Matrix

variable {π : Type}

theorem Mat.planarBlock_ofReal (m : Matrix (Fin 3) (Fin 3) ℝ) :
    (Mat.ofReal m).planarBlock = Mat.ofReal (m.submatrix ![0, 1] ![0, 1]) := by
  refine Mat.ext fun i j => ?_
  rw [Mat.entry_ofReal]
  fin_cases i <;> fin_cases j <;> exact Mat.entry_ofReal m _ _

theorem isotropic_finite (v : ℝ) : isotropic (Exact.finite v) = Mat.ofReal (v • 1) := by
  unfold isotropic
  rw [Mat.identity_eq_ofReal, Mat.scale_ofReal]

theorem posSemidef_isotropic {v : ℝ} (nonneg : 0 ≤ v) :
    (v • (1 : Matrix (Fin 2) (Fin 2) ℝ)).PosSemidef :=
  PosSemidef.one.smul nonneg

namespace Detection

/-- The covariance of the detection, if there is one, is real and positive semidefinite. -/
def Semidefinite (d : Detection Exact π) : Prop :=
  ∀ c, d.covariance = some c → ∃ m : Matrix (Fin 3) (Fin 3) ℝ, m.PosSemidef ∧ c = Mat.ofReal m

structure IsReal (d : Detection Exact π) : Prop where
  centroid : ∃ c, d.centroid = .ofReal c
  semidefinite : d.Semidefinite
  twist : ∀ twist, d.twist = some twist → ∃ v, twist.linear = .ofReal v
  shape : d.shape.IsReal

/-- A covariance that is finite after it was turned was turned by a real matrix. -/
theorem semidefinite_transform {odometry : Odometry Exact} {d : Detection Exact π}
    (semidefinite : d.Semidefinite)
    (finite : ∀ c, (d.transform odometry).covariance = some c → c.isFinite = true) :
    (d.transform odometry).Semidefinite := by
  intro c turned
  obtain ⟨c', original, rfl⟩ := Option.map_eq_some_iff.mp turned
  obtain ⟨m, positive, rfl⟩ := semidefinite c' original
  obtain ⟨product, same⟩ := Mat.isFinite_iff.mp (finite _ turned)
  obtain ⟨⟨left, half⟩, -⟩ := Mat.exists_ofReal_of_mul same
  obtain ⟨⟨r, rotation⟩, -⟩ := Mat.exists_ofReal_of_mul half
  refine ⟨_, posSemidef_mul_mul_transpose positive r, ?_⟩
  rw [rotation, Mat.transpose_ofReal, Mat.ofReal_mul, Mat.ofReal_mul]

theorem isReal_transform {odometry : Odometry Exact} {d : Detection Exact π}
    (semidefinite : d.Semidefinite) (valid : (d.transform odometry).isValid = true) :
    (d.transform odometry).IsReal := by
  simp only [isValid, Bool.and_eq_true, Option.all_eq_true] at valid
  obtain ⟨⟨⟨shape, centroid⟩, covariance⟩, twist⟩ := valid
  refine ⟨Vec3.isFinite_iff.mp centroid, semidefinite_transform semidefinite ?_, ?_,
    Shape.isReal_of_isValid shape⟩
  · intro c turned
    have checked := covariance c turned
    simp only [Mat.isCovariance, Bool.and_eq_true] at checked
    exact checked.1.1
  · intro tw seen
    exact Vec3.isFinite_iff.mp (twist tw seen).1

theorem IsReal.exists_positionNoise {d : Detection Exact π} (real : d.IsReal) {v : ℝ}
    (nonneg : 0 ≤ v) : ∃ noise : Matrix (Fin 2) (Fin 2) ℝ, noise.PosSemidef ∧
      d.positionNoise (.finite v) = Mat.ofReal noise := by
  unfold positionNoise planarCovariance
  cases measured : d.covariance with
  | none => exact ⟨_, posSemidef_isotropic nonneg, isotropic_finite v⟩
  | some c =>
    obtain ⟨m, positive, rfl⟩ := real.semidefinite c measured
    exact ⟨_, positive.submatrix _, Mat.planarBlock_ofReal m⟩

end Detection

namespace Track

/-- The state of the track is regular, and its noises are usable. -/
structure Regular (t : Track Exact π) : Prop where
  state : t.state.Regular
  noise : ∃ r, 0 < r ∧ t.noiseVariance = .finite r
  process : ∃ q, 0 ≤ q ∧ t.model = ⟨.finite q⟩

variable {t u p : Track Exact π} {d : Detection Exact π}

theorem Regular.predict {dt : Duration} (regular : t.Regular) (predicted : t.predict dt = .ok p) :
    p.Regular := by
  obtain ⟨age, -, rfl⟩ := predict_eq_ok_iff.mp predicted
  obtain ⟨q, nonneg, model⟩ := regular.process
  have state := regular.state.predict nonneg dt
  rw [← model] at state
  exact ⟨state, regular.noise, regular.process⟩

theorem Regular.miss (regular : t.Regular) : t.miss.Regular :=
  ⟨regular.state, regular.noise, regular.process⟩

theorem Regular.exists_correctedState (regular : t.Regular) (real : d.IsReal)
    {s : KinematicState Exact}
    (corrected : t.state.correct .position d.centroid.planar (d.positionNoise t.noiseVariance) =
      .ok s) :
    ∃ next, t.correctedState d = .ok next ∧ next.Regular := by
  obtain ⟨r, positive, noise⟩ := regular.noise
  obtain ⟨c, centroid⟩ := real.centroid
  obtain ⟨n, semidefinite, same⟩ := real.exists_positionNoise positive.le
  unfold correctedState
  rw [corrected, ok_bind]
  rw [noise, same, centroid, Vec3.planar_ofReal] at corrected
  have kept := regular.state.correct semidefinite corrected
  cases seen : d.twist with
  | none => exact ⟨s, rfl, kept⟩
  | some twist =>
    obtain ⟨v, velocity⟩ := real.twist twist seen
    have definite : (r • (1 : Matrix (Fin 2) (Fin 2) ℝ)).PosDef := PosDef.one.smul positive
    obtain ⟨next, second⟩ := kept.exists_correct .velocity (v 0) (v 1) definite
    refine ⟨next, ?_, kept.correct definite.posSemidef second⟩
    dsimp only
    rw [velocity, Vec3.planar_ofReal, noise, isotropic_finite, second]

theorem exists_correct_of_mahalanobisDistance {v : Exact}
    (distance : t.mahalanobisDistance d = .ok v) :
    ∃ s, t.state.correct .position d.centroid.planar (d.positionNoise t.noiseVariance) = .ok s := by
  unfold mahalanobisDistance KinematicState.gatingDistance KinematicState.gatingForm at distance
  unfold KinematicState.correct
  dsimp only at distance ⊢
  cases factor : LowerFactor.ofMatrix?
      (t.state.project .position (d.positionNoise t.noiseVariance)).covariance with
  | none =>
    rw [factor] at distance
    cases distance
  | some l => exact ⟨_, rfl⟩

variable [Scalar π]

/-- A regular track to which the distance of a real detection can be computed is updated by it. -/
theorem Regular.exists_update (regular : t.Regular) (real : d.IsReal) {v : Exact}
    (distance : t.mahalanobisDistance d = .ok v) : ∃ u, t.update d = .ok u := by
  obtain ⟨s, corrected⟩ := exists_correct_of_mahalanobisDistance distance
  obtain ⟨next, both, -⟩ := regular.exists_correctedState real corrected
  unfold update
  rw [both]
  exact ⟨_, rfl⟩

theorem Regular.update (regular : t.Regular) (real : d.IsReal) (updated : t.update d = .ok u) :
    u.Regular := by
  obtain ⟨s, corrected, same⟩ := bind_eq_ok_iff.mp updated
  obtain rfl := pure_eq_ok_iff.mp same
  obtain ⟨first, position, -⟩ := bind_eq_ok_iff.mp corrected
  obtain ⟨next, both, state⟩ := regular.exists_correctedState real position
  obtain rfl := Except.ok.inj (both.symm.trans corrected)
  exact ⟨state, regular.noise, regular.process⟩

theorem Regular.advance (regular : t.Regular) {given : Option (Detection Exact π)}
    (real : ∀ d, given = some d → d.IsReal) : (t.advance given).Regular := by
  rcases advance_cases t given with ⟨d, same, updated, -⟩ | ⟨-, same⟩
  · exact regular.update (real d same) updated
  · rw [same]
    exact regular.miss

theorem exists_ofDetection_state_eq (id : Nat) (q v r : ℝ) {c : Fin 3 → ℝ}
    {n : Matrix (Fin 2) (Fin 2) ℝ} (centroid : d.centroid = .ofReal c)
    (uncertain : d.positionNoise (.finite v) = Mat.ofReal n)
    (moving : ∀ twist, d.twist = some twist → ∃ w, twist.linear = .ofReal w) :
    ∃ x y u : ℝ, (u = v ∨ u = r) ∧
      (ofDetection id ⟨⟨.finite q⟩, .finite v, .finite r⟩ d).state =
        .initiate ⟨.finite (c 0), .finite (c 1)⟩ (Mat.ofReal n) ⟨.finite x, .finite y⟩
          (Mat.ofReal (u • 1)) := by
  unfold ofDetection
  dsimp only
  rw [uncertain, centroid, Vec3.planar_ofReal]
  cases seen : d.twist with
  | none =>
    refine ⟨0, 0, v, .inl rfl, ?_⟩
    rw [← isotropic_finite]
    rfl
  | some twist =>
    obtain ⟨w, linear⟩ := moving twist seen
    refine ⟨w 0, w 1, r, .inr rfl, ?_⟩
    rw [← isotropic_finite]
    dsimp only
    rw [linear, Vec3.planar_ofReal]

theorem regular_ofDetection (id : Nat) {initial measured process : ℝ} (first : 0 < initial)
    (second : 0 < measured) (third : 0 ≤ process) (real : d.IsReal) :
    (ofDetection id ⟨⟨.finite process⟩, .finite initial, .finite measured⟩ d).Regular := by
  obtain ⟨c, centroid⟩ := real.centroid
  obtain ⟨n, semidefinite, uncertain⟩ := real.exists_positionNoise first.le
  obtain ⟨x, y, u, usual, state⟩ :=
    exists_ofDetection_state_eq id process initial measured centroid uncertain real.twist
  have nonneg : 0 ≤ u := by
    rcases usual with rfl | rfl
    · exact first.le
    · exact second.le
  refine ⟨?_, ⟨measured, second, rfl⟩, process, third, rfl⟩
  rw [state]
  exact KinematicState.regular_initiate (c 0) (c 1) x y semidefinite (posSemidef_isotropic nonneg)

end Track

end TrackFusion
