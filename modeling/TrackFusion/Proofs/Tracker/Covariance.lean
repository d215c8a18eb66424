import TrackFusion.Proofs.Association.Contract
import TrackFusion.Proofs.Creator.Waiting
import TrackFusion.Proofs.Track.Covariance
import TrackFusion.Proofs.Tracker.Options
import TrackFusion.Proofs.Tracker.Runs

/-!
Covariances of tracks over whole runs.

With usable options, and detections whose covariances are positive semidefinite if they have one,
all tracks of a tracker stay regular. An association that the built-in gates admit has computed a
distance, so its correction succeeds: every assigned detection reaches its track.
-/

set_option autoImplicit false
set_option relaxedAutoImplicit false

namespace TrackFusion

open Matrix

variable {π : Type}

def DetectionBatch.Semidefinite (batch : DetectionBatch Exact π) : Prop :=
  ∀ d ∈ batch.objects, d.Semidefinite

/-- The covariances that come with an event are positive semidefinite. -/
def Event.Semidefinite : Event Exact π → Prop
  | .detections batch _ => batch.Semidefinite
  | .regions .. => True

theorem DetectionBatch.Semidefinite.isReal {batch : DetectionBatch Exact π}
    (semidefinite : batch.Semidefinite) {odometry : Odometry Exact} {frame : String}
    {d : Detection Exact π} (moved : d ∈ (batch.transform odometry frame).objects)
    (valid : d.isValid = true) : d.IsReal := by
  obtain ⟨original, member, rfl⟩ := List.mem_map.mp moved
  exact Detection.isReal_transform (semidefinite original member) valid

/-- A car that is measured with errors that go together in the plane. -/
noncomputable def Scene.correlated (x : ℝ) : Detection Exact Exact :=
  { car x with covariance := some (Mat.ofReal (1 + vecMulVec ![1, 1, 0] ![1, 1, 0])) }

theorem Scene.semidefinite_batch (stamp : Duration) (x : ℝ) :
    (batch stamp [correlated x]).Semidefinite := by
  intro d member c measured
  obtain rfl := List.mem_singleton.mp member
  have positive := PosDef.one.posSemidef.add (posSemidef_vecMulVec_self_star (![1, 1, 0] : Fin 3 → ℝ))
  exact ⟨_, positive, (Option.some.inj measured).symm⟩

variable [Scalar π] {solver : Solver} {options : TrackerOptions Exact}

namespace Session

variable {s next : Session Exact π}

structure Regular (s : Session Exact π) : Prop where
  tracks : ∀ t ∈ s.tracker.tracks, t.Regular
  waiting : s.tracker.creator.detections = []

section Stages

variable {batch : DetectionBatch Exact π} {odometry : Odometry Exact} {frame : String}
  {stages : CycleStages Exact π}

theorem Regular.predicted (regular : s.Regular)
    {associate : List (Detection Exact π) → List (Track Exact π) → Association}
    {batch : DetectionBatch Exact π}
    (staged : s.tracker.stages solver associate batch = .ok stages) {p : Track Exact π}
    (member : p ∈ stages.predicted) : p.Regular := by
  obtain ⟨each, -, -⟩ := Tracker.stages_eq_ok_iff.mp staged
  obtain ⟨old, listed, predicts⟩ := exists_mem_of_forall₂ each member
  exact (regular.tracks old listed).predict predicts

/-- A detection that the built-in gates assign to a track corrects it. -/
theorem Regular.exists_update (regular : s.Regular) (semidefinite : batch.Semidefinite)
    {gates : ObjectGates Exact}
    (staged : s.tracker.stages solver (gates.associate solver) (batch.transform odometry frame) =
      .ok stages)
    {i j : Nat} (assigned : stages.association.observationOf i = some j) :
    ∃ p d u, stages.predicted[i]? = some p ∧
      (batch.transform odometry frame).objects[j]? = some d ∧ d.IsReal ∧ p.update d = .ok u := by
  obtain ⟨-, association, -⟩ := Tracker.stages_eq_ok_iff.mp staged
  rw [association] at assigned
  obtain ⟨p, d, track, detection, valid, -, -, v, distance, -⟩ :=
    (gates.associate_honours solver _ _).assigned i j assigned
  have real := semidefinite.isReal (List.mem_of_getElem? detection) valid
  obtain ⟨u, updated⟩ :=
    (regular.predicted staged (List.mem_of_getElem? track)).exists_update real distance
  exact ⟨p, d, u, track, detection, real, updated⟩

theorem Regular.advanced (regular : s.Regular) (semidefinite : batch.Semidefinite)
    {gates : ObjectGates Exact}
    (staged : s.tracker.stages solver (gates.associate solver) (batch.transform odometry frame) =
      .ok stages)
    {q : Track Exact π} (member : q ∈ stages.advanced (batch.transform odometry frame).objects) :
    q.Regular := by
  obtain ⟨i, bound, rfl⟩ := List.mem_mapIdx.mp member
  refine (regular.predicted staged (List.getElem_mem bound)).advance fun d given => ?_
  obtain ⟨j, assigned, detection⟩ := Option.bind_eq_some_iff.mp given
  obtain ⟨-, d', -, -, detection', real, -⟩ := regular.exists_update semidefinite staged assigned
  rwa [Option.some.inj (detection.symm.trans detection')]

theorem Regular.created (regular : s.Regular) (semidefinite : batch.Semidefinite)
    {initial measured process : ℝ} (first : 0 < initial) (second : 0 < measured)
    (third : 0 ≤ process)
    (noise : s.tracker.creator.settings.noise =
      ⟨⟨.finite process⟩, .finite initial, .finite measured⟩)
    {associate : List (Detection Exact π) → List (Track Exact π) → Association}
    (staged : s.tracker.stages solver associate (batch.transform odometry frame) = .ok stages)
    {t : Track Exact π} (member : t ∈ stages.created) : t.Regular := by
  obtain ⟨-, -, created⟩ := Tracker.stages_eq_ok_iff.mp staged
  obtain ⟨d, waiting, same⟩ := (Creator.exists_detection_of_create created).2 t member
  unfold Creator.addDetections at waiting same
  rw [regular.waiting, List.nil_append] at waiting
  obtain ⟨taken, valid⟩ := List.mem_filter.mp waiting
  obtain ⟨j, -, detection⟩ := List.mem_filterMap.mp taken
  have real := semidefinite.isReal (List.mem_of_getElem? detection) valid
  have started := Track.regular_ofDetection t.id first second third real
  rw [same, noise]
  exact ⟨started.state, started.noise, started.process⟩

end Stages

theorem Regular.step {event : Event Exact π} (regular : s.Regular) (invariant : s.Invariant options)
    (usable : options.validate = .ok ()) (semidefinite : event.Semidefinite)
    (returned : s.step solver (event.call options solver) = .ok next) : next.Regular := by
  cases event with
  | regions batch view =>
    cases returned
    refine ⟨fun u member => ?_, ?_⟩
    · obtain ⟨i, bound, rfl⟩ := List.mem_mapIdx.mp member
      have before := regular.tracks _ (List.getElem_mem bound)
      split
      · exact ⟨before.state, before.noise, before.process⟩
      · exact before
    · exact (Creator.detections_addRegions _ batch view _).trans regular.waiting
  | detections batch odometry =>
    by_cases accepted : s.tracker.validate batch odometry = .ok
    · obtain ⟨stages, staged, rfl⟩ := exists_stages_of_step accepted returned
      obtain ⟨-, -, created⟩ := Tracker.stages_eq_ok_iff.mp staged
      obtain ⟨initial, measured, process, noise, first, second, third⟩ :=
        TrackerOptions.exists_noise_eq usable
      rw [← invariant.settings] at noise
      refine ⟨fun q member => ?_, (Creator.exists_detection_of_create created).1⟩
      rcases List.mem_append.mp (List.mem_of_mem_filter member) with old | new
      · exact regular.advanced semidefinite staged old
      · exact regular.created semidefinite first second third noise staged new
    · have same := returned.symm.trans (step_detections_of_rejected _ accepted)
      cases same
      exact regular

theorem regular_of_run (usable : options.validate = .ok ()) {events : List (Event Exact π)}
    (semidefinite : ∀ e ∈ events, e.Semidefinite)
    (returned : (start options).run solver (events.map (Event.call options solver)) = .ok s) :
    s.Regular := by
  induction events using List.reverseRecOn generalizing s with
  | nil =>
    cases returned
    exact ⟨nofun, rfl⟩
  | append_singleton events event ih =>
    rw [List.map_append, run_append] at returned
    obtain ⟨middle, reached, last⟩ := bind_eq_ok_iff.mp returned
    obtain ⟨after, stepped, same⟩ := bind_eq_ok_iff.mp last
    cases same
    have before := ih (fun e member => semidefinite e (List.mem_append_left _ member)) reached
    exact before.step (invariant_of_run reached) usable
      (semidefinite event (List.mem_append_right _ (List.mem_singleton_self _))) stepped

/-- Every live track has a positive semidefinite covariance, and in every cycle that is applied
next, each detection that the association assigns to a track corrects it. -/
structure KeepsCovariances (solver : Solver) (options : TrackerOptions Exact)
    (s : Session Exact π) : Prop where
  semidefinite : ∀ t ∈ s.tracker.tracks, ∃ p : Matrix (Fin 4) (Fin 4) ℝ, p.PosSemidef ∧
    t.state.covariance = Mat.ofReal p
  corrects : ∀ (batch : DetectionBatch Exact π) (odometry : Odometry Exact),
    batch.Semidefinite → s.tracker.validate batch odometry = .ok → ∀ stages,
    s.tracker.stages solver (options.objectGates.associate solver)
      (batch.transform odometry options.frame) = .ok stages →
    ∀ i j, stages.association.observationOf i = some j → ∃ p d u,
      stages.predicted[i]? = some p ∧
      (batch.transform odometry options.frame).objects[j]? = some d ∧ p.update d = .ok u ∧
      (stages.advanced (batch.transform odometry options.frame).objects)[i]? = some u

/-- Over every run, covariances stay positive semidefinite and no assigned detection is lost. -/
theorem keepsCovariances_of_run (usable : options.validate = .ok ())
    {events : List (Event Exact π)} (semidefinite : ∀ e ∈ events, e.Semidefinite)
    (returned : (start options).run solver (events.map (Event.call options solver)) = .ok s) :
    s.KeepsCovariances solver options := by
  have regular := regular_of_run usable semidefinite returned
  refine ⟨fun t member => ?_, ?_⟩
  · obtain ⟨mean, p, positive, same⟩ := (regular.tracks t member).state
    exact ⟨p, positive, congrArg KinematicState.covariance same⟩
  · intro batch odometry positive _ stages staged i j assigned
    obtain ⟨p, d, u, track, detection, -, updated⟩ :=
      regular.exists_update positive staged assigned
    refine ⟨p, d, u, track, detection, updated, ?_⟩
    have given : stages.given (batch.transform odometry options.frame).objects i = some d := by
      rw [CycleStages.given, assigned, Option.bind_some, detection]
    rw [CycleStages.getElem?_advanced, track, given, Option.map_some, Track.advance, updated]

/-- A car that is seen twice, each time with a covariance. -/
theorem keepsCovariances_of_drive :
    let solver := Solver.augmentingPaths
    let options : TrackerOptions Exact := .standard
    let events : List (Event Exact Exact) :=
      [.detections (Scene.batch Scene.second [Scene.correlated 10]) Scene.odometry,
        .detections (Scene.batch Scene.second [Scene.correlated 11]) Scene.odometry]
    options.validate = .ok () ∧ (∀ e ∈ events, e.Semidefinite) ∧
      ∃ s, (start options).run solver (events.map (Event.call options solver)) = .ok s ∧
        s.KeepsCovariances solver options := by
  intro solver options events
  have every : options.creation.policy = .everyDetection := rfl
  have usable : options.validate = .ok () := TrackerOptions.validate_standard
  have semidefinite : ∀ e ∈ events, e.Semidefinite := by
    rw [List.forall_mem_cons, List.forall_mem_singleton]
    exact ⟨Scene.semidefinite_batch _ 10, Scene.semidefinite_batch _ 11⟩
  obtain ⟨s, returned⟩ :=
    exists_run_of_everyDetection solver every (events.map (Event.call options solver))
  exact ⟨usable, semidefinite, s, returned, keepsCovariances_of_run usable semidefinite returned⟩

end Session

end TrackFusion
