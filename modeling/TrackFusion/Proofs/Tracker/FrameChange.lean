import TrackFusion.Proofs.Creator.FrameChange
import TrackFusion.Proofs.Geometry.Gravity
import TrackFusion.Proofs.Tracker.Covariance

/-!
The tracker under a change of the tracking frame.

A recorded run is moved by moving every odometry into the new frame and every camera along with
it. The tracker then makes the same decisions, under the same identities, and its tracks are the
moved ones: a cycle maps a moved tracker to the moved outcome, and so does every run.
-/

set_option autoImplicit false
set_option relaxedAutoImplicit false

namespace TrackFusion

open Matrix

noncomputable section

variable {π : Type} (T : FrameChange)

def Event.moveBy : Event Exact π → Event Exact π
  | .detections batch odometry => .detections batch (odometry.moveBy T)
  | .regions batch view => .regions batch (view.after T)

/-- An odometry is turned about the vertical axis only and comes with semidefinite covariances; a
camera is turned in any way. -/
def Event.IsMovable : Event Exact π → Prop
  | .detections batch odometry => odometry.IsLevel ∧ batch.Semidefinite
  | .regions _ view => view.IsRigid

structure DetectionBatch.MovesTo (batch batch' : DetectionBatch Exact π) : Prop where
  header : batch'.header = batch.header
  objects : List.Forall₂ (Detection.MovesTo T) batch.objects batch'.objects

theorem DetectionBatch.movesTo_transform {batch : DetectionBatch Exact π}
    {odometry : Odometry Exact} (level : odometry.IsLevel) (semidefinite : batch.Semidefinite)
    (frame : String) :
    (batch.transform odometry frame).MovesTo T (batch.transform (odometry.moveBy T) frame) := by
  refine ⟨rfl, ?_⟩
  unfold transform
  rw [List.forall₂_map_left_iff, List.forall₂_map_right_iff, List.forall₂_same]
  intro d member
  obtain ⟨sameValid, moved⟩ := Detection.isValid_transform_moveBy T level (semidefinite d member)
  exact ⟨sameValid, Detection.isReal_transform (semidefinite d member), moved⟩

theorem DetectionBatch.MovesTo.exists_getElem? {batch batch' : DetectionBatch Exact π}
    (moves : batch.MovesTo T batch') {j : Nat} {d : Detection Exact π}
    (place : batch.objects[j]? = some d) :
    ∃ d', batch'.objects[j]? = some d' ∧ d.MovesTo T d' := by
  obtain ⟨bound, rfl⟩ := List.getElem?_eq_some_iff.mp place
  have bound' := moves.objects.length_eq ▸ bound
  exact ⟨batch'.objects[j], List.getElem?_eq_getElem bound', moves.objects.get bound bound'⟩

theorem DetectionBatch.MovesTo.isReal {batch batch' : DetectionBatch Exact π}
    (moves : batch.MovesTo T batch') {d : Detection Exact π} (member : d ∈ batch.objects)
    (valid : d.isValid = true) : d.IsReal := by
  obtain ⟨j, place⟩ := List.mem_iff_getElem?.mp member
  obtain ⟨d', -, moved⟩ := moves.exists_getElem? T place
  exact moved.real valid

namespace CycleStages

def moveBy (s : CycleStages Exact π) : CycleStages Exact π where
  predicted := s.predicted.map (Track.moveBy T)
  association := s.association
  created := s.created.map (Track.moveBy T)
  creator := s.creator.moveBy T

end CycleStages

def CycleResult.moveBy (r : CycleResult Exact π) : CycleResult Exact π :=
  { r with report := r.report.map fun report =>
      { report with objects := report.objects.map (Snapshot.moveBy T) } }

namespace Tracker

def moveBy (t : Tracker Exact π) : Tracker Exact π :=
  { t with
    creator := t.creator.moveBy T
    tracks := t.tracks.map (Track.moveBy T) }

structure IsReal (t : Tracker Exact π) : Prop where
  tracks : ∀ u ∈ t.tracks, u.IsReal
  creator : t.creator.IsReal

variable {t : Tracker Exact π} {batch batch' : DetectionBatch Exact π}

/-- A cycle is accepted in both frames or rejected for the same reason. -/
theorem validate_moveBy {odometry : Odometry Exact} (level : odometry.IsLevel) :
    (t.moveBy T).validate batch (odometry.moveBy T) = t.validate batch odometry := by
  obtain ⟨q, yaw, rotation⟩ := level
  have before : odometry.pose.rotation.isGravityAligned = true := by
    rw [rotation]
    exact yaw.isGravityAligned
  have after : (odometry.moveBy T).pose.rotation.isGravityAligned = true := by
    change (T.rotation.ofReal.mul odometry.pose.rotation).isGravityAligned = true
    rw [rotation, Quaternion.mul_ofReal]
    exact (T.yaw.mul yaw).isGravityAligned
  unfold validate
  rw [before, after]
  rfl

theorem IsReal.predicted (real : t.IsReal) {dt : Duration} {predicted : List (Track Exact π)}
    (each : List.Forall₂ (fun old p => old.predict dt = .ok p) t.tracks predicted) :
    ∀ p ∈ predicted, p.IsReal := by
  intro p member
  obtain ⟨old, listed, predicts⟩ := exists_mem_of_forall₂ each member
  exact (real.tracks old listed).predict predicts

variable [Scalar π] {gates : ObjectGates Exact} {solver : Solver} {stages : CycleStages Exact π}

theorem stages_moveBy (real : t.IsReal) (moves : batch.MovesTo T batch') :
    (t.moveBy T).stages solver (gates.associate solver) batch' =
      (t.stages solver (gates.associate solver) batch).map (CycleStages.moveBy T) := by
  have predicts : (t.tracks.map (Track.moveBy T)).mapM (fun u : Track Exact π =>
      u.predict ((t.moveBy T).elapsed batch'.header.stamp)) =
        (t.tracks.mapM fun u : Track Exact π => u.predict (t.elapsed batch.header.stamp)).map
          (List.map (Track.moveBy T)) := by
    rw [moves.header]
    exact mapM_map_eq_map fun u member => (real.tracks u member).predict_moveBy T _
  unfold Tracker.stages
  refine (congrArg (· >>= _) predicts).trans (map_bind_eq_map fun predicted returned => ?_)
  have realPredicted := real.predicted (mapM_eq_ok_iff.mp returned)
  have associates := gates.associate_moveBy T solver realPredicted moves.objects
  have waiting := real.creator.addDetections
    (a := gates.associate solver batch.objects predicted) fun d => moves.isReal T
  have creates := Creator.create_moveBy T solver waiting
  rw [← Creator.addDetections_moveBy T moves.header moves.objects] at creates
  dsimp only
  rw [associates]
  exact (congrArg (· >>= _) creates).trans (map_bind_eq_map fun _ _ => rfl)

section Stages

variable (staged : t.stages solver (gates.associate solver) batch = .ok stages)

include staged

theorem isReal_of_given (objects : ∀ d ∈ batch.objects, d.isValid = true → d.IsReal) {i : Nat}
    {d : Detection Exact π} (given : stages.given batch.objects i = some d) : d.IsReal := by
  obtain ⟨-, association, -⟩ := stages_eq_ok_iff.mp staged
  obtain ⟨j, assigned, place⟩ := Option.bind_eq_some_iff.mp given
  rw [association] at assigned
  obtain ⟨-, d', -, place', valid, -⟩ := (gates.associate_honours solver _ _).assigned i j assigned
  obtain rfl := Option.some.inj (place.symm.trans place')
  exact objects d (List.mem_of_getElem? place) valid

theorem given_moveBy (moves : batch.MovesTo T batch') (i : Nat) :
    (stages.moveBy T).given batch'.objects i =
      (stages.given batch.objects i).map (Detection.moveBy T) := by
  obtain ⟨-, association, -⟩ := stages_eq_ok_iff.mp staged
  change (stages.association.observationOf i).bind _ = Option.map _ (Option.bind _ _)
  rw [association]
  cases assigned : (gates.associate solver batch.objects stages.predicted).observationOf i with
  | none => rfl
  | some j =>
    obtain ⟨-, d, -, place, valid, -⟩ := (gates.associate_honours solver _ _).assigned i j assigned
    obtain ⟨d', place', moved⟩ := moves.exists_getElem? T place
    rw [Option.bind_some, Option.bind_some, place, place', moved.moved valid, Option.map_some]

theorem advanced_moveBy (real : t.IsReal) (moves : batch.MovesTo T batch') :
    (stages.moveBy T).advanced batch'.objects =
      (stages.advanced batch.objects).map (Track.moveBy T) := by
  obtain ⟨predicted, -, -⟩ := stages_eq_ok_iff.mp staged
  refine List.ext_getElem? fun i => ?_
  rw [CycleStages.getElem?_advanced, List.getElem?_map, CycleStages.getElem?_advanced,
    given_moveBy T staged moves]
  change (stages.predicted.map (Track.moveBy T))[i]?.map _ = _
  rw [List.getElem?_map]
  cases place : stages.predicted[i]? with
  | none => simp only [Option.map_none]
  | some p =>
    have realTrack := real.predicted predicted p (List.mem_of_getElem? place)
    simp only [Option.map_some]
    rw [realTrack.advance_moveBy T fun d =>
      isReal_of_given staged fun d => moves.isReal T]

theorem afterStages_moveBy (real : t.IsReal) (moves : batch.MovesTo T batch') :
    (t.moveBy T).afterStages batch' (stages.moveBy T) = (t.afterStages batch stages).moveBy T := by
  have advanced := advanced_moveBy T staged real moves
  unfold afterStages moveBy
  dsimp only
  rw [advanced, moves.header]
  change Tracker.mk _ _ (List.filter _ (_ ++ stages.created.map (Track.moveBy T))) _ = _
  rw [← List.map_append, List.filter_map]
  rfl

theorem IsReal.afterStages (real : t.IsReal)
    (objects : ∀ d ∈ batch.objects, d.isValid = true → d.IsReal) :
    (t.afterStages batch stages).IsReal := by
  obtain ⟨predicted, -, created⟩ := stages_eq_ok_iff.mp staged
  have waiting := real.creator.addDetections (a := stages.association) objects
  obtain ⟨next, started⟩ := waiting.create created
  refine ⟨fun u member => ?_, next⟩
  rcases List.mem_append.mp (List.mem_of_mem_filter member) with old | new
  · obtain ⟨i, bound, rfl⟩ := List.mem_mapIdx.mp old
    exact (real.predicted predicted _ (List.getElem_mem bound)).advance fun d =>
      isReal_of_given staged objects
  · exact started u new

/-- The same tracks are corrected and the same ones are created. -/
theorem record_moveBy (real : t.IsReal) (moves : batch.MovesTo T batch') :
    (stages.moveBy T).record batch' = stages.record batch := by
  obtain ⟨predicted, -, -⟩ := stages_eq_ok_iff.mp staged
  unfold CycleStages.record
  rw [moves.header]
  refine congrArg₂ (CycleRecord.mk _) ?_ ?_
  · change ((stages.predicted.map (Track.moveBy T)).zipIdx.filterMap _) = _
    rw [List.zipIdx_map, List.filterMap_map]
    refine List.filterMap_congr fun pair member => ?_
    obtain ⟨p, i⟩ := pair
    have realTrack := real.predicted predicted p (List.fst_mem_of_mem_zipIdx member)
    have succeeds : (((stages.moveBy T).given batch'.objects i).any fun d =>
        ((p.moveBy T).update d).isOk) =
          (stages.given batch.objects i).any fun d => (p.update d).isOk := by
      rw [given_moveBy T staged moves]
      cases given : stages.given batch.objects i with
      | none => rw [Option.map_none, Option.any_none, Option.any_none]
      | some d =>
        have updates := realTrack.update_moveBy T
          (isReal_of_given staged (fun d => moves.isReal T) given)
        rw [Option.map_some, Option.any_some, Option.any_some, updates]
        cases p.update d <;> rfl
    exact congrArg (fun corrected : Bool => if corrected = true then some p.id else none) succeeds
  · change (stages.created.map (Track.moveBy T)).map Track.id = _
    rw [List.map_map]
    rfl

theorem resultOf_moveBy (real : t.IsReal) (moves : batch.MovesTo T batch') :
    (t.moveBy T).resultOf batch' (stages.moveBy T) = (t.resultOf batch stages).moveBy T := by
  have after := real.afterStages staged fun d => moves.isReal T
  have snapshots : ((t.afterStages batch stages).moveBy T).report batch.header.stamp =
      { (t.afterStages batch stages).report batch.header.stamp with
        objects := ((t.afterStages batch stages).report batch.header.stamp).objects.map
          (Snapshot.moveBy T) } := by
    unfold report moveBy
    dsimp only
    rw [List.map_map, List.map_map]
    congr 1
    exact List.map_congr_left fun u member => (after.tracks u member).snapshot_moveBy T
  unfold resultOf CycleResult.moveBy
  dsimp only
  rw [afterStages_moveBy T staged real moves, moves.header, snapshots, Option.map_some]
  rfl

end Stages

variable {odometry : Odometry Exact} {view : Pose Exact} {regions : RegionBatch Exact π}

theorem update_moveBy (real : t.IsReal) (level : odometry.IsLevel)
    (semidefinite : batch.Semidefinite) :
    (t.moveBy T).update solver batch (odometry.moveBy T) =
      (t.update solver batch odometry).map (Prod.map (moveBy T) (CycleResult.moveBy T)) := by
  have validates : (t.moveBy T).validate batch (odometry.moveBy T) = t.validate batch odometry :=
    validate_moveBy T level
  unfold update
  by_cases accepted : t.validate batch odometry = .ok
  · have moves := batch.movesTo_transform T level semidefinite t.options.frame
    have stages : (t.moveBy T).stages solver (t.options.objectGates.associate solver) _ = _ :=
      stages_moveBy T real moves
    rw [updateWith_of_accepted _ _ accepted, updateWith_of_accepted _ _ (validates.trans accepted),
      applyCycle_eq_stages, applyCycle_eq_stages]
    refine (congrArg (· >>= _) stages).trans (map_bind_eq_map fun s staged => ?_)
    refine congrArg Except.ok (Prod.ext ?_ ?_)
    · exact afterStages_moveBy T staged real moves
    · exact resultOf_moveBy T staged real moves
  · have rejected : (t.moveBy T).validate batch (odometry.moveBy T) ≠ .ok := by rwa [validates]
    rw [updateWith_of_rejected _ _ accepted, updateWith_of_rejected _ _ rejected, validates]
    rfl

omit [Scalar π] in
theorem associateRegions_moveBy (gates : VisionGates Exact) (real : t.IsReal)
    (rigid : view.IsRigid) :
    gates.associate solver regions.regions (view.after T) (t.moveBy T).tracks =
      gates.associate solver regions.regions view t.tracks :=
  gates.associate_after T solver regions.regions rigid real.tracks

theorem updateVisionWith_moveBy (a : Association) :
    (t.moveBy T).updateVisionWith regions (view.after T) a =
      (t.updateVisionWith regions view a).moveBy T := by
  have observed : observeRegions (t.tracks.map (Track.moveBy T)) regions.regions a =
      (observeRegions t.tracks regions.regions a).map (Track.moveBy T) := by
    unfold observeRegions
    refine List.ext_getElem? fun i => ?_
    simp only [List.getElem?_map, List.getElem?_mapIdx, Option.map_map]
    congr 1
    funext u
    dsimp only [Function.comp_apply]
    split <;> rfl
  have waiting : (t.moveBy T).creator.addRegions regions (view.after T) a =
      (t.creator.addRegions regions view a).moveBy T := Creator.addRegions_moveBy T
  unfold updateVisionWith
  rw [waiting]
  unfold moveBy
  dsimp only
  rw [observed]

theorem updateVision_moveBy (real : t.IsReal) (rigid : view.IsRigid) :
    (t.moveBy T).updateVision solver regions (view.after T) =
      (t.updateVision solver regions view).moveBy T := by
  unfold updateVision
  rw [← updateVisionWith_moveBy]
  exact congrArg _ (associateRegions_moveBy T t.options.visionGates real rigid)

theorem IsReal.updateVisionWith (real : t.IsReal) (rigid : view.IsRigid) (a : Association) :
    (t.updateVisionWith regions view a).IsReal := by
  refine ⟨fun u member => ?_, real.creator.addRegions rigid⟩
  obtain ⟨i, bound, rfl⟩ := List.mem_mapIdx.mp member
  have before := real.tracks _ (List.getElem_mem bound)
  split
  · exact ⟨before.state, before.model, before.noise, before.elevation, before.shape⟩
  · exact before

end Tracker

namespace Session

def moveBy (s : Session Exact π) : Session Exact π :=
  ⟨s.tracker.moveBy T, s.history⟩

variable [Scalar π] {solver : Solver} {options : TrackerOptions Exact} {s next : Session Exact π}

/-- A call in the new frame leads to the moved session, and fails if the call fails. -/
theorem step_moveBy {event : Event Exact π} (real : s.tracker.IsReal) (movable : event.IsMovable) :
    (s.moveBy T).step solver ((event.moveBy T).call options solver) =
      (s.step solver (event.call options solver)).map (moveBy T) := by
  cases event with
  | regions batch view =>
    have associates : options.visionGates.associate solver batch.regions (view.after T)
        (s.tracker.moveBy T).tracks = _ :=
      Tracker.associateRegions_moveBy T options.visionGates real movable
    have updates (a : Association) :
        (s.tracker.moveBy T).updateVisionWith batch (view.after T) a = _ :=
      Tracker.updateVisionWith_moveBy T a
    change Except.ok (Session.mk ((s.tracker.moveBy T).updateVisionWith batch (view.after T)
      (options.visionGates.associate solver batch.regions (view.after T)
        (s.tracker.moveBy T).tracks)) _) = _
    rw [associates, updates]
    rfl
  | detections batch odometry =>
    obtain ⟨level, semidefinite⟩ := movable
    -- both frames come to the same verdict, so a cycle is accepted in both or in none
    have validates : (s.tracker.moveBy T).validate batch (odometry.moveBy T) =
        s.tracker.validate batch odometry := Tracker.validate_moveBy T level
    by_cases accepted : s.tracker.validate batch odometry = .ok
    · have moves := batch.movesTo_transform T level semidefinite s.tracker.options.frame
      have stages :
          (s.tracker.moveBy T).stages solver (options.objectGates.associate solver) _ = _ :=
        Tracker.stages_moveBy T real moves
      have after : (s.moveBy T).step solver _ = _ :=
        step_detections_eq_map (options.objectGates.associate solver) (validates.trans accepted)
      have before : s.step solver _ = _ :=
        step_detections_eq_map (options.objectGates.associate solver) accepted
      refine after.trans ((congrArg (Except.map _) stages).trans ?_)
      rw [Event.call, before]
      cases staged : s.tracker.stages solver (options.objectGates.associate solver)
        (batch.transform odometry s.tracker.options.frame) with
      | error e => rfl
      | ok stages =>
        refine congrArg Except.ok (congrArg₂ Session.mk ?_ (congrArg (· :: s.history) ?_))
        · exact Tracker.afterStages_moveBy T staged real moves
        · exact Tracker.record_moveBy T staged real moves
    · have rejected : (s.moveBy T).tracker.validate batch (odometry.moveBy T) ≠ .ok :=
        fun same => accepted (validates.symm.trans same)
      refine (step_detections_of_rejected _ rejected).trans ?_
      exact (congrArg (Except.map (moveBy T)) (step_detections_of_rejected _ accepted)).symm

theorem isReal_of_step {event : Event Exact π} (real : s.tracker.IsReal) (movable : event.IsMovable)
    (returned : s.step solver (event.call options solver) = .ok next) : next.tracker.IsReal := by
  cases event with
  | regions batch view =>
    cases returned
    exact real.updateVisionWith movable _
  | detections batch odometry =>
    by_cases accepted : s.tracker.validate batch odometry = .ok
    · obtain ⟨stages, staged, rfl⟩ := exists_stages_of_step accepted returned
      exact real.afterStages staged fun d => movable.2.isReal
    · obtain rfl := Except.ok.inj ((step_detections_of_rejected _ accepted).symm.trans returned)
      exact real

theorem run_moveBy {events : List (Event Exact π)} (real : s.tracker.IsReal)
    (movable : ∀ e ∈ events, e.IsMovable) :
    (s.moveBy T).run solver ((events.map (Event.moveBy T)).map (Event.call options solver)) =
      (s.run solver (events.map (Event.call options solver))).map (moveBy T) := by
  induction events generalizing s with
  | nil => rfl
  | cons event rest ih =>
    obtain ⟨first, others⟩ := List.forall_mem_cons.mp movable
    simp only [List.map_cons, run_cons]
    rw [step_moveBy T real first]
    exact map_bind_eq_map fun middle stepped => ih (isReal_of_step real first stepped) others

theorem isReal_of_run {events : List (Event Exact π)} (real : s.tracker.IsReal)
    (movable : ∀ e ∈ events, e.IsMovable)
    (returned : s.run solver (events.map (Event.call options solver)) = .ok next) :
    next.tracker.IsReal := by
  induction events generalizing s with
  | nil =>
    cases returned
    exact real
  | cons event rest ih =>
    obtain ⟨first, others⟩ := List.forall_mem_cons.mp movable
    rw [List.map_cons, run_cons] at returned
    obtain ⟨middle, stepped, continued⟩ := bind_eq_ok_iff.mp returned
    exact ih (isReal_of_step real first stepped) others continued

end Session

/-- The second track is the first one, seen from the new frame: it has the same identity, classes
and counters, and its estimates are the images of the first one's. -/
structure Track.IsMoved (t t' : Track Exact π) : Prop where
  id : t'.id = t.id
  existence : t'.existence = t.existence
  belief : t'.belief = t.belief
  timeSinceUpdate : t'.timeSinceUpdate = t.timeSinceUpdate
  ticksSinceUpdate : t'.ticksSinceUpdate = t.ticksSinceUpdate
  hits : t'.hits = t.hits
  position : (∃ v, t.position = .ofReal v) ∧ t'.position = T.pose.apply t.position
  velocity : t'.velocity = T.pose.rotation.rotate t.velocity
  shape : t'.shape = t.shape.transform T.pose
  covariance : ∃ p : Matrix (Fin 4) (Fin 4) ℝ, t.state.covariance = Mat.ofReal p ∧
    t'.state.covariance = Mat.ofReal (T.motion * p * T.motionᵀ)

theorem Track.IsReal.isMoved {t : Track Exact π} (real : t.IsReal) : t.IsMoved T (t.moveBy T) := by
  obtain ⟨mean, p, -, state⟩ := real.state
  refine ⟨rfl, rfl, rfl, rfl, rfl, rfl, real.position_moveBy T, real.velocity_moveBy T,
    (real.shape_moveBy T).2, p, congrArg KinematicState.covariance state, ?_⟩
  unfold moveBy
  dsimp only
  rw [state, KinematicState.moveBy_ofReal]
  rfl

namespace Session

variable [Scalar π] {solver : Solver} {options : TrackerOptions Exact} {s : Session Exact π}

/-- The second session is the first one, seen from the new frame, and every further event keeps it
so: its tracks are moved, the same tracks were corrected and created, the same regions wait, and a
next cycle ends in the same way and makes the same decisions. -/
structure IsMoved (solver : Solver) (options : TrackerOptions Exact) (s s' : Session Exact π) :
    Prop where
  sameOptions : s.tracker.options = options ∧ s'.tracker.options = options
  tracks : List.Forall₂ (Track.IsMoved T) s.tracker.tracks s'.tracker.tracks
  history : s'.history = s.history
  nextId : s'.tracker.creator.nextId = s.tracker.creator.nextId
  waiting : s'.tracker.creator.batches.map WaitingRegions.regions =
    s.tracker.creator.batches.map WaitingRegions.regions
  regionCount : s'.tracker.creator.regionCount = s.tracker.creator.regionCount
  cycle : ∀ (batch : DetectionBatch Exact π) (odometry : Odometry Exact), odometry.IsLevel →
    batch.Semidefinite → s'.tracker.update solver batch (odometry.moveBy T) =
      (s.tracker.update solver batch odometry).map
        (Prod.map (Tracker.moveBy T) (CycleResult.moveBy T))
  decisions : ∀ (batch : DetectionBatch Exact π) (odometry : Odometry Exact), odometry.IsLevel →
    batch.Semidefinite → s'.tracker.stages solver (options.objectGates.associate solver)
        (batch.transform (odometry.moveBy T) options.frame) =
      (s.tracker.stages solver (options.objectGates.associate solver)
        (batch.transform odometry options.frame)).map (CycleStages.moveBy T)
  vision : ∀ (batch : RegionBatch Exact π) (view : Pose Exact), view.IsRigid →
    options.visionGates.associate solver batch.regions (view.after T) s'.tracker.tracks =
        options.visionGates.associate solver batch.regions view s.tracker.tracks ∧
      s'.tracker.updateVision solver batch (view.after T) =
        (s.tracker.updateVision solver batch view).moveBy T

theorem isMoved_moveBy (same : s.tracker.options = options) (real : s.tracker.IsReal) :
    IsMoved T solver options s (s.moveBy T) where
  sameOptions := ⟨same, same⟩
  tracks := by
    change List.Forall₂ _ _ (s.tracker.tracks.map (Track.moveBy T))
    rw [List.forall₂_map_right_iff, List.forall₂_same]
    exact fun t member => (real.tracks t member).isMoved T
  history := rfl
  nextId := rfl
  waiting := by
    change (s.tracker.creator.batches.map (WaitingRegions.moveBy T)).map _ = _
    rw [List.map_map]
    rfl
  regionCount := by
    unfold Creator.regionCount
    change ((s.tracker.creator.batches.map (WaitingRegions.moveBy T)).flatMap _).length = _
    rw [List.flatMap_map]
    rfl
  cycle batch odometry level semidefinite := Tracker.update_moveBy T real level semidefinite
  decisions batch odometry level semidefinite :=
    Tracker.stages_moveBy T real (batch.movesTo_transform T level semidefinite _)
  vision batch view rigid :=
    ⟨Tracker.associateRegions_moveBy T _ real rigid, Tracker.updateVision_moveBy T real rigid⟩

/-- A run that is recorded in another frame fails if the run fails, and otherwise leads to the
session that is moved into that frame. -/
theorem isMoved_of_run (real : options.creation.noise.IsReal) {events : List (Event Exact π)}
    (movable : ∀ e ∈ events, e.IsMovable) :
    (start options).run solver ((events.map (Event.moveBy T)).map (Event.call options solver)) =
        ((start options).run solver (events.map (Event.call options solver))).map (moveBy T) ∧
      ∀ s, (start options).run solver (events.map (Event.call options solver)) = .ok s →
        IsMoved T solver options s (s.moveBy T) := by
  have initial : (start options : Session Exact π).tracker.IsReal :=
    ⟨fun _ member => absurd member List.not_mem_nil, real,
      fun _ member => absurd member List.not_mem_nil,
      fun _ member => absurd member List.not_mem_nil⟩
  refine ⟨run_moveBy T initial movable, fun s returned => ?_⟩
  exact isMoved_moveBy T (invariant_of_run returned).sameOptions
    (isReal_of_run initial movable returned)

end Session

/-- A frame that looks back from another place. -/
def Scene.elsewhere : FrameChange where
  rotation := ⟨0, 0, 1, 0⟩
  yaw := ⟨rfl, rfl, by unfold Quaternion.IsUnit; norm_num⟩
  offset := ![1, 0, 1]

/-- A car is seen by the camera and twice by the other sensor. -/
theorem Session.isMoved_of_drive :
    let T := Scene.elsewhere
    let solver := Solver.augmentingPaths
    let options : TrackerOptions Exact := .standard
    let events : List (Event Exact Exact) :=
      [.regions ⟨⟨Scene.second, "camera"⟩, [Scene.region]⟩ Scene.below,
        .detections (Scene.batch Scene.second [Scene.correlated 10]) Scene.odometry,
        .detections (Scene.batch Scene.second [Scene.correlated 11]) Scene.odometry]
    options.creation.noise.IsReal ∧ (∀ e ∈ events, e.IsMovable) ∧
      ∃ s, (start options).run solver (events.map (Event.call options solver)) = .ok s ∧
        (start options).run solver ((events.map (Event.moveBy T)).map (Event.call options solver)) =
          .ok (s.moveBy T) ∧
        IsMoved T solver options s (s.moveBy T) := by
  intro T solver options events
  have every : options.creation.policy = .everyDetection := rfl
  have real : options.creation.noise.IsReal := by
    obtain ⟨initial, measured, process, noise, -⟩ :=
      TrackerOptions.exists_noise_eq TrackerOptions.validate_standard
    exact ⟨process, initial, measured, noise⟩
  have unit : (⟨0, 0, 0, 1⟩ : Quaternion ℝ).IsUnit := by
    unfold Quaternion.IsUnit
    norm_num
  have level : Scene.odometry.IsLevel := ⟨⟨0, 0, 0, 1⟩, ⟨rfl, rfl, unit⟩, rfl⟩
  have rigid : Scene.below.IsRigid := ⟨⟨0, 0, 0, 1⟩, unit, rfl⟩
  have movable : ∀ e ∈ events, e.IsMovable := by
    rw [List.forall_mem_cons, List.forall_mem_cons, List.forall_mem_singleton]
    exact ⟨rigid, ⟨level, Scene.semidefinite_batch _ 10⟩, level, Scene.semidefinite_batch _ 11⟩
  obtain ⟨s, returned⟩ :=
    exists_run_of_everyDetection solver every (events.map (Event.call options solver))
  obtain ⟨moved, same⟩ := @isMoved_of_run _ T _ solver options real events movable
  rw [returned] at moved
  exact ⟨real, movable, s, returned, moved, same s returned⟩

end

end TrackFusion
