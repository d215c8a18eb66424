import TrackFusion.Proofs.Creator.Delay
import TrackFusion.Proofs.Tracker.Classes
import TrackFusion.Proofs.Tracker.Overflow

/-!
Tracking depends on time differences only.

If everything that is given to a tracker was captured later by one delay, then every call answers
the same status and the same tracks, at the later time. What could break this is where times enter:
the check against the last cycle, the time to predict over, which the first cycle takes to be zero,
and the windows of waiting regions. Each of them compares or subtracts two delayed times, or adds
the window to one, so that it is enough that the delayed windows end at times that can be held.
-/

set_option autoImplicit false
set_option relaxedAutoImplicit false

namespace TrackFusion

variable {ρ π : Type} {D : Duration}

namespace Event

def delay (D : Duration) : Event ρ π → Event ρ π
  | .detections batch odometry => .detections (batch.delay D) odometry
  | .regions batch view => .regions (batch.delay D) view

/-- The times of the event can wait, those of regions together with their window. -/
def CanWait (window D : Duration) : Event ρ π → Prop
  | .detections batch _ => D.CanWait batch.header.stamp
  | .regions batch _ =>
    batch.header.stamp.nanoseconds + D.nanoseconds + window.nanoseconds < durationLimit

end Event

def CycleResult.delay (D : Duration) (r : CycleResult ρ π) : CycleResult ρ π :=
  { r with report := r.report.map fun report =>
      { report with header := { report.header with stamp := report.header.stamp.delay D } } }

def CycleStages.delay (D : Duration) (s : CycleStages ρ π) : CycleStages ρ π :=
  { s with creator := s.creator.delay D }

namespace Tracker

def delay (D : Duration) (t : Tracker ρ π) : Tracker ρ π :=
  { t with
    creator := t.creator.delay D
    lastUpdate := t.lastUpdate.map (·.delay D) }

structure CanWait (D : Duration) (t : Tracker ρ π) : Prop where
  lastUpdate : ∀ last, t.lastUpdate = some last → D.CanWait last
  creator : t.creator.CanWait D

variable {t : Tracker ρ π}

theorem canWait_start (options : TrackerOptions ρ) :
    (start options : Tracker ρ π).CanWait D :=
  ⟨nofun, nofun, nofun⟩

theorem CanWait.elapsed_delay (room : t.CanWait D) {stamp : Duration} (later : D.CanWait stamp) :
    (t.delay D).elapsed (stamp.delay D) = t.elapsed stamp := by
  unfold elapsed delay
  cases previous : t.lastUpdate with
  | none => rfl
  | some last => exact Duration.monus_delay later (room.lastUpdate last previous)

theorem CanWait.validate_delay [Scalar ρ] (room : t.CanWait D) {batch : DetectionBatch ρ π}
    (later : D.CanWait batch.header.stamp) (odometry : Odometry ρ) :
    (t.delay D).validate (batch.delay D) odometry = t.validate batch odometry := by
  have past : ((t.delay D).lastUpdate.any fun last => (batch.delay D).header.stamp < last) =
      t.lastUpdate.any fun last => batch.header.stamp < last := by
    unfold delay DetectionBatch.delay
    cases previous : t.lastUpdate with
    | none => rfl
    | some last =>
      exact decide_eq_decide.mpr (Duration.delay_lt_iff later (room.lastUpdate last previous))
  unfold validate
  rw [past]
  rfl

variable [ExtendedScalar ρ] [Scalar π] {solver : Solver}

theorem CanWait.stages_delay (room : t.CanWait D) (solver : Solver)
    (associate : List (Detection ρ π) → List (Track ρ π) → Association)
    {batch : DetectionBatch ρ π} (later : D.CanWait batch.header.stamp) :
    (t.delay D).stages solver associate (batch.delay D) =
      (t.stages solver associate batch).map (CycleStages.delay D) := by
  have elapsed : (t.delay D).elapsed (batch.delay D).header.stamp = t.elapsed batch.header.stamp :=
    room.elapsed_delay later
  have creates (a : Association) :
      ((t.delay D).creator.addDetections (batch.delay D) a).create solver =
        ((t.creator.addDetections batch a).create solver).map (Prod.map id (Creator.delay D)) :=
    (congrArg (Creator.create · solver) (t.creator.addDetections_delay batch a)).trans
      ((room.creator.addDetections later a).create_delay solver)
  have tracks : (t.delay D).tracks = t.tracks := rfl
  have objects : (batch.delay D).objects = batch.objects := rfl
  unfold stages
  rw [tracks, elapsed]
  cases t.tracks.mapM fun track => track.predict (t.elapsed batch.header.stamp) with
  | error e => rfl
  | ok predicted =>
    rw [ok_bind, ok_bind, objects]
    dsimp only
    rw [creates]
    exact map_bind_eq_map fun _ _ => rfl

theorem afterStages_delay (t : Tracker ρ π) (batch : DetectionBatch ρ π) (s : CycleStages ρ π) :
    (t.delay D).afterStages (batch.delay D) (s.delay D) = (t.afterStages batch s).delay D :=
  rfl

theorem resultOf_delay (t : Tracker ρ π) (batch : DetectionBatch ρ π) (s : CycleStages ρ π) :
    (t.delay D).resultOf (batch.delay D) (s.delay D) = (t.resultOf batch s).delay D :=
  rfl

theorem CanWait.update_delay (room : t.CanWait D) (solver : Solver) {batch : DetectionBatch ρ π}
    (later : D.CanWait batch.header.stamp) (odometry : Odometry ρ) :
    (t.delay D).update solver (batch.delay D) odometry =
      (t.update solver batch odometry).map (Prod.map (delay D) (CycleResult.delay D)) := by
  have validates := room.validate_delay later odometry
  unfold update
  by_cases accepted : t.validate batch odometry = .ok
  · have staged : (t.delay D).stages solver (t.options.objectGates.associate solver)
        ((batch.transform odometry t.options.frame).delay D) = _ :=
      room.stages_delay solver _ later
    rw [updateWith_of_accepted _ _ accepted, updateWith_of_accepted _ _ (validates.trans accepted),
      applyCycle_eq_stages, applyCycle_eq_stages]
    exact (congrArg (· >>= _) staged).trans (map_bind_eq_map fun s _ =>
      congrArg Except.ok (Prod.ext
        (t.afterStages_delay (batch.transform odometry t.options.frame) s)
        (t.resultOf_delay (batch.transform odometry t.options.frame) s)))
  · rw [updateWith_of_rejected _ _ accepted,
      updateWith_of_rejected _ _ (validates.trans_ne accepted), validates]
    rfl

theorem updateVision_delay (t : Tracker ρ π) (solver : Solver) (batch : RegionBatch ρ π)
    (view : Pose ρ) :
    (t.delay D).updateVision solver (batch.delay D) view =
      (t.updateVision solver batch view).delay D := by
  have taken := t.creator.addRegions_delay (D := D) batch view
    (t.options.visionGates.associate solver batch.regions view t.tracks)
  unfold updateVision updateVisionWith
  exact congrArg (fun creator => Tracker.mk _ creator _ _) taken

theorem CanWait.update {next : Tracker ρ π} (room : t.CanWait D) {batch : DetectionBatch ρ π}
    (later : D.CanWait batch.header.stamp) {odometry : Odometry ρ} {result : CycleResult ρ π}
    (returned : t.update solver batch odometry = .ok (next, result)) : next.CanWait D := by
  unfold Tracker.update at returned
  by_cases accepted : t.validate batch odometry = .ok
  · obtain ⟨s, staged, rfl, -⟩ := (updateWith_eq_ok_iff accepted).mp returned
    obtain ⟨-, -, created⟩ := stages_eq_ok_iff.mp staged
    refine ⟨fun last latest => ?_, ?_⟩
    · obtain rfl := Option.some.inj latest
      exact later
    · have captured : D.CanWait (batch.transform odometry t.options.frame).header.stamp := later
      exact (room.creator.addDetections captured s.association).create created
  · rw [updateWith_of_rejected _ _ accepted] at returned
    cases returned
    exact room

theorem CanWait.updateVision (room : t.CanWait D) {batch : RegionBatch ρ π}
    (later : batch.header.stamp.nanoseconds + D.nanoseconds +
      t.creator.settings.window.nanoseconds < durationLimit) (view : Pose ρ) :
    (t.updateVision solver batch view).CanWait D :=
  ⟨room.lastUpdate, room.creator.addRegions view later _⟩

end Tracker

/-- The second event is the first one, captured later. Its time can be held and, for regions, the
end of their window too. -/
inductive Event.IsLater (D window : Duration) : Event ρ π → Event ρ π → Prop
  | detections {batch : DetectionBatch ρ π} {stamp : Duration} (odometry : Odometry ρ) :
      batch.header.stamp.add D = .ok stamp →
      IsLater D window (.detections batch odometry)
        (.detections { batch with header := { batch.header with stamp := stamp } } odometry)
  | regions {batch : RegionBatch ρ π} {stamp last : Duration} (view : Pose ρ) :
      batch.header.stamp.add D = .ok stamp → stamp.add window = .ok last →
      IsLater D window (.regions batch view)
        (.regions { batch with header := { batch.header with stamp := stamp } } view)

structure Creator.IsLater (D : Duration) (c c' : Creator ρ π) : Prop where
  settings : c'.settings = c.settings
  detections : c'.detections = c.detections
  detectionStamp : Option.Rel (fun s s' => s.add D = .ok s') c.detectionStamp c'.detectionStamp
  batches : List.Forall₂ (fun b b' => b.stamp.add D = .ok b'.stamp ∧ b'.regions = b.regions ∧
    b'.view = b.view) c.batches c'.batches
  regionCount : c'.regionCount = c.regionCount
  nextId : c'.nextId = c.nextId

structure Tracker.IsLater (D : Duration) (t t' : Tracker ρ π) : Prop where
  options : t'.options = t.options
  tracks : t'.tracks = t.tracks
  lastUpdate : Option.Rel (fun s s' => s.add D = .ok s') t.lastUpdate t'.lastUpdate
  creator : t.creator.IsLater D t'.creator

structure CycleResult.IsLater (D : Duration) (r r' : CycleResult ρ π) : Prop where
  status : r'.status = r.status
  report : Option.Rel (fun p p' => p.header.stamp.add D = .ok p'.header.stamp ∧
    p'.header.frame = p.header.frame ∧ p'.objects = p.objects) r.report r'.report

inductive CallOutcome.IsLater (D : Duration) :
    Except DurationOverflow (CallOutcome ρ π) → Except DurationOverflow (CallOutcome ρ π) → Prop
  | returned {o o' : CallOutcome ρ π} : o.tracker.IsLater D o'.tracker →
      Option.Rel (CycleResult.IsLater D) o.result o'.result → IsLater D (.ok o) (.ok o')

section Later

theorem Duration.canWait_of_add {a b : Duration} (sum : a.add D = .ok b) :
    D.CanWait a ∧ a.delay D = b := by
  have room : D.CanWait a := by
    unfold CanWait
    rw [← add_eq_ok_iff.mp sum]
    exact b.bounded
  exact ⟨room, Except.ok.inj (room.add_eq_ok.symm.trans sum)⟩

theorem Event.IsLater.eq_delay {window : Duration} {e e' : Event ρ π}
    (later : e.IsLater D window e') : e' = e.delay D ∧ e.CanWait window D := by
  cases later with
  | detections odometry sum =>
    obtain ⟨room, rfl⟩ := Duration.canWait_of_add sum
    exact ⟨rfl, room⟩
  | @regions batch stamp last view sum ends =>
    obtain ⟨-, rfl⟩ := Duration.canWait_of_add sum
    refine ⟨rfl, ?_⟩
    have bound := last.bounded
    rwa [Duration.add_eq_ok_iff.mp ends, Duration.add_eq_ok_iff.mp sum] at bound

theorem optionRel_delay {o : Option Duration} (room : ∀ s, o = some s → D.CanWait s) :
    Option.Rel (fun s s' => s.add D = .ok s') o (o.map (·.delay D)) := by
  cases o with
  | none => exact .none
  | some s => exact .some (room s rfl).add_eq_ok

theorem Creator.CanWait.isLater {c : Creator ρ π} (room : c.CanWait D) :
    c.IsLater D (c.delay D) where
  settings := rfl
  detections := rfl
  detectionStamp := optionRel_delay room.detectionStamp
  batches := by
    refine List.forall₂_map_right_iff.mpr (List.forall₂_same.mpr fun b member => ?_)
    exact ⟨(room.batches b member).captured.add_eq_ok, rfl, rfl⟩
  regionCount := by
    unfold regionCount delay
    rw [List.flatMap_map]
    rfl
  nextId := rfl

theorem Creator.CanWait.windowsEnd {c : Creator ρ π} (room : c.CanWait D) : c.WindowsEnd := by
  intro _ b member
  have ends := room.batches b member
  unfold WaitingRegions.CanWait at ends
  unfold WaitingRegions.EndsInTime
  omega

theorem Tracker.CanWait.isLater {t : Tracker ρ π} (room : t.CanWait D) :
    t.IsLater D (t.delay D) :=
  ⟨rfl, rfl, optionRel_delay room.lastUpdate, room.creator.isLater⟩

variable [ExtendedScalar ρ] [Scalar π] {solver : Solver}

theorem Tracker.isLater_of_update {t next : Tracker ρ π} {batch : DetectionBatch ρ π}
    {odometry : Odometry ρ} {result : CycleResult ρ π} (later : D.CanWait batch.header.stamp)
    (returned : t.update solver batch odometry = .ok (next, result)) :
    result.IsLater D (result.delay D) := by
  unfold update at returned
  by_cases accepted : t.validate batch odometry = .ok
  · obtain ⟨s, -, -, rfl⟩ := (updateWith_eq_ok_iff accepted).mp returned
    exact ⟨rfl, .some ⟨later.add_eq_ok, rfl, rfl⟩⟩
  · rw [updateWith_of_rejected _ _ accepted] at returned
    cases returned
    exact ⟨rfl, .none⟩

end Later

namespace Session

variable [ExtendedScalar ρ] [Scalar π] {solver : Solver} {options : TrackerOptions ρ}
  {s next : Session ρ π}

theorem exists_result_of_step
    {associate : List (Detection ρ π) → List (Track ρ π) → Association}
    {batch : DetectionBatch ρ π} {odometry : Odometry ρ}
    (returned : s.step solver (.detections associate batch odometry) = .ok next) :
    ∃ result,
      s.tracker.updateWith solver associate batch odometry = .ok (next.tracker, result) := by
  obtain ⟨⟨t, result⟩, updated, rest⟩ := bind_eq_ok_iff.mp returned
  refine ⟨result, ?_⟩
  dsimp only at rest
  split at rest
  · obtain ⟨stages, -, same⟩ := bind_eq_ok_iff.mp rest
    cases same
    exact updated
  · cases rest
    exact updated

/-- Wherever a session has got to, what is delayed from there on is answered later. -/
theorem Invariant.isLater_trace (invariant : s.Invariant options) (room : s.tracker.CanWait D)
    {events : List (Event ρ π)}
    (canWait : ∀ event ∈ events, event.CanWait options.creation.window D) :
    List.Forall₂ (CallOutcome.IsLater D) (s.tracker.trace solver events)
      ((s.tracker.delay D).trace solver (events.map (Event.delay D))) := by
  induction events generalizing s with
  | nil => exact .nil
  | cons event rest ih =>
    rw [List.forall_mem_cons] at canWait
    obtain ⟨first, others⟩ := canWait
    cases event with
    | regions batch view =>
      let call : Call ρ π := .regions (s.tracker.options.visionGates.associate solver) batch view
      obtain ⟨next, stepped⟩ : ∃ next, s.step solver call = .ok next := ⟨_, rfl⟩
      have invariant' := invariant.step stepped
      obtain rfl := Except.ok.inj stepped
      rw [← invariant.settings] at first
      have room' : (s.tracker.updateVision solver batch view).CanWait D :=
        room.updateVision first view
      rw [List.map_cons, Event.delay, Tracker.trace, Tracker.trace, Tracker.updateVision_delay]
      exact .cons (.returned room'.isLater .none) (ih invariant' room' others)
    | detections batch odometry =>
      let call : Call ρ π :=
        .detections (s.tracker.options.objectGates.associate solver) batch odometry
      -- windows that can wait end in time, so the cycle returns
      obtain ⟨next, stepped⟩ : ∃ next, s.step solver call = .ok next :=
        (invariant.exists_step_iff call).mpr fun late => late.2 room.creator.windowsEnd
      obtain ⟨result, updated⟩ := exists_result_of_step stepped
      have updated : s.tracker.update solver batch odometry = .ok (next.tracker, result) := updated
      have room' := room.update first updated
      rw [List.map_cons, Event.delay, Tracker.trace, Tracker.trace,
        room.update_delay solver first odometry, updated]
      exact .cons (.returned room'.isLater (.some (Tracker.isLater_of_update first updated)))
        (ih (invariant.step stepped) room' others)

end Session

namespace Tracker

variable [ExtendedScalar ρ] [Scalar π] {options : TrackerOptions ρ}
  {events events' : List (Event ρ π)}

/-- If all events are captured later by one delay and the later windows end at times that can be
held, then all calls return, and each gives the same at a later time. -/
theorem isLater_of_events (solver : Solver)
    (later : List.Forall₂ (Event.IsLater D options.creation.window) events events') :
    List.Forall₂ (CallOutcome.IsLater D) ((start options).trace solver events)
      ((start options).trace solver events') := by
  have delayed : events' = events.map (Event.delay D) ∧
      ∀ event ∈ events, event.CanWait options.creation.window D := by
    induction later with
    | nil => exact ⟨rfl, nofun⟩
    | cons first _ ih =>
      obtain ⟨rfl, canWait⟩ := first.eq_delay
      exact ⟨congrArg _ ih.1, List.forall_mem_cons.mpr ⟨canWait, ih.2⟩⟩
  obtain ⟨rfl, canWait⟩ := delayed
  exact (Session.invariant_start options).isLater_trace (canWait_start options) canWait

/-- Two images, then a car where they show one. -/
noncomputable def drive (first second third : Duration) : List (Event Exact Exact) :=
  [.regions ⟨⟨first, "camera"⟩, [Scene.region]⟩ Scene.below,
    .regions ⟨⟨second, "camera"⟩, [Scene.region]⟩ Scene.below,
    .detections (Scene.batch third [Scene.car 0]) Scene.odometry]

/-- The images are captured as long after the car as before it, and all of it five seconds later. -/
theorem isLater_of_drive :
    List.Forall₂ (Event.IsLater ⟨5000000000, by decide⟩ Scene.confirming.creation.window)
        (drive ⟨1100000000, by decide⟩ ⟨900000000, by decide⟩ ⟨1000000000, by decide⟩)
        (drive ⟨6100000000, by decide⟩ ⟨5900000000, by decide⟩ ⟨6000000000, by decide⟩) ∧
      List.Forall₂ (CallOutcome.IsLater ⟨5000000000, by decide⟩)
        ((start Scene.confirming).trace .augmentingPaths
          (drive ⟨1100000000, by decide⟩ ⟨900000000, by decide⟩ ⟨1000000000, by decide⟩))
        ((start Scene.confirming).trace .augmentingPaths
          (drive ⟨6100000000, by decide⟩ ⟨5900000000, by decide⟩ ⟨6000000000, by decide⟩)) := by
  have sum {a b c : Duration} (same : c.nanoseconds = a.nanoseconds + b.nanoseconds) :
      a.add b = .ok c := Duration.add_eq_ok_iff.mpr same
  have later : List.Forall₂
      (Event.IsLater ⟨5000000000, by decide⟩ Scene.confirming.creation.window)
      (drive ⟨1100000000, by decide⟩ ⟨900000000, by decide⟩ ⟨1000000000, by decide⟩)
      (drive ⟨6100000000, by decide⟩ ⟨5900000000, by decide⟩ ⟨6000000000, by decide⟩) :=
    .cons (.regions Scene.below (sum rfl) (sum (c := ⟨6300000000, by decide⟩) rfl))
      (.cons (.regions Scene.below (sum rfl) (sum (c := ⟨6100000000, by decide⟩) rfl))
        (.cons (.detections Scene.odometry (sum rfl)) .nil))
  exact ⟨later, isLater_of_events .augmentingPaths later⟩

end Tracker

end TrackFusion
