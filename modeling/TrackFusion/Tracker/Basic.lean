import TrackFusion.Tracker.Options

/-!
The multi-object tracker.

A detection cycle is checked first and changes nothing if it is rejected. An accepted one predicts
all tracks to its capture time, advances each by its associated detection or counts it as missed,
creates tracks for what is left over and removes stale tracks. A vision cycle blends the classes of
matched regions into tracks and hands the others to the creator.

The cycles take the association as an argument; `Tracker.update` and `Tracker.updateVision` use the
built-in ones.
-/

set_option autoImplicit false
set_option relaxedAutoImplicit false

namespace TrackFusion

/-- The outcome of a detection cycle. The cycle ran if it is `ok` or `invalidShape`, where the
latter tells that some detection was passed over; otherwise it was rejected. -/
inductive CycleStatus where
  | ok
  | wentBackInTime
  | detectionFrameMismatch
  | trackerFrameMismatch
  | frameNotGravityAligned
  | invalidShape
  deriving DecidableEq, Repr

namespace CycleStatus

def name : CycleStatus → String
  | .ok => "Ok"
  | .wentBackInTime => "WentBackInTime"
  | .detectionFrameMismatch => "DetectionFrameMismatch"
  | .trackerFrameMismatch => "TrackerFrameMismatch"
  | .frameNotGravityAligned => "FrameNotGravityAligned"
  | .invalidShape => "InvalidShape"

def description : CycleStatus → String
  | .ok => "ok"
  | .wentBackInTime => "detections are older than the last update"
  | .detectionFrameMismatch => "detection frame does not match the odometry child frame"
  | .trackerFrameMismatch => "odometry frame does not match the tracking frame"
  | .frameNotGravityAligned => "odometry is not gravity aligned"
  | .invalidShape => "invalid detections were skipped"

def isApplied : CycleStatus → Bool
  | .ok | .invalidShape => true
  | _ => false

end CycleStatus

structure TrackReport (ρ π : Type) where
  header : Header
  objects : List (Snapshot ρ π)
  deriving DecidableEq

/-- The outcome of a detection cycle and, if it ran, the live tracks after it. -/
structure CycleResult (ρ π : Type) where
  status : CycleStatus
  report : Option (TrackReport ρ π)
  deriving DecidableEq

structure Tracker (ρ π : Type) where
  options : TrackerOptions ρ
  creator : Creator ρ π
  tracks : List (Track ρ π)
  lastUpdate : Option Duration
  deriving DecidableEq

namespace Tracker

variable {ρ π : Type}

def start (options : TrackerOptions ρ) : Tracker ρ π :=
  ⟨options, .empty options.creation, [], none⟩

/-- The first reason to reject a detection cycle, or `ok`. -/
def validate [Scalar ρ] (t : Tracker ρ π) (batch : DetectionBatch ρ π) (odometry : Odometry ρ) :
    CycleStatus :=
  if t.lastUpdate.any fun last => batch.header.stamp < last then .wentBackInTime
  else if batch.header.frame ≠ odometry.childFrame then .detectionFrameMismatch
  else if odometry.header.frame ≠ t.options.frame then .trackerFrameMismatch
  else if !odometry.pose.rotation.isGravityAligned then .frameNotGravityAligned
  else .ok

def elapsed (t : Tracker ρ π) (stamp : Duration) : Duration :=
  match t.lastUpdate with
  | some last => stamp.monus last
  | none => 0

def advanceTracks [Scalar ρ] [Scalar π] (tracks : List (Track ρ π))
    (detections : List (Detection ρ π)) (a : Association) : List (Track ρ π) :=
  tracks.mapIdx fun i t => t.advance ((a.observationOf i).bind (detections[·]?))

def observeRegions [Scalar π] (tracks : List (Track ρ π)) (regions : List (Region ρ π))
    (a : Association) : List (Track ρ π) :=
  tracks.mapIdx fun i t =>
    match (a.observationOf i).bind (regions[·]?) with
    | some r => t.observeClasses r.hypotheses
    | none => t

def report [Scalar ρ] [Scalar π] (t : Tracker ρ π) (stamp : Duration) : TrackReport ρ π where
  header := ⟨stamp, t.options.frame⟩
  objects := t.tracks.map Track.snapshot

def updateVisionWith [ExtendedScalar ρ] [Scalar π] (t : Tracker ρ π) (batch : RegionBatch ρ π)
    (view : Pose ρ) (a : Association) : Tracker ρ π :=
  { t with
    tracks := observeRegions t.tracks batch.regions a
    creator := t.creator.addRegions batch view a }

variable [ExtendedScalar ρ] [Scalar π]

/-- The tracker after an accepted detection cycle. The batch is already in the tracking frame and
`associate` tells which detections belong to the predicted tracks. -/
def applyCycle (solver : Solver)
    (associate : List (Detection ρ π) → List (Track ρ π) → Association) (t : Tracker ρ π)
    (batch : DetectionBatch ρ π) :
    Except DurationOverflow (Tracker ρ π × CycleResult ρ π) := do
  let stamp := batch.header.stamp
  let predicted ← t.tracks.mapM fun track => track.predict (t.elapsed stamp)
  let a := associate batch.objects predicted
  let advanced := advanceTracks predicted batch.objects a
  -- new tracks start after the association, so they are not predicted in their first cycle
  let (created, creator) ← (t.creator.addDetections batch a).create solver
  let live := (advanced ++ created).filter fun track =>
    !track.isStale t.options.pruningTime t.options.pruningTicks
  let next : Tracker ρ π :=
    { t with creator := creator, tracks := live, lastUpdate := some stamp }
  return (next, ⟨if a.hadErrors then .invalidShape else .ok, some (next.report stamp)⟩)

def updateWith (solver : Solver)
    (associate : List (Detection ρ π) → List (Track ρ π) → Association) (t : Tracker ρ π)
    (batch : DetectionBatch ρ π) (odometry : Odometry ρ) :
    Except DurationOverflow (Tracker ρ π × CycleResult ρ π) :=
  match t.validate batch odometry with
  | .ok => t.applyCycle solver associate (batch.transform odometry t.options.frame)
  | status => .ok (t, ⟨status, none⟩)

def update (solver : Solver) (t : Tracker ρ π) (batch : DetectionBatch ρ π)
    (odometry : Odometry ρ) : Except DurationOverflow (Tracker ρ π × CycleResult ρ π) :=
  t.updateWith solver (t.options.objectGates.associate solver) batch odometry

/-- A vision cycle. `view` carries the tracking frame into the optical frame of the camera. -/
def updateVision (solver : Solver) (t : Tracker ρ π) (batch : RegionBatch ρ π) (view : Pose ρ) :
    Tracker ρ π :=
  t.updateVisionWith batch view
    (t.options.visionGates.associate solver batch.regions view t.tracks)

end Tracker

end TrackFusion
