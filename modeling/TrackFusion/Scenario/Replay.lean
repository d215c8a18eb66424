import TrackFusion.Scenario.Event
import TrackFusion.Text.Decimal

/-!
Replaying a scenario.

Every applied detection cycle adds one row per live track, in the order of the tracks. The summary
counts the cycles of each kind, the rejected ones among them, and the rows.
-/

set_option autoImplicit false
set_option relaxedAutoImplicit false

namespace TrackFusion

structure TrackRow (ρ : Type) where
  stamp : ρ
  id : Nat
  position : Vec2 ρ
  velocity : Vec2 ρ
  objectClass : ObjectClass
  status : CycleStatus
  deriving DecidableEq

structure ReplaySummary where
  detectionCycles : Nat
  rejectedCycles : Nat
  visionCycles : Nat
  rows : Nat
  deriving DecidableEq, Repr

structure Replay (ρ π : Type) where
  tracker : Tracker ρ π
  summary : ReplaySummary
  rows : List (TrackRow ρ)

structure ReplayFailure (ρ : Type) where
  cause : DurationOverflow
  rows : List (TrackRow ρ)

namespace Replay

variable {ρ π : Type}

def start (tracker : Tracker ρ π) : Replay ρ π :=
  ⟨tracker, ⟨0, 0, 0, 0⟩, []⟩

def rowOf [Scalar ρ] (header : Header) (status : CycleStatus) (s : Snapshot ρ π) : TrackRow ρ where
  stamp := header.stamp.seconds
  id := s.id
  position := s.position.planar
  velocity := s.velocity.planar
  objectClass := (s.ranking.head?.map (·.objectClass)).getD .unknown
  status := status

def rowsOf [Scalar ρ] (result : CycleResult ρ π) : List (TrackRow ρ) :=
  match result.report with
  | some report => report.objects.map (rowOf report.header result.status)
  | none => []

variable [ExtendedScalar ρ] [Scalar π]

def step (solver : Solver) (r : Replay ρ π) : Event ρ π → Except DurationOverflow (Replay ρ π)
  | .detections batch odometry => do
    let (tracker, result) ← r.tracker.update solver batch odometry
    let rows := rowsOf result
    let rejected := if result.status.isApplied then 0 else 1
    return {
      tracker := tracker
      summary := { r.summary with
        detectionCycles := r.summary.detectionCycles + 1
        rejectedCycles := r.summary.rejectedCycles + rejected
        rows := r.summary.rows + rows.length }
      rows := r.rows ++ rows }
  | .regions batch view =>
    .ok { r with
      tracker := r.tracker.updateVision solver batch view
      summary := { r.summary with visionCycles := r.summary.visionCycles + 1 } }

def run (solver : Solver) : Replay ρ π → List (Event ρ π) → Except (ReplayFailure ρ) (Replay ρ π)
  | r, [] => .ok r
  | r, event :: rest =>
    match r.step solver event with
    | .ok next => run solver next rest
    -- the rows so far are written to the table although the replay stops
    | .error cause => .error ⟨cause, r.rows⟩

end Replay

def Tracker.replay {ρ π : Type} [ExtendedScalar ρ] [Scalar π] (solver : Solver) (t : Tracker ρ π)
    (events : List (Event ρ π)) : Except (ReplayFailure ρ) (Replay ρ π) :=
  (Replay.start t).run solver events

def TrackRow.columns : List String :=
  ["stamp", "object_id", "x", "y", "vx", "vy", "class", "status"]

def TrackRow.cells (r : TrackRow Float) : List String :=
  let number := NumberStyle.table.write
  [number r.stamp, NumberStyle.digitsOf r.id, number r.position.x, number r.position.y,
    number r.velocity.x, number r.velocity.y, r.objectClass.name, r.status.name]

/-- A line of a table. No cell holds a comma, a quote or the end of a line. -/
def TrackRow.line (cells : List String) : String :=
  ",".intercalate cells ++ "\n"

/-- The table of rows: a line of column names before the first one, and nothing without rows. -/
def TrackRow.table (rows : List (TrackRow Float)) : String :=
  if rows.isEmpty then ""
  else String.join (line columns :: rows.map fun r => line r.cells)

end TrackFusion
