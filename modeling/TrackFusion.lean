import TrackFusion.Scalar
import TrackFusion.Scalar.Binary
import TrackFusion.Scalar.Nearest
import TrackFusion.Duration
import TrackFusion.Linear.Matrix
import TrackFusion.Linear.Cholesky
import TrackFusion.Linear.Eigenvalues
import TrackFusion.Kalman
import TrackFusion.Classification
import TrackFusion.Detection
import TrackFusion.Camera
import TrackFusion.Assignment.Solver
import TrackFusion.Assignment.Matching
import TrackFusion.Association.Basic
import TrackFusion.Track
import TrackFusion.Association.Objects
import TrackFusion.Association.Regions
import TrackFusion.Creator
import TrackFusion.Tracker.Options
import TrackFusion.Tracker.Basic
import TrackFusion.Text.Numeral
import TrackFusion.Text.Json
import TrackFusion.Text.Decimal
import TrackFusion.Geometry.Vector
import TrackFusion.Geometry.Pose
import TrackFusion.Geometry.Shape
import TrackFusion.Geometry.Box
import TrackFusion.Text.Record
import TrackFusion.Text.Lines
import TrackFusion.Scenario.Event
import TrackFusion.Scenario.Replay
import TrackFusion.Scenario.Format
import TrackFusion.CommandLine.Path
import TrackFusion.CommandLine.Files
import TrackFusion.CommandLine.FileTree
import TrackFusion.CommandLine.Pattern
import TrackFusion.CommandLine.Arguments
import TrackFusion.CommandLine.Program
import TrackFusion.Main
import TrackFusion.Proofs.Sequencing
import TrackFusion.Proofs.Scalar.Exact
import TrackFusion.Proofs.Geometry.Footprint
import TrackFusion.Proofs.Geometry.Gravity
import TrackFusion.Proofs.Kalman.GatingDistance
import TrackFusion.Proofs.Track.Lifecycle
import TrackFusion.Proofs.Creator.NewTracks
import TrackFusion.Proofs.Scene
import TrackFusion.Proofs.Tracker.Cycle
import TrackFusion.Proofs.Tracker.History
import TrackFusion.Proofs.Tracker.Session
import TrackFusion.Proofs.Tracker.Runs
import TrackFusion.Proofs.Association.OneToOne
import TrackFusion.Proofs.Assignment.Gate
import TrackFusion.Proofs.Association.Objects
import TrackFusion.Proofs.Association.Contract
import TrackFusion.Proofs.Assignment.Optimal
import TrackFusion.Proofs.Association.Optimal
import TrackFusion.Proofs.Creator.Waiting
import TrackFusion.Proofs.Creator.Passage
import TrackFusion.Proofs.Linear.RealMatrix
import TrackFusion.Proofs.Linear.Factor
import TrackFusion.Proofs.Kalman.RealState
import TrackFusion.Proofs.Tracker.Options
import TrackFusion.Proofs.Tracker.Overflow
import TrackFusion.Proofs.Creator.Ledger
import TrackFusion.Proofs.Linear.Semidefinite
import TrackFusion.Proofs.Geometry.FrameChange
import TrackFusion.Proofs.Kalman.FrameChange
import TrackFusion.Proofs.Detection.FrameChange
import TrackFusion.Proofs.Track.FrameChange
import TrackFusion.Proofs.Track.Covariance
import TrackFusion.Proofs.Tracker.Covariance
import TrackFusion.Proofs.Geometry.Rotation
import TrackFusion.Proofs.Association.FrameChange
import TrackFusion.Proofs.Creator.FrameChange
import TrackFusion.Proofs.Tracker.FrameChange
import TrackFusion.Proofs.Creator.Origins
import TrackFusion.Proofs.Tracker.Usage
import TrackFusion.Proofs.Tracker.Bounded
import TrackFusion.Proofs.Track.Classes
import TrackFusion.Proofs.Creator.Classes
import TrackFusion.Proofs.Tracker.Classes
import TrackFusion.Proofs.Association.Insertion
import TrackFusion.Proofs.Tracker.Insertion
import TrackFusion.Proofs.Tracker.Rejection
import TrackFusion.Proofs.Creator.Representation
import TrackFusion.Proofs.Tracker.Rigidity
import TrackFusion.Proofs.Creator.Delay
import TrackFusion.Proofs.Tracker.Delay
import TrackFusion.Proofs.Assignment.Margin
import TrackFusion.Proofs.Assignment.Ungated
import TrackFusion.Proofs.Classification.Belief
import TrackFusion.Proofs.Classification.Smoothing
import TrackFusion.Proofs.Classification.Outlier
import TrackFusion.Proofs.Classification.Ranking
import TrackFusion.Proofs.Tracker.Beliefs
import TrackFusion.Proofs.Text.Lines
import TrackFusion.Proofs.Scenario.Reading
import TrackFusion.Proofs.Scenario.Replay
import TrackFusion.Proofs.CommandLine.Program
import TrackFusion.Proofs.Kalman.Correction
import TrackFusion.Proofs.Kalman.JointCorrection
import TrackFusion.Proofs.Track.JointCorrection
import TrackFusion.Proofs.Association.FirstCome
import TrackFusion.Proofs.Assignment.AugmentingPaths
import TrackFusion.Proofs.Assignment.Matching
import TrackFusion.Proofs.Detection.Composition
import TrackFusion.Proofs.Geometry.Box
import TrackFusion.Proofs.Camera.Projection
import TrackFusion.Proofs.Track.Shape
import TrackFusion.Proofs.Geometry.Area
import TrackFusion.Proofs.Geometry.OverlapCost
import TrackFusion.Proofs.Geometry.Enclosure
import TrackFusion.Proofs.Geometry.Overlap
import TrackFusion.Proofs.CommandLine.Exits
import TrackFusion.Proofs.Kalman.Mahalanobis
import TrackFusion.Proofs.Association.Uncertainty
