import TrackFusion.Association.Objects
import TrackFusion.Association.Regions
import TrackFusion.Proofs.Association.OneToOne
import TrackFusion.Proofs.Sequencing

/-!
Tracks without their classes.

Class hypotheses and existence probabilities are numbers of a type of their own. Over a type with one
number they tell nothing, and what is left of detections, regions and tracks is bare. Every operation
on tracks commutes with this: no state, shape, age or association depends on a class.
-/

set_option autoImplicit false
set_option relaxedAutoImplicit false

namespace TrackFusion

/-- The only number of a type without information. -/
inductive Blank where
  | blank
  deriving DecidableEq

namespace Blank

instance : Subsingleton Blank :=
  ⟨fun .blank .blank => rfl⟩

instance : Scalar Blank where
  zero := blank
  one := blank
  add _ _ := blank
  sub _ _ := blank
  neg _ := blank
  mul _ _ := blank
  div _ _ := blank
  lt _ _ := False
  le _ _ := True
  ofScientific _ _ _ := blank
  decLt _ _ := .isFalse id
  decLe _ _ := .isTrue trivial
  sqrt _ := blank
  cos _ := blank
  isFinite _ := true

end Blank

namespace ClassBelief

def blank : ClassBelief Blank :=
  .initial none

instance : Subsingleton (ClassBelief Blank) := by
  refine ⟨fun a b => ?_⟩
  obtain ⟨⟨values⟩, smoothing⟩ := a
  obtain ⟨⟨values'⟩, smoothing'⟩ := b
  obtain rfl : values = values' := Vector.ext fun i _ => Subsingleton.elim _ _
  rw [Subsingleton.elim smoothing smoothing']

theorem ranking_eq_nil (b : ClassBelief Blank) : b.ranking = [] := by
  have none : (ObjectClass.all.map b.hypothesis).filter (fun h => 0 < h.probability) = [] :=
    List.filter_eq_nil_iff.mpr fun _ _ => Bool.false_ne_true
  rw [ranking, none, List.mergeSort_nil]

end ClassBelief

variable {ρ π : Type}

def Detection.bare (d : Detection ρ π) : Detection ρ Blank where
  existence := .blank
  hypotheses := []
  centroid := d.centroid
  covariance := d.covariance
  twist := d.twist
  shape := d.shape

def DetectionBatch.bare (batch : DetectionBatch ρ π) : DetectionBatch ρ Blank where
  header := batch.header
  objects := batch.objects.map Detection.bare

def Region.bare (r : Region ρ π) : Region ρ Blank where
  hypotheses := []
  polygon := r.polygon

def RegionBatch.bare (batch : RegionBatch ρ π) : RegionBatch ρ Blank where
  header := batch.header
  regions := batch.regions.map Region.bare

def Track.bare (t : Track ρ π) : Track ρ Blank where
  id := t.id
  model := t.model
  state := t.state
  elevation := t.elevation
  relativeShape := t.relativeShape
  belief := .blank
  existence := .blank
  noiseVariance := t.noiseVariance
  timeSinceUpdate := t.timeSinceUpdate
  ticksSinceUpdate := t.ticksSinceUpdate
  hits := t.hits

def Snapshot.bare (s : Snapshot ρ π) : Snapshot ρ Blank where
  id := s.id
  existence := .blank
  ranking := []
  position := s.position
  positionCovariance := s.positionCovariance
  velocity := s.velocity
  shape := s.shape
  timeSinceUpdate := s.timeSinceUpdate
  ticksSinceUpdate := s.ticksSinceUpdate

theorem Track.with_belief (t : Track ρ Blank) (b : ClassBelief Blank) :
    { t with belief := b } = t := by
  rw [Subsingleton.elim b t.belief]

variable [Scalar ρ]

theorem DetectionBatch.transform_bare (batch : DetectionBatch ρ π) (odometry : Odometry ρ)
    (frame : String) :
    batch.bare.transform odometry frame = (batch.transform odometry frame).bare := by
  unfold transform bare
  rw [List.map_map, List.map_map]
  rfl

namespace Track

theorem predict_bare (t : Track ρ π) (dt : Duration) :
    t.bare.predict dt = (t.predict dt).map bare := by
  change (t.timeSinceUpdate.add dt >>= _) = Except.map _ (t.timeSinceUpdate.add dt >>= _)
  cases t.timeSinceUpdate.add dt <;> rfl

variable [Scalar π]

theorem ofDetection_bare (id : Nat) (noise : TrackNoise ρ) (d : Detection ρ π) :
    ofDetection id noise d.bare = (ofDetection id noise d).bare :=
  with_belief (ofDetection id noise d).bare _

theorem update_bare (t : Track ρ π) (d : Detection ρ π) :
    t.bare.update d.bare = (t.update d).map bare := by
  change (t.correctedState d >>= _) = Except.map _ (t.correctedState d >>= _)
  cases t.correctedState d with
  | error e => rfl
  | ok s =>
    let updated : Track ρ π :=
      { t with
        state := s
        elevation := d.centroid.z
        relativeShape := d.relativeShape
        timeSinceUpdate := 0
        ticksSinceUpdate := 0
        hits := t.hits + 1 }
    exact congrArg Except.ok (with_belief updated.bare (t.bare.belief.update []))

theorem advance_bare (t : Track ρ π) (given : Option (Detection ρ π)) :
    t.bare.advance (given.map Detection.bare) = (t.advance given).bare := by
  cases given with
  | none => rfl
  | some d =>
    rw [Option.map_some, advance, advance, update_bare]
    cases t.update d <;> rfl

theorem snapshot_bare (t : Track ρ π) : t.bare.snapshot = t.snapshot.bare := by
  unfold snapshot Snapshot.bare
  rw [ClassBelief.ranking_eq_nil]
  rfl

end Track

section Associations

variable {ρ π : Type} [ExtendedScalar ρ]

theorem ObjectGates.associate_bare (gates : ObjectGates ρ) (solver : Solver)
    (detections : List (Detection ρ π)) (tracks : List (Track ρ π)) :
    gates.associate solver (detections.map Detection.bare) (tracks.map Track.bare) =
      gates.associate solver detections tracks := by
  have errors : ((detections.map Detection.bare).any fun d => !d.isValid) =
      detections.any fun d => !d.isValid := List.any_map
  unfold associate
  rw [errors]
  refine Association.ofMatching_congr (List.length_map _) (List.length_map _) (fun i j => ?_) _ _ _
  have track : (tracks.map Track.bare).get i = (tracks.get (i.cast (List.length_map _))).bare :=
    List.getElem_map _
  have detection : (detections.map Detection.bare).get j =
      (detections.get (j.cast (List.length_map _))).bare := List.getElem_map _
  unfold costs
  rw [Mat.entry_ofFn, Mat.entry_ofFn, track, detection]
  rfl

theorem VisionGates.associateShapes_bare (gates : VisionGates ρ) (solver : Solver)
    (regions : List (Region ρ π)) (shapes : List (Shape ρ)) (view : Pose ρ) :
    gates.associateShapes solver (regions.map Region.bare) shapes view =
      gates.associateShapes solver regions shapes view := by
  have boxes : (regions.map Region.bare).map Region.box? = regions.map Region.box? := by
    rw [List.map_map]
    rfl
  unfold associateShapes
  rw [boxes, List.length_map]

theorem VisionGates.associate_bare (gates : VisionGates ρ) (solver : Solver)
    (regions : List (Region ρ π)) (view : Pose ρ) (tracks : List (Track ρ π)) :
    gates.associate solver (regions.map Region.bare) view (tracks.map Track.bare) =
      gates.associate solver regions view tracks := by
  have shapes : (tracks.map Track.bare).map Track.shape = tracks.map Track.shape := by
    rw [List.map_map]
    rfl
  unfold associate
  rw [shapes, associateShapes_bare]

end Associations

end TrackFusion
