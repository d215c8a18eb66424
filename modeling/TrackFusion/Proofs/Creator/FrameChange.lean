import TrackFusion.Proofs.Association.FrameChange
import TrackFusion.Proofs.Creator.Passage

/-!
Track creation under a change of the tracking frame.

What waits is moved: detections into the new frame, and the cameras of waiting regions along with
it. Capture times and regions do not change, so that the same batch is nearest, the same regions
confirm the same detections, and the tracks that start are the moved ones, under the same
identities.
-/

set_option autoImplicit false
set_option relaxedAutoImplicit false

namespace TrackFusion

noncomputable section

variable {π : Type} (T : FrameChange)

namespace WaitingRegions

def moveBy (b : WaitingRegions Exact π) : WaitingRegions Exact π :=
  { b with view := b.view.after T }

@[simp] theorem stamp_moveBy (b : WaitingRegions Exact π) : (b.moveBy T).stamp = b.stamp :=
  rfl

end WaitingRegions

namespace Creator

def moveBy (c : Creator Exact π) : Creator Exact π :=
  { c with
    detections := c.detections.map (Detection.moveBy T)
    batches := c.batches.map (WaitingRegions.moveBy T) }

/-- The passage into the new frame. -/
def moving : Passage Exact π π where
  stamp := id
  detection := Detection.moveBy T
  batch := WaitingRegions.moveBy T
  track := Track.moveBy T
  creator := moveBy T

theorem carries_moving (c : Creator Exact π) : (moving T).Carries c :=
  ⟨rfl, fun _ _ => rfl, fun _ => rfl⟩

structure IsReal (c : Creator Exact π) : Prop where
  noise : c.settings.noise.IsReal
  detections : ∀ d ∈ c.detections, d.IsReal
  views : ∀ b ∈ c.batches, b.view.IsRigid

variable {c : Creator Exact π} {batch batch' : DetectionBatch Exact π} {a : Association}

theorem waiting_moveBy {detections detections' : List (Detection Exact π)}
    (moves : List.Forall₂ (Detection.MovesTo T) detections detections') (left : List Nat) :
    (left.filterMap (detections'[·]?)).filter Detection.isValid =
      ((left.filterMap (detections[·]?)).filter Detection.isValid).map (Detection.moveBy T) := by
  induction left with
  | nil => rfl
  | cons j left ih =>
    by_cases bound : j < detections.length
    · have bound' := moves.length_eq ▸ bound
      have moved : Detection.MovesTo T detections[j] detections'[j] := moves.get bound bound'
      rw [List.filterMap_cons_some (List.getElem?_eq_getElem bound),
        List.filterMap_cons_some (List.getElem?_eq_getElem bound')]
      by_cases valid : detections[j].isValid = true
      · rw [List.filter_cons_of_pos valid, List.filter_cons_of_pos (moved.sameValid.trans valid),
          List.map_cons, ih]
        exact congrArg (· :: _) (moved.moved valid)
      · have invalid : ¬ detections'[j].isValid = true := by rwa [moved.sameValid]
        rw [List.filter_cons_of_neg valid, List.filter_cons_of_neg invalid, ih]
    · have beyond := Nat.le_of_not_lt bound
      rw [List.filterMap_cons_none (List.getElem?_eq_none beyond),
        List.filterMap_cons_none (List.getElem?_eq_none (moves.length_eq ▸ beyond)), ih]

theorem addDetections_moveBy (header : batch'.header = batch.header)
    (moves : List.Forall₂ (Detection.MovesTo T) batch.objects batch'.objects) :
    (c.moveBy T).addDetections batch' a = (c.addDetections batch a).moveBy T := by
  unfold addDetections moveBy
  dsimp only
  rw [header, waiting_moveBy T moves, List.map_append]

theorem IsReal.addDetections (real : c.IsReal)
    (objects : ∀ d ∈ batch.objects, d.isValid = true → d.IsReal) :
    (c.addDetections batch a).IsReal := by
  refine ⟨real.noise, fun d member => ?_, real.views⟩
  rcases List.mem_append.mp member with old | new
  · exact real.detections d old
  · obtain ⟨listed, valid⟩ := List.mem_filter.mp new
    obtain ⟨j, -, place⟩ := List.mem_filterMap.mp listed
    exact objects d (List.mem_of_getElem? place) valid

section Regions

variable {regions : RegionBatch Exact π} {view : Pose Exact}

theorem addRegions_moveBy :
    (c.moveBy T).addRegions regions (view.after T) a = (c.addRegions regions view a).moveBy T :=
  (carries_moving T c).addRegions rfl

theorem IsReal.addRegions (real : c.IsReal) (rigid : view.IsRigid) :
    (c.addRegions regions view a).IsReal := by
  refine ⟨?_, ?_, fun b member => ?_⟩
  · rw [settings_addRegions]
    exact real.noise
  · unfold Creator.addRegions
    dsimp only
    split <;> exact real.detections
  · rcases mem_batches_addRegions member with old | ⟨-, same⟩
    · exact real.views b old
    · rwa [same]

end Regions

theorem confirmed_moveBy (detections : List (Detection Exact π)) (batch : WaitingRegions Exact π)
    (a : Association) :
    confirmed (detections.map (Detection.moveBy T)) (batch.moveBy T) a =
      (confirmed detections batch a).map (Prod.map (Detection.moveBy T) id) := by
  unfold confirmed
  rw [List.zip_map_left, List.filterMap_map, List.map_filterMap]
  refine List.filterMap_congr fun pair _ => ?_
  obtain ⟨d, assigned⟩ := pair
  change Option.map _ (assigned.bind fun j => batch.regions[j]?) = _
  dsimp only
  rw [Option.map_map]
  rfl

theorem shapeAssociation_moveBy (solver : Solver) {batch : WaitingRegions Exact π}
    (rigid : batch.view.IsRigid) {detections : List (Detection Exact π)}
    (detected : ∀ d ∈ detections, d.IsReal) :
    (c.moveBy T).shapeAssociation solver (batch.moveBy T) (detections.map (Detection.moveBy T)) =
      c.shapeAssociation solver batch detections := by
  have shapes : (detections.map (Detection.moveBy T)).map Detection.shape =
      (detections.map Detection.shape).map fun s => s.transform T.pose := by
    rw [List.map_map, List.map_map]
    rfl
  unfold shapeAssociation
  rw [shapes]
  refine c.settings.gates.associateShapes_after T solver batch.regions rigid fun s listed => ?_
  obtain ⟨d, waiting, rfl⟩ := List.mem_map.mp listed
  exact (detected d waiting).shape

variable [Scalar π]

theorem spawn_moveBy (real : c.settings.noise.IsReal) {detections : List (Detection Exact π)}
    (detected : ∀ d ∈ detections, d.IsReal) :
    (c.moveBy T).spawn (detections.map (Detection.moveBy T)) =
      (c.spawn detections).map (Track.moveBy T) := by
  unfold spawn
  refine List.ext_getElem (by simp) fun i first second => ?_
  simp only [List.getElem_mapIdx, List.getElem_map]
  exact Track.ofDetection_moveBy T (c.nextId + i) real (detected _ (List.getElem_mem _))

theorem spawnConfirmed_moveBy (real : c.settings.noise.IsReal)
    {pairs : List (Detection Exact π × Region Exact π)} (detected : ∀ p ∈ pairs, p.1.IsReal) :
    (c.moveBy T).spawnConfirmed (pairs.map (Prod.map (Detection.moveBy T) id)) =
      (c.spawnConfirmed pairs).map (Track.moveBy T) := by
  have first : (pairs.map (Prod.map (Detection.moveBy T) id)).map Prod.fst =
      (pairs.map Prod.fst).map (Detection.moveBy T) := by
    rw [List.map_map, List.map_map]
    rfl
  have started : (c.moveBy T).spawn ((pairs.map Prod.fst).map (Detection.moveBy T)) = _ :=
    spawn_moveBy T real fun d member => by
      obtain ⟨p, listed, rfl⟩ := List.mem_map.mp member
      exact detected p listed
  unfold spawnConfirmed
  rw [first, started, List.zip_map, List.map_map, List.map_map]
  rfl

def moveCreated (created : List (Track Exact π) × Creator Exact π) :
    List (Track Exact π) × Creator Exact π :=
  (created.1.map (Track.moveBy T), created.2.moveBy T)

theorem createConfirmed_moveBy (solver : Solver) (real : c.IsReal)
    {detections : List (Detection Exact π)} (detected : ∀ d ∈ detections, d.IsReal) :
    (c.moveBy T).createConfirmed solver (detections.map (Detection.moveBy T)) =
      (c.createConfirmed solver detections).map (moveCreated T) := by
  have keeps : (moving T).Keeps solver c detections :=
    { carries_moving T c with
      detectionStamp := Option.map_id_apply.symm
      alike := fun stamp _ b _ => WaitingRegions.standsAs_of_stamp (b.stamp_moveBy T) _ stamp
      association := fun b member => shapeAssociation_moveBy T solver (real.views b member) detected
      started := fun b _ a =>
        (congrArg (c.moveBy T).spawnConfirmed (confirmed_moveBy T detections b a)).trans
          (spawnConfirmed_moveBy T real.noise fun p member =>
            detected p.1 (fst_mem_of_mem_confirmed member))
      withoutMatched := fun _ _ => rfl }
  exact keeps.createConfirmed

/-- Creating from what waits in the new frame moves what is created. -/
theorem create_moveBy (solver : Solver) (real : c.IsReal) :
    (c.moveBy T).create solver = (c.create solver).map (moveCreated T) := by
  cases policy : c.settings.policy with
  | everyDetection =>
    have started : (c.moveBy T).spawn (c.moveBy T).detections = _ :=
      spawn_moveBy T real.noise real.detections
    rw [create_of_everyDetection policy, create_of_everyDetection (c := c.moveBy T) policy, started,
      List.length_map]
    rfl
  | visionConfirmed =>
    rw [create_of_visionConfirmed policy, create_of_visionConfirmed (c := c.moveBy T) policy]
    exact createConfirmed_moveBy (c := { c with detections := [] }) T solver
      ⟨real.noise, fun _ member => absurd member List.not_mem_nil, real.views⟩ real.detections

theorem IsReal.create (real : c.IsReal) {solver : Solver} {created : List (Track Exact π)}
    {next : Creator Exact π} (returned : c.create solver = .ok (created, next)) :
    next.IsReal ∧ ∀ t ∈ created, t.IsReal := by
  obtain ⟨empty, starts⟩ := exists_detection_of_create returned
  refine ⟨⟨?_, ?_, fun b member => ?_⟩, fun t member => ?_⟩
  · rw [(create_continues returned).settings]
    exact real.noise
  · rw [empty]
    exact fun _ member => absurd member List.not_mem_nil
  · obtain ⟨earlier, waiting, -, same⟩ := exists_earlier_of_create returned member
    rw [← same]
    exact real.views earlier waiting
  · obtain ⟨d, waiting, same⟩ := starts t member
    have started := Track.isReal_ofDetection t.id real.noise (real.detections d waiting)
    rw [same]
    exact ⟨started.state, started.model, started.noise, started.elevation, started.shape⟩

end Creator

end

end TrackFusion
