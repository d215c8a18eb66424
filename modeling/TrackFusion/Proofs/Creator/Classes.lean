import TrackFusion.Proofs.Creator.Passage
import TrackFusion.Proofs.Track.Classes

/-!
Track creation without classes.

Which detections wait, which regions confirm them and which tracks start does not depend on any
class; only what the tracks then believe does.
-/

set_option autoImplicit false
set_option relaxedAutoImplicit false

namespace TrackFusion

variable {ρ π : Type}

def WaitingRegions.bare (b : WaitingRegions ρ π) : WaitingRegions ρ Blank where
  stamp := b.stamp
  regions := b.regions.map Region.bare
  view := b.view

@[simp] theorem WaitingRegions.stamp_bare (b : WaitingRegions ρ π) : b.bare.stamp = b.stamp :=
  rfl

theorem WaitingRegions.withoutMatched_bare (b : WaitingRegions ρ π) (a : Association) :
    b.bare.withoutMatched a = (b.withoutMatched a).bare := by
  unfold withoutMatched bare
  rw [List.zipIdx_map, List.filter_map, List.map_map, List.map_map]
  rfl

namespace Creator

def bare (c : Creator ρ π) : Creator ρ Blank where
  settings := c.settings
  detections := c.detections.map Detection.bare
  detectionStamp := c.detectionStamp
  batches := c.batches.map WaitingRegions.bare
  nextId := c.nextId

theorem regionCount_bare (c : Creator ρ π) : c.bare.regionCount = c.regionCount := by
  have lengths : (fun b : WaitingRegions ρ π => b.bare.regions.length) =
      fun b => b.regions.length := funext fun b => List.length_map _
  unfold regionCount
  rw [List.length_flatMap, List.length_flatMap, bare, List.map_map]
  exact congrArg (fun f => (c.batches.map f).sum) lengths

/-- Leaving out the classes. -/
def bareness : Passage ρ π Blank where
  stamp := id
  detection := Detection.bare
  batch := WaitingRegions.bare
  track := Track.bare
  creator := bare

theorem carries_bareness (c : Creator ρ π) : bareness.Carries c :=
  ⟨rfl, fun _ _ => rfl, fun _ => List.isEmpty_map⟩

section Waiting

variable [ExtendedScalar ρ]

theorem addDetections_bare (c : Creator ρ π) (batch : DetectionBatch ρ π) (a : Association) :
    c.bare.addDetections batch.bare a = (c.addDetections batch a).bare := by
  have taken : (a.unassignedObservations.filterMap (batch.bare.objects[·]?)).filter
      Detection.isValid =
        ((a.unassignedObservations.filterMap (batch.objects[·]?)).filter Detection.isValid).map
          Detection.bare := by
    unfold DetectionBatch.bare
    simp only [List.getElem?_map]
    rw [← List.map_filterMap, List.filter_map]
    rfl
  unfold addDetections bare
  dsimp only
  rw [taken, List.map_append]
  rfl

theorem leftRegions_bare (batch : RegionBatch ρ π) (a : Association) :
    leftRegions batch.bare a = (leftRegions batch a).map Region.bare := by
  unfold leftRegions RegionBatch.bare
  simp only [List.getElem?_map]
  rw [← List.map_filterMap, List.filter_map]
  rfl

theorem addRegions_bare (c : Creator ρ π) (batch : RegionBatch ρ π) (view : Pose ρ)
    (a : Association) : c.bare.addRegions batch.bare view a = (c.addRegions batch view a).bare := by
  refine (carries_bareness c).addRegions ?_
  rw [leftRegions_bare]
  rfl

end Waiting

theorem confirmed_bare (detections : List (Detection ρ π)) (batch : WaitingRegions ρ π)
    (a : Association) :
    confirmed (detections.map Detection.bare) batch.bare a =
      (confirmed detections batch a).map (Prod.map Detection.bare Region.bare) := by
  unfold confirmed
  rw [List.zip_map_left, List.filterMap_map, List.map_filterMap]
  refine List.filterMap_congr fun pair _ => ?_
  obtain ⟨d, assigned⟩ := pair
  cases assigned with
  | none => rfl
  | some j =>
    change Option.map _ (batch.regions.map Region.bare)[j]? = Option.map _ (Option.map _ _)
    rw [List.getElem?_map, Option.map_map, Option.map_map]
    rfl

variable [ExtendedScalar ρ]

theorem shapeAssociation_bare (c : Creator ρ π) (solver : Solver) (batch : WaitingRegions ρ π)
    (detections : List (Detection ρ π)) :
    c.bare.shapeAssociation solver batch.bare (detections.map Detection.bare) =
      c.shapeAssociation solver batch detections := by
  have shapes : (detections.map Detection.bare).map Detection.shape =
      detections.map Detection.shape := by
    rw [List.map_map]
    rfl
  unfold shapeAssociation
  rw [shapes]
  exact c.settings.gates.associateShapes_bare solver batch.regions _ batch.view

variable [Scalar π]

theorem spawn_bare (c : Creator ρ π) (detections : List (Detection ρ π)) :
    c.bare.spawn (detections.map Detection.bare) = (c.spawn detections).map Track.bare := by
  unfold spawn
  refine List.ext_getElem (by simp) fun i first second => ?_
  simp only [List.getElem_mapIdx, List.getElem_map]
  exact Track.ofDetection_bare (c.nextId + i) c.settings.noise _

theorem spawnConfirmed_bare (c : Creator ρ π) (pairs : List (Detection ρ π × Region ρ π)) :
    c.bare.spawnConfirmed (pairs.map (Prod.map Detection.bare Region.bare)) =
      (c.spawnConfirmed pairs).map Track.bare := by
  have first : (pairs.map (Prod.map Detection.bare Region.bare)).map Prod.fst =
      (pairs.map Prod.fst).map Detection.bare := by
    rw [List.map_map, List.map_map]
    rfl
  unfold spawnConfirmed
  rw [first, spawn_bare, List.zip_map, List.map_map, List.map_map]
  refine List.map_congr_left fun p _ => ?_
  exact Track.with_belief p.1.bare _

def bareCreated (created : List (Track ρ π) × Creator ρ π) :
    List (Track ρ Blank) × Creator ρ Blank :=
  (created.1.map Track.bare, created.2.bare)

theorem createConfirmed_bare (c : Creator ρ π) (solver : Solver)
    (detections : List (Detection ρ π)) :
    c.bare.createConfirmed solver (detections.map Detection.bare) =
      (c.createConfirmed solver detections).map bareCreated := by
  have keeps : bareness.Keeps solver c detections :=
    { carries_bareness c with
      detectionStamp := Option.map_id_apply.symm
      alike := fun stamp _ b _ => WaitingRegions.standsAs_of_stamp b.stamp_bare _ stamp
      association := fun b _ => c.shapeAssociation_bare solver b detections
      started := fun b _ a =>
        (congrArg c.bare.spawnConfirmed (confirmed_bare detections b a)).trans
          (c.spawnConfirmed_bare _)
      withoutMatched := fun b a => b.withoutMatched_bare a }
  exact keeps.createConfirmed

/-- Creating from what waits without classes gives what is created, without classes. -/
theorem create_bare (c : Creator ρ π) (solver : Solver) :
    c.bare.create solver = (c.create solver).map bareCreated := by
  cases policy : c.settings.policy with
  | everyDetection =>
    rw [create_of_everyDetection policy, create_of_everyDetection (c := c.bare) policy]
    have started : c.bare.spawn c.bare.detections = (c.spawn c.detections).map Track.bare :=
      c.spawn_bare c.detections
    rw [started, List.length_map]
    rfl
  | visionConfirmed =>
    rw [create_of_visionConfirmed policy, create_of_visionConfirmed (c := c.bare) policy]
    exact createConfirmed_bare { c with detections := [] } solver c.detections

end Creator

end TrackFusion
