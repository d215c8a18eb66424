import TrackFusion.Proofs.Creator.Ledger

/-!
Where new tracks come from.

The valid detections that an association leaves over stand at ascending places of their batch. A
creation starts its tracks at some of these places, in their order and at each one once; where every
detection starts a track, it starts them at all of these places.
-/

set_option autoImplicit false
set_option relaxedAutoImplicit false

namespace TrackFusion

variable {ρ π : Type}

section Places

variable [Scalar ρ] {batch : DetectionBatch ρ π} {a : Association} {j : Nat}

namespace DetectionBatch

def validPlaces (batch : DetectionBatch ρ π) : List Nat :=
  (batch.objects.zipIdx.filter fun e => e.1.isValid).map Prod.snd

def leftPlaces (batch : DetectionBatch ρ π) (a : Association) : List Nat :=
  a.unassignedObservations.filter fun j => batch.objects[j]?.any Detection.isValid

theorem mem_validPlaces_iff : j ∈ batch.validPlaces ↔
    ∃ d, batch.objects[j]? = some d ∧ d.isValid = true := by
  unfold validPlaces
  simp only [List.mem_map, List.mem_filter, Prod.exists, List.mk_mem_zipIdx_iff_getElem?]
  constructor
  · rintro ⟨d, _, ⟨place, valid⟩, rfl⟩
    exact ⟨d, place, valid⟩
  · rintro ⟨d, place, valid⟩
    exact ⟨d, j, ⟨place, valid⟩, rfl⟩

theorem validPlaces_nodup (batch : DetectionBatch ρ π) : batch.validPlaces.Nodup := by
  have places : (batch.objects.zipIdx.map Prod.snd).Nodup := by
    rw [List.zipIdx_map_snd]
    exact List.nodup_range'
  exact places.sublist (List.filter_sublist.map Prod.snd)

theorem length_validPlaces (batch : DetectionBatch ρ π) :
    batch.validPlaces.length = batch.objects.countP Detection.isValid := by
  unfold validPlaces
  rw [List.length_map, ← List.countP_eq_length_filter]
  conv_rhs => rw [← List.zipIdx_map_fst 0 batch.objects, List.countP_map]
  rfl

theorem mem_leftPlaces_iff : j ∈ batch.leftPlaces a ↔
    j ∈ a.unassignedObservations ∧ ∃ d, batch.objects[j]? = some d ∧ d.isValid = true := by
  unfold leftPlaces
  rw [List.mem_filter, Option.any_eq_true]

theorem isValid_of_mem_leftPlaces (left : j ∈ batch.leftPlaces a) {d : Detection ρ π}
    (place : batch.objects[j]? = some d) : d.isValid = true := by
  obtain ⟨-, d', place', valid⟩ := mem_leftPlaces_iff.mp left
  obtain rfl : d = d' := Option.some.inj (place.symm.trans place')
  exact valid

theorem leftPlaces_ascend {n m : Nat} (partitions : a.Partitions n m) :
    (batch.leftPlaces a).Pairwise (· < ·) :=
  partitions.observationsAscend.filter _

theorem map_getElem?_leftPlaces (batch : DetectionBatch ρ π) (a : Association) :
    (batch.leftPlaces a).map (batch.objects[·]?) =
      ((a.unassignedObservations.filterMap (batch.objects[·]?)).filter Detection.isValid).map
        some := by
  unfold leftPlaces
  induction a.unassignedObservations with
  | nil => rfl
  | cons j left ih =>
    cases place : batch.objects[j]? with
    | none => simpa [List.filter_cons, place] using ih
    | some d =>
      rw [List.filterMap_cons_some place]
      by_cases valid : d.isValid = true <;> simpa [List.filter_cons, place, valid] using ih

end DetectionBatch

theorem Creator.map_some_detections_addDetections {c : Creator ρ π} (idle : c.detections = []) :
    (c.addDetections batch a).detections.map some =
      (batch.leftPlaces a).map (batch.objects[·]?) := by
  rw [DetectionBatch.map_getElem?_leftPlaces, addDetections, idle, List.nil_append]

/-- Each track comes, in the given way, from the valid detection at its own one of the places. -/
def DetectionBatch.ComesFrom (batch : DetectionBatch ρ π) (R : Track ρ π → Detection ρ π → Prop)
    (tracks : List (Track ρ π)) (places : List Nat) : Prop :=
  List.Forall₂ (fun t j => ∃ d, batch.objects[j]? = some d ∧ d.isValid = true ∧ R t d) tracks places

theorem DetectionBatch.comesFrom_of_forall₂ {R : Track ρ π → Detection ρ π → Prop}
    {tracks : List (Track ρ π)}
    {chosen : List (Detection ρ π)} {places : List Nat}
    (left : places.Sublist (batch.leftPlaces a))
    (same : chosen.map some = places.map (batch.objects[·]?)) (each : List.Forall₂ R tracks chosen) :
    batch.ComesFrom R tracks places := by
  induction each generalizing places with
  | nil =>
    obtain rfl := List.map_eq_nil_iff.mp same.symm
    exact .nil
  | @cons t d _ _ first _ ih =>
    cases places with
    | nil => cases same
    | cons j places =>
      obtain ⟨place, others⟩ := List.cons.inj same
      have valid := isValid_of_mem_leftPlaces (left.subset List.mem_cons_self) place.symm
      exact .cons ⟨d, place.symm, valid, first⟩ (ih ((List.sublist_cons_self _ _).trans left) others)

variable [Scalar π]

def Track.StartsFrom (t : Track ρ π) (noise : TrackNoise ρ) (d : Detection ρ π) : Prop :=
  t = { Track.ofDetection t.id noise d with belief := t.belief }

end Places

namespace Creator

theorem map_fst_confirmed_sublist (detections : List (Detection ρ π)) (batch : WaitingRegions ρ π)
    (a : Association) : ((confirmed detections batch a).map Prod.fst).Sublist detections := by
  unfold confirmed
  generalize a.assignments = assignments
  induction detections generalizing assignments with
  | nil => exact .slnil
  | cons d detections ih =>
    cases assignments with
    | nil => exact List.nil_sublist _
    | cons assigned rest =>
      rw [List.zip_cons_cons, List.filterMap_cons]
      dsimp only
      cases assigned.bind (batch.regions[·]?) with
      | none => exact (ih rest).cons d
      | some r => exact (ih rest).cons_cons d

variable [ExtendedScalar ρ] [Scalar π] {solver : Solver}

theorem forall₂_spawn (c : Creator ρ π) (detections : List (Detection ρ π)) :
    List.Forall₂ (fun t d => t = .ofDetection t.id c.settings.noise d) (c.spawn detections)
      detections := by
  rw [List.forall₂_iff_get]
  refine ⟨length_spawn c detections, fun i first second => ?_⟩
  simp only [spawn, List.get_eq_getElem, List.getElem_mapIdx]
  rfl

/-- The tracks of a creation start at some of the waiting detections, in their order. -/
theorem exists_sublist_of_create {c next : Creator ρ π} {created : List (Track ρ π)}
    (returned : c.create solver = .ok (created, next)) :
    ∃ chosen, chosen.Sublist c.detections ∧
      List.Forall₂ (fun t d => t.StartsFrom c.settings.noise d) created chosen := by
  cases policy : c.settings.policy with
  | everyDetection =>
    rw [create_of_everyDetection policy] at returned
    cases returned
    refine ⟨c.detections, .refl _, (c.forall₂_spawn c.detections).imp fun t d same => ?_⟩
    unfold Track.StartsFrom
    rw [← same]
  | visionConfirmed =>
    rw [create_of_visionConfirmed policy] at returned
    cases confirmation_of_createConfirmed returned with
    | unseen => exact ⟨[], List.nil_sublist _, .nil⟩
    | idle => exact ⟨[], List.nil_sublist _, .nil⟩
    | @confirmed _ _ _ batch =>
      let a := shapeAssociation { c with detections := [] } solver batch c.detections
      refine ⟨_, map_fst_confirmed_sublist c.detections batch a, ?_⟩
      rw [List.forall₂_map_right_iff]
      exact ((forall₂_spawnConfirmed _ _).imp fun _ _ starts => starts.detection).flip

variable {c next : Creator ρ π} {batch : DetectionBatch ρ π} {a : Association}
  {created : List (Track ρ π)}

theorem exists_places_of_create (idle : c.detections = [])
    (returned : (c.addDetections batch a).create solver = .ok (created, next)) :
    ∃ places, places.Sublist (batch.leftPlaces a) ∧
      batch.ComesFrom (fun t d => t.StartsFrom c.settings.noise d) created places := by
  obtain ⟨chosen, fewer, starts⟩ := exists_sublist_of_create returned
  have taken := fewer.map some
  rw [map_some_detections_addDetections idle] at taken
  obtain ⟨places, left, same⟩ := List.sublist_map_iff.mp taken
  exact ⟨places, left, DetectionBatch.comesFrom_of_forall₂ left same starts⟩

/-- Where every detection starts a track, it starts tracks at all of them. -/
theorem comesFrom_leftPlaces_of_create (every : c.settings.policy = .everyDetection)
    (idle : c.detections = [])
    (returned : (c.addDetections batch a).create solver = .ok (created, next)) :
    batch.ComesFrom (fun t d => t = .ofDetection t.id c.settings.noise d) created
      (batch.leftPlaces a) := by
  have sameEvery : (c.addDetections batch a).settings.policy = .everyDetection := every
  rw [create_of_everyDetection sameEvery] at returned
  cases returned
  exact DetectionBatch.comesFrom_of_forall₂ (.refl _) (map_some_detections_addDetections idle)
    (forall₂_spawn _ _)

end Creator

end TrackFusion
