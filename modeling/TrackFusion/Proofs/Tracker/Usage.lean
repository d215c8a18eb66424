import TrackFusion.Proofs.Association.Contract
import TrackFusion.Proofs.Creator.Origins
import TrackFusion.Proofs.Tracker.Runs

/-!
What becomes of the detections of a cycle.

The built-in association and the creator judge the validity of a detection each on its own, and the
association passes indices only. They agree: where every detection starts a track, a valid one is
handed to one track or starts one, and an invalid one does neither.
-/

set_option autoImplicit false
set_option relaxedAutoImplicit false

namespace TrackFusion

variable {ρ π : Type}

/-- The detection at place `j` is handed to the predicted track at place `i`: the track is corrected
by it, or only counts a miss where the correction breaks off. -/
def CycleStages.Hands [Scalar ρ] [Scalar π] (s : CycleStages ρ π)
    (detections : List (Detection ρ π)) (j i : Nat) : Prop :=
  ∃ p d q, s.predicted[i]? = some p ∧ s.association.observationOf i = some j ∧
    detections[j]? = some d ∧ (s.advanced detections)[i]? = some q ∧
    (p.Corrected (some d) q ∨ p.Missed (some d) q)

namespace CycleStages

variable [Scalar ρ] [Scalar π] {s : CycleStages ρ π} {detections : List (Detection ρ π)} {i j : Nat}

/-- A detection is handed to just the tracks for which the association names it. -/
theorem hands_iff (partitions : s.association.Partitions s.predicted.length detections.length) :
    s.Hands detections j i ↔ s.association.observationOf i = some j := by
  constructor
  · rintro ⟨p, d, q, -, assigned, -⟩
    exact assigned
  · intro assigned
    obtain ⟨track, detection⟩ := partitions.inRange i j assigned
    have place := List.getElem?_eq_getElem track
    have given : s.given detections i = some detections[j] := by
      rw [CycleStages.given, assigned, Option.bind_some, List.getElem?_eq_getElem detection]
    refine ⟨_, _, _, place, assigned, List.getElem?_eq_getElem detection, ?_,
      Track.advance_cases _ _⟩
    rw [getElem?_advanced, place, Option.map_some, given]

theorem existsUnique_hands_iff
    (partitions : s.association.Partitions s.predicted.length detections.length) :
    (∃! i, s.Hands detections j i) ↔ ∃ i, s.association.observationOf i = some j := by
  simp only [hands_iff partitions]
  constructor
  · exact ExistsUnique.exists
  · rintro ⟨i, assigned⟩
    exact ⟨i, assigned, fun u other => partitions.injective u i j other assigned⟩

end CycleStages

/-- How a cycle that starts a track at every detection spends its batch. `places` are the places of
the detections that start tracks, and the batch is already in the tracking frame. -/
structure Tracker.Spends [Scalar ρ] [Scalar π] (t : Tracker ρ π) (batch : DetectionBatch ρ π)
    (s : CycleStages ρ π) (places : List Nat) (next : Tracker ρ π) (result : CycleResult ρ π) :
    Prop where
  ascending : places.Pairwise (· < ·)
  started : batch.ComesFrom (fun new d => new = .ofDetection new.id t.creator.settings.noise d ∧
    new.position = d.centroid) s.created places
  valid : ∀ j d, batch.objects[j]? = some d → d.isValid = true →
    Xor (∃! i, s.Hands batch.objects j i) (j ∈ places)
  invalid : ∀ j d, batch.objects[j]? = some d → d.isValid = false →
    (∀ i, ¬ s.Hands batch.objects j i) ∧ j ∉ places
  tracks : next.tracks = (s.advanced batch.objects ++ s.created).filter fun track =>
    ¬(t.options.pruningTime < track.timeSinceUpdate ∨
      t.options.pruningTicks < track.ticksSinceUpdate)
  count : (s.advanced batch.objects ++ s.created).length + s.association.pairCount =
    t.tracks.length + batch.objects.countP Detection.isValid
  waiting : next.creator.detections = []
  status : result.status =
    if ∃ d ∈ batch.objects, d.isValid = false then .invalidShape else .ok

theorem ObjectGates.partitions_associate [ExtendedScalar ρ] (gates : ObjectGates ρ)
    (solver : Solver) (detections : List (Detection ρ π)) (tracks : List (Track ρ π)) :
    (gates.associate solver detections tracks).Partitions tracks.length detections.length :=
  Association.partitions_ofMatching _ _ _ _

theorem DetectionBatch.perm_validPlaces [ExtendedScalar ρ] [InfiniteCost ρ]
    (batch : DetectionBatch ρ π) (gates : ObjectGates ρ) (solver : Solver)
    (tracks : List (Track ρ π)) :
    let a := gates.associate solver batch.objects tracks
    (a.orderedPairs.map Prod.snd ++ batch.leftPlaces a).Perm batch.validPlaces := by
  intro a
  have partitions := gates.partitions_associate solver batch.objects tracks
  have ascending : (batch.leftPlaces a).Pairwise (· < ·) := leftPlaces_ascend partitions
  have distinct : (a.orderedPairs.map Prod.snd ++ batch.leftPlaces a).Nodup := by
    refine List.nodup_append'.mpr ⟨partitions.orderedPairs_distinct, ascending.imp Nat.ne_of_lt, ?_⟩
    intro j assigned left
    obtain ⟨i, assigned⟩ := Association.mem_map_snd_orderedPairs.mp assigned
    obtain ⟨unassigned, -⟩ := DetectionBatch.mem_leftPlaces_iff.mp left
    exact ((partitions.observations j).mp unassigned).2 i assigned
  -- no place is listed twice on either side, so the members decide
  refine (List.perm_ext_iff_of_nodup distinct batch.validPlaces_nodup).mpr fun j => ?_
  rw [List.mem_append, Association.mem_map_snd_orderedPairs, DetectionBatch.mem_leftPlaces_iff,
    DetectionBatch.mem_validPlaces_iff, partitions.observations]
  constructor
  · rintro (⟨i, assigned⟩ | ⟨-, valid⟩)
    · exact gates.isValid_of_observationOf assigned
    · exact valid
  · rintro ⟨d, place, valid⟩
    by_cases assigned : ∃ i, a.observationOf i = some j
    · exact .inl assigned
    · have bound := (List.getElem?_eq_some_iff.mp place).1
      exact .inr ⟨⟨bound, not_exists.mp assigned⟩, d, place, valid⟩

namespace Tracker

variable [ExtendedScalar ρ] [Scalar π] {solver : Solver} {gates : ObjectGates ρ}
  {t : Tracker ρ π} {batch : DetectionBatch ρ π} {s : CycleStages ρ π}

theorem xor_of_isValid (partitions : s.association.Partitions s.predicted.length
    batch.objects.length) {j : Nat} {d : Detection ρ π} (place : batch.objects[j]? = some d)
    (valid : d.isValid = true) :
    Xor (∃! i, s.Hands batch.objects j i) (j ∈ batch.leftPlaces s.association) := by
  have bound := (List.getElem?_eq_some_iff.mp place).1
  have left : j ∈ batch.leftPlaces s.association ↔ ∀ i, s.association.observationOf i ≠ some j := by
    rw [DetectionBatch.mem_leftPlaces_iff, partitions.observations]
    constructor
    · exact fun unassigned => unassigned.1.2
    · exact fun unassigned => ⟨⟨bound, unassigned⟩, d, place, valid⟩
  rw [CycleStages.existsUnique_hands_iff partitions, left]
  by_cases assigned : ∃ i, s.association.observationOf i = some j
  · obtain ⟨i, same⟩ := assigned
    exact .inl ⟨⟨i, same⟩, fun free => free i same⟩
  · exact .inr ⟨not_exists.mp assigned, assigned⟩

theorem partitions_of_stages (staged : t.stages solver (gates.associate solver) batch = .ok s) :
    s.association.Partitions s.predicted.length batch.objects.length := by
  obtain ⟨-, association, -⟩ := stages_eq_ok_iff.mp staged
  rw [association]
  exact gates.partitions_associate solver batch.objects s.predicted

theorem status_of_stages (staged : t.stages solver (gates.associate solver) batch = .ok s) :
    (t.resultOf batch s).status =
      if ∃ d ∈ batch.objects, d.isValid = false then .invalidShape else .ok := by
  obtain ⟨-, association, -⟩ := stages_eq_ok_iff.mp staged
  have errors : s.association.hadErrors = true ↔ ∃ d ∈ batch.objects, d.isValid = false := by
    rw [association, ObjectGates.associate, Association.hadErrors_ofMatching]
    simp only [List.any_eq_true, Bool.not_eq_true']
  exact if_congr errors rfl rfl

variable [InfiniteCost ρ]

theorem isValid_of_hands (staged : t.stages solver (gates.associate solver) batch = .ok s)
    {i j : Nat} {d : Detection ρ π} (handed : s.Hands batch.objects j i)
    (place : batch.objects[j]? = some d) : d.isValid = true := by
  obtain ⟨-, association, -⟩ := stages_eq_ok_iff.mp staged
  have assigned := (CycleStages.hands_iff (partitions_of_stages staged)).mp handed
  rw [association] at assigned
  obtain ⟨d', place', valid⟩ := gates.isValid_of_observationOf assigned
  obtain rfl : d = d' := Option.some.inj (place.symm.trans place')
  exact valid

theorem pairCount_add_length_leftPlaces
    (staged : t.stages solver (gates.associate solver) batch = .ok s) :
    s.association.pairCount + (batch.leftPlaces s.association).length =
      batch.objects.countP Detection.isValid := by
  obtain ⟨-, association, -⟩ := stages_eq_ok_iff.mp staged
  have used := (batch.perm_validPlaces gates solver s.predicted).length_eq
  rw [← association, List.length_append, List.length_map, Association.length_orderedPairs,
    DetectionBatch.length_validPlaces] at used
  exact used

theorem spends_of_stages (every : t.creator.settings.policy = .everyDetection)
    (idle : t.creator.detections = [])
    (staged : t.stages solver (gates.associate solver) batch = .ok s) :
    t.Spends batch s (batch.leftPlaces s.association) (t.afterStages batch s)
      (t.resultOf batch s) := by
  obtain ⟨predicted, -, created⟩ := stages_eq_ok_iff.mp staged
  have partitions := partitions_of_stages staged
  have started := Creator.comesFrom_leftPlaces_of_create every idle created
  refine ⟨DetectionBatch.leftPlaces_ascend partitions, ?_,
    fun j d place valid => xor_of_isValid partitions place valid, ?_, rfl, ?_,
    (Creator.exists_detection_of_create created).1, status_of_stages staged⟩
  · refine started.imp fun new j ⟨d, place, valid, same⟩ => ⟨d, place, valid, same, ?_⟩
    rw [same]
    rfl
  · intro j d place invalid
    constructor
    · intro i handed
      rw [isValid_of_hands staged handed place] at invalid
      cases invalid
    · intro left
      rw [DetectionBatch.isValid_of_mem_leftPlaces left place] at invalid
      cases invalid
  · have old : (s.advanced batch.objects).length = t.tracks.length := by
      rw [CycleStages.advanced, advanceTracks, List.length_mapIdx, predicted.length_eq]
    have new : s.created.length = (batch.leftPlaces s.association).length := started.length_eq
    have shared := pairCount_add_length_leftPlaces staged
    rw [List.length_append]
    omega

end Tracker

namespace Session

variable [ExtendedScalar ρ] [Scalar π] {solver : Solver} {options : TrackerOptions ρ}
  {s : Session ρ π}

theorem waiting_of_step {next : Session ρ π} {call : Call ρ π}
    (idle : s.tracker.creator.detections = []) (stepped : s.step solver call = .ok next) :
    next.tracker.creator.detections = [] := by
  cases outcome_of_step stepped with
  | applied accepted staged =>
    obtain ⟨-, -, created⟩ := Tracker.stages_eq_ok_iff.mp staged
    exact (Creator.exists_detection_of_create created).1
  | rejected => exact idle
  | observed batch view a => exact (Creator.detections_addRegions _ batch view a).trans idle

/-- No detection waits between two calls. -/
theorem waiting_of_run {calls : List (Call ρ π)}
    (returned : (start options).run solver calls = .ok s) : s.tracker.creator.detections = [] :=
  foldlM_preserves (P := fun s => s.tracker.creator.detections = [])
    (fun _ _ _ idle stepped => waiting_of_step idle stepped) rfl returned

variable [InfiniteCost ρ]

/-- Where every detection starts a track, each accepted cycle after a run spends its batch: a valid
detection is handed to one track or starts one, and an invalid one does neither. -/
theorem spends_of_run (every : options.creation.policy = .everyDetection)
    {calls : List (Call ρ π)} (reached : (start options).run solver calls = .ok s)
    {batch : DetectionBatch ρ π} {odometry : Odometry ρ}
    (accepted : s.tracker.validate batch odometry = .ok) :
    let moved := batch.transform odometry s.tracker.options.frame
    ∃ stages places next result,
      s.tracker.stages solver (s.tracker.options.objectGates.associate solver) moved = .ok stages ∧
      s.tracker.update solver batch odometry = .ok (next, result) ∧
      s.tracker.Spends moved stages places next result := by
  intro moved
  have invariant := invariant_of_run reached
  have everyNow : s.tracker.creator.settings.policy = .everyDetection := by
    rw [invariant.settings, every]
  obtain ⟨stages, staged⟩ := Tracker.exists_stages_of_everyDetection solver
    (s.tracker.options.objectGates.associate solver) moved everyNow
    fun track member => invariant.age_add_elapsed_lt accepted member
  have returned := (Tracker.updateWith_eq_ok_iff accepted).mpr ⟨stages, staged, rfl, rfl⟩
  exact ⟨stages, _, _, _, staged, returned,
    Tracker.spends_of_stages everyNow (waiting_of_run reached) staged⟩

/-- Two cars, and then one of them again together with something that has no outline. -/
theorem spends_of_drive :
    let solver := Solver.augmentingPaths
    let options : TrackerOptions Exact := .standard
    let calls : List (Call Exact Exact) := [.detections (options.objectGates.associate solver)
      (Scene.batch Scene.second [Scene.car 0, Scene.car 50]) Scene.odometry]
    let batch := Scene.batch Scene.second [Scene.blur 0, Scene.car 50]
    options.creation.policy = .everyDetection ∧
    ∃ s, (start options).run solver calls = .ok s ∧
      s.tracker.validate batch Scene.odometry = .ok ∧
      ∃ stages places next result,
        s.tracker.stages solver (s.tracker.options.objectGates.associate solver)
          (batch.transform Scene.odometry s.tracker.options.frame) = .ok stages ∧
        s.tracker.update solver batch Scene.odometry = .ok (next, result) ∧
        s.tracker.Spends (batch.transform Scene.odometry s.tracker.options.frame) stages places next
          result := by
  intro solver options calls batch
  have every : options.creation.policy = .everyDetection := rfl
  obtain ⟨s, reached⟩ := exists_run_of_everyDetection solver every calls
  have accepted : s.tracker.validate batch Scene.odometry = .ok := by
    obtain ⟨middle, first, same⟩ := bind_eq_ok_iff.mp reached
    obtain rfl := pure_eq_ok_iff.mp same
    have opening : (start options).tracker.validate
        (Scene.batch Scene.second [Scene.car 0, Scene.car 50]) Scene.odometry = .ok :=
      Scene.accepts rfl nofun
    obtain ⟨stages, -, rfl⟩ := exists_stages_of_step opening first
    refine Scene.accepts rfl ?_
    intro last latest
    obtain rfl := Option.some.inj latest
    exact Nat.le_refl _
  exact ⟨every, s, reached, accepted, spends_of_run every reached accepted⟩

end Session

end TrackFusion
