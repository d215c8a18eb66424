import Mathlib.Data.List.Sort
import TrackFusion.Proofs.Association.Insertion
import TrackFusion.Proofs.Tracker.Usage

/-!
Invalid detections do not disturb valid ones.

Inserting invalid detections into a batch moves the valid ones to other places and changes nothing
else: each track is handed the same detection, and the same detections in the same order are left over
to the creator. The cycle ends in the same tracker, and only its status tells of what was skipped.
-/

set_option autoImplicit false
set_option relaxedAutoImplicit false

namespace TrackFusion

section Batches

variable {ρ π : Type} [Scalar ρ] {a a' : Association} {batch larger : DetectionBatch ρ π}
  {place : Nat → Nat}

/-- The places left over of the larger batch are those of the smaller one after their move. -/
theorem DetectionBatch.leftPlaces_of_places {n n' : Nat}
    (partitions : a.Partitions n batch.objects.length)
    (partitions' : a'.Partitions n' larger.objects.length)
    (places : Inserts.Places (fun d => d.isValid = false) batch.objects larger.objects place)
    (moved : ∀ i, a'.observationOf i = (a.observationOf i).map place) :
    larger.leftPlaces a' = (batch.leftPlaces a).map place := by
  have ascending : ((batch.leftPlaces a).map place).Pairwise (· < ·) :=
    (leftPlaces_ascend partitions).map place fun i j before => places.ascending before
  have names {i j : Nat} : a'.observationOf i = some (place j) ↔ a.observationOf i = some j := by
    rw [moved, Option.map_eq_some_iff]
    simp only [places.ascending.injective.eq_iff, exists_eq_right]
  refine (leftPlaces_ascend partitions').eq_of_mem_iff ascending fun k => ?_
  rw [List.mem_map]
  simp only [mem_leftPlaces_iff, partitions.observations, partitions'.observations]
  constructor
  · rintro ⟨⟨-, free⟩, d, listed, valid⟩
    -- what was inserted is invalid, so it is not among what is left over
    have old : ∃ j, place j = k := by
      by_contra fresh
      rw [places.inserted k d listed (not_exists.mp fresh)] at valid
      cases valid
    obtain ⟨j, rfl⟩ := old
    rw [places.kept] at listed
    exact ⟨j, ⟨⟨(List.getElem?_eq_some_iff.mp listed).1, fun i => mt names.mpr (free i)⟩, d, listed,
      valid⟩, rfl⟩
  · rintro ⟨j, ⟨⟨bound, free⟩, d, listed, valid⟩, rfl⟩
    rw [places.kept]
    exact ⟨⟨places.lt_length_iff.mpr bound, fun i => mt names.mp (free i)⟩, d, listed, valid⟩

theorem Creator.addDetections_of_places (c : Creator ρ π)
    (stamp : larger.header.stamp = batch.header.stamp)
    (places : Inserts.Places (fun d => d.isValid = false) batch.objects larger.objects place)
    (left : larger.leftPlaces a' = (batch.leftPlaces a).map place) :
    c.addDetections larger a' = c.addDetections batch a := by
  have taken := larger.map_getElem?_leftPlaces a'
  rw [left, List.map_map] at taken
  have kept : (larger.objects[·]?) ∘ place = (batch.objects[·]?) := funext places.kept
  rw [kept, DetectionBatch.map_getElem?_leftPlaces] at taken
  have same := (Option.some_injective _).list_map taken
  unfold addDetections
  rw [stamp, same]

theorem Tracker.advanceTracks_of_places [Scalar π] (tracks : List (Track ρ π))
    (places : Inserts.Places (fun d => d.isValid = false) batch.objects larger.objects place)
    (moved : ∀ i, a'.observationOf i = (a.observationOf i).map place) :
    advanceTracks tracks larger.objects a' = advanceTracks tracks batch.objects a := by
  have given (i : Nat) : (a'.observationOf i).bind (larger.objects[·]?) =
      (a.observationOf i).bind (batch.objects[·]?) := by
    rw [moved, Option.bind_map]
    exact congrArg (a.observationOf i).bind (funext places.kept)
  unfold advanceTracks
  simp only [given]

end Batches

namespace Tracker

section Cycle

variable {ρ π : Type} [ExtendedScalar ρ] [Scalar π]

/-- Two batches whose detections go the same ways lead to the same tracker. -/
theorem applyCycle_of_agree {solver : Solver}
    {associate : List (Detection ρ π) → List (Track ρ π) → Association} {t : Tracker ρ π}
    {batch larger : DetectionBatch ρ π} (stamp : larger.header.stamp = batch.header.stamp)
    (agree : ∀ predicted,
      List.Forall₂ (fun old p => old.predict (t.elapsed batch.header.stamp) = .ok p)
        t.tracks predicted →
      let a := associate batch.objects predicted
      let a' := associate larger.objects predicted
      advanceTracks predicted larger.objects a' = advanceTracks predicted batch.objects a ∧
        t.creator.addDetections larger a' = t.creator.addDetections batch a ∧ a'.hadErrors = true) :
    t.applyCycle solver associate larger =
      (t.applyCycle solver associate batch).map fun (next, result) =>
        (next, { result with status := .invalidShape }) := by
  unfold applyCycle
  dsimp only
  rw [stamp]
  cases first : t.tracks.mapM fun track => track.predict (t.elapsed batch.header.stamp) with
  | error e => rfl
  | ok predicted =>
    obtain ⟨advanced, added, errors⟩ := agree predicted (mapM_eq_ok_iff.mp first)
    rw [ok_bind, ok_bind, advanced, added, errors]
    cases (t.creator.addDetections batch (associate batch.objects predicted)).create solver with
    | error e => rfl
    | ok created => rfl

end Cycle

variable {π : Type} [Scalar π] {solver : Solver} {t : Tracker Exact π}
  {batch : DetectionBatch Exact π} {odometry : Odometry Exact} {more : List (Detection Exact π)}
  {g : ℝ}

theorem applyCycle_of_inserts (optimal : solver.IsOptimal)
    (threshold : t.options.objectGates.gatingThreshold = .finite g)
    {larger : DetectionBatch Exact π} (stamp : larger.header.stamp = batch.header.stamp)
    (inserts : Inserts (fun d => d.isValid = false) batch.objects larger.objects)
    (skips : ∃ d ∈ larger.objects, d.isValid = false)
    (small : (min t.tracks.length larger.objects.length : Nat) * Gate.weightOf (g + 1e-5) < 2 ^ 62)
    (one : ∀ predicted,
      List.Forall₂ (fun old p => old.predict (t.elapsed batch.header.stamp) = .ok p)
        t.tracks predicted →
      t.options.objectGates.HasOneChoice g predicted batch.objects) :
    t.applyCycle solver (t.options.objectGates.associate solver) larger =
      (t.applyCycle solver (t.options.objectGates.associate solver) batch).map fun (next, result) =>
        (next, { result with status := .invalidShape }) := by
  obtain ⟨place, places⟩ := inserts.exists_places
  refine applyCycle_of_agree stamp fun predicted each => ?_
  rw [each.length_eq] at small
  have corresponding := ObjectGates.observationOf_associate_of_places optimal threshold places
    inserts.length_le small (one predicted each)
  have left := DetectionBatch.leftPlaces_of_places
    (ObjectGates.partitions_associate _ solver batch.objects predicted)
    (ObjectGates.partitions_associate _ solver larger.objects predicted) places corresponding
  refine ⟨advanceTracks_of_places predicted places corresponding,
    t.creator.addDetections_of_places stamp places left, ?_⟩
  rw [ObjectGates.associate, Association.hadErrors_ofMatching, List.any_eq_true]
  simpa only [Bool.not_eq_true'] using skips

/-- Detections that are invalid in the tracking frame, inserted anywhere into an accepted batch, change
nothing but the status of its cycle: the solver is optimal, and of the predicted tracks and the
detections of the batch there is one least choice of pairs. -/
theorem update_of_inserts (optimal : solver.IsOptimal)
    (threshold : t.options.objectGates.gatingThreshold = .finite g)
    (accepted : t.validate batch odometry = .ok)
    (inserts : Inserts (fun d => (d.transform odometry).isValid = false) batch.objects more)
    (small : (min t.tracks.length more.length : Nat) * Gate.weightOf (g + 1e-5) < 2 ^ 62)
    (one : ∀ predicted,
      List.Forall₂ (fun old p => old.predict (t.elapsed batch.header.stamp) = .ok p)
        t.tracks predicted →
      t.options.objectGates.HasOneChoice g predicted
        (batch.transform odometry t.options.frame).objects) :
    t.update solver { batch with objects := more } odometry =
      (t.update solver batch odometry).map fun (next, result) =>
        (next, { result with
          status := if batch.objects.length < more.length then .invalidShape else result.status }) := by
  rcases inserts.eq_or_exists with rfl | ⟨longer, bad, listed, invalid⟩
  · simp only [lt_self_iff_false, if_false]
    exact (id_map _).symm
  · simp only [if_pos longer]
    have acceptedMore : t.validate { batch with objects := more } odometry = .ok := accepted
    have length : (more.map (Detection.transform odometry)).length = more.length :=
      List.length_map _
    unfold update
    rw [updateWith_of_accepted _ _ accepted, updateWith_of_accepted _ _ acceptedMore]
    refine applyCycle_of_inserts optimal threshold rfl ?_ ?_ ?_ one
    · exact inserts.map (Detection.transform odometry) fun _ kind => kind
    · exact ⟨_, List.mem_map_of_mem listed, invalid⟩
    · rwa [← length] at small

/-- A car that is seen again, behind something that has no outline. -/
theorem update_of_inserts_blur :
    let t : Tracker Exact Exact :=
      { Tracker.start .standard with
        tracks := [.ofDetection 0 CreationSettings.standard.noise (Scene.car 10)]
        lastUpdate := some 0 }
    let batch := Scene.batch Scene.second [Scene.car 11]
    let more := [Scene.blur 10, Scene.car 11]
    t.validate batch Scene.odometry = .ok ∧
      Inserts (fun d => (d.transform Scene.odometry).isValid = false) batch.objects more ∧
      ∃ next result, t.update .exhaustive batch Scene.odometry = .ok (next, result) ∧
        t.update .exhaustive { batch with objects := more } Scene.odometry =
          .ok (next, { result with status := .invalidShape }) := by
  intro t batch more
  have accepted : t.validate batch Scene.odometry = .ok := by
    refine Scene.accepts rfl ?_
    rintro last ⟨rfl⟩
    exact Nat.zero_le _
  have inserts : Inserts (fun d => (d.transform Scene.odometry).isValid = false) batch.objects more :=
    .inserted rfl (.kept _ .nil)
  have every : t.creator.settings.policy = .everyDetection := rfl
  obtain ⟨s, stages⟩ := exists_stages_of_everyDetection .exhaustive
    (t.options.objectGates.associate .exhaustive) (batch.transform Scene.odometry t.options.frame)
    every (by
      intro track member
      obtain rfl := List.mem_singleton.mp member
      decide)
  have returned := (updateWith_eq_ok_iff accepted).mpr ⟨s, stages, rfl, rfl⟩
  have threshold : t.options.objectGates.gatingThreshold = .finite 5.9915 := Exact.scientific_eq _ _ _
  have excluded : Gate.weightOf (5.9915 + 1e-5) = 5991510000 := by
    have whole : (1000000000 : ℝ) * (5.9915 + 1e-5) = (5991510000 : ℤ) := by norm_num
    unfold Gate.weightOf
    rw [whole, round_intCast]
  have small : (min t.tracks.length more.length : Nat) * Gate.weightOf (5.9915 + 1e-5) < 2 ^ 62 := by
    rw [excluded]
    norm_num [t, more]
  refine ⟨accepted, inserts, _, _, returned, ?_⟩
  have undisturbed := update_of_inserts Solver.exhaustive_isOptimal threshold accepted inserts small
    fun predicted each =>
      ObjectGates.hasOneChoice_of_length_eq_one threshold each.length_eq.symm rfl
  unfold update at undisturbed
  rw [returned] at undisturbed
  exact undisturbed

end Tracker

end TrackFusion
