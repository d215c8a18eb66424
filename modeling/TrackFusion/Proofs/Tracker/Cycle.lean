import TrackFusion.Proofs.Creator.NewTracks
import TrackFusion.Proofs.Scene
import TrackFusion.Proofs.Track.Lifecycle
import TrackFusion.Tracker.Basic

/-!
One detection cycle, stage by stage.

`Tracker.stages` names what prediction, association and creation give, and an applied cycle is what
these stages make of the tracker. `updateWith_applied` then says what happens to every track: it is
predicted to the capture time, then either corrected by the detection that the association names for
its place or missed, whatever that association is, and it is removed exactly when it is too old.
-/

set_option autoImplicit false
set_option relaxedAutoImplicit false

namespace TrackFusion

/-- What the stages of a detection cycle give: the predicted tracks, the association of the batch
with them, the new tracks, and the creator after they started. -/
structure CycleStages (ρ π : Type) where
  predicted : List (Track ρ π)
  association : Association
  created : List (Track ρ π)
  creator : Creator ρ π

namespace CycleStages

variable {ρ π : Type}

def given (s : CycleStages ρ π) (detections : List (Detection ρ π)) (i : Nat) :
    Option (Detection ρ π) :=
  (s.association.observationOf i).bind (detections[·]?)

def advanced [Scalar ρ] [Scalar π] (s : CycleStages ρ π) (detections : List (Detection ρ π)) :
    List (Track ρ π) :=
  Tracker.advanceTracks s.predicted detections s.association

theorem getElem?_advanced [Scalar ρ] [Scalar π] (s : CycleStages ρ π)
    (detections : List (Detection ρ π)) (i : Nat) :
    (s.advanced detections)[i]? = s.predicted[i]?.map fun p => p.advance (s.given detections i) :=
  List.getElem?_mapIdx

theorem advanced_ids [Scalar ρ] [Scalar π] (s : CycleStages ρ π)
    (detections : List (Detection ρ π)) :
    (s.advanced detections).map Track.id = s.predicted.map Track.id := by
  apply List.ext_getElem?
  intro i
  simp only [List.getElem?_map, getElem?_advanced, Option.map_map]
  congr 1
  funext p
  exact Track.advance_id p _

end CycleStages

namespace Tracker

variable {ρ π : Type}

@[simp] theorem stamp_transform [Scalar ρ] (batch : DetectionBatch ρ π) (odometry : Odometry ρ)
    (frame : String) : (batch.transform odometry frame).header.stamp = batch.header.stamp :=
  rfl

private theorem notStale_eq (time : Duration) (ticks : Nat) :
    (fun track : Track ρ π => !track.isStale time ticks) = fun track =>
      decide ¬(time < track.timeSinceUpdate ∨ ticks < track.ticksSinceUpdate) := by
  funext track
  rw [decide_not, Bool.eq_iff_iff, Bool.not_eq_true', Bool.not_eq_true', decide_eq_false_iff_not,
    ← Track.isStale_eq_true_iff, Bool.not_eq_true]

theorem predicted_ids [Scalar ρ] {dt : Duration} {old predicted : List (Track ρ π)}
    (each : List.Forall₂ (fun old p => old.predict dt = .ok p) old predicted) :
    predicted.map Track.id = old.map Track.id := by
  induction each with
  | nil => rfl
  | cons first _ ih => rw [List.map_cons, List.map_cons, ih, Track.predict_id first]

theorem nanoseconds_elapsed (t : Tracker ρ π) (stamp : Duration) :
    (t.elapsed stamp).nanoseconds =
      match t.lastUpdate with
      | some last => stamp.nanoseconds - last.nanoseconds
      | none => 0 := by
  unfold elapsed
  cases t.lastUpdate <;> rfl

section Validation

variable [Scalar ρ] {t : Tracker ρ π} {batch : DetectionBatch ρ π} {odometry : Odometry ρ}

theorem lastUpdate_le_of_accepted (accepted : t.validate batch odometry = .ok) {last : Duration}
    (previous : t.lastUpdate = some last) : last ≤ batch.header.stamp := by
  unfold validate at accepted
  split at accepted
  · cases accepted
  · rename_i recent
    rw [previous, Option.any_some, decide_eq_true_eq, Duration.lt_iff] at recent
    exact Nat.le_of_not_lt recent

theorem add_elapsed_of_accepted (accepted : t.validate batch odometry = .ok) {last : Duration}
    (previous : t.lastUpdate = some last) :
    last.nanoseconds + (t.elapsed batch.header.stamp).nanoseconds =
      batch.header.stamp.nanoseconds := by
  have recent := Duration.le_iff.mp (lastUpdate_le_of_accepted accepted previous)
  rw [nanoseconds_elapsed, previous]
  dsimp only
  omega

end Validation

variable [ExtendedScalar ρ] [Scalar π]

def stages (solver : Solver) (associate : List (Detection ρ π) → List (Track ρ π) → Association)
    (t : Tracker ρ π) (batch : DetectionBatch ρ π) : Except DurationOverflow (CycleStages ρ π) := do
  let predicted ← t.tracks.mapM fun track => track.predict (t.elapsed batch.header.stamp)
  let association := associate batch.objects predicted
  let (created, creator) ← (t.creator.addDetections batch association).create solver
  return ⟨predicted, association, created, creator⟩

def afterStages (t : Tracker ρ π) (batch : DetectionBatch ρ π) (s : CycleStages ρ π) :
    Tracker ρ π :=
  { t with
    creator := s.creator
    tracks := (s.advanced batch.objects ++ s.created).filter fun track =>
      ¬(t.options.pruningTime < track.timeSinceUpdate ∨
        t.options.pruningTicks < track.ticksSinceUpdate)
    lastUpdate := some batch.header.stamp }

def resultOf (t : Tracker ρ π) (batch : DetectionBatch ρ π) (s : CycleStages ρ π) :
    CycleResult ρ π :=
  ⟨if s.association.hadErrors then .invalidShape else .ok,
    some ((t.afterStages batch s).report batch.header.stamp)⟩

theorem stages_eq_ok_iff {solver : Solver}
    {associate : List (Detection ρ π) → List (Track ρ π) → Association} {t : Tracker ρ π}
    {batch : DetectionBatch ρ π} {s : CycleStages ρ π} :
    t.stages solver associate batch = .ok s ↔
      List.Forall₂ (fun old p => old.predict (t.elapsed batch.header.stamp) = .ok p)
        t.tracks s.predicted ∧
      s.association = associate batch.objects s.predicted ∧
      (t.creator.addDetections batch s.association).create solver = .ok (s.created, s.creator) := by
  simp only [stages, bind_eq_ok_iff, pure_eq_ok_iff, mapM_eq_ok_iff]
  constructor
  · rintro ⟨predicted, first, ⟨created, creator⟩, second, rfl⟩
    exact ⟨first, rfl, second⟩
  · rintro ⟨first, same, second⟩
    refine ⟨s.predicted, first, (s.created, s.creator), same ▸ second, ?_⟩
    rw [← same]

/-- An applied cycle is what its stages make of the tracker. -/
theorem applyCycle_eq_stages (solver : Solver)
    (associate : List (Detection ρ π) → List (Track ρ π) → Association) (t : Tracker ρ π)
    (batch : DetectionBatch ρ π) :
    t.applyCycle solver associate batch = do
      let s ← t.stages solver associate batch
      return (t.afterStages batch s, t.resultOf batch s) := by
  unfold applyCycle stages resultOf afterStages
  simp only [bind_assoc, pure_bind, notStale_eq]
  rfl

theorem updateWith_of_accepted (solver : Solver)
    (associate : List (Detection ρ π) → List (Track ρ π) → Association) {t : Tracker ρ π}
    {batch : DetectionBatch ρ π} {odometry : Odometry ρ}
    (accepted : t.validate batch odometry = .ok) :
    t.updateWith solver associate batch odometry =
      t.applyCycle solver associate (batch.transform odometry t.options.frame) := by
  unfold updateWith
  rw [accepted]

theorem updateWith_of_rejected (solver : Solver)
    (associate : List (Detection ρ π) → List (Track ρ π) → Association) {t : Tracker ρ π}
    {batch : DetectionBatch ρ π} {odometry : Odometry ρ}
    (rejected : t.validate batch odometry ≠ .ok) :
    t.updateWith solver associate batch odometry =
      .ok (t, ⟨t.validate batch odometry, none⟩) := by
  unfold updateWith
  split
  · contradiction
  · rfl

theorem updateWith_eq_ok_iff {solver : Solver}
    {associate : List (Detection ρ π) → List (Track ρ π) → Association} {t next : Tracker ρ π}
    {batch : DetectionBatch ρ π} {odometry : Odometry ρ} {result : CycleResult ρ π}
    (accepted : t.validate batch odometry = .ok) :
    t.updateWith solver associate batch odometry = .ok (next, result) ↔
      ∃ s, t.stages solver associate (batch.transform odometry t.options.frame) = .ok s ∧
        t.afterStages (batch.transform odometry t.options.frame) s = next ∧
        t.resultOf (batch.transform odometry t.options.frame) s = result := by
  rw [updateWith_of_accepted solver associate accepted, applyCycle_eq_stages]
  simp only [bind_eq_ok_iff, pure_eq_ok_iff, Prod.mk.injEq]

theorem exists_stages_of_everyDetection (solver : Solver)
    (associate : List (Detection ρ π) → List (Track ρ π) → Association) {t : Tracker ρ π}
    (batch : DetectionBatch ρ π) (every : t.creator.settings.policy = .everyDetection)
    (short : ∀ track ∈ t.tracks, track.timeSinceUpdate.nanoseconds +
      (t.elapsed batch.header.stamp).nanoseconds < durationLimit) :
    ∃ s, t.stages solver associate batch = .ok s := by
  obtain ⟨predicted, first⟩ : ∃ predicted,
      (t.tracks.mapM fun track => track.predict (t.elapsed batch.header.stamp)) = .ok predicted :=
    exists_mapM_eq_ok fun track member => Track.exists_predict_eq_ok (short track member)
  obtain ⟨created, creator, second⟩ : ∃ created next,
      (t.creator.addDetections batch (associate batch.objects predicted)).create solver =
        .ok (created, next) :=
    Creator.exists_create_of_everyDetection solver every
  exact ⟨⟨predicted, associate batch.objects predicted, created, creator⟩,
    stages_eq_ok_iff.mpr ⟨mapM_eq_ok_iff.mp first, rfl, second⟩⟩

end Tracker

/-- What an applied cycle does to a tracker, given the stages it went through. -/
structure AppliedCycle {ρ π : Type} [ExtendedScalar ρ] [Scalar π] (solver : Solver)
    (associate : List (Detection ρ π) → List (Track ρ π) → Association) (t : Tracker ρ π)
    (batch : DetectionBatch ρ π) (s : CycleStages ρ π) (next : Tracker ρ π) : Prop where
  predicted : ∃ dt : Duration,
    (t.lastUpdate = none → dt = 0) ∧
    (∀ last, t.lastUpdate = some last →
      last.nanoseconds + dt.nanoseconds = batch.header.stamp.nanoseconds) ∧
    List.Forall₂ (fun old p => old.predict dt = .ok p) t.tracks s.predicted
  /-- The association may be anything. -/
  association : s.association = associate batch.objects s.predicted
  created : (t.creator.addDetections batch s.association).create solver = .ok (s.created, s.creator)
  ids : (s.advanced batch.objects).map Track.id = t.tracks.map Track.id
  /-- Exactly one of a correction and a miss happens to each predicted track. -/
  fate : ∀ (i : Nat) (p q : Track ρ π), s.predicted[i]? = some p →
    (s.advanced batch.objects)[i]? = some q →
    Xor (p.Corrected (s.given batch.objects i) q) (p.Missed (s.given batch.objects i) q)
  /-- The new tracks follow the old ones, and of all of them those leave that are too old. -/
  tracks : next.tracks = (s.advanced batch.objects ++ s.created).filter fun track =>
    ¬(t.options.pruningTime < track.timeSinceUpdate ∨
      t.options.pruningTicks < track.ticksSinceUpdate)
  lastUpdate : next.lastUpdate = some batch.header.stamp
  creator : next.creator = s.creator
  options : next.options = t.options

namespace Tracker

variable {ρ π : Type} [ExtendedScalar ρ] [Scalar π]

/-- An accepted cycle that returns predicts every track to its stamp, then corrects or misses it,
appends the new tracks and removes the ones that are too old, whatever the association is. -/
theorem updateWith_applied {solver : Solver}
    {associate : List (Detection ρ π) → List (Track ρ π) → Association} {t next : Tracker ρ π}
    {batch : DetectionBatch ρ π} {odometry : Odometry ρ} {result : CycleResult ρ π}
    (accepted : t.validate batch odometry = .ok)
    (returned : t.updateWith solver associate batch odometry = .ok (next, result)) :
    ∃ s, AppliedCycle solver associate t (batch.transform odometry t.options.frame) s next := by
  obtain ⟨s, stages, rfl, -⟩ := (updateWith_eq_ok_iff accepted).mp returned
  obtain ⟨predicted, association, created⟩ := stages_eq_ok_iff.mp stages
  refine ⟨s, ⟨⟨_, ?_, ?_, predicted⟩, association, created, ?_, ?_, rfl, rfl, rfl, rfl⟩⟩
  · intro first
    rw [elapsed, first]
  · intro last previous
    rw [stamp_transform]
    exact add_elapsed_of_accepted accepted previous
  · rw [CycleStages.advanced_ids]
    exact predicted_ids predicted
  · intro i p q before after
    rw [CycleStages.getElem?_advanced, before] at after
    obtain rfl := Option.some.inj after
    exact Track.corrected_xor_missed p _

/-- A tracker with one track, and an association that is wrong in every respect. -/
theorem updateWith_applied_malformed :
    ∃ (t next : Tracker Exact Exact) (result : CycleResult Exact Exact) (a : Association),
      t.tracks.length = 1 ∧ a = ⟨[some 7, some 0], [5], [0, 0, 3], true⟩ ∧
      t.validate (Scene.batch Scene.second [Scene.car 10]) Scene.odometry = .ok ∧
      t.updateWith .augmentingPaths (fun _ _ => a) (Scene.batch Scene.second [Scene.car 10])
        Scene.odometry = .ok (next, result) ∧
      ∃ s, AppliedCycle .augmentingPaths (fun _ _ => a) t
        ((Scene.batch Scene.second [Scene.car 10]).transform Scene.odometry t.options.frame) s next := by
  let t : Tracker Exact Exact :=
    { Tracker.start .standard with
      tracks := [.ofDetection 0 CreationSettings.standard.noise (Scene.car 10)]
      lastUpdate := some 0 }
  let a : Association := ⟨[some 7, some 0], [5], [0, 0, 3], true⟩
  have accepted : t.validate (Scene.batch Scene.second [Scene.car 10]) Scene.odometry = .ok := by
    refine Scene.accepts rfl ?_
    rintro last ⟨rfl⟩
    exact Nat.zero_le _
  have every : t.creator.settings.policy = .everyDetection := rfl
  obtain ⟨s, stages⟩ := exists_stages_of_everyDetection .augmentingPaths (fun _ _ => a)
    ((Scene.batch Scene.second [Scene.car 10]).transform Scene.odometry t.options.frame) every
    (by
      intro track member
      obtain rfl := List.mem_singleton.mp member
      decide)
  have returned := (updateWith_eq_ok_iff accepted).mpr ⟨s, stages, rfl, rfl⟩
  exact ⟨t, _, _, a, rfl, rfl, accepted, returned, updateWith_applied accepted returned⟩

end Tracker

end TrackFusion
