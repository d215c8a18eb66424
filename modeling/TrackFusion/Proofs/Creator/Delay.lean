import TrackFusion.Proofs.Creator.Passage
import TrackFusion.Proofs.Track.Lifecycle

/-!
Track creation at a later time.

Detections and images that are all delayed alike wait for each other as before: the same batches are
dropped, the same one is nearest and the first of a tie is the same, as long as the delayed windows
end at times that can be held.
-/

set_option autoImplicit false
set_option relaxedAutoImplicit false

namespace TrackFusion

namespace Duration

/-- The time after a delay, as far as it can be held. -/
def delay (d D : Duration) : Duration :=
  match d.add D with
  | .ok later => later
  | .error _ => d

def CanWait (D d : Duration) : Prop :=
  d.nanoseconds + D.nanoseconds < durationLimit

variable {D a b : Duration}

theorem CanWait.add_eq_ok (room : CanWait D a) : a.add D = .ok (a.delay D) := by
  obtain ⟨later, sum⟩ := exists_add_eq_ok room
  unfold delay
  rw [sum]

theorem CanWait.nanoseconds_delay (room : CanWait D a) :
    (a.delay D).nanoseconds = a.nanoseconds + D.nanoseconds :=
  add_eq_ok_iff.mp room.add_eq_ok

theorem delay_lt_iff (first : CanWait D a) (second : CanWait D b) :
    a.delay D < b.delay D ↔ a < b := by
  rw [lt_iff, lt_iff, first.nanoseconds_delay, second.nanoseconds_delay]
  omega

theorem monus_delay (first : CanWait D a) (second : CanWait D b) :
    (a.delay D).monus (b.delay D) = a.monus b := by
  refine ext ?_
  rw [nanoseconds_monus, nanoseconds_monus, first.nanoseconds_delay, second.nanoseconds_delay]
  omega

theorem distance_delay (first : CanWait D a) (second : CanWait D b) :
    (a.delay D).distance (b.delay D) = a.distance b := by
  unfold distance
  simp only [delay_lt_iff second first, monus_delay first second, monus_delay second first]

end Duration

variable {ρ π : Type} {D : Duration}

namespace WaitingRegions

def delay (D : Duration) (b : WaitingRegions ρ π) : WaitingRegions ρ π :=
  { b with stamp := b.stamp.delay D }

def CanWait (window D : Duration) (b : WaitingRegions ρ π) : Prop :=
  b.stamp.nanoseconds + D.nanoseconds + window.nanoseconds < durationLimit

variable {window stamp : Duration} {b : WaitingRegions ρ π}

theorem CanWait.captured (room : b.CanWait window D) : D.CanWait b.stamp := by
  unfold CanWait at room
  unfold Duration.CanWait
  omega

theorem CanWait.standsAs (room : b.CanWait window D) (later : D.CanWait stamp) :
    StandsAs window stamp b (stamp.delay D) (b.delay D) := by
  have captured := room.captured
  have first : (b.delay D).stamp.nanoseconds = b.stamp.nanoseconds + D.nanoseconds :=
    captured.nanoseconds_delay
  have second := later.nanoseconds_delay
  unfold CanWait at room
  refine ⟨?_, ?_, Duration.distance_delay captured later⟩
  · unfold EndsInTime
    omega
  · unfold Reaches
    omega

end WaitingRegions

def DetectionBatch.delay (D : Duration) (batch : DetectionBatch ρ π) : DetectionBatch ρ π :=
  { batch with header := { batch.header with stamp := batch.header.stamp.delay D } }

def RegionBatch.delay (D : Duration) (batch : RegionBatch ρ π) : RegionBatch ρ π :=
  { batch with header := { batch.header with stamp := batch.header.stamp.delay D } }

namespace Creator

def delay (D : Duration) (c : Creator ρ π) : Creator ρ π :=
  { c with
    detectionStamp := c.detectionStamp.map (·.delay D)
    batches := c.batches.map (WaitingRegions.delay D) }

structure CanWait (D : Duration) (c : Creator ρ π) : Prop where
  detectionStamp : ∀ stamp, c.detectionStamp = some stamp → D.CanWait stamp
  batches : ∀ b ∈ c.batches, b.CanWait c.settings.window D

/-- The passage to later times. -/
def delaying (D : Duration) : Passage ρ π π where
  stamp := (·.delay D)
  detection := id
  batch := WaitingRegions.delay D
  track := id
  creator := delay D

theorem carries_delaying (c : Creator ρ π) : (delaying D).Carries c :=
  ⟨rfl, fun _ _ => rfl, fun _ => rfl⟩

section Waiting

variable [ExtendedScalar ρ] {c : Creator ρ π}

theorem addDetections_delay (c : Creator ρ π) (batch : DetectionBatch ρ π) (a : Association) :
    (c.delay D).addDetections (batch.delay D) a = (c.addDetections batch a).delay D :=
  rfl

theorem addRegions_delay (c : Creator ρ π) (batch : RegionBatch ρ π) (view : Pose ρ)
    (a : Association) :
    (c.delay D).addRegions (batch.delay D) view a = (c.addRegions batch view a).delay D :=
  (carries_delaying c).addRegions rfl

theorem CanWait.addDetections (room : c.CanWait D) {batch : DetectionBatch ρ π}
    (later : D.CanWait batch.header.stamp) (a : Association) :
    (c.addDetections batch a).CanWait D := by
  refine ⟨fun stamp latest => ?_, room.batches⟩
  obtain rfl := Option.some.inj latest
  exact later

theorem CanWait.addRegions (room : c.CanWait D) {batch : RegionBatch ρ π} (view : Pose ρ)
    (later : batch.header.stamp.nanoseconds + D.nanoseconds + c.settings.window.nanoseconds <
      durationLimit) (a : Association) : (c.addRegions batch view a).CanWait D := by
  refine ⟨fun stamp latest => ?_, fun b member => ?_⟩
  · rw [detectionStamp_addRegions] at latest
    exact room.detectionStamp stamp latest
  · rw [settings_addRegions]
    rcases mem_batches_addRegions member with old | ⟨new, -⟩
    · exact room.batches b old
    · unfold WaitingRegions.CanWait
      rw [new]
      exact later

end Waiting

variable [ExtendedScalar ρ] [Scalar π] {c next : Creator ρ π} {solver : Solver}
  {created : List (Track ρ π)}

theorem CanWait.create (room : c.CanWait D)
    (returned : c.create solver = .ok (created, next)) : next.CanWait D := by
  refine ⟨fun stamp latest => ?_, fun b member => ?_⟩
  · rw [detectionStamp_of_create returned] at latest
    exact room.detectionStamp stamp latest
  · obtain ⟨earlier, waiting, same, -⟩ := exists_earlier_of_create returned member
    have old := room.batches earlier waiting
    unfold WaitingRegions.CanWait at old ⊢
    rwa [(create_continues returned).settings, ← same]

theorem CanWait.createConfirmed_delay (room : c.CanWait D) (solver : Solver)
    (detections : List (Detection ρ π)) :
    (c.delay D).createConfirmed solver detections =
      (c.createConfirmed solver detections).map (Prod.map id (delay D)) := by
  have keeps : (delaying D).Keeps solver c detections :=
    { carries_delaying c with
      detectionStamp := rfl
      alike := fun stamp seen b member =>
        (room.batches b member).standsAs (room.detectionStamp stamp seen)
      association := fun b _ => by
        change (c.delay D).shapeAssociation solver (b.delay D) (detections.map id) = _
        rw [List.map_id]
        rfl
      started := fun b _ a => by
        change (c.delay D).spawnConfirmed (confirmed (detections.map id) (b.delay D) a) =
          (c.spawnConfirmed (confirmed detections b a)).map id
        rw [List.map_id, List.map_id]
        rfl
      withoutMatched := fun _ _ => rfl }
  have moved := keeps.createConfirmed
  have created : (delaying D : Passage ρ π π).created = Prod.map id (delay D) := by
    funext given
    exact Prod.ext (List.map_id _) rfl
  rw [created] at moved
  change (c.delay D).createConfirmed solver (detections.map id) = _ at moved
  rwa [List.map_id] at moved

theorem CanWait.create_delay (room : c.CanWait D) (solver : Solver) :
    (c.delay D).create solver = (c.create solver).map (Prod.map id (delay D)) := by
  cases policy : c.settings.policy with
  | everyDetection =>
    rw [create_of_everyDetection policy, create_of_everyDetection (c := c.delay D) policy]
    rfl
  | visionConfirmed =>
    have cleared : CanWait D { c with detections := [] } := ⟨room.detectionStamp, room.batches⟩
    rw [create_of_visionConfirmed policy, create_of_visionConfirmed (c := c.delay D) policy]
    exact cleared.createConfirmed_delay solver c.detections

end Creator

end TrackFusion
