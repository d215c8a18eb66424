import TrackFusion.Proofs.Tracker.Usage

/-!
How many tracks can be alive.

Every live track was corrected or started by a valid detection of one of the latest applied cycles,
as many of which count as a track may miss and one more. Within a cycle no two tracks owe their last
contact to the same detection, so the valid detections of these cycles bound the live tracks.
-/

set_option autoImplicit false
set_option relaxedAutoImplicit false

namespace TrackFusion

variable {ρ π : Type}

/-- An applied cycle: its batch, which is in the tracking frame already, and its stages. -/
structure LoggedCycle (ρ π : Type) where
  batch : DetectionBatch ρ π
  stages : CycleStages ρ π

namespace LoggedCycle

section Cycles

variable [Scalar ρ] [Scalar π] {c : LoggedCycle ρ π} {noise : TrackNoise ρ} {places : List Nat}
  {id id' j : Nat}

def record (c : LoggedCycle ρ π) : CycleRecord :=
  c.stages.record c.batch

def StartsAt (c : LoggedCycle ρ π) (noise : TrackNoise ρ) (places : List Nat) : Prop :=
  places.Sublist (c.batch.leftPlaces c.stages.association) ∧
    c.batch.ComesFrom (fun t d => t.StartsFrom noise d) c.stages.created places

/-- The detection at place `j` gave the cycle a track: it corrected the one with the identity, or
started it, where `places` are those at which tracks started. -/
inductive Gives (c : LoggedCycle ρ π) (places : List Nat) (id j : Nat) : Prop
  | corrected {i : Nat} {p u : Track ρ π} {d : Detection ρ π} : c.stages.predicted[i]? = some p →
      p.id = id → c.stages.association.observationOf i = some j → c.batch.objects[j]? = some d →
      p.update d = .ok u → (c.stages.advanced c.batch.objects)[i]? = some u → Gives c places id j
  | created {k : Nat} {t : Track ρ π} : c.stages.created[k]? = some t → t.id = id →
      places[k]? = some j → Gives c places id j

theorem exists_gives_of_touches (starts : c.StartsAt noise places) (touched : c.record.Touches id) :
    ∃ j, c.Gives places id j := by
  rcases touched with corrected | created
  · obtain ⟨i, p, track, same, d, u, given, updated⟩ := CycleStages.mem_record_corrected.mp corrected
    obtain ⟨j, assigned, detection⟩ := Option.bind_eq_some_iff.mp given
    refine ⟨j, .corrected track same assigned detection updated ?_⟩
    rw [CycleStages.getElem?_advanced, track, given, Option.map_some, Track.advance, updated]
  · obtain ⟨t, new, same⟩ := List.mem_map.mp created
    obtain ⟨k, place⟩ := List.mem_iff_getElem?.mp new
    have bound : k < places.length := by
      rw [← starts.2.length_eq]
      exact (List.getElem?_eq_some_iff.mp place).1
    exact ⟨places[k], .created place same (List.getElem?_eq_getElem bound)⟩

/-- No detection gives two tracks. -/
theorem Gives.inj (starts : c.StartsAt noise places)
    (partitions : c.stages.association.Partitions c.stages.predicted.length c.batch.objects.length)
    (first : c.Gives places id j) (second : c.Gives places id' j) : id = id' := by
  have distinct : places.Nodup :=
    ((DetectionBatch.leftPlaces_ascend partitions).sublist starts.1).imp Nat.ne_of_lt
  -- a detection that starts a track is left over, so it corrects none
  have unassigned {k i : Nat} (place : places[k]? = some j) :
      c.stages.association.observationOf i ≠ some j := by
    have left := starts.1.subset (List.mem_of_getElem? place)
    obtain ⟨listed, -⟩ := DetectionBatch.mem_leftPlaces_iff.mp left
    exact ((partitions.observations j).mp listed).2 i
  cases first with
  | @corrected i p u d track same assigned =>
    cases second with
    | @corrected i' p' u' d' track' same' assigned' =>
      obtain rfl : i = i' := partitions.injective i i' j assigned assigned'
      obtain rfl : p = p' := Option.some.inj (track.symm.trans track')
      exact same.symm.trans same'
    | created _ _ place => exact absurd assigned (unassigned place)
  | @created k t track same place =>
    cases second with
    | corrected _ _ assigned => exact absurd assigned (unassigned place)
    | @created k' t' track' same' place' =>
      obtain rfl : k = k' :=
        (List.getElem?_inj (List.getElem?_eq_some_iff.mp place).1 distinct).mp
          (place.trans place'.symm)
      obtain rfl : t = t' := Option.some.inj (track.symm.trans track')
      exact same.symm.trans same'

end Cycles

variable [ExtendedScalar ρ] [Scalar π] {solver : Solver} {options : TrackerOptions ρ}
  {c : LoggedCycle ρ π} {places : List Nat} {id j : Nat}

def Ran (solver : Solver) (options : TrackerOptions ρ) (c : LoggedCycle ρ π) : Prop :=
  ∃ t : Tracker ρ π, t.creator.settings = options.creation ∧ t.creator.detections = [] ∧
    t.stages solver (options.objectGates.associate solver) c.batch = .ok c.stages

theorem Ran.partitions (ran : c.Ran solver options) :
    c.stages.association.Partitions c.stages.predicted.length c.batch.objects.length := by
  obtain ⟨t, -, -, staged⟩ := ran
  exact Tracker.partitions_of_stages staged

theorem Ran.exists_startsAt (ran : c.Ran solver options) :
    ∃ places, c.StartsAt options.creation.noise places := by
  obtain ⟨t, settings, idle, staged⟩ := ran
  obtain ⟨-, -, created⟩ := Tracker.stages_eq_ok_iff.mp staged
  rw [← settings]
  exact Creator.exists_places_of_create idle created

theorem Gives.mem_validPlaces [InfiniteCost ρ] (gives : c.Gives places id j)
    (ran : c.Ran solver options) (starts : c.StartsAt options.creation.noise places) :
    j ∈ c.batch.validPlaces := by
  rw [DetectionBatch.mem_validPlaces_iff]
  cases gives with
  | corrected _ _ assigned =>
    obtain ⟨t, -, -, staged⟩ := ran
    obtain ⟨-, association, -⟩ := Tracker.stages_eq_ok_iff.mp staged
    rw [association] at assigned
    exact options.objectGates.isValid_of_observationOf assigned
  | created _ _ place =>
    have left := starts.1.subset (List.mem_of_getElem? place)
    exact (DetectionBatch.mem_leftPlaces_iff.mp left).2

end LoggedCycle

namespace Session

section Log

variable [ExtendedScalar ρ] [Scalar π] {solver : Solver} {options : TrackerOptions ρ}
  {s next : Session ρ π}

def cycleOf (solver : Solver) (s : Session ρ π) : Call ρ π → Option (LoggedCycle ρ π)
  | .detections associate batch odometry =>
    let moved := batch.transform odometry s.tracker.options.frame
    if s.tracker.validate batch odometry = .ok then
      (s.tracker.stages solver associate moved).toOption.map (LoggedCycle.mk moved)
    else none
  | .regions .. => none

def log (solver : Solver) (s : Session ρ π) : List (Call ρ π) → List (LoggedCycle ρ π)
  | [] => []
  | call :: rest =>
    match s.step solver call with
    | .ok next => next.log solver rest ++ (s.cycleOf solver call).toList
    | .error _ => []

theorem history_of_step {call : Call ρ π} (returned : s.step solver call = .ok next) :
    next.history = (s.cycleOf solver call).toList.map LoggedCycle.record ++ s.history := by
  cases call with
  | regions associate batch view =>
    cases returned
    rfl
  | detections associate batch odometry =>
    unfold cycleOf
    dsimp only
    split_ifs with accepted
    · obtain ⟨stages, staged, rfl⟩ := exists_stages_of_step accepted returned
      rw [staged]
      rfl
    · rw [step_detections_of_rejected associate accepted] at returned
      cases returned
      rfl

theorem history_of_run {calls : List (Call ρ π)} (returned : s.run solver calls = .ok next) :
    next.history = (s.log solver calls).map LoggedCycle.record ++ s.history := by
  induction calls generalizing s with
  | nil =>
    cases returned
    rfl
  | cons call rest ih =>
    rw [run_cons] at returned
    obtain ⟨middle, first, others⟩ := bind_eq_ok_iff.mp returned
    rw [ih others, history_of_step first, log, first, List.map_append, List.append_assoc]

theorem ran_of_mem_cycleOf (invariant : s.Invariant options)
    (idle : s.tracker.creator.detections = []) {event : Event ρ π} {c : LoggedCycle ρ π}
    (applied : s.cycleOf solver (event.call options solver) = some c) : c.Ran solver options := by
  cases event with
  | regions batch view => cases applied
  | detections batch odometry =>
    unfold Event.call cycleOf at applied
    dsimp only at applied
    split_ifs at applied with accepted
    cases ran : s.tracker.stages solver (options.objectGates.associate solver)
      (batch.transform odometry s.tracker.options.frame) with
    | error e =>
      rw [ran] at applied
      cases applied
    | ok stages =>
      rw [ran] at applied
      cases applied
      exact ⟨s.tracker, invariant.settings, idle, ran⟩

theorem ran_of_mem_log (invariant : s.Invariant options) (idle : s.tracker.creator.detections = [])
    {events : List (Event ρ π)} {c : LoggedCycle ρ π}
    (member : c ∈ s.log solver (events.map (Event.call options solver))) : c.Ran solver options := by
  induction events generalizing s with
  | nil => cases member
  | cons event rest ih =>
    rw [List.map_cons, log] at member
    cases stepped : s.step solver (event.call options solver) with
    | error e =>
      rw [stepped] at member
      cases member
    | ok next =>
      rw [stepped] at member
      rcases List.mem_append.mp member with later | now
      · exact ih (invariant.step stepped) (waiting_of_step idle stepped) later
      · exact ran_of_mem_cycleOf invariant idle (Option.mem_toList.mp now)

end Log

theorem length_le_sum_of_injective [Scalar ρ] {log : List (LoggedCycle ρ π)} {n ticks : Nat}
    {origin : Fin n → Nat × Nat} (distinct : Function.Injective origin)
    (recent : ∀ i, (origin i).1 ≤ ticks ∧ ∃ c, log[(origin i).1]? = some c ∧
      (origin i).2 ∈ c.batch.validPlaces) :
    n ≤ ((log.take (ticks + 1)).map fun c => c.batch.objects.countP Detection.isValid).sum := by
  -- each of the latest cycles with the place of each of its valid detections
  let pairs := (log.take (ticks + 1)).zipIdx.flatMap fun e =>
    e.1.batch.validPlaces.map fun j => (e.2, j)
  have listed : List.ofFn origin ⊆ pairs := by
    intro pair member
    obtain ⟨i, rfl⟩ := List.mem_ofFn.mp member
    obtain ⟨within, c, cycle, valid⟩ := recent i
    have taken : (log.take (ticks + 1))[(origin i).1]? = some c := by
      rw [List.getElem?_take_of_lt (Nat.lt_succ_of_le within), cycle]
    exact List.mem_flatMap.mpr ⟨_, List.mk_mem_zipIdx_iff_getElem?.mpr taken,
      List.mem_map.mpr ⟨_, valid, rfl⟩⟩
  have total : pairs.length = ((log.take (ticks + 1)).map fun c =>
      c.batch.objects.countP Detection.isValid).sum := by
    rw [List.length_flatMap]
    simp only [List.length_map, DetectionBatch.length_validPlaces]
    conv_rhs => rw [← List.zipIdx_map_fst 0 (log.take (ticks + 1)), List.map_map]
    rfl
  calc n = (List.ofFn origin).length := List.length_ofFn.symm
    _ ≤ pairs.length :=
      (List.subperm_of_subset (List.nodup_ofFn.mpr distinct) listed).length_le
    _ = _ := total

variable [ExtendedScalar ρ] [Scalar π] {solver : Solver} {options : TrackerOptions ρ}
  {s : Session ρ π} {log : List (LoggedCycle ρ π)}

/-- The live tracks owe their last contact to different valid detections of the latest cycles of a
log, as many of which count as a track may miss and one more. -/
structure Bounded (options : TrackerOptions ρ) (log : List (LoggedCycle ρ π)) (s : Session ρ π) :
    Prop where
  history : s.history = log.map LoggedCycle.record
  count : s.tracker.tracks.length ≤ ((log.take (options.pruningTicks + 1)).map fun c =>
    c.batch.objects.countP Detection.isValid).sum
  /-- `origin` tells how many cycles ago the last contact was, and the place of its detection. -/
  origins : ∃ (places : Nat → List Nat) (origin : Fin s.tracker.tracks.length → Nat × Nat),
    (∀ k (c : LoggedCycle ρ π), log[k]? = some c →
      c.StartsAt options.creation.noise (places k)) ∧
    Function.Injective origin ∧
    ∀ i, (origin i).1 ≤ options.pruningTicks ∧ ∃ c d, log[(origin i).1]? = some c ∧
      c.batch.objects[(origin i).2]? = some d ∧ d.isValid = true ∧
      c.Gives (places (origin i).1) (s.tracker.tracks.get i).id (origin i).2 ∧
      ∀ later ∈ log.take (origin i).1, ¬ later.record.Touches (s.tracker.tracks.get i).id

/-- The cycle that last touched a live track is as long ago as the track was missed since. -/
theorem Invariant.exists_cycle (invariant : s.Invariant options)
    (history : s.history = log.map LoggedCycle.record) {t : Track ρ π}
    (live : t ∈ s.tracker.tracks) : t.ticksSinceUpdate ≤ options.pruningTicks ∧
      ∃ c, log[t.ticksSinceUpdate]? = some c ∧ c.record.Touches t.id ∧
        ∀ later ∈ log.take t.ticksSinceUpdate, ¬ later.record.Touches t.id := by
  obtain ⟨⟨⟨last, stamp, -, contact, -⟩, -⟩, -, ticks⟩ := invariant.live t live
  obtain ⟨r, place, touched, untouched⟩ := History.exists_getElem?_of_lastContact contact
  rw [history, List.getElem?_map, Option.map_eq_some_iff] at place
  obtain ⟨c, cycle, rfl⟩ := place
  refine ⟨ticks, c, cycle, touched, fun later member => ?_⟩
  rw [history, ← List.map_take] at untouched
  exact untouched _ (List.mem_map_of_mem member)

theorem exists_places (ran : ∀ c ∈ log, c.Ran solver options) : ∃ places : Nat → List Nat,
    ∀ k (c : LoggedCycle ρ π), log[k]? = some c →
      c.StartsAt options.creation.noise (places k) := by
  have each (k : Nat) : ∃ places, ∀ c, log[k]? = some c →
      c.StartsAt options.creation.noise places := by
    cases cycle : log[k]? with
    | none => exact ⟨[], nofun⟩
    | some c =>
      obtain ⟨places, starts⟩ := (ran c (List.mem_of_getElem? cycle)).exists_startsAt
      refine ⟨places, fun c' same => ?_⟩
      cases same
      exact starts
  choose places starts using each
  exact ⟨places, starts⟩

variable [InfiniteCost ρ]

theorem Invariant.bounded (invariant : s.Invariant options)
    (history : s.history = log.map LoggedCycle.record)
    (ran : ∀ c ∈ log, c.Ran solver options) : s.Bounded options log := by
  obtain ⟨places, starts⟩ := exists_places ran
  have contact (i : Fin s.tracker.tracks.length) :=
    invariant.exists_cycle history (List.get_mem _ i)
  choose ticks c cycle touched untouched using contact
  have gives (i : Fin s.tracker.tracks.length) : ∃ j, (c i).Gives
      (places (s.tracker.tracks.get i).ticksSinceUpdate) (s.tracker.tracks.get i).id j :=
    LoggedCycle.exists_gives_of_touches (starts _ _ (cycle i)) (touched i)
  choose place given using gives
  have ranAt (i : Fin s.tracker.tracks.length) := ran (c i) (List.mem_of_getElem? (cycle i))
  have valid (i : Fin s.tracker.tracks.length) : place i ∈ (c i).batch.validPlaces :=
    (given i).mem_validPlaces (ranAt i) (starts _ _ (cycle i))
  let origin (i : Fin s.tracker.tracks.length) : Nat × Nat :=
    ((s.tracker.tracks.get i).ticksSinceUpdate, place i)
  -- one detection gives one identity, and an identity stands for one live track
  have distinct : Function.Injective origin := by
    intro i i' same
    obtain ⟨sameTicks, samePlace⟩ := Prod.mk.inj same
    have sameCycle : c i = c i' := by
      have second := cycle i'
      rw [← sameTicks] at second
      exact Option.some.inj ((cycle i).symm.trans second)
    have second := given i'
    rw [← sameTicks, ← samePlace, ← sameCycle] at second
    have sameId := (given i).inj (starts _ _ (cycle i)) (ranAt i).partitions second
    have sameTrack : s.tracker.tracks.get i = s.tracker.tracks.get i' :=
      List.inj_on_of_nodup_map invariant.distinct (List.get_mem _ i) (List.get_mem _ i') sameId
    exact invariant.distinct.of_map.get_inj_iff.mp sameTrack
  refine ⟨history, length_le_sum_of_injective distinct fun i => ⟨ticks i, c i, cycle i, valid i⟩,
    places, origin, starts, distinct, fun i => ⟨ticks i, ?_⟩⟩
  obtain ⟨d, detection, isValid⟩ := DetectionBatch.mem_validPlaces_iff.mp (valid i)
  exact ⟨c i, d, cycle i, detection, isValid, given i, untouched i⟩

/-- After every run with the built-in associators the live tracks are bounded by what the latest
cycles saw. -/
theorem bounded_of_run {events : List (Event ρ π)}
    (returned : (start options).run solver (events.map (Event.call options solver)) = .ok s) :
    s.Bounded options ((start options).log solver (events.map (Event.call options solver))) := by
  have history := history_of_run returned
  rw [start, List.append_nil] at history
  exact (invariant_of_run returned).bounded history fun _ member =>
    ran_of_mem_log (invariant_start options) rfl member

/-- Two cars, an image, one of the cars again, and a batch of the past. -/
theorem bounded_of_drive :
    let solver := Solver.augmentingPaths
    let options : TrackerOptions Exact := .standard
    let events : List (Event Exact Exact) :=
      [.detections (Scene.batch Scene.second [Scene.car 0, Scene.car 50]) Scene.odometry,
        .regions ⟨⟨Scene.second, "camera"⟩, [Scene.region]⟩ Scene.below,
        .detections (Scene.batch Scene.second [Scene.blur 0, Scene.car 50]) Scene.odometry,
        .detections (Scene.batch 0 [Scene.car 0]) Scene.odometry]
    ∃ s, (start options).run solver (events.map (Event.call options solver)) = .ok s ∧
      s.Bounded options
        ((start options).log solver (events.map (Event.call options solver))) := by
  intro solver options events
  have every : options.creation.policy = .everyDetection := rfl
  obtain ⟨s, returned⟩ :=
    exists_run_of_everyDetection solver every (events.map (Event.call options solver))
  exact ⟨s, returned, bounded_of_run returned⟩

end Session

end TrackFusion
