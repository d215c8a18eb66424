import TrackFusion.Proofs.Tracker.History
import TrackFusion.Scenario.Event

/-!
Runs of a tracker over any sequence of calls.

A session is a tracker together with the history of its applied cycles. `Session.step` makes one
call, with whatever association its associator answers, and writes down the cycle if it was applied.
What the history says of the tracker is an invariant of the step, and so holds after every run.
-/

set_option autoImplicit false
set_option relaxedAutoImplicit false

namespace TrackFusion

inductive Call (ρ π : Type) where
  | detections (associate : List (Detection ρ π) → List (Track ρ π) → Association)
      (batch : DetectionBatch ρ π) (odometry : Odometry ρ)
  | regions (associate : List (Region ρ π) → Pose ρ → List (Track ρ π) → Association)
      (batch : RegionBatch ρ π) (view : Pose ρ)

def Event.call {ρ π : Type} [ExtendedScalar ρ] (options : TrackerOptions ρ) (solver : Solver) :
    Event ρ π → Call ρ π
  | .detections batch odometry =>
    .detections (options.objectGates.associate solver) batch odometry
  | .regions batch view => .regions (options.visionGates.associate solver) batch view

/-- A tracker with the cycles that were applied to it. -/
structure Session (ρ π : Type) where
  tracker : Tracker ρ π
  history : History

namespace Session

variable {ρ π : Type}

def start (options : TrackerOptions ρ) : Session ρ π :=
  ⟨.start options, []⟩

def ids (s : Session ρ π) : List Nat :=
  s.tracker.tracks.map Track.id

/-- What the history says of a tracker at any time, and what keeps it true: identities are distinct
and below the next one that the creator gives out. -/
structure Invariant (options : TrackerOptions ρ) (s : Session ρ π) : Prop where
  sameOptions : s.tracker.options = options
  settings : s.tracker.creator.settings = options.creation
  lastUpdate : s.tracker.lastUpdate = s.history.latest
  stamps : s.history.Pairwise fun later earlier => earlier.stamp ≤ later.stamp
  distinct : s.ids.Nodup
  below : ∀ t ∈ s.tracker.tracks, t.id < s.tracker.creator.nextId
  recorded : ∀ r ∈ s.history, ∀ id ∈ r.corrected, id < s.tracker.creator.nextId
  live : ∀ t ∈ s.tracker.tracks, t.Follows s.history ∧
    t.timeSinceUpdate ≤ options.pruningTime ∧ t.ticksSinceUpdate ≤ options.pruningTicks

theorem invariant_start (options : TrackerOptions ρ) :
    (start options : Session ρ π).Invariant options :=
  ⟨rfl, rfl, rfl, .nil, .nil, nofun, nofun, nofun⟩

theorem Invariant.lt_nextId_of_mem_ids {options : TrackerOptions ρ} {s : Session ρ π}
    (invariant : s.Invariant options) {id : Nat} (listed : id ∈ s.ids) :
    id < s.tracker.creator.nextId := by
  obtain ⟨t, member, rfl⟩ := List.mem_map.mp listed
  exact invariant.below t member

theorem Invariant.stamp_le {options : TrackerOptions ρ} {s : Session ρ π}
    (invariant : s.Invariant options) {r : CycleRecord} (member : r ∈ s.history) :
    ∃ last, s.tracker.lastUpdate = some last ∧ r.stamp ≤ last := by
  have lastUpdate := invariant.lastUpdate
  have stamps := invariant.stamps
  cases history : s.history with
  | nil =>
    rw [history] at member
    cases member
  | cons latest earlier =>
    rw [history] at member stamps lastUpdate
    refine ⟨latest.stamp, lastUpdate, ?_⟩
    rcases List.mem_cons.mp member with rfl | old
    · exact Nat.le_refl _
    · exact (List.pairwise_cons.mp stamps).1 r old

variable [ExtendedScalar ρ] [Scalar π]

/-- The session after one call; a cycle that was applied enters the history. -/
def step (solver : Solver) (s : Session ρ π) :
    Call ρ π → Except DurationOverflow (Session ρ π)
  | .detections associate batch odometry => do
    let (next, result) ← s.tracker.updateWith solver associate batch odometry
    if result.status.isApplied then
      let moved := batch.transform odometry s.tracker.options.frame
      let stages ← s.tracker.stages solver associate moved
      return ⟨next, stages.record moved :: s.history⟩
    else return ⟨next, s.history⟩
  | .regions associate batch view =>
    return ⟨s.tracker.updateVisionWith batch view (associate batch.regions view s.tracker.tracks),
      s.history⟩

def run (solver : Solver) (s : Session ρ π) (calls : List (Call ρ π)) :
    Except DurationOverflow (Session ρ π) :=
  calls.foldlM (step solver) s

theorem run_append {solver : Solver} (s : Session ρ π) (before after : List (Call ρ π)) :
    s.run solver (before ++ after) = s.run solver before >>= fun middle => middle.run solver after :=
  List.foldlM_append

theorem run_cons {solver : Solver} (s : Session ρ π) (call : Call ρ π) (rest : List (Call ρ π)) :
    s.run solver (call :: rest) = s.step solver call >>= fun middle => middle.run solver rest :=
  List.foldlM_cons

/-- All that a call that returns can do to a session. -/
inductive Outcome (solver : Solver) (s : Session ρ π) : Session ρ π → Prop
  | applied {associate : List (Detection ρ π) → List (Track ρ π) → Association}
      {batch : DetectionBatch ρ π} {odometry : Odometry ρ} {stages : CycleStages ρ π} :
      s.tracker.validate batch odometry = .ok →
      s.tracker.stages solver associate (batch.transform odometry s.tracker.options.frame) =
        .ok stages →
      Outcome solver s
        ⟨s.tracker.afterStages (batch.transform odometry s.tracker.options.frame) stages,
          stages.record (batch.transform odometry s.tracker.options.frame) :: s.history⟩
  | rejected : Outcome solver s s
  | observed (batch : RegionBatch ρ π) (view : Pose ρ) (a : Association) :
      Outcome solver s ⟨s.tracker.updateVisionWith batch view a, s.history⟩

end Session

namespace Tracker

variable {ρ π : Type}

theorem isApplied_validate [Scalar ρ] (t : Tracker ρ π) (batch : DetectionBatch ρ π)
    (odometry : Odometry ρ) :
    (t.validate batch odometry).isApplied = true ↔ t.validate batch odometry = .ok := by
  unfold validate
  split_ifs <;> decide

variable [ExtendedScalar ρ] [Scalar π]

theorem isApplied_resultOf (t : Tracker ρ π) (batch : DetectionBatch ρ π) (s : CycleStages ρ π) :
    (t.resultOf batch s).status.isApplied = true := by
  unfold resultOf
  dsimp only
  split <;> rfl

end Tracker

namespace Session

variable {ρ π : Type} [ExtendedScalar ρ] [Scalar π] {solver : Solver}

theorem step_detections_of_accepted {s : Session ρ π}
    {associate : List (Detection ρ π) → List (Track ρ π) → Association}
    {batch : DetectionBatch ρ π} {odometry : Odometry ρ} {stages : CycleStages ρ π}
    (accepted : s.tracker.validate batch odometry = .ok)
    (staged : s.tracker.stages solver associate
      (batch.transform odometry s.tracker.options.frame) = .ok stages) :
    s.step solver (.detections associate batch odometry) =
      .ok ⟨s.tracker.afterStages (batch.transform odometry s.tracker.options.frame) stages,
        stages.record (batch.transform odometry s.tracker.options.frame) :: s.history⟩ := by
  have returned := (Tracker.updateWith_eq_ok_iff accepted).mpr ⟨stages, staged, rfl, rfl⟩
  refine bind_eq_ok_iff.mpr ⟨_, returned, ?_⟩
  dsimp only
  rw [if_pos (Tracker.isApplied_resultOf _ _ _)]
  exact bind_eq_ok_iff.mpr ⟨_, staged, rfl⟩

theorem step_detections_eq_map {s : Session ρ π}
    (associate : List (Detection ρ π) → List (Track ρ π) → Association)
    {batch : DetectionBatch ρ π} {odometry : Odometry ρ}
    (accepted : s.tracker.validate batch odometry = .ok) :
    s.step solver (.detections associate batch odometry) =
      (s.tracker.stages solver associate
        (batch.transform odometry s.tracker.options.frame)).map fun stages =>
          ⟨s.tracker.afterStages (batch.transform odometry s.tracker.options.frame) stages,
            stages.record (batch.transform odometry s.tracker.options.frame) :: s.history⟩ := by
  cases staged : s.tracker.stages solver associate
    (batch.transform odometry s.tracker.options.frame) with
  | ok stages => exact step_detections_of_accepted accepted staged
  | error e =>
    have failed : s.tracker.updateWith solver associate batch odometry = .error e := by
      rw [Tracker.updateWith_of_accepted _ _ accepted, Tracker.applyCycle_eq_stages, staged]
      rfl
    exact congrArg (· >>= _) failed

theorem step_detections_of_rejected {s : Session ρ π}
    (associate : List (Detection ρ π) → List (Track ρ π) → Association)
    {batch : DetectionBatch ρ π} {odometry : Odometry ρ}
    (rejected : s.tracker.validate batch odometry ≠ .ok) :
    s.step solver (.detections associate batch odometry) = .ok s := by
  refine bind_eq_ok_iff.mpr
    ⟨_, Tracker.updateWith_of_rejected solver associate rejected, ?_⟩
  dsimp only
  rw [if_neg (mt (Tracker.isApplied_validate _ _ _).mp rejected)]
  rfl

theorem exists_stages_of_step {s next : Session ρ π}
    {associate : List (Detection ρ π) → List (Track ρ π) → Association}
    {batch : DetectionBatch ρ π} {odometry : Odometry ρ}
    (accepted : s.tracker.validate batch odometry = .ok)
    (returned : s.step solver (.detections associate batch odometry) = .ok next) :
    ∃ stages, s.tracker.stages solver associate
        (batch.transform odometry s.tracker.options.frame) = .ok stages ∧
      ⟨s.tracker.afterStages (batch.transform odometry s.tracker.options.frame) stages,
        stages.record (batch.transform odometry s.tracker.options.frame) :: s.history⟩ = next := by
  obtain ⟨⟨_, _⟩, updated, -⟩ := bind_eq_ok_iff.mp returned
  obtain ⟨stages, staged, -⟩ := (Tracker.updateWith_eq_ok_iff accepted).mp updated
  rw [step_detections_of_accepted accepted staged] at returned
  exact ⟨stages, staged, Except.ok.inj returned⟩

theorem outcome_of_step {s next : Session ρ π} {call : Call ρ π}
    (returned : s.step solver call = .ok next) : Outcome solver s next := by
  cases call with
  | detections associate batch odometry =>
    by_cases accepted : s.tracker.validate batch odometry = .ok
    · obtain ⟨stages, staged, rfl⟩ := exists_stages_of_step accepted returned
      exact .applied accepted staged
    · rw [step_detections_of_rejected associate accepted] at returned
      cases returned
      exact .rejected
  | regions associate batch view =>
    cases returned
    exact .observed batch view _

end Session

namespace Tracker

variable {ρ π : Type}

theorem observeRegions_ids [Scalar π] (tracks : List (Track ρ π)) (regions : List (Region ρ π))
    (a : Association) : (observeRegions tracks regions a).map Track.id = tracks.map Track.id := by
  apply List.ext_getElem?
  intro i
  simp only [observeRegions, List.getElem?_map, List.getElem?_mapIdx, Option.map_map]
  congr 1
  funext t
  dsimp only [Function.comp_apply]
  split <;> rfl

theorem follows_of_mem_observeRegions [Scalar π] {tracks : List (Track ρ π)}
    {regions : List (Region ρ π)} {a : Association} {u : Track ρ π}
    (member : u ∈ observeRegions tracks regions a) :
    ∃ t ∈ tracks, u.id = t.id ∧ u.timeSinceUpdate = t.timeSinceUpdate ∧
      u.ticksSinceUpdate = t.ticksSinceUpdate ∧ u.hits = t.hits := by
  obtain ⟨i, bound, rfl⟩ := List.mem_mapIdx.mp member
  refine ⟨tracks[i], List.getElem_mem bound, ?_⟩
  split <;> exact ⟨rfl, rfl, rfl, rfl⟩

end Tracker

namespace Session

variable {ρ π : Type} [ExtendedScalar ρ] [Scalar π] {solver : Solver}
  {options : TrackerOptions ρ} {s : Session ρ π}

theorem Invariant.observed (invariant : s.Invariant options) (batch : RegionBatch ρ π)
    (view : Pose ρ) (a : Association) :
    Invariant options ⟨s.tracker.updateVisionWith batch view a, s.history⟩ := by
  have sameIds := Tracker.observeRegions_ids s.tracker.tracks batch.regions a
  have sameNext : (s.tracker.creator.addRegions batch view a).nextId = s.tracker.creator.nextId :=
    Creator.nextId_addRegions _ batch view a
  refine ⟨invariant.sameOptions, ?_, invariant.lastUpdate, invariant.stamps, ?_, ?_, ?_, ?_⟩
  · exact (Creator.settings_addRegions _ batch view a).trans invariant.settings
  · have distinct := invariant.distinct
    rwa [ids, ← sameIds] at distinct
  · intro u member
    obtain ⟨t, old, id, -⟩ := Tracker.follows_of_mem_observeRegions member
    dsimp only [Tracker.updateVisionWith]
    rw [sameNext, id]
    exact invariant.below t old
  · intro r member
    dsimp only [Tracker.updateVisionWith]
    rw [sameNext]
    exact invariant.recorded r member
  · intro u member
    obtain ⟨t, old, id, time, ticks, hits⟩ := Tracker.follows_of_mem_observeRegions member
    obtain ⟨follows, young, seen⟩ := invariant.live t old
    exact ⟨follows.congr id time ticks hits, time ▸ young, ticks ▸ seen⟩

section Applied

variable {associate : List (Detection ρ π) → List (Track ρ π) → Association}
  {batch : DetectionBatch ρ π} {stages : CycleStages ρ π}

theorem continues_of_stages (staged : s.tracker.stages solver associate batch = .ok stages) :
    s.tracker.creator.Continues stages.created stages.creator := by
  obtain ⟨-, -, created⟩ := Tracker.stages_eq_ok_iff.mp staged
  obtain ⟨ids, nextId, new, settings⟩ := Creator.create_continues created
  exact ⟨ids, nextId, new, settings⟩

/-- What the cycle makes of a live track, before the pruning, follows the longer history. -/
theorem Invariant.follows_advanced (invariant : s.Invariant options)
    (staged : s.tracker.stages solver associate batch = .ok stages)
    (elapsed : ∀ last, s.tracker.lastUpdate = some last → last.nanoseconds +
      (s.tracker.elapsed batch.header.stamp).nanoseconds = batch.header.stamp.nanoseconds)
    {i : Nat} {t : Track ρ π} (place : s.tracker.tracks[i]? = some t) :
    ∃ q, (stages.advanced batch.objects)[i]? = some q ∧ q.id = t.id ∧
      q.Follows (stages.record batch :: s.history) := by
  obtain ⟨predicted, -, -⟩ := Tracker.stages_eq_ok_iff.mp staged
  obtain ⟨bound, rfl⟩ := List.getElem?_eq_some_iff.mp place
  have bound' : i < stages.predicted.length := predicted.length_eq ▸ bound
  have moved := predicted.get bound bound'
  have place' : stages.predicted[i]? = some stages.predicted[i] := List.getElem?_eq_getElem bound'
  have sameId : stages.predicted[i].id = s.tracker.tracks[i].id := Track.predict_id moved
  have distinct : (stages.predicted.map Track.id).Nodup := by
    rw [Tracker.predicted_ids predicted]
    exact invariant.distinct
  have listed : stages.predicted[i].id ∈ (stages.record batch).corrected ↔ _ :=
    CycleStages.mem_record_corrected_iff distinct place'
  have member := List.getElem_mem bound
  obtain ⟨follows, -, -⟩ := invariant.live _ member
  refine ⟨_, by rw [CycleStages.getElem?_advanced, place', Option.map_some],
    (Track.advance_id _ _).trans sameId, ?_⟩
  rcases Track.corrected_xor_missed stages.predicted[i] (stages.given batch.objects i) with
    ⟨corrected, -⟩ | ⟨missed, uncorrected⟩
  · exact follows.corrected moved corrected (sameId ▸ listed.mpr corrected)
  · refine follows.missed moved missed ?_ ?_
    · rintro (corrected | created)
      · exact uncorrected (listed.mp (sameId.symm ▸ corrected))
      · -- the creator gives out later identities only
        obtain ⟨n, new, same⟩ := List.mem_map.mp created
        have above := ((continues_of_stages staged).id_mem new).1
        have below := invariant.below _ member
        omega
    · intro last latest
      exact elapsed last (invariant.lastUpdate.trans latest)

theorem Invariant.id_lt_of_mem_corrected (invariant : s.Invariant options)
    (staged : s.tracker.stages solver associate batch = .ok stages) {id : Nat}
    (corrected : id ∈ (stages.record batch).corrected) : id < s.tracker.creator.nextId := by
  obtain ⟨predicted, -, -⟩ := Tracker.stages_eq_ok_iff.mp staged
  obtain ⟨i, p, place, rfl, -⟩ := CycleStages.mem_record_corrected.mp corrected
  have listed : p.id ∈ stages.predicted.map Track.id :=
    List.mem_map_of_mem (List.mem_of_getElem? place)
  rw [Tracker.predicted_ids predicted] at listed
  exact invariant.lt_nextId_of_mem_ids listed

theorem Invariant.follows_created (invariant : s.Invariant options)
    (staged : s.tracker.stages solver associate batch = .ok stages) {t : Track ρ π}
    (created : t ∈ stages.created) : t.Follows (stages.record batch :: s.history) := by
  have continues := continues_of_stages staged
  have above := (continues.id_mem created).1
  refine (continues.new t created).follows (List.mem_map_of_mem created) ?_
  intro r member corrected
  have below : t.id < s.tracker.creator.nextId := by
    rcases List.mem_cons.mp member with rfl | earlier
    · exact invariant.id_lt_of_mem_corrected staged corrected
    · exact invariant.recorded r earlier t.id corrected
  omega

theorem advanced_ids_of_stages (staged : s.tracker.stages solver associate batch = .ok stages) :
    (stages.advanced batch.objects).map Track.id = s.ids := by
  rw [CycleStages.advanced_ids, Tracker.predicted_ids (Tracker.stages_eq_ok_iff.mp staged).1, ids]

theorem Invariant.follows_of_mem (invariant : s.Invariant options)
    (staged : s.tracker.stages solver associate batch = .ok stages)
    (elapsed : ∀ last, s.tracker.lastUpdate = some last → last.nanoseconds +
      (s.tracker.elapsed batch.header.stamp).nanoseconds = batch.header.stamp.nanoseconds)
    {q : Track ρ π} (member : q ∈ stages.advanced batch.objects ++ stages.created) :
    q.Follows (stages.record batch :: s.history) := by
  rcases List.mem_append.mp member with advanced | created
  · obtain ⟨i, place⟩ := List.mem_iff_getElem?.mp advanced
    have bound : i < s.tracker.tracks.length := by
      have bound' := (List.getElem?_eq_some_iff.mp place).1
      have sameLength := congrArg List.length (advanced_ids_of_stages staged)
      rw [ids, List.length_map, List.length_map] at sameLength
      omega
    obtain ⟨q', place', -, follows⟩ := invariant.follows_advanced staged elapsed
      (List.getElem?_eq_getElem bound)
    obtain rfl : q' = q := Option.some.inj (place'.symm.trans place)
    exact follows
  · exact invariant.follows_created staged created

theorem Invariant.ids_nodup_of_stages (invariant : s.Invariant options)
    (staged : s.tracker.stages solver associate batch = .ok stages) :
    ((stages.advanced batch.objects ++ stages.created).map Track.id).Nodup := by
  have continues := continues_of_stages staged
  rw [List.map_append, advanced_ids_of_stages staged, List.nodup_append']
  refine ⟨invariant.distinct, continues.ids_nodup, ?_⟩
  intro id old new
  obtain ⟨t, created, rfl⟩ := List.mem_map.mp new
  exact absurd (invariant.lt_nextId_of_mem_ids old) (Nat.not_lt.mpr (continues.id_mem created).1)

/-- An applied cycle keeps the invariant. -/
theorem Invariant.applied (invariant : s.Invariant options)
    (staged : s.tracker.stages solver associate batch = .ok stages)
    (recent : ∀ last, s.tracker.lastUpdate = some last → last ≤ batch.header.stamp)
    (elapsed : ∀ last, s.tracker.lastUpdate = some last → last.nanoseconds +
      (s.tracker.elapsed batch.header.stamp).nanoseconds = batch.header.stamp.nanoseconds) :
    Invariant options
      ⟨s.tracker.afterStages batch stages, stages.record batch :: s.history⟩ := by
  have continues := continues_of_stages staged
  have idBelow : ∀ q ∈ stages.advanced batch.objects, q.id < s.tracker.creator.nextId :=
    fun q advanced => invariant.lt_nextId_of_mem_ids
      (advanced_ids_of_stages staged ▸ List.mem_map_of_mem advanced)
  have grows : s.tracker.creator.nextId ≤ stages.creator.nextId := by
    rw [continues.nextId]
    exact Nat.le_add_right _ _
  -- left are the stamps, the identities and their bound, the corrections and the live tracks
  refine ⟨invariant.sameOptions, continues.settings.trans invariant.settings, rfl, ?_, ?_, ?_, ?_,
    ?_⟩
  · refine .cons ?_ invariant.stamps
    intro r member
    obtain ⟨last, previous, notNewer⟩ := invariant.stamp_le member
    exact Nat.le_trans notNewer (recent last previous)
  · exact (invariant.ids_nodup_of_stages staged).sublist (List.filter_sublist.map Track.id)
  · intro q member
    rcases List.mem_append.mp (List.mem_filter.mp member).1 with advanced | created
    · exact Nat.lt_of_lt_of_le (idBelow q advanced) grows
    · exact (continues.id_mem created).2
  · intro r member id corrected
    refine Nat.lt_of_lt_of_le ?_ grows
    rcases List.mem_cons.mp member with rfl | earlier
    · exact invariant.id_lt_of_mem_corrected staged corrected
    · exact invariant.recorded r earlier id corrected
  · intro q member
    obtain ⟨every, kept⟩ := List.mem_filter.mp member
    obtain ⟨young, seen⟩ := not_or.mp (of_decide_eq_true kept)
    rw [invariant.sameOptions] at young seen
    exact ⟨invariant.follows_of_mem staged elapsed every, Nat.le_of_not_lt young,
      Nat.le_of_not_lt seen⟩

end Applied

theorem Invariant.step {next : Session ρ π} {call : Call ρ π} (invariant : s.Invariant options)
    (returned : s.step solver call = .ok next) : next.Invariant options := by
  cases outcome_of_step returned with
  | applied accepted staged =>
    exact invariant.applied staged
      (fun last previous => Tracker.lastUpdate_le_of_accepted accepted previous)
      (fun last previous => Tracker.add_elapsed_of_accepted accepted previous)
  | rejected => exact invariant
  | observed batch view a => exact invariant.observed batch view a

theorem invariant_of_run {calls : List (Call ρ π)}
    (returned : (start options).run solver calls = .ok s) : s.Invariant options :=
  foldlM_preserves (P := Invariant options) (fun _ _ _ invariant step => invariant.step step)
    (invariant_start options) returned

end Session

end TrackFusion
