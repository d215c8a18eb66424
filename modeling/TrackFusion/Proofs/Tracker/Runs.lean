import TrackFusion.Proofs.Tracker.Session

/-!
What holds after every run of a tracker.

The ages of the live tracks are the times since the cycles that last touched them, so they are
bounded by the pruning thresholds and by the latest stamp. Hence tracks leave for one reason only,
and a prediction never overflows. A tracker that starts a track at every detection cannot fail.
-/

set_option autoImplicit false
set_option relaxedAutoImplicit false

namespace TrackFusion

namespace Session

variable {ρ π : Type} {options : TrackerOptions ρ} {s : Session ρ π}

theorem Invariant.age_add_elapsed_lt [Scalar ρ] (invariant : s.Invariant options)
    {batch : DetectionBatch ρ π} {odometry : Odometry ρ}
    (accepted : s.tracker.validate batch odometry = .ok) {t : Track ρ π}
    (member : t ∈ s.tracker.tracks) : t.timeSinceUpdate.nanoseconds +
      (s.tracker.elapsed batch.header.stamp).nanoseconds < durationLimit := by
  obtain ⟨⟨⟨last, stamp, latest, -, age⟩, -⟩, -⟩ := invariant.live t member
  have passed := Tracker.add_elapsed_of_accepted accepted (invariant.lastUpdate.trans latest)
  have bound := batch.header.stamp.bounded
  omega

variable [ExtendedScalar ρ] [Scalar π] {solver : Solver} {next : Session ρ π}

/-- What the history tells of a tracker that went through it. -/
structure HistoryHolds (solver : Solver) (options : TrackerOptions ρ) (s : Session ρ π) :
    Prop where
  lastUpdate : s.tracker.lastUpdate = s.history.latest
  stamps : s.history.Pairwise fun later earlier => earlier.stamp ≤ later.stamp
  distinct : s.ids.Nodup
  live : ∀ t ∈ s.tracker.tracks, t.Follows s.history ∧
    t.timeSinceUpdate ≤ options.pruningTime ∧ t.ticksSinceUpdate ≤ options.pruningTicks
  /-- A track leaves only in an applied cycle, and only if it is too old by then. -/
  leaves : ∀ (call : Call ρ π) (next : Session ρ π), s.step solver call = .ok next →
    ∀ t ∈ s.tracker.tracks, t.id ∉ next.ids → ∃ r, next.history = r :: s.history ∧
      next.history.Expired options.pruningTime options.pruningTicks t.id
  predictable : ∀ (batch : DetectionBatch ρ π) (odometry : Odometry ρ),
    s.tracker.validate batch odometry = .ok → ∀ t ∈ s.tracker.tracks,
      ∃ p, t.predict (s.tracker.elapsed batch.header.stamp) = .ok p

theorem Invariant.leaves (invariant : s.Invariant options) {call : Call ρ π}
    (returned : s.step solver call = .ok next) {t : Track ρ π} (member : t ∈ s.tracker.tracks)
    (gone : t.id ∉ next.ids) : ∃ r, next.history = r :: s.history ∧
      next.history.Expired options.pruningTime options.pruningTicks t.id := by
  have listed : t.id ∈ s.ids := List.mem_map_of_mem member
  cases outcome_of_step returned with
  | rejected => exact absurd listed gone
  | observed batch view a =>
    refine absurd ?_ gone
    dsimp only [ids, Tracker.updateVisionWith]
    rwa [Tracker.observeRegions_ids]
  | @applied associate batch odometry stages accepted staged =>
    refine ⟨_, rfl, ?_⟩
    obtain ⟨i, place⟩ := List.mem_iff_getElem?.mp member
    obtain ⟨q, place', sameId, ⟨last, stamp, latest, contact, age⟩, -⟩ :=
      invariant.follows_advanced staged
        (fun last previous => Tracker.add_elapsed_of_accepted accepted previous) place
    -- what became of the track was there before the pruning, so the pruning removed it
    have stale : options.pruningTime < q.timeSinceUpdate ∨
        options.pruningTicks < q.ticksSinceUpdate := by
      by_contra young
      refine gone (List.mem_map.mpr ⟨q, List.mem_filter.mpr ⟨?_, ?_⟩, sameId⟩)
      · exact List.mem_append_left _ (List.mem_of_getElem? place')
      · rw [invariant.sameOptions]
        exact decide_eq_true young
    refine ⟨last, stamp, q.ticksSinceUpdate, latest, sameId ▸ contact, ?_⟩
    rcases stale with old | missed
    · left
      rw [Duration.lt_iff] at old
      omega
    · exact .inr missed

theorem Invariant.exists_step (invariant : s.Invariant options)
    (every : options.creation.policy = .everyDetection) (call : Call ρ π) :
    ∃ next, s.step solver call = .ok next := by
  cases call with
  | regions associate batch view => exact ⟨_, rfl⟩
  | detections associate batch odometry =>
    by_cases accepted : s.tracker.validate batch odometry = .ok
    · obtain ⟨stages, staged⟩ := Tracker.exists_stages_of_everyDetection solver associate
        (batch.transform odometry s.tracker.options.frame)
        (by rw [invariant.settings, every])
        (fun track member => invariant.age_add_elapsed_lt accepted member)
      exact ⟨_, step_detections_of_accepted accepted staged⟩
    · exact ⟨_, step_detections_of_rejected associate accepted⟩

/-- Where every detection starts a track, every run from an empty tracker returns. -/
theorem exists_run_of_everyDetection (solver : Solver)
    (every : options.creation.policy = .everyDetection) (calls : List (Call ρ π)) :
    ∃ s, (start options).run solver calls = .ok s :=
  exists_foldlM_eq_ok (P := Invariant options)
    (fun _ call invariant =>
      let ⟨next, returned⟩ := invariant.exists_step every call
      ⟨next, returned, invariant.step returned⟩)
    calls (invariant_start options)

/-- After every run the history tells the ages and the hits of the live tracks, the tracks that leave
are too old, and no prediction overflows. -/
theorem historyHolds_of_run {calls : List (Call ρ π)}
    (returned : (start options).run solver calls = .ok s) : s.HistoryHolds solver options := by
  have invariant := invariant_of_run returned
  refine ⟨invariant.lastUpdate, invariant.stamps, invariant.distinct, invariant.live, ?_, ?_⟩
  · intro call next step t member gone
    exact invariant.leaves step member gone
  · intro batch odometry accepted t member
    exact Track.exists_predict_eq_ok (invariant.age_add_elapsed_lt accepted member)

/-- A car that is seen, then looked at by a camera, refused a batch of the past, and missed. -/
theorem historyHolds_of_drive :
    let solver := Solver.augmentingPaths
    let options : TrackerOptions Exact := .standard
    let calls : List (Call Exact Exact) :=
      [.detections (options.objectGates.associate solver)
          (Scene.batch Scene.second [Scene.car 10]) Scene.odometry,
        .regions (options.visionGates.associate solver)
          ⟨⟨Scene.second, "camera"⟩, [⟨[], []⟩]⟩ .identity,
        .detections (options.objectGates.associate solver)
          (Scene.batch 0 [Scene.car 11]) Scene.odometry,
        .detections (options.objectGates.associate solver)
          (Scene.batch Scene.second []) Scene.odometry]
    ∃ s, (start options).run solver calls = .ok s ∧ s.HistoryHolds solver options := by
  intro solver options calls
  have every : options.creation.policy = .everyDetection := rfl
  obtain ⟨s, returned⟩ := exists_run_of_everyDetection solver every calls
  exact ⟨s, returned, historyHolds_of_run returned⟩

end Session

end TrackFusion
