import TrackFusion.Proofs.Creator.Waiting
import TrackFusion.Proofs.Tracker.Options
import TrackFusion.Proofs.Tracker.Runs

/-!
The one way in which a tracker stops.

No prediction overflows, whatever was given to the tracker. A creator that confirms detections by
regions adds its window to the stamps of the waiting batches, though, and nothing bounds these
stamps: a call stops exactly if it is an accepted detection cycle that finds a batch whose window
ends too late to be held. Runs in which every window ends in time return.
-/

set_option autoImplicit false
set_option relaxedAutoImplicit false

namespace TrackFusion

variable {ρ π : Type}

def Call.EndsInTime (window : Duration) : Call ρ π → Prop
  | .detections .. => True
  | .regions _ batch _ => batch.header.stamp.nanoseconds + window.nanoseconds < durationLimit

def TrackerOptions.WindowsEnd (options : TrackerOptions ρ) (calls : List (Call ρ π)) : Prop :=
  options.creation.policy = .visionConfirmed →
    ∀ call ∈ calls, call.EndsInTime options.creation.window

variable [ExtendedScalar ρ] [Scalar π] {solver : Solver}

namespace Tracker

/-- At the time of a cycle the ages of the tracks can be held, and so can the ends of the windows
that its creator looks at. -/
structure HasTimeFor (t : Tracker ρ π) (stamp : Duration) : Prop where
  ages : ∀ track ∈ t.tracks, track.timeSinceUpdate.nanoseconds +
    (t.elapsed stamp).nanoseconds < durationLimit
  windows : t.creator.WindowsEnd

/-- The stages of a cycle fail only at a prediction or at the windows of the creator. -/
theorem exists_stages_iff {associate : List (Detection ρ π) → List (Track ρ π) → Association}
    {t : Tracker ρ π} {batch : DetectionBatch ρ π} :
    (∃ s, t.stages solver associate batch = .ok s) ↔ t.HasTimeFor batch.header.stamp := by
  have creates (a : Association) :
      (∃ created next, (t.creator.addDetections batch a).create solver = .ok (created, next)) ↔
        t.creator.WindowsEnd := Creator.exists_create_iff solver rfl
  constructor
  · rintro ⟨s, staged⟩
    obtain ⟨aged, -, created⟩ := stages_eq_ok_iff.mp staged
    refine ⟨fun track member => ?_, (creates s.association).mp ⟨_, _, created⟩⟩
    obtain ⟨p, -, predicted⟩ := exists_mem_of_forall₂
      (R := fun p old => old.predict (t.elapsed batch.header.stamp) = .ok p) aged.flip member
    rw [← (Track.predict_fields predicted).2.2.2]
    exact p.timeSinceUpdate.bounded
  · rintro ⟨ages, windows⟩
    obtain ⟨predicted, first⟩ : ∃ predicted,
        (t.tracks.mapM fun track => track.predict (t.elapsed batch.header.stamp)) = .ok predicted :=
      exists_mapM_eq_ok fun track member => Track.exists_predict_eq_ok (ages track member)
    obtain ⟨created, creator, second⟩ := (creates (associate batch.objects predicted)).mpr windows
    exact ⟨⟨predicted, associate batch.objects predicted, created, creator⟩,
      stages_eq_ok_iff.mpr ⟨mapM_eq_ok_iff.mp first, rfl, second⟩⟩

end Tracker

namespace Session

variable {options : TrackerOptions ρ} {s next : Session ρ π} {calls : List (Call ρ π)}

/-- The call is an accepted detection cycle, and a window its creator looks at ends too late. -/
def Overruns (s : Session ρ π) : Call ρ π → Prop
  | .detections _ batch odometry =>
    s.tracker.validate batch odometry = .ok ∧ ¬ s.tracker.creator.WindowsEnd
  | .regions .. => False

/-- Wherever a run has got to, the next call returns exactly if it does not overrun. -/
theorem Invariant.exists_step_iff (invariant : s.Invariant options) (call : Call ρ π) :
    (∃ next, s.step solver call = .ok next) ↔ ¬ s.Overruns call := by
  cases call with
  | regions associate batch view => exact ⟨fun _ => id, fun _ => ⟨_, rfl⟩⟩
  | detections associate batch odometry =>
    by_cases accepted : s.tracker.validate batch odometry = .ok
    · have staged : (∃ stages, s.tracker.stages solver associate
          (batch.transform odometry s.tracker.options.frame) = .ok stages) ↔
            s.tracker.creator.WindowsEnd :=
        Tracker.exists_stages_iff.trans ⟨fun time => time.windows, fun windows =>
          ⟨fun track member => invariant.age_add_elapsed_lt accepted member, windows⟩⟩
      constructor
      · rintro ⟨next, returned⟩ ⟨-, late⟩
        obtain ⟨stages, ran, -⟩ := exists_stages_of_step accepted returned
        exact late (staged.mp ⟨stages, ran⟩)
      · intro within
        have windows : s.tracker.creator.WindowsEnd := by
          by_contra late
          exact within ⟨accepted, late⟩
        obtain ⟨stages, ran⟩ := staged.mpr windows
        exact ⟨_, step_detections_of_accepted accepted ran⟩
    · exact ⟨fun _ late => accepted late.1, fun _ => ⟨_, step_detections_of_rejected _ accepted⟩⟩

theorem Invariant.windowsEnd_step {call : Call ρ π} (invariant : s.Invariant options)
    (windows : s.tracker.creator.WindowsEnd)
    (inTime : options.creation.policy = .visionConfirmed →
      call.EndsInTime options.creation.window)
    (returned : s.step solver call = .ok next) : next.tracker.creator.WindowsEnd := by
  rw [← invariant.settings] at inTime
  cases call with
  | regions associate batch view =>
    cases returned
    exact windows.addRegions inTime
  | detections associate batch odometry =>
    by_cases accepted : s.tracker.validate batch odometry = .ok
    · obtain ⟨stages, staged, rfl⟩ := exists_stages_of_step accepted returned
      obtain ⟨-, -, created⟩ := Tracker.stages_eq_ok_iff.mp staged
      -- what the batch leaves over does not touch the waiting regions
      have given : (s.tracker.creator.addDetections (batch.transform odometry
          s.tracker.options.frame) stages.association).WindowsEnd := windows
      exact given.create created
    · rw [step_detections_of_rejected associate accepted] at returned
      cases returned
      exact windows

theorem exists_run_of_windowsEnd (solver : Solver) (windows : options.WindowsEnd calls) :
    ∃ s, (start options).run solver calls = .ok s := by
  -- the induction is on the calls that remain, from any session that they may start at
  suffices longer : ∀ s : Session ρ π, s.Invariant options → s.tracker.creator.WindowsEnd →
      ∃ next, s.run solver calls = .ok next from
    longer _ (invariant_start options) fun _ => nofun
  induction calls with
  | nil => exact fun s _ _ => ⟨s, rfl⟩
  | cons call rest ih =>
    intro s invariant ends
    have returns : ¬ s.Overruns call := by
      cases call with
      | detections => exact fun late => late.2 ends
      | regions => exact id
    obtain ⟨middle, first⟩ : ∃ middle, s.step solver call = .ok middle :=
      (invariant.exists_step_iff call).mpr returns
    have inTime : options.creation.policy = .visionConfirmed →
        call.EndsInTime options.creation.window := fun confirmed =>
      windows confirmed call List.mem_cons_self
    obtain ⟨next, others⟩ := ih
      (fun confirmed call member => windows confirmed call (List.mem_cons_of_mem _ member)) middle
      (invariant.step first) (invariant.windowsEnd_step ends inTime first)
    refine ⟨next, ?_⟩
    rw [run_cons, first, ok_bind, others]

/-- What a sequence of calls does to an empty tracker, as far as time is concerned. -/
structure Endures (solver : Solver) (options : TrackerOptions ρ) (calls : List (Call ρ π)) :
    Prop where
  predictable : ∀ before after s, calls = before ++ after →
    (start options).run solver before = .ok s →
      ∀ (batch : DetectionBatch ρ π) (odometry : Odometry ρ),
        s.tracker.validate batch odometry = .ok → ∀ t ∈ s.tracker.tracks,
          ∃ p, t.predict (s.tracker.elapsed batch.header.stamp) = .ok p
  returns_iff : (∃ s, (start options).run solver calls = .ok s) ↔
    ∀ before call after s, calls = before ++ call :: after →
      (start options).run solver before = .ok s → ¬ s.Overruns call
  inTime : options.WindowsEnd calls → ∃ s, (start options).run solver calls = .ok s

/-- No prediction overflows, and a tracker stops at a call exactly if it is an accepted cycle that
finds a window which ends too late. -/
theorem endures (solver : Solver) (options : TrackerOptions ρ) (calls : List (Call ρ π)) :
    Endures solver options calls := by
  refine ⟨?_, ?_, exists_run_of_windowsEnd solver⟩
  · intro before after s _ returned batch odometry accepted t member
    have invariant := invariant_of_run returned
    exact Track.exists_predict_eq_ok (invariant.age_add_elapsed_lt accepted member)
  · constructor
    · rintro ⟨last, returned⟩ before call after s rfl reached
      rw [run_append, reached, ok_bind, run_cons] at returned
      obtain ⟨next, stepped, -⟩ := bind_eq_ok_iff.mp returned
      exact ((invariant_of_run reached).exists_step_iff call).mp ⟨next, stepped⟩
    · intro within
      induction calls using List.reverseRecOn with
      | nil => exact ⟨_, rfl⟩
      | append_singleton calls call ih =>
        obtain ⟨s, reached⟩ := ih fun before c after s' same =>
          within before c (after ++ [call]) s' (by rw [same, List.append_assoc, List.cons_append])
        have returns := within calls call [] s rfl reached
        obtain ⟨next, stepped⟩ := ((invariant_of_run reached).exists_step_iff call).mpr returns
        refine ⟨next, ?_⟩
        rw [run_append, reached, ok_bind, run_cons, stepped]
        rfl

/-- Usable options, one region whose window ends too late, and a batch of nothing. -/
theorem late_regions_stop_tracker :
    let solver := Solver.augmentingPaths
    let options := Scene.confirming
    let latest : Duration := ⟨durationLimit - 1, by decide⟩
    options.validate = .ok () ∧
      (start options).run solver
        [.regions (options.visionGates.associate solver)
            ⟨⟨latest, "camera"⟩, [Scene.region]⟩ .identity,
          .detections (options.objectGates.associate solver) (Scene.batch Scene.second [])
            Scene.odometry] = .error .addition := by
  intro solver options latest
  refine ⟨TrackerOptions.validate_standard, ?_⟩
  let batch : RegionBatch Exact Exact := ⟨⟨latest, "camera"⟩, [Scene.region]⟩
  let cycle : Call Exact Exact :=
    .detections (options.objectGates.associate solver) (Scene.batch Scene.second [])
      Scene.odometry
  obtain ⟨s, first⟩ : ∃ s, (start options : Session Exact Exact).step solver
      (.regions (options.visionGates.associate solver) batch .identity) = .ok s := ⟨_, rfl⟩
  have invariant : s.Invariant options := (invariant_start options).step first
  have overruns : s.Overruns cycle := by
    obtain rfl := Except.ok.inj first
    have left : Creator.leftRegions batch (options.visionGates.associate solver [Scene.region]
        .identity ([] : List (Track Exact Exact))) = [Scene.region] := by
      change [Scene.region].filter (fun r => r.box?.isSome) = _
      rw [List.filter_cons, Scene.box?_region]
      rfl
    exact ⟨Scene.accepts rfl nofun, Creator.not_windowsEnd_addRegions rfl
      (left ▸ List.cons_ne_nil Scene.region []) (by decide) (by decide)⟩
  rw [run_cons, first, ok_bind, run_cons]
  cases second : s.step solver cycle with
  | ok next => exact absurd overruns ((invariant.exists_step_iff _).mp ⟨next, second⟩)
  | error e =>
    cases e
    rfl

end Session

end TrackFusion
