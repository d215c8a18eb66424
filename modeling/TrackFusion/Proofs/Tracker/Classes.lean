import TrackFusion.Proofs.Creator.Classes
import TrackFusion.Proofs.Scene
import TrackFusion.Proofs.Tracker.Session

/-!
Classes do not influence tracking.

Two recordings that differ in class hypotheses and existence probabilities only lead to trackers
that differ in class beliefs and existence probabilities only. Where every detection starts a track,
a tracker needs no regions at all: images may come and go without a trace in anything else.
-/

set_option autoImplicit false
set_option relaxedAutoImplicit false

namespace TrackFusion

variable {ρ π : Type}

namespace Event

def bare : Event ρ π → Event ρ Blank
  | .detections batch odometry => .detections batch.bare odometry
  | .regions batch view => .regions batch.bare view

def isCycle : Event ρ π → Bool
  | .detections .. => true
  | .regions .. => false

/-- What counts of a recording, given the policy: no classes, and images only if they have to
confirm detections. -/
def essence (policy : CreationPolicy) (events : List (Event ρ π)) : List (Event ρ Blank) :=
  match policy with
  | .everyDetection => (events.filter isCycle).map bare
  | .visionConfirmed => events.map bare

end Event

structure CallOutcome (ρ π : Type) where
  tracker : Tracker ρ π
  result : Option (CycleResult ρ π)

def CycleResult.bare (r : CycleResult ρ π) : CycleResult ρ Blank where
  status := r.status
  report := r.report.map fun report => ⟨report.header, report.objects.map Snapshot.bare⟩

def CycleStages.bare (s : CycleStages ρ π) : CycleStages ρ Blank where
  predicted := s.predicted.map Track.bare
  association := s.association
  created := s.created.map Track.bare
  creator := s.creator.bare

def Tracker.bare (t : Tracker ρ π) : Tracker ρ Blank where
  options := t.options
  creator := t.creator.bare
  tracks := t.tracks.map Track.bare
  lastUpdate := t.lastUpdate

def CallOutcome.bare (o : CallOutcome ρ π) : CallOutcome ρ Blank where
  tracker := o.tracker.bare
  result := o.result.map CycleResult.bare

namespace Tracker

theorem observeRegions_blank (tracks : List (Track ρ Blank)) (regions : List (Region ρ Blank))
    (a : Association) : observeRegions tracks regions a = tracks := by
  refine List.ext_getElem? fun i => ?_
  unfold observeRegions
  rw [List.getElem?_mapIdx]
  cases tracks[i]? with
  | none => rfl
  | some t =>
    rw [Option.map_some]
    split
    · rename_i r _
      exact congrArg some (t.with_belief (t.belief.update r.hypotheses))
    · rfl

theorem map_bare_observeRegions [Scalar π] (tracks : List (Track ρ π)) (regions : List (Region ρ π))
    (a : Association) :
    (observeRegions tracks regions a).map Track.bare = tracks.map Track.bare := by
  refine List.ext_getElem? fun i => ?_
  unfold observeRegions
  rw [List.getElem?_map, List.getElem?_map, List.getElem?_mapIdx, Option.map_map]
  refine congrArg (fun f => Option.map f tracks[i]?) (funext fun t => ?_)
  dsimp only [Function.comp_apply]
  split <;> rfl

variable [ExtendedScalar ρ] [Scalar π]

theorem advanced_bare (s : CycleStages ρ π) (batch : DetectionBatch ρ π) :
    s.bare.advanced batch.bare.objects = (s.advanced batch.objects).map Track.bare := by
  refine List.ext_getElem? fun i => ?_
  have given : s.bare.given batch.bare.objects i = (s.given batch.objects i).map Detection.bare := by
    unfold CycleStages.given CycleStages.bare DetectionBatch.bare
    simp only [List.getElem?_map, Option.map_bind]
    rfl
  rw [CycleStages.getElem?_advanced, List.getElem?_map, CycleStages.getElem?_advanced, given,
    CycleStages.bare, List.getElem?_map, Option.map_map, Option.map_map]
  refine congrArg (fun f => Option.map f s.predicted[i]?) (funext fun p => ?_)
  exact p.advance_bare _

theorem afterStages_bare (t : Tracker ρ π) (batch : DetectionBatch ρ π) (s : CycleStages ρ π) :
    t.bare.afterStages batch.bare s.bare = (t.afterStages batch s).bare := by
  have advanced := advanced_bare s batch
  unfold afterStages bare
  dsimp only
  rw [advanced]
  change Tracker.mk _ _ (List.filter _ (_ ++ s.created.map Track.bare)) _ = _
  rw [← List.map_append, List.filter_map]
  rfl

theorem resultOf_bare (t : Tracker ρ π) (batch : DetectionBatch ρ π) (s : CycleStages ρ π) :
    t.bare.resultOf batch.bare s.bare = (t.resultOf batch s).bare := by
  have snapshots : ((t.afterStages batch s).tracks.map Track.bare).map Track.snapshot =
      ((t.afterStages batch s).tracks.map Track.snapshot).map Snapshot.bare := by
    rw [List.map_map, List.map_map]
    exact List.map_congr_left fun u _ => u.snapshot_bare
  unfold resultOf CycleResult.bare
  rw [afterStages_bare]
  unfold report
  rw [Option.map_some, ← snapshots]
  rfl

theorem stages_bare (t : Tracker ρ π) (gates : ObjectGates ρ) (solver : Solver)
    (batch : DetectionBatch ρ π) :
    t.bare.stages solver (gates.associate solver) batch.bare =
      (t.stages solver (gates.associate solver) batch).map CycleStages.bare := by
  have predicts : (t.tracks.map Track.bare).mapM (fun u : Track ρ Blank =>
      u.predict (t.elapsed batch.header.stamp)) =
        (t.tracks.mapM fun u : Track ρ π => u.predict (t.elapsed batch.header.stamp)).map
          (List.map Track.bare) :=
    mapM_map_eq_map fun u _ => u.predict_bare _
  unfold stages
  refine (congrArg (· >>= _) predicts).trans (map_bind_eq_map fun predicted _ => ?_)
  have associates := gates.associate_bare solver batch.objects predicted
  have creates := (t.creator.addDetections batch
    (gates.associate solver batch.objects predicted)).create_bare solver
  rw [← Creator.addDetections_bare] at creates
  dsimp only [DetectionBatch.bare] at associates creates ⊢
  rw [associates]
  exact (congrArg (· >>= _) creates).trans (map_bind_eq_map fun _ _ => rfl)

theorem update_bare (t : Tracker ρ π) (solver : Solver) (batch : DetectionBatch ρ π)
    (odometry : Odometry ρ) :
    t.bare.update solver batch.bare odometry =
      (t.update solver batch odometry).map (Prod.map bare CycleResult.bare) := by
  have validates : t.bare.validate batch.bare odometry = t.validate batch odometry := rfl
  unfold update
  by_cases accepted : t.validate batch odometry = .ok
  · have staged : t.bare.stages solver (t.options.objectGates.associate solver) _ = _ :=
      t.stages_bare t.options.objectGates solver (batch.transform odometry t.options.frame)
    rw [updateWith_of_accepted _ _ accepted, updateWith_of_accepted _ _ (validates.trans accepted),
      applyCycle_eq_stages, applyCycle_eq_stages, DetectionBatch.transform_bare]
    refine (congrArg (· >>= _) staged).trans (map_bind_eq_map fun s _ => ?_)
    refine congrArg Except.ok (Prod.ext ?_ ?_)
    · exact t.afterStages_bare _ s
    · exact t.resultOf_bare _ s
  · rw [updateWith_of_rejected _ _ accepted,
      updateWith_of_rejected _ _ (validates.trans_ne accepted), validates]
    rfl

theorem updateVision_bare (t : Tracker ρ π) (solver : Solver) (batch : RegionBatch ρ π)
    (view : Pose ρ) :
    t.bare.updateVision solver batch.bare view = (t.updateVision solver batch view).bare := by
  have associates : t.options.visionGates.associate solver batch.bare.regions view
      (t.tracks.map Track.bare) = _ :=
    t.options.visionGates.associate_bare solver batch.regions view t.tracks
  unfold updateVision updateVisionWith bare
  dsimp only
  rw [associates, observeRegions_blank, map_bare_observeRegions, Creator.addRegions_bare]

/-- Where every detection starts a track, a tracker without classes ignores images. -/
theorem updateVision_eq_self {t : Tracker ρ Blank}
    (every : t.creator.settings.policy = .everyDetection) (solver : Solver)
    (batch : RegionBatch ρ Blank) (view : Pose ρ) : t.updateVision solver batch view = t := by
  unfold updateVision updateVisionWith
  rw [observeRegions_blank, Creator.addRegions_of_unused (.inl every)]

def trace (solver : Solver) :
    Tracker ρ π → List (Event ρ π) → List (Except DurationOverflow (CallOutcome ρ π))
  | _, [] => []
  | t, .detections batch odometry :: rest =>
    match t.update solver batch odometry with
    | .ok (next, result) => .ok ⟨next, some result⟩ :: next.trace solver rest
    | .error e => [.error e]
  | t, .regions batch view :: rest =>
    let next := t.updateVision solver batch view
    .ok ⟨next, none⟩ :: next.trace solver rest

def cyclesOf (outcomes : List (Except DurationOverflow (CallOutcome ρ π))) :
    List (Except DurationOverflow (CallOutcome ρ π)) :=
  outcomes.filter fun
    | .ok outcome => outcome.result.isSome
    | .error _ => true

theorem settings_of_update {t next : Tracker ρ π} {solver : Solver} {batch : DetectionBatch ρ π}
    {odometry : Odometry ρ} {result : CycleResult ρ π}
    (returned : t.update solver batch odometry = .ok (next, result)) :
    next.creator.settings = t.creator.settings := by
  unfold update at returned
  by_cases accepted : t.validate batch odometry = .ok
  · obtain ⟨s, staged, rfl, -⟩ := (updateWith_eq_ok_iff accepted).mp returned
    obtain ⟨-, -, created⟩ := stages_eq_ok_iff.mp staged
    exact (Creator.create_continues created).settings
  · rw [updateWith_of_rejected _ _ accepted] at returned
    cases returned
    rfl

theorem trace_bare (t : Tracker ρ π) (solver : Solver) (events : List (Event ρ π)) :
    t.bare.trace solver (events.map Event.bare) =
      (t.trace solver events).map (Except.map CallOutcome.bare) := by
  induction events generalizing t with
  | nil => rfl
  | cons event rest ih =>
    cases event with
    | regions batch view =>
      rw [List.map_cons, Event.bare, trace, trace, updateVision_bare, ih, List.map_cons]
      rfl
    | detections batch odometry =>
      rw [List.map_cons, Event.bare, trace, trace, update_bare]
      cases t.update solver batch odometry with
      | error e => rfl
      | ok returned =>
        dsimp only [Except.map, Prod.map]
        rw [ih, List.map_cons]
        rfl

/-- Where every detection starts a track, the cycles of a trace do not depend on images. -/
theorem cyclesOf_trace_filter {t : Tracker ρ Blank}
    (every : t.creator.settings.policy = .everyDetection) (solver : Solver)
    (events : List (Event ρ Blank)) :
    cyclesOf (t.trace solver (events.filter Event.isCycle)) = cyclesOf (t.trace solver events) := by
  induction events generalizing t with
  | nil => rfl
  | cons event rest ih =>
    cases event with
    | regions batch view =>
      have skipped : (Event.regions batch view :: rest).filter Event.isCycle =
          rest.filter Event.isCycle := rfl
      rw [skipped, trace, updateVision_eq_self every]
      exact ih every
    | detections batch odometry =>
      have kept : (Event.detections batch odometry :: rest).filter Event.isCycle =
          .detections batch odometry :: rest.filter Event.isCycle := rfl
      rw [kept, trace, trace]
      cases returned : t.update solver batch odometry with
      | error e => rfl
      | ok outcome =>
        obtain ⟨next, result⟩ := outcome
        have everyNext : next.creator.settings.policy = .everyDetection := by
          rw [settings_of_update returned, every]
        exact congrArg (Except.ok (⟨next, some result⟩ : CallOutcome ρ Blank) :: ·) (ih everyNext)

theorem map_bare_cyclesOf_trace (t : Tracker ρ π) (solver : Solver) (events : List (Event ρ π)) :
    (cyclesOf (t.trace solver events)).map (Except.map CallOutcome.bare) =
      cyclesOf (t.bare.trace solver (Event.essence t.creator.settings.policy events)) := by
  have bared : (cyclesOf (t.trace solver events)).map (Except.map CallOutcome.bare) =
      cyclesOf (t.bare.trace solver (events.map Event.bare)) := by
    rw [trace_bare]
    unfold cyclesOf
    rw [List.filter_map]
    refine congrArg (List.map _) (List.filter_congr fun outcome _ => ?_)
    cases outcome with
    | error e => rfl
    | ok outcome => exact Option.isSome_map.symm
  rw [bared]
  cases policy : t.creator.settings.policy with
  | visionConfirmed => rfl
  | everyDetection =>
    have everyBare : t.bare.creator.settings.policy = .everyDetection := policy
    have filtered : (events.filter Event.isCycle).map Event.bare =
        (events.map Event.bare).filter Event.isCycle := by
      rw [List.filter_map]
      refine congrArg (List.map _) (List.filter_congr fun event _ => ?_)
      cases event <;> rfl
    unfold Event.essence
    rw [filtered, cyclesOf_trace_filter everyBare]

end Tracker

/-- The tracks differ in belief and existence at most. -/
def Track.AgreesWith (t t' : Track ρ π) : Prop :=
  t' = { t with belief := t'.belief, existence := t'.existence }

def Snapshot.AgreesWith (s s' : Snapshot ρ π) : Prop :=
  s' = { s with ranking := s'.ranking, existence := s'.existence }

structure Tracker.AgreesWith (t t' : Tracker ρ π) : Prop where
  options : t'.options = t.options
  tracks : List.Forall₂ Track.AgreesWith t.tracks t'.tracks
  lastUpdate : t'.lastUpdate = t.lastUpdate
  nextId : t'.creator.nextId = t.creator.nextId
  detections : t'.creator.detections.length = t.creator.detections.length
  regionCount : t'.creator.regionCount = t.creator.regionCount

structure CycleResult.AgreesWith (r r' : CycleResult ρ π) : Prop where
  status : r'.status = r.status
  report : Option.Rel (fun p p' => p'.header = p.header ∧
    List.Forall₂ Snapshot.AgreesWith p.objects p'.objects) r.report r'.report

inductive CallOutcome.Agree :
    Except DurationOverflow (CallOutcome ρ π) → Except DurationOverflow (CallOutcome ρ π) → Prop
  | failed (e : DurationOverflow) : Agree (.error e) (.error e)
  | returned {o o' : CallOutcome ρ π} : o.tracker.AgreesWith o'.tracker →
      Option.Rel CycleResult.AgreesWith o.result o'.result → Agree (.ok o) (.ok o')

section Agreement

theorem forall₂_of_map_eq {α β : Type} {f : α → β} {R : α → α → Prop} {xs ys : List α}
    (same : xs.map f = ys.map f) (each : ∀ x y, f x = f y → R x y) : List.Forall₂ R xs ys := by
  have equal : List.Forall₂ Eq (xs.map f) (ys.map f) := by
    rw [same]
    exact List.forall₂_refl _
  rw [List.forall₂_map_left_iff, List.forall₂_map_right_iff] at equal
  exact equal.imp each

theorem optionRel_of_map_eq {α β : Type} {f : α → β} {R : α → α → Prop} {o o' : Option α}
    (same : o.map f = o'.map f) (each : ∀ x y, f x = f y → R x y) : Option.Rel R o o' := by
  cases o with
  | none =>
    cases o' with
    | none => exact .none
    | some y => cases same
  | some x =>
    cases o' with
    | none => cases same
    | some y => exact .some (each x y (Option.some.inj same))

theorem Track.agreesWith_of_bare_eq {t t' : Track ρ π} (same : t.bare = t'.bare) :
    t.AgreesWith t' := by
  cases t
  cases t'
  simp only [Track.bare, Track.mk.injEq, true_and] at same
  obtain ⟨rfl, rfl, rfl, rfl, rfl, rfl, rfl, rfl, rfl⟩ := same
  rfl

theorem Snapshot.agreesWith_of_bare_eq {s s' : Snapshot ρ π} (same : s.bare = s'.bare) :
    s.AgreesWith s' := by
  cases s
  cases s'
  simp only [Snapshot.bare, Snapshot.mk.injEq, true_and] at same
  obtain ⟨rfl, rfl, rfl, rfl, rfl, rfl, rfl⟩ := same
  rfl

theorem Tracker.agreesWith_of_bare_eq {t t' : Tracker ρ π} (same : t.bare = t'.bare) :
    t.AgreesWith t' := by
  have creators : t.creator.bare = t'.creator.bare := congrArg Tracker.creator same
  have tracks : t.tracks.map Track.bare = t'.tracks.map Track.bare := congrArg Tracker.tracks same
  have detections : t.creator.detections.map Detection.bare =
      t'.creator.detections.map Detection.bare := congrArg Creator.detections creators
  refine ⟨(congrArg Tracker.options same).symm,
    forall₂_of_map_eq tracks fun _ _ => Track.agreesWith_of_bare_eq,
    (congrArg Tracker.lastUpdate same).symm, (congrArg Creator.nextId creators).symm, ?_, ?_⟩
  · simpa using (congrArg List.length detections).symm
  · rw [← t.creator.regionCount_bare, creators, t'.creator.regionCount_bare]

theorem CycleResult.agreesWith_of_bare_eq {r r' : CycleResult ρ π} (same : r.bare = r'.bare) :
    r.AgreesWith r' := by
  have reports := congrArg CycleResult.report same
  refine ⟨(congrArg CycleResult.status same).symm, optionRel_of_map_eq reports fun p p' equal => ?_⟩
  obtain ⟨header, objects⟩ := TrackReport.mk.inj equal
  exact ⟨header.symm, forall₂_of_map_eq objects fun _ _ => Snapshot.agreesWith_of_bare_eq⟩

theorem CallOutcome.agree_of_bare_eq {o o' : Except DurationOverflow (CallOutcome ρ π)}
    (same : o.map CallOutcome.bare = o'.map CallOutcome.bare) : CallOutcome.Agree o o' := by
  cases o with
  | error e =>
    cases o' with
    | error e' =>
      cases same
      exact .failed e
    | ok o' => cases same
  | ok o =>
    cases o' with
    | error e' => cases same
    | ok o' =>
      obtain ⟨trackers, results⟩ := CallOutcome.mk.inj (Except.ok.inj same)
      exact .returned (Tracker.agreesWith_of_bare_eq trackers)
        (optionRel_of_map_eq results fun _ _ => CycleResult.agreesWith_of_bare_eq)

end Agreement

namespace Tracker

variable [ExtendedScalar ρ] [Scalar π] {solver : Solver} {options : TrackerOptions ρ}
  {events events' : List (Event ρ π)}

/-- What two recordings of the same essence have in common: their cycles agree, and if their images
correspond, so do all calls. -/
structure ClassesApart (solver : Solver) (options : TrackerOptions ρ)
    (events events' : List (Event ρ π)) : Prop where
  cycles : List.Forall₂ CallOutcome.Agree (cyclesOf ((start options).trace solver events))
    (cyclesOf ((start options).trace solver events'))
  calls : events.map Event.bare = events'.map Event.bare →
    List.Forall₂ CallOutcome.Agree ((start options).trace solver events)
      ((start options).trace solver events')

/-- Recordings that differ in classes only, and in images where every detection starts a track, lead
to cycles that agree in all but classes. -/
theorem classesApart_of_essence (same : Event.essence options.creation.policy events =
    Event.essence options.creation.policy events') :
    ClassesApart solver options events events' := by
  refine ⟨?_, fun correspond => ?_⟩
  · have first := map_bare_cyclesOf_trace (start options) solver events
    have second := map_bare_cyclesOf_trace (start options) solver events'
    have essence : Event.essence (start options : Tracker ρ π).creator.settings.policy events =
        Event.essence (start options : Tracker ρ π).creator.settings.policy events' := same
    rw [essence, ← second] at first
    exact forall₂_of_map_eq first fun _ _ => CallOutcome.agree_of_bare_eq
  · have first := trace_bare (start options) solver events
    rw [correspond, trace_bare] at first
    exact forall₂_of_map_eq first.symm fun _ _ => CallOutcome.agree_of_bare_eq

/-- A car that is seen twice, and the same as a bus, with an image between. -/
theorem classesApart_of_drive :
    let options : TrackerOptions Exact := .standard
    let events : List (Event Exact Exact) :=
      [.detections (Scene.batch Scene.second [Scene.car 0]) Scene.odometry,
        .detections (Scene.batch Scene.second [Scene.car 1]) Scene.odometry]
    let events' : List (Event Exact Exact) :=
      [.detections (Scene.batch Scene.second
          [{ Scene.car 0 with existence := 0, hypotheses := [⟨.bus, 1⟩] }]) Scene.odometry,
        .regions ⟨⟨Scene.second, "camera"⟩, [Scene.region]⟩ Scene.below,
        .detections (Scene.batch Scene.second
          [{ Scene.car 1 with hypotheses := [⟨.bus, 1⟩] }]) Scene.odometry]
    Event.essence options.creation.policy events = Event.essence options.creation.policy events' ∧
      ClassesApart .augmentingPaths options events events' := by
  intro options events events'
  have same : Event.essence options.creation.policy events =
      Event.essence options.creation.policy events' := rfl
  exact ⟨same, classesApart_of_essence same⟩

end Tracker

end TrackFusion
