import TrackFusion.Proofs.Kalman.RealState
import TrackFusion.Proofs.Tracker.Beliefs
import TrackFusion.Proofs.Tracker.Rejection
import TrackFusion.Scenario.Replay

/-!
What a replay writes and counts.

A replay is an account of the calls that its events make: each call adds its counts to the summary
and, if it is a cycle that was applied, the rows of the tracks that are live right after it. All that
is said of the summary and of the rows follows from the list of these calls.
-/

set_option autoImplicit false
set_option relaxedAutoImplicit false

namespace TrackFusion

variable {ρ π : Type}

instance : Add ReplaySummary :=
  ⟨fun a b =>
    { detectionCycles := a.detectionCycles + b.detectionCycles
      rejectedCycles := a.rejectedCycles + b.rejectedCycles
      visionCycles := a.visionCycles + b.visionCycles
      rows := a.rows + b.rows }⟩

theorem ReplaySummary.add_def (a b : ReplaySummary) : a + b =
    ⟨a.detectionCycles + b.detectionCycles, a.rejectedCycles + b.rejectedCycles,
      a.visionCycles + b.visionCycles, a.rows + b.rows⟩ :=
  rfl

theorem ReplaySummary.add_assoc (a b c : ReplaySummary) : a + b + c = a + (b + c) := by
  simp only [add_def, Nat.add_assoc]

namespace CallOutcome

def isApplied (o : CallOutcome ρ π) : Bool :=
  o.result.any (·.status.isApplied)

def isRejection (o : CallOutcome ρ π) : Bool :=
  o.result.any CycleResult.isRejection

def written [Scalar ρ] (o : CallOutcome ρ π) : List (TrackRow ρ) :=
  o.result.elim [] Replay.rowsOf

def counts [Scalar ρ] (o : CallOutcome ρ π) : ReplaySummary :=
  match o.result with
  | some result => ⟨1, if result.status.isApplied then 0 else 1, 0, (Replay.rowsOf result).length⟩
  | none => ⟨0, 0, 1, 0⟩

end CallOutcome

namespace Replay

def summaryOf [Scalar ρ] (outcomes : List (CallOutcome ρ π)) : ReplaySummary where
  detectionCycles := outcomes.countP (·.result.isSome)
  rejectedCycles := outcomes.countP CallOutcome.isRejection
  visionCycles := outcomes.countP (!·.result.isSome)
  rows := (outcomes.flatMap CallOutcome.written).length

/-- One replay continued by another one. -/
def followedBy (first second : Replay ρ π) : Replay ρ π :=
  ⟨second.tracker, first.summary + second.summary, first.rows ++ second.rows⟩

def record [Scalar ρ] (r : Replay ρ π) (o : CallOutcome ρ π) : Replay ρ π :=
  ⟨o.tracker, r.summary + o.counts, r.rows ++ o.written⟩

section Account

variable [ExtendedScalar ρ] {r r' : Replay ρ π}

theorem summaryOf_cons (o : CallOutcome ρ π) (rest : List (CallOutcome ρ π)) :
    summaryOf (o :: rest) = o.counts + summaryOf rest := by
  obtain ⟨tracker, result⟩ := o
  unfold summaryOf
  rw [ReplaySummary.add_def]
  simp only [List.countP_cons, List.flatMap_cons, List.length_append, CallOutcome.counts,
    CallOutcome.isRejection, CallOutcome.written]
  cases result with
  | none => simp [Nat.add_comm]
  | some result =>
    cases applied : result.status.isApplied <;>
      simp [CycleResult.isRejection, applied, Nat.add_comm]

theorem foldl_record (r : Replay ρ π) (outcomes : List (CallOutcome ρ π)) :
    outcomes.foldl record r = ⟨(outcomes.map CallOutcome.tracker).getLastD r.tracker,
      r.summary + summaryOf outcomes, r.rows ++ outcomes.flatMap CallOutcome.written⟩ := by
  induction outcomes generalizing r with
  | nil => rw [List.flatMap_nil, List.append_nil]; rfl
  | cons o rest ih =>
    rw [List.foldl_cons, ih, summaryOf_cons, List.flatMap_cons, List.map_cons, List.getLastD_cons,
      record, ReplaySummary.add_assoc, List.append_assoc]

variable [Scalar π] {solver : Solver} {t : Tracker ρ π} {events : List (Event ρ π)}

theorem handle_detections (solver : Solver) (t : Tracker ρ π) (batch : DetectionBatch ρ π)
    (odometry : Odometry ρ) :
    t.handle solver ((Event.detections batch odometry).call t.options solver) =
      (t.update solver batch odometry).map fun returned => ⟨returned.1, some returned.2⟩ :=
  bind_eq_map fun _ => rfl

theorem trace_nil_eq_iff {outcomes : List (CallOutcome ρ π)} :
    t.trace solver [] = outcomes.map .ok ↔ outcomes = [] := by
  rw [Tracker.trace, eq_comm, List.map_eq_nil_iff]

theorem trace_cons_of_ok {event : Event ρ π} {o : CallOutcome ρ π}
    (returned : t.handle solver (event.call t.options solver) = .ok o) :
    t.trace solver (event :: events) = .ok o :: o.tracker.trace solver events := by
  cases event with
  | regions batch view =>
    cases returned
    rfl
  | detections batch odometry =>
    rw [handle_detections] at returned
    rw [Tracker.trace]
    cases updated : t.update solver batch odometry with
    | error e =>
      rw [updated] at returned
      cases returned
    | ok result =>
      rw [updated] at returned
      cases returned
      rfl

theorem trace_cons_of_error {event : Event ρ π} {e : DurationOverflow}
    (failed : t.handle solver (event.call t.options solver) = .error e) :
    t.trace solver (event :: events) = [.error e] := by
  cases event with
  | regions batch view => cases failed
  | detections batch odometry =>
    rw [handle_detections] at failed
    rw [Tracker.trace]
    cases updated : t.update solver batch odometry with
    | error cause =>
      -- an overflow is the only failure
      cases cause
      cases e
      rfl
    | ok result =>
      rw [updated] at failed
      cases failed

theorem trace_cons_eq_iff {event : Event ρ π} {outcomes : List (CallOutcome ρ π)} :
    t.trace solver (event :: events) = outcomes.map .ok ↔ ∃ o later,
      t.handle solver (event.call t.options solver) = .ok o ∧
        o.tracker.trace solver events = later.map .ok ∧ o :: later = outcomes := by
  cases returned : t.handle solver (event.call t.options solver) with
  | error e =>
    rw [trace_cons_of_error returned]
    constructor
    · intro failed
      cases outcomes <;> cases failed
    · rintro ⟨o, later, failed, -⟩
      cases failed
  | ok o =>
    rw [trace_cons_of_ok returned]
    constructor
    · intro traced
      cases outcomes with
      | nil => cases traced
      | cons first later =>
        obtain ⟨head, tail⟩ := List.cons.inj traced
        cases head
        exact ⟨o, later, rfl, tail, rfl⟩
    · rintro ⟨_, later, ⟨rfl⟩, tail, rfl⟩
      exact congrArg (Except.ok o :: ·) tail

theorem step_eq_map (solver : Solver) (r : Replay ρ π) (event : Event ρ π) :
    r.step solver event =
      (r.tracker.handle solver (event.call r.tracker.options solver)).map r.record := by
  cases event with
  | regions batch view =>
    refine congrArg Except.ok ?_
    simp only [record, CallOutcome.counts, CallOutcome.written, ReplaySummary.add_def,
      Option.elim_none, List.append_nil, Nat.add_zero]
    rfl
  | detections batch odometry =>
    have stepped : r.step solver (.detections batch odometry) =
        (r.tracker.update solver batch odometry).map fun returned =>
          r.record ⟨returned.1, some returned.2⟩ := bind_eq_map fun _ => rfl
    rw [stepped, handle_detections]
    cases r.tracker.update solver batch odometry <;> rfl

/-- A replay returns exactly if all its calls do, and then it is their account. -/
theorem run_eq_ok_iff : r.run solver events = .ok r' ↔
    ∃ outcomes : List (CallOutcome ρ π), r.tracker.trace solver events = outcomes.map .ok ∧
      outcomes.foldl record r = r' := by
  induction events generalizing r with
  | nil =>
    simp only [trace_nil_eq_iff, run, Except.ok.injEq, exists_eq_left, List.foldl_nil]
  | cons event rest ih =>
    rw [run, step_eq_map]
    simp only [trace_cons_eq_iff]
    cases r.tracker.handle solver (event.call r.tracker.options solver) with
    | error e =>
      constructor
      · intro failed
        cases failed
      · rintro ⟨outcomes, ⟨o, later, failed, -⟩, -⟩
        cases failed
    | ok o =>
      dsimp only [Except.map]
      rw [ih]
      constructor
      · rintro ⟨later, tail, same⟩
        exact ⟨o :: later, ⟨o, later, rfl, tail, rfl⟩, same⟩
      · rintro ⟨_, ⟨_, later, ⟨rfl⟩, tail, rfl⟩, same⟩
        exact ⟨later, tail, same⟩

theorem replay_eq_ok_iff : t.replay solver events = .ok r ↔
    ∃ outcomes : List (CallOutcome ρ π), t.trace solver events = outcomes.map .ok ∧
      ⟨(outcomes.map CallOutcome.tracker).getLastD t, summaryOf outcomes,
        outcomes.flatMap CallOutcome.written⟩ = r := by
  unfold Tracker.replay
  rw [run_eq_ok_iff]
  refine exists_congr fun outcomes => and_congr_right fun _ => ?_
  rw [foldl_record, ReplaySummary.add_def]
  simp only [start, Nat.zero_add, List.nil_append]

theorem run_append (r : Replay ρ π) (earlier later : List (Event ρ π)) :
    r.run solver (earlier ++ later) = r.run solver earlier >>= fun middle =>
      middle.run solver later := by
  induction earlier generalizing r with
  | nil => rfl
  | cons event rest ih =>
    rw [List.cons_append, run, run]
    cases r.step solver event with
    | error e => rfl
    | ok next => exact ih next

theorem run_eq_ok_iff_followedBy : r.run solver events = .ok r' ↔
    ∃ second, r.tracker.replay solver events = .ok second ∧ r.followedBy second = r' := by
  simp only [replay_eq_ok_iff, run_eq_ok_iff, foldl_record]
  constructor
  · rintro ⟨outcomes, traced, same⟩
    exact ⟨_, ⟨outcomes, traced, rfl⟩, same⟩
  · rintro ⟨_, ⟨outcomes, traced, rfl⟩, same⟩
    exact ⟨outcomes, traced, same⟩

/-- A replay of two recordings is a replay of the first, followed by one of the second that goes on
with the tracker of the first. -/
theorem replay_append_eq_ok_iff {earlier later : List (Event ρ π)} :
    t.replay solver (earlier ++ later) = .ok r ↔ ∃ first second,
      t.replay solver earlier = .ok first ∧ first.tracker.replay solver later = .ok second ∧
        first.followedBy second = r := by
  have split : t.replay solver (earlier ++ later) =
      t.replay solver earlier >>= fun middle => middle.run solver later := run_append _ _ _
  simp only [split, bind_eq_ok_iff, run_eq_ok_iff_followedBy]
  constructor
  · rintro ⟨first, replayed, second, continued, same⟩
    exact ⟨first, second, replayed, continued, same⟩
  · rintro ⟨first, second, replayed, continued, same⟩
    exact ⟨first, replayed, second, continued, same⟩

end Account

end Replay

def Tracker.NoEarlier (t u : Tracker ρ π) : Prop :=
  ∀ last, t.lastUpdate = some last → ∃ later, u.lastUpdate = some later ∧ last ≤ later

theorem Tracker.NoEarlier.trans {t u v : Tracker ρ π} (first : t.NoEarlier u)
    (second : u.NoEarlier v) : t.NoEarlier v := by
  intro last earliest
  obtain ⟨middle, between, above⟩ := first last earliest
  obtain ⟨later, latest, higher⟩ := second middle between
  exact ⟨later, latest, Nat.le_trans above higher⟩

section Sound

variable [ExtendedScalar ρ] [Scalar π] {solver : Solver} {options : TrackerOptions ρ}

/-- What a call leaves of a tracker that was reached by calls, and what it reports of it. -/
structure CallOutcome.IsSound (o : CallOutcome ρ π) : Prop where
  distinct : (o.tracker.tracks.map Track.id).Nodup
  beliefs : ∀ t ∈ o.tracker.tracks, t.belief.Reachable
  applied : ∀ result, o.result = some result → result.status.isApplied = true →
    ∃ stamp, o.tracker.lastUpdate = some stamp ∧ result.report = some (o.tracker.report stamp)
  rejected : ∀ result, o.result = some result → result.status.isApplied = false →
    result.report = none

namespace Session

variable {s : Session ρ π} {call : Call ρ π} {o : CallOutcome ρ π}

theorem exists_step_of_handle (returned : s.tracker.handle solver call = .ok o) :
    ∃ next, s.step solver call = .ok next ∧ next.tracker = o.tracker := by
  cases call with
  | regions associate batch view =>
    cases returned
    exact ⟨_, rfl, rfl⟩
  | detections associate batch odometry =>
    obtain ⟨⟨tracker, result⟩, updated, same⟩ := bind_eq_ok_iff.mp returned
    cases same
    by_cases accepted : s.tracker.validate batch odometry = .ok
    · obtain ⟨stages, staged, rfl, rfl⟩ := (Tracker.updateWith_eq_ok_iff accepted).mp updated
      exact ⟨_, step_detections_of_accepted accepted staged, rfl⟩
    · rw [Tracker.updateWith_of_rejected _ _ accepted] at updated
      cases updated
      exact ⟨s, step_detections_of_rejected associate accepted, rfl⟩

theorem exists_handle_of_step {next : Session ρ π} (returned : s.step solver call = .ok next) :
    ∃ o, s.tracker.handle solver call = .ok o ∧ o.tracker = next.tracker := by
  cases call with
  | regions associate batch view =>
    cases returned
    exact ⟨_, rfl, rfl⟩
  | detections associate batch odometry =>
    obtain ⟨⟨tracker, result⟩, updated, rest⟩ := bind_eq_ok_iff.mp returned
    refine ⟨⟨tracker, some result⟩, bind_eq_ok_iff.mpr ⟨_, updated, rfl⟩, ?_⟩
    dsimp only at rest
    split_ifs at rest with applied
    · obtain ⟨stages, -, same⟩ := bind_eq_ok_iff.mp rest
      cases same
      rfl
    · cases rest
      rfl

end Session

namespace Tracker

variable {t : Tracker ρ π} {call : Call ρ π} {o : CallOutcome ρ π}

theorem reports_of_handle (returned : t.handle solver call = .ok o) : t.NoEarlier o.tracker ∧
    ∀ result, o.result = some result →
      (result.status.isApplied = true ∧ ∃ stamp, o.tracker.lastUpdate = some stamp ∧
        result.report = some (o.tracker.report stamp)) ∨
      (result.status.isApplied = false ∧ result.report = none) := by
  cases call with
  | regions associate batch view =>
    cases returned
    exact ⟨fun last previous => ⟨last, previous, Nat.le_refl _⟩, nofun⟩
  | detections associate batch odometry =>
    obtain ⟨⟨tracker, result⟩, updated, same⟩ := bind_eq_ok_iff.mp returned
    cases same
    by_cases accepted : t.validate batch odometry = .ok
    · obtain ⟨applied, report⟩ := applied_of_accepted accepted updated
      obtain ⟨stages, -, rfl, -⟩ := (updateWith_eq_ok_iff accepted).mp updated
      refine ⟨fun last previous => ⟨_, rfl, lastUpdate_le_of_accepted accepted previous⟩, ?_⟩
      rintro _ ⟨rfl⟩
      exact .inl ⟨applied, _, rfl, report⟩
    · rw [updateWith_of_rejected _ _ accepted] at updated
      cases updated
      refine ⟨fun last previous => ⟨last, previous, Nat.le_refl _⟩, ?_⟩
      rintro _ ⟨rfl⟩
      refine .inr ⟨?_, rfl⟩
      rw [← Bool.not_eq_true]
      exact mt (isApplied_validate t batch odometry).mp accepted

end Tracker

theorem Session.Invariant.isSound {s : Session ρ π} {call : Call ρ π} {o : CallOutcome ρ π}
    (invariant : s.Invariant options) (beliefs : s.BeliefsReachable)
    (returned : s.tracker.handle solver call = .ok o) : o.IsSound := by
  obtain ⟨next, stepped, same⟩ := exists_step_of_handle returned
  obtain ⟨-, reports⟩ := Tracker.reports_of_handle returned
  refine ⟨?_, ?_, fun result cycle applied => ?_, fun result cycle rejected => ?_⟩
  · rw [← same]
    exact (invariant.step stepped).distinct
  · rw [← same]
    exact beliefs.step stepped
  · rcases reports result cycle with ⟨-, reported⟩ | ⟨rejected, -⟩
    · exact reported
    · rw [applied] at rejected
      cases rejected
  · rcases reports result cycle with ⟨applied, -⟩ | ⟨-, none⟩
    · rw [applied] at rejected
      cases rejected
    · exact none

theorem Session.Invariant.sound_of_trace {s : Session ρ π} {events : List (Event ρ π)}
    {outcomes : List (CallOutcome ρ π)} (invariant : s.Invariant options)
    (beliefs : s.BeliefsReachable)
    (traced : s.tracker.trace solver events = outcomes.map .ok) :
    (∀ o ∈ outcomes, o.IsSound ∧ s.tracker.NoEarlier o.tracker) ∧
      outcomes.Pairwise fun a b => a.tracker.NoEarlier b.tracker := by
  induction events generalizing s outcomes with
  | nil =>
    obtain rfl := Replay.trace_nil_eq_iff.mp traced
    exact ⟨nofun, .nil⟩
  | cons event rest ih =>
    obtain ⟨o, outcomes, returned, tail, rfl⟩ := Replay.trace_cons_eq_iff.mp traced
    obtain ⟨next, stepped, same⟩ := exists_step_of_handle returned
    have now := (Tracker.reports_of_handle returned).1
    rw [← same] at tail now
    obtain ⟨later, ascending⟩ := ih (invariant.step stepped) (beliefs.step stepped) tail
    refine ⟨?_, .cons (fun b member => ?_) ascending⟩
    · rw [List.forall_mem_cons]
      refine ⟨⟨invariant.isSound beliefs returned, same ▸ now⟩, fun b member => ?_⟩
      exact ⟨(later b member).1, now.trans (later b member).2⟩
    · rw [← same]
      exact (later b member).2

theorem Session.Invariant.exists_replay {s : Session ρ π} (invariant : s.Invariant options)
    (every : options.creation.policy = .everyDetection) (solver : Solver)
    (events : List (Event ρ π)) : ∃ r, s.tracker.replay solver events = .ok r := by
  suffices calls : ∃ outcomes : List (CallOutcome ρ π),
      s.tracker.trace solver events = outcomes.map .ok by
    obtain ⟨outcomes, traced⟩ := calls
    exact ⟨_, Replay.replay_eq_ok_iff.mpr ⟨outcomes, traced, rfl⟩⟩
  induction events generalizing s with
  | nil => exact ⟨[], rfl⟩
  | cons event rest ih =>
    obtain ⟨next, stepped⟩ : ∃ next, s.step solver (event.call s.tracker.options solver) = .ok next :=
      invariant.exists_step every _
    obtain ⟨o, returned, same⟩ := exists_handle_of_step stepped
    obtain ⟨later, tail⟩ := ih (invariant.step stepped)
    rw [← same] at tail
    exact ⟨o :: later, Replay.trace_cons_eq_iff.mpr ⟨o, later, returned, tail, rfl⟩⟩

theorem Replay.isSome_of_trace {t : Tracker ρ π} {events : List (Event ρ π)}
    {outcomes : List (CallOutcome ρ π)} (traced : t.trace solver events = outcomes.map .ok) :
    outcomes.map (·.result.isSome) = events.map Event.isCycle := by
  induction events generalizing t outcomes with
  | nil =>
    obtain rfl := trace_nil_eq_iff.mp traced
    rfl
  | cons event rest ih =>
    obtain ⟨o, outcomes, returned, tail, rfl⟩ := trace_cons_eq_iff.mp traced
    rw [List.map_cons, List.map_cons, ih tail]
    refine congrArg (· :: _) ?_
    cases event with
    | regions batch view =>
      cases returned
      rfl
    | detections batch odometry =>
      obtain ⟨_, -, same⟩ := bind_eq_ok_iff.mp returned
      cases same
      rfl

end Sound

def Track.row [Scalar ρ] [Scalar π] (t : Track ρ π) (stamp : Duration) (status : CycleStatus) :
    TrackRow ρ where
  stamp := stamp.seconds
  id := t.id
  position := t.state.position
  velocity := t.state.velocity
  objectClass := t.belief.mostLikely.objectClass
  status := status

theorem Track.rowOf_snapshot [Scalar ρ] {t : Track ρ Exact} (reachable : t.belief.Reachable)
    (header : Header) (status : CycleStatus) :
    Replay.rowOf header status t.snapshot = t.row header.stamp status := by
  have likely : t.snapshot.ranking.head? = some t.belief.mostLikely := reachable.head?_ranking
  unfold Replay.rowOf
  rw [likely]
  rfl

/-- What a call writes: the rows of all tracks that are live after it, with the stamp and the status
of the cycle, if it is one that was applied. -/
structure CallOutcome.Writes [Scalar ρ] (o : CallOutcome ρ Exact) : Prop where
  applied : o.isApplied = true → ∃ stamp status, o.tracker.lastUpdate = some stamp ∧
    o.result.map CycleResult.status = some status ∧ (status = .ok ∨ status = .invalidShape) ∧
    o.written = o.tracker.tracks.map fun t => t.row stamp status
  otherwise : o.isApplied = false → o.written = []
  distinct : (o.written.map TrackRow.id).Nodup

theorem CycleStatus.isApplied_eq_true_iff {status : CycleStatus} :
    status.isApplied = true ↔ status = .ok ∨ status = .invalidShape := by
  cases status <;> decide

theorem CallOutcome.IsSound.writes [ExtendedScalar ρ] {o : CallOutcome ρ Exact} (sound : o.IsSound) :
    o.Writes := by
  obtain ⟨tracker, result⟩ := o
  cases result with
  | none => exact ⟨nofun, fun _ => rfl, .nil⟩
  | some result =>
    cases cycle : result.status.isApplied with
    | false =>
      have none : CallOutcome.written ⟨tracker, some result⟩ = ([] : List (TrackRow ρ)) := by
        change Replay.rowsOf result = []
        unfold Replay.rowsOf
        rw [sound.rejected result rfl cycle]
      refine ⟨fun applied => ?_, fun _ => none, ?_⟩
      · exact absurd (cycle.symm.trans applied) Bool.false_ne_true
      · rw [none]
        exact .nil
    | true =>
      obtain ⟨stamp, latest, report⟩ := sound.applied result rfl cycle
      have rows : CallOutcome.written ⟨tracker, some result⟩ =
          tracker.tracks.map fun t => t.row stamp result.status := by
        change Replay.rowsOf result = _
        unfold Replay.rowsOf
        rw [report]
        dsimp only [Tracker.report]
        rw [List.map_map]
        exact List.map_congr_left fun t member => t.rowOf_snapshot (sound.beliefs t member) _ _
      refine ⟨fun _ => ?_, fun idle => ?_, ?_⟩
      · exact ⟨stamp, result.status, latest, rfl, CycleStatus.isApplied_eq_true_iff.mp cycle, rows⟩
      · exact absurd (cycle.symm.trans idle) nofun
      · rw [rows, List.map_map]
        exact sound.distinct

theorem CallOutcome.Writes.length_written [Scalar ρ] {o : CallOutcome ρ Exact} (writes : o.Writes) :
    o.written.length = if o.isApplied then o.tracker.tracks.length else 0 := by
  cases cycle : o.isApplied with
  | false =>
    rw [writes.otherwise cycle]
    rfl
  | true =>
    obtain ⟨stamp, status, -, -, -, rows⟩ := writes.applied cycle
    rw [rows, List.length_map]
    rfl

theorem CallOutcome.Writes.exists_stamp [Scalar ρ] {o : CallOutcome ρ Exact} (writes : o.Writes)
    {row : TrackRow ρ} (member : row ∈ o.written) :
    ∃ stamp : Duration, o.tracker.lastUpdate = some stamp ∧ row.stamp = stamp.seconds := by
  cases cycle : o.isApplied with
  | false =>
    rw [writes.otherwise cycle] at member
    cases member
  | true =>
    obtain ⟨stamp, status, latest, -, -, rows⟩ := writes.applied cycle
    rw [rows] at member
    obtain ⟨t, -, rfl⟩ := List.mem_map.mp member
    exact ⟨stamp, latest, rfl⟩

theorem Duration.realSeconds_eq (d : Duration) : d.realSeconds = d.nanoseconds / 1000000000 := by
  have parts := Nat.div_add_mod d.nanoseconds nanosecondsPerSecond
  have whole : (d.nanoseconds : ℝ) = 1000000000 * d.wholeSeconds + d.subsecond := by
    rw [← parts]
    push_cast [wholeSeconds, subsecond, nanosecondsPerSecond]
    norm_num
  unfold realSeconds
  rw [whole]
  ring

theorem Duration.seconds_mono {a b : Duration} (below : a ≤ b) : (a.seconds : Exact) ≤ b.seconds := by
  rw [seconds_exact, seconds_exact, Exact.finite_le_finite, realSeconds_eq, realSeconds_eq]
  have nanoseconds : (a.nanoseconds : ℝ) ≤ b.nanoseconds := Nat.cast_le.mpr below
  linarith

namespace Replay

/-- What the summary and the rows of a replay say of the calls that its events made. -/
structure Accounts (solver : Solver) (t : Tracker Exact Exact) (events : List (Event Exact Exact))
    (outcomes : List (CallOutcome Exact Exact)) (r : Replay Exact Exact) : Prop where
  traced : t.trace solver events = outcomes.map .ok
  last : r.tracker = (outcomes.map CallOutcome.tracker).getLastD t
  detectionCycles : r.summary.detectionCycles = events.countP Event.isCycle
  visionCycles : r.summary.visionCycles = events.countP (!·.isCycle)
  rejectedCycles : r.summary.rejectedCycles = outcomes.countP CallOutcome.isRejection
  inOrder : r.rows = outcomes.flatMap CallOutcome.written
  writes : ∀ o ∈ outcomes, o.Writes
  rows : r.summary.rows = r.rows.length
  liveTracks : r.summary.rows =
    ((outcomes.filter CallOutcome.isApplied).map (·.tracker.tracks.length)).sum
  stamps : r.rows.Pairwise fun earlier later => earlier.stamp ≤ later.stamp
  /-- A replay splits wherever its events do. -/
  splits : ∀ earlier later, events = earlier ++ later → ∃ first second,
    t.replay solver earlier = .ok first ∧ first.tracker.replay solver later = .ok second ∧
      first.followedBy second = r
  continues : ∀ (more : List (Event Exact Exact)) (second : Replay Exact Exact),
    r.tracker.replay solver more = .ok second →
      t.replay solver (events ++ more) = .ok (r.followedBy second)

theorem sum_map_ite {α : Type} (p : α → Bool) (size : α → Nat) (l : List α) :
    (l.map fun a => if p a then size a else 0).sum = ((l.filter p).map size).sum := by
  induction l with
  | nil => rfl
  | cons a rest ih =>
    rw [List.map_cons, List.sum_cons, ih, List.filter_cons]
    split_ifs
    · rw [List.map_cons, List.sum_cons]
    · exact Nat.zero_add _

theorem countP_of_map_eq {α β : Type} {f : α → Bool} {g : β → Bool} {l : List α} {l' : List β}
    (same : l.map f = l'.map g) (p : Bool → Bool) :
    l.countP (fun a => p (f a)) = l'.countP fun b => p (g b) := by
  have counts := congrArg (List.countP p) same
  rwa [List.countP_map, List.countP_map] at counts

variable {solver : Solver} {options : TrackerOptions Exact} {s : Session Exact Exact}
  {calls : List (Call Exact Exact)} {events : List (Event Exact Exact)} {r : Replay Exact Exact}

/-- A replay that returns accounts for all its events, whatever calls the tracker went through before.
-/
theorem accounts_of_replay (reached : (Session.start options).run solver calls = .ok s)
    (returned : s.tracker.replay solver events = .ok r) :
    ∃ outcomes, Accounts solver s.tracker events outcomes r := by
  obtain ⟨outcomes, traced, same⟩ := replay_eq_ok_iff.mp returned
  obtain ⟨sound, ascending⟩ := (Session.invariant_of_run reached).sound_of_trace
    (Session.beliefsReachable_of_run reached) traced
  have cycles := isSome_of_trace traced
  have writes : ∀ o ∈ outcomes, o.Writes := fun o member => (sound o member).1.writes
  subst same
  refine ⟨outcomes, traced, rfl, ?_, ?_, rfl, rfl, writes, rfl, ?_, ?_, ?_, ?_⟩
  · exact countP_of_map_eq cycles id
  · exact countP_of_map_eq cycles not
  · change (outcomes.flatMap CallOutcome.written).length = _
    rw [List.length_flatMap, ← sum_map_ite]
    exact congrArg List.sum (List.map_congr_left fun o member => (writes o member).length_written)
  -- the rows of a call share its stamp, and the calls after it are no earlier
  · refine List.pairwise_flatMap.mpr ⟨fun o member => ?_, ?_⟩
    · refine List.pairwise_of_forall_mem_list fun a first b second => ?_
      obtain ⟨stamp, latest, early⟩ := (writes o member).exists_stamp first
      obtain ⟨stamp', latest', late⟩ := (writes o member).exists_stamp second
      obtain rfl := Option.some.inj (latest.symm.trans latest')
      rw [early, late]
      exact Duration.seconds_mono (Nat.le_refl _)
    · refine ascending.imp_of_mem fun {o o'} member member' noEarlier a first b second => ?_
      obtain ⟨stamp, latest, early⟩ := (writes o member).exists_stamp first
      obtain ⟨stamp', latest', late⟩ := (writes o' member').exists_stamp second
      obtain ⟨later, same, below⟩ := noEarlier stamp latest
      obtain rfl := Option.some.inj (latest'.symm.trans same)
      rw [early, late]
      exact Duration.seconds_mono below
  · intro earlier later split
    rw [split] at returned
    exact replay_append_eq_ok_iff.mp returned
  · intro more second continued
    exact replay_append_eq_ok_iff.mpr ⟨_, second, returned, continued, rfl⟩

/-- A car that is seen, then looked at by a camera, refused a batch of the past, and missed. -/
theorem accounts_of_drive :
    let solver := Solver.augmentingPaths
    let options : TrackerOptions Exact := .standard
    let events : List (Event Exact Exact) :=
      [.detections (Scene.batch Scene.second [Scene.car 10]) Scene.odometry,
        .regions ⟨⟨Scene.second, "camera"⟩, [⟨[], []⟩]⟩ .identity,
        .detections (Scene.batch 0 [Scene.car 11]) Scene.odometry,
        .detections (Scene.batch Scene.second []) Scene.odometry]
    (Session.start options : Session Exact Exact).run solver [] = .ok (.start options) ∧
      ∃ r outcomes, (Tracker.start options).replay solver events = .ok r ∧
        Accounts solver (.start options) events outcomes r := by
  intro solver options events
  have reached : (Session.start options : Session Exact Exact).run solver [] =
      .ok (.start options) := rfl
  obtain ⟨r, returned⟩ := (Session.invariant_of_run reached).exists_replay rfl solver events
  obtain ⟨outcomes, accounts⟩ := accounts_of_replay reached returned
  exact ⟨reached, r, outcomes, returned, accounts⟩

end Replay

end TrackFusion
