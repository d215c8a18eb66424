import TrackFusion.Proofs.Tracker.Classes
import TrackFusion.Proofs.Tracker.Overflow

/-!
Rejected detection cycles leave no trace.

The check of a cycle names the first of four objections. A cycle that meets one is answered with it
and changes nothing, so that rejected cycles can be deleted from any sequence of calls: the answers
to the other calls, the tracker after them and a failure in between stay what they were.
-/

set_option autoImplicit false
set_option relaxedAutoImplicit false

namespace TrackFusion

variable {ρ π : Type}

def CycleStatus.objections : List CycleStatus :=
  [.wentBackInTime, .detectionFrameMismatch, .trackerFrameMismatch, .frameNotGravityAligned]

def CycleResult.isRejection (r : CycleResult ρ π) : Bool :=
  !r.status.isApplied

/-- The answers to the calls that returned (only detection cycles have one), the tracker after them,
and the failure that ended the calls, if one did. -/
structure Transcript (ρ π : Type) where
  answers : List (Option (CycleResult ρ π))
  last : Tracker ρ π
  failure : Option DurationOverflow

def Transcript.withoutRejections (r : Transcript ρ π) : Transcript ρ π :=
  { r with answers := r.answers.filter fun answer => !answer.any CycleResult.isRejection }

namespace Tracker

section Validation

variable [Scalar ρ]

def Objects (t : Tracker ρ π) (batch : DetectionBatch ρ π) (odometry : Odometry ρ) :
    CycleStatus → Prop
  | .wentBackInTime => ∃ last, t.lastUpdate = some last ∧ batch.header.stamp < last
  | .detectionFrameMismatch => batch.header.frame ≠ odometry.childFrame
  | .trackerFrameMismatch => odometry.header.frame ≠ t.options.frame
  | .frameNotGravityAligned => odometry.pose.rotation.isGravityAligned = false
  | .ok | .invalidShape => False

/-- The status is the first objection that a cycle meets, or `ok` if it meets none. -/
inductive Verdict (t : Tracker ρ π) (batch : DetectionBatch ρ π) (odometry : Odometry ρ) :
    CycleStatus → Prop
  | accepted : (∀ s, ¬ t.Objects batch odometry s) → Verdict t batch odometry .ok
  | rejected (before after : List CycleStatus) {s : CycleStatus} :
      CycleStatus.objections = before ++ s :: after → t.Objects batch odometry s →
      (∀ earlier ∈ before, ¬ t.Objects batch odometry earlier) → Verdict t batch odometry s

theorem verdict_validate (t : Tracker ρ π) (batch : DetectionBatch ρ π) (odometry : Odometry ρ) :
    t.Verdict batch odometry (t.validate batch odometry) := by
  have past : (t.lastUpdate.any fun last => batch.header.stamp < last) = true ↔
      t.Objects batch odometry .wentBackInTime := by
    simp only [Objects, Option.any_eq_true, decide_eq_true_eq]
  have tilted : (!odometry.pose.rotation.isGravityAligned) = true ↔
      t.Objects batch odometry .frameNotGravityAligned := by
    simp only [Objects, Bool.not_eq_true']
  unfold validate
  -- the check that fails is the first objection, as those before it were passed
  split_ifs with first second third fourth
  · exact .rejected [] _ rfl (past.mp first) (by simp)
  · exact .rejected [.wentBackInTime] _ rfl second (by simpa using mt past.mpr first)
  · refine .rejected [.wentBackInTime, .detectionFrameMismatch] _ rfl third ?_
    simpa using ⟨mt past.mpr first, second⟩
  · refine .rejected [.wentBackInTime, .detectionFrameMismatch, .trackerFrameMismatch] _ rfl
      (tilted.mp fourth) ?_
    simpa using ⟨mt past.mpr first, second, third⟩
  · refine .accepted fun s objects => ?_
    cases s with
    | ok => exact objects
    | wentBackInTime => exact first (past.mpr objects)
    | detectionFrameMismatch => exact second objects
    | trackerFrameMismatch => exact third objects
    | frameNotGravityAligned => exact fourth (tilted.mpr objects)
    | invalidShape => exact objects

theorem validate_eq_ok_iff {t : Tracker ρ π} {batch : DetectionBatch ρ π}
    {odometry : Odometry ρ} :
    t.validate batch odometry = .ok ↔ ∀ s, ¬ t.Objects batch odometry s := by
  have verdict := t.verdict_validate batch odometry
  constructor
  · intro accepted
    rw [accepted] at verdict
    cases verdict with
    | accepted none => exact none
    | rejected before after listed objects => exact absurd objects id
  · intro none
    generalize t.validate batch odometry = status at verdict
    cases verdict with
    | accepted => rfl
    | rejected before after listed objects => exact absurd objects (none status)

end Validation

variable [ExtendedScalar ρ] [Scalar π]

def handle (solver : Solver) (t : Tracker ρ π) :
    Call ρ π → Except DurationOverflow (CallOutcome ρ π)
  | .detections associate batch odometry => do
    let (next, result) ← t.updateWith solver associate batch odometry
    return ⟨next, some result⟩
  | .regions associate batch view =>
    return ⟨t.updateVisionWith batch view (associate batch.regions view t.tracks), none⟩

/-- The transcript of a sequence of calls, up to the first failure. -/
def transcript (solver : Solver) : Tracker ρ π → List (Call ρ π) → Transcript ρ π
  | t, [] => ⟨[], t, none⟩
  | t, call :: rest =>
    match t.handle solver call with
    | .error e => ⟨[], t, some e⟩
    | .ok o =>
      let later := o.tracker.transcript solver rest
      { later with answers := o.result :: later.answers }

/-- The calls that are left when the rejected ones are deleted. -/
def withoutRejected (solver : Solver) : Tracker ρ π → List (Call ρ π) → List (Call ρ π)
  | _, [] => []
  | t, call :: rest =>
    match t.handle solver call with
    | .error _ => call :: rest
    | .ok o =>
      if o.result.any CycleResult.isRejection then o.tracker.withoutRejected solver rest
      else call :: o.tracker.withoutRejected solver rest

variable {solver : Solver} {t : Tracker ρ π}

theorem applied_of_accepted {associate : List (Detection ρ π) → List (Track ρ π) → Association}
    {batch : DetectionBatch ρ π} {odometry : Odometry ρ} {next : Tracker ρ π}
    {result : CycleResult ρ π} (accepted : t.validate batch odometry = .ok)
    (returned : t.updateWith solver associate batch odometry = .ok (next, result)) :
    result.status.isApplied = true ∧ result.report = some (next.report batch.header.stamp) := by
  obtain ⟨s, -, rfl, rfl⟩ := (updateWith_eq_ok_iff accepted).mp returned
  exact ⟨isApplied_resultOf _ _ _, rfl⟩

theorem exists_updateWith_iff (associate : List (Detection ρ π) → List (Track ρ π) → Association)
    {batch : DetectionBatch ρ π} {odometry : Odometry ρ}
    (accepted : t.validate batch odometry = .ok) :
    (∃ next result, t.updateWith solver associate batch odometry = .ok (next, result)) ↔
      t.HasTimeFor batch.header.stamp := by
  rw [← stamp_transform batch odometry t.options.frame, ← exists_stages_iff]
  constructor
  · rintro ⟨next, result, returned⟩
    obtain ⟨s, staged, -, -⟩ := (updateWith_eq_ok_iff accepted).mp returned
    exact ⟨s, staged⟩
  · rintro ⟨s, staged⟩
    exact ⟨_, _, (updateWith_eq_ok_iff accepted).mpr ⟨s, staged, rfl, rfl⟩⟩

theorem eq_of_rejection {call : Call ρ π} {o : CallOutcome ρ π}
    (returned : t.handle solver call = .ok o)
    (rejection : o.result.any CycleResult.isRejection = true) : o.tracker = t := by
  cases call with
  | regions associate batch view =>
    cases returned
    cases rejection
  | detections associate batch odometry =>
    obtain ⟨⟨next, result⟩, updated, same⟩ := bind_eq_ok_iff.mp returned
    obtain rfl := pure_eq_ok_iff.mp same
    by_cases accepted : t.validate batch odometry = .ok
    · have applied := (applied_of_accepted accepted updated).1
      have rejected : (!result.status.isApplied) = true := rejection
      rw [applied] at rejected
      cases rejected
    · rw [updateWith_of_rejected _ _ accepted] at updated
      cases updated
      rfl

/-- Without the rejected calls the transcript is the one without their rejections. -/
theorem transcript_withoutRejected (solver : Solver) (t : Tracker ρ π) (calls : List (Call ρ π)) :
    t.transcript solver (t.withoutRejected solver calls) =
      (t.transcript solver calls).withoutRejections := by
  induction calls generalizing t with
  | nil => rfl
  | cons call rest ih =>
    cases returned : t.handle solver call with
    | error e => simp only [withoutRejected, transcript, returned, Transcript.withoutRejections,
        List.filter_nil]
    | ok o =>
      have later := ih o.tracker
      cases rejection : o.result.any CycleResult.isRejection with
      | true =>
        have same := eq_of_rejection returned rejection
        rw [same] at later
        simp only [withoutRejected, transcript, returned, rejection, if_true, same, later,
          Transcript.withoutRejections, List.filter_cons, Bool.not_true, Bool.false_eq_true,
          if_false]
      | false =>
        simp only [withoutRejected, transcript, returned, rejection, if_false, later,
          Transcript.withoutRejections, List.filter_cons, Bool.not_false, if_true,
          Bool.false_eq_true]

/-- What rejections are to a tracker and to a sequence of calls of it. -/
structure LeavesNoTrace (solver : Solver) (t : Tracker ρ π) (calls : List (Call ρ π)) : Prop where
  verdict : ∀ (batch : DetectionBatch ρ π) (odometry : Odometry ρ),
    t.Verdict batch odometry (t.validate batch odometry)
  rejected : ∀ (associate : List (Detection ρ π) → List (Track ρ π) → Association)
    (batch : DetectionBatch ρ π) (odometry : Odometry ρ), t.validate batch odometry ≠ .ok →
    t.updateWith solver associate batch odometry = .ok (t, ⟨t.validate batch odometry, none⟩) ∧
      (t.validate batch odometry).isApplied = false
  /-- Any other cycle returns, whatever it associates, unless it would have to hold a time that is
  too long. -/
  returns_iff : ∀ (associate : List (Detection ρ π) → List (Track ρ π) → Association)
    (batch : DetectionBatch ρ π) (odometry : Odometry ρ), t.validate batch odometry = .ok →
    ((∃ next result, t.updateWith solver associate batch odometry = .ok (next, result)) ↔
      t.HasTimeFor batch.header.stamp)
  applied : ∀ (associate : List (Detection ρ π) → List (Track ρ π) → Association)
    (batch : DetectionBatch ρ π) (odometry : Odometry ρ) (next : Tracker ρ π)
    (result : CycleResult ρ π), t.validate batch odometry = .ok →
    t.updateWith solver associate batch odometry = .ok (next, result) →
    result.status.isApplied = true ∧ result.report = some (next.report batch.header.stamp) ∧
      ∃ s, AppliedCycle solver associate t (batch.transform odometry t.options.frame) s next
  deleted : t.transcript solver (t.withoutRejected solver calls) =
    (t.transcript solver calls).withoutRejections

theorem rejections_leaveNoTrace (solver : Solver) (t : Tracker ρ π) (calls : List (Call ρ π)) :
    LeavesNoTrace solver t calls where
  verdict := verdict_validate t
  rejected := by
    intro associate batch odometry rejected
    refine ⟨updateWith_of_rejected solver associate rejected, ?_⟩
    rw [← Bool.not_eq_true]
    exact mt (isApplied_validate t batch odometry).mp rejected
  returns_iff := fun associate _ _ accepted => exists_updateWith_iff associate accepted
  applied := by
    intro associate batch odometry next result accepted returned
    obtain ⟨status, report⟩ := applied_of_accepted accepted returned
    exact ⟨status, report, updateWith_applied accepted returned⟩
  deleted := transcript_withoutRejected solver t calls

end Tracker

end TrackFusion
