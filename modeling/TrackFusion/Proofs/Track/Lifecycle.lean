import Mathlib.Logic.Basic
import TrackFusion.Proofs.Sequencing
import TrackFusion.Track

/-!
What one cycle does to one track.

A prediction changes the state and the age. A correction either succeeds in all its parts, and then
the track is as fresh as a new one with one hit more, or it fails in one of them, and then nothing
of it is kept. So every predicted track is either corrected or missed, and never both.
-/

set_option autoImplicit false
set_option relaxedAutoImplicit false

namespace TrackFusion

namespace Duration

theorem exists_add_eq_ok {a b : Duration} (short : a.nanoseconds + b.nanoseconds < durationLimit) :
    ∃ c, a.add b = .ok c :=
  ⟨⟨_, short⟩, add_eq_ok_iff.mpr rfl⟩

theorem le_iff {a b : Duration} : a ≤ b ↔ a.nanoseconds ≤ b.nanoseconds :=
  Iff.rfl

theorem lt_iff {a b : Duration} : a < b ↔ a.nanoseconds < b.nanoseconds :=
  Iff.rfl

@[simp] theorem nanoseconds_zero : (0 : Duration).nanoseconds = 0 :=
  rfl

end Duration

namespace Track

variable {ρ π : Type}

theorem isStale_eq_true_iff {t : Track ρ π} {time : Duration} {ticks : Nat} :
    t.isStale time ticks = true ↔ time < t.timeSinceUpdate ∨ ticks < t.ticksSinceUpdate := by
  simp only [isStale, Bool.or_eq_true, decide_eq_true_eq]

variable [Scalar ρ]

theorem predict_eq_ok_iff {t p : Track ρ π} {dt : Duration} :
    t.predict dt = .ok p ↔ ∃ age, t.timeSinceUpdate.add dt = .ok age ∧
      { t with state := t.model.predict t.state dt, timeSinceUpdate := age } = p := by
  simp only [predict, bind_eq_ok_iff, pure_eq_ok_iff]

theorem predict_fields {t p : Track ρ π} {dt : Duration} (predicted : t.predict dt = .ok p) :
    p.id = t.id ∧ p.hits = t.hits ∧ p.ticksSinceUpdate = t.ticksSinceUpdate ∧
      p.timeSinceUpdate.nanoseconds = t.timeSinceUpdate.nanoseconds + dt.nanoseconds := by
  obtain ⟨age, sum, rfl⟩ := predict_eq_ok_iff.mp predicted
  exact ⟨rfl, rfl, rfl, Duration.add_eq_ok_iff.mp sum⟩

theorem predict_id {t p : Track ρ π} {dt : Duration} (predicted : t.predict dt = .ok p) :
    p.id = t.id :=
  (predict_fields predicted).1

theorem exists_predict_eq_ok {t : Track ρ π} {dt : Duration}
    (short : t.timeSinceUpdate.nanoseconds + dt.nanoseconds < durationLimit) :
    ∃ p, t.predict dt = .ok p := by
  obtain ⟨age, sum⟩ := Duration.exists_add_eq_ok short
  exact ⟨_, predict_eq_ok_iff.mpr ⟨age, sum, rfl⟩⟩

/-- The correction of a track by a detection breaks off: at the position, or after the position
succeeded at the velocity. -/
inductive CorrectionFails (t : Track ρ π) (d : Detection ρ π) : Prop
  | position {e : MeasurementError} :
      t.state.correct .position d.centroid.planar (d.positionNoise t.noiseVariance) = .error e →
      CorrectionFails t d
  | velocity {twist : Twist ρ} {s : KinematicState ρ} {e : MeasurementError} :
      d.twist = some twist →
      t.state.correct .position d.centroid.planar (d.positionNoise t.noiseVariance) = .ok s →
      s.correct .velocity twist.linear.planar (isotropic t.noiseVariance) = .error e →
      CorrectionFails t d

theorem correctedState_eq_error_iff {t : Track ρ π} {d : Detection ρ π} :
    (∃ e, t.correctedState d = .error e) ↔ t.CorrectionFails d := by
  constructor
  · rintro ⟨e, failed⟩
    unfold correctedState at failed
    cases first : t.state.correct .position d.centroid.planar (d.positionNoise t.noiseVariance) with
    | error e => exact .position first
    | ok s =>
      cases measured : d.twist with
      | none => simp [first, measured, Bind.bind, Except.bind, pure, Except.pure] at failed
      | some twist =>
        simp only [first, measured, Bind.bind, Except.bind] at failed
        exact .velocity measured first failed
  · intro fails
    cases fails with
    | @position e first =>
      refine ⟨e, ?_⟩
      simp only [correctedState, first, Bind.bind, Except.bind]
    | @velocity twist s e measured first second =>
      refine ⟨e, ?_⟩
      simp only [correctedState, first, measured, second, Bind.bind, Except.bind]

theorem correctedState_cases {t : Track ρ π} {d : Detection ρ π} {s : KinematicState ρ}
    (corrected : t.correctedState d = .ok s) :
    ∃ first, t.state.correct .position d.centroid.planar (d.positionNoise t.noiseVariance) =
        .ok first ∧
      (s = first ∨ ∃ twist, d.twist = some twist ∧
        first.correct .velocity twist.linear.planar (isotropic t.noiseVariance) = .ok s) := by
  obtain ⟨first, position, rest⟩ := bind_eq_ok_iff.mp corrected
  refine ⟨first, position, ?_⟩
  cases seen : d.twist with
  | none =>
    rw [seen] at rest
    exact .inl (pure_eq_ok_iff.mp rest).symm
  | some twist =>
    rw [seen] at rest
    exact .inr ⟨twist, rfl, rest⟩

variable [Scalar π]

theorem update_fields {t u : Track ρ π} {d : Detection ρ π} (updated : t.update d = .ok u) :
    u.id = t.id ∧ u.hits = t.hits + 1 ∧ u.ticksSinceUpdate = 0 ∧ u.timeSinceUpdate = 0 := by
  simp only [update, bind_eq_ok_iff, pure_eq_ok_iff] at updated
  obtain ⟨s, _, rfl⟩ := updated
  exact ⟨rfl, rfl, rfl, rfl⟩

theorem update_eq_error_iff {t : Track ρ π} {d : Detection ρ π} :
    (∃ e, t.update d = .error e) ↔ t.CorrectionFails d := by
  rw [← correctedState_eq_error_iff]
  unfold update
  cases t.correctedState d <;> simp [Bind.bind, Except.bind, pure, Except.pure]

/-- A predicted track `p` was given a detection, every part of the correction by it succeeded, and
the track became `q`. -/
def Corrected (p : Track ρ π) (given : Option (Detection ρ π)) (q : Track ρ π) : Prop :=
  ∃ d, given = some d ∧ p.update d = .ok q ∧
    q.hits = p.hits + 1 ∧ q.ticksSinceUpdate = 0 ∧ q.timeSinceUpdate = 0

/-- A predicted track `p` was given no detection, or one whose correction breaks off, and became
`q`, in which only the count of missed cycles differs. -/
def Missed (p : Track ρ π) (given : Option (Detection ρ π)) (q : Track ρ π) : Prop :=
  (∀ d, given = some d → p.CorrectionFails d) ∧
    q = { p with ticksSinceUpdate := p.ticksSinceUpdate + 1 }

theorem advance_cases (p : Track ρ π) (given : Option (Detection ρ π)) :
    p.Corrected given (p.advance given) ∨ p.Missed given (p.advance given) := by
  cases given with
  | none => exact .inr ⟨nofun, rfl⟩
  | some d =>
    cases updated : p.update d with
    | error e =>
      refine .inr ⟨?_, by simp only [advance, updated, miss]⟩
      rintro _ ⟨rfl⟩
      exact update_eq_error_iff.mp ⟨e, updated⟩
    | ok u =>
      have same : p.advance (some d) = u := by simp only [advance, updated]
      rw [same]
      exact .inl ⟨d, rfl, updated, (update_fields updated).2⟩

theorem Corrected.not_missed {p q : Track ρ π} {given : Option (Detection ρ π)}
    (corrected : p.Corrected given q) : ¬ p.Missed given q := by
  rintro ⟨fails, -⟩
  obtain ⟨d, same, updated, -⟩ := corrected
  obtain ⟨e, failed⟩ := update_eq_error_iff.mpr (fails d same)
  rw [updated] at failed
  cases failed

/-- Exactly one of a correction and a miss happens to a predicted track. -/
theorem corrected_xor_missed (p : Track ρ π) (given : Option (Detection ρ π)) :
    Xor (p.Corrected given (p.advance given)) (p.Missed given (p.advance given)) := by
  rcases advance_cases p given with corrected | missed
  · exact .inl ⟨corrected, corrected.not_missed⟩
  · exact .inr ⟨missed, fun corrected => corrected.not_missed missed⟩

theorem advance_id (p : Track ρ π) (given : Option (Detection ρ π)) :
    (p.advance given).id = p.id := by
  rcases advance_cases p given with ⟨d, -, updated, -⟩ | ⟨-, same⟩
  · exact (update_fields updated).1
  · rw [same]

end Track

end TrackFusion
