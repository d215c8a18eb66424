import Mathlib.Tactic.NormNum
import TrackFusion.Proofs.Scalar.Exact
import TrackFusion.Tracker.Options

/-!
What usable options promise.

Options can be used exactly if every checked value passes its own check. In exact numbers the
variances are then positive and the process noise is not negative.
-/

set_option autoImplicit false
set_option relaxedAutoImplicit false

namespace TrackFusion

namespace TrackerOptions

theorem validate_eq_ok_iff {ρ : Type} [Scalar ρ] {o : TrackerOptions ρ} :
    o.validate = .ok () ↔ ∀ c ∈ o.checks, c.2.2 = true := by
  unfold validate
  split
  · rename_i option value valid found
    have listed := List.mem_of_find?_eq_some found
    have failed := List.find?_some found
    dsimp only at failed
    constructor
    · intro passed
      cases passed
    · intro every
      have passed : valid = true := every _ listed
      rw [passed] at failed
      cases failed
  · rename_i found
    rw [List.find?_eq_none] at found
    refine ⟨fun _ c member => ?_, fun _ => rfl⟩
    have passed := found c member
    rwa [Bool.not_eq_true', Bool.not_eq_false] at passed

private theorem exists_variance {v : Exact} (valid : isVariance v = true) :
    ∃ x, v = .finite x ∧ 0 < x := by
  unfold isVariance at valid
  rw [Bool.and_eq_true, decide_eq_true_eq] at valid
  obtain ⟨x, rfl⟩ := Exact.isFinite_iff.mp valid.1
  exact ⟨x, rfl, Exact.finite_lt_finite.mp valid.2⟩

theorem exists_noise_eq {o : TrackerOptions Exact} (usable : o.validate = .ok ()) :
    ∃ initial measured process : ℝ,
      o.creation.noise = ⟨⟨.finite process⟩, .finite initial, .finite measured⟩ ∧
        0 < initial ∧ 0 < measured ∧ 0 ≤ process := by
  have checked := validate_eq_ok_iff.mp usable
  simp only [checks, List.forall_mem_cons] at checked
  obtain ⟨-, -, -, -, -, default, noise, process, -⟩ := checked
  obtain ⟨p, first, initial⟩ := exists_variance default
  obtain ⟨r, second, measured⟩ := exists_variance noise
  rw [Bool.and_eq_true, decide_eq_true_eq] at process
  obtain ⟨q, third⟩ := Exact.isFinite_iff.mp process.1
  have nonneg := process.2
  rw [third, Exact.zero_eq, Exact.finite_le_finite] at nonneg
  refine ⟨p, r, q, ?_, initial, measured, nonneg⟩
  rw [← first, ← second, ← third]

theorem validate_standard : (standard : TrackerOptions Exact).validate = .ok () := by
  rw [validate_eq_ok_iff]
  simp only [checks, standard, ObjectGates.standard, VisionGates.standard,
    CreationSettings.standard, List.forall_mem_cons, isVariance, planarQuantile,
    Exact.scientific_eq, Exact.zero_eq, Exact.one_eq, Exact.finite_le_finite,
    Exact.finite_lt_finite, Exact.isFinite_finite, decide_eq_true_eq, Bool.and_eq_true]
  norm_num

end TrackerOptions

end TrackFusion
