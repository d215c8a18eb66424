import Mathlib.Analysis.Matrix.PosDef
import TrackFusion.Proofs.Kalman.GatingDistance
import TrackFusion.Proofs.Linear.RealMatrix

/-!
Triangular factors of symmetric real matrices.

A symmetric matrix has a factor exactly if it is positive definite, and solving with the factor then
multiplies by the inverse matrix.
-/

set_option autoImplicit false
set_option relaxedAutoImplicit false

namespace TrackFusion

variable {s : Matrix (Fin 2) (Fin 2) ℝ} {n : Nat}

theorem posDef_iff_of_two (symm : s.IsSymm) :
    s.PosDef ↔ 0 < s 0 0 ∧ 0 < s 0 0 * s 1 1 - s 1 0 * s 1 0 := by
  have corner : s 0 1 = s 1 0 := symm.apply 1 0
  constructor
  · intro definite
    have first := definite.dotProduct_mulVec_pos (x := ![1, 0]) (by simp)
    have det := definite.det_pos
    rw [Matrix.det_fin_two, corner] at det
    simp [Matrix.mulVec, dotProduct] at first
    exact ⟨first, det⟩
  · rintro ⟨first, det⟩
    refine .of_dotProduct_mulVec_pos (Matrix.isHermitian_iff_isSymm.mpr symm) fun x nonzero => ?_
    -- complete the square in the first coordinate
    have form : star x ⬝ᵥ s.mulVec x =
        ((s 0 0 * x 0 + s 1 0 * x 1) ^ 2 + (s 0 0 * s 1 1 - s 1 0 * s 1 0) * x 1 ^ 2) / s 0 0 := by
      simp only [star_trivial, dotProduct, Matrix.mulVec, Fin.sum_univ_two, corner]
      field_simp
      ring
    rw [form]
    refine div_pos ?_ first
    by_cases second : x 1 = 0
    · have : x 0 ≠ 0 := by
        intro zero
        exact nonzero (by ext i; fin_cases i <;> assumption)
      rw [second, mul_zero, add_zero, zero_pow two_ne_zero, mul_zero, add_zero]
      positivity
    · exact add_pos_of_nonneg_of_pos (sq_nonneg _) (mul_pos det (by positivity))

namespace LowerFactor

/-- The factor of a real matrix with positive pivots. -/
noncomputable def ofReal (s : Matrix (Fin 2) (Fin 2) ℝ) : LowerFactor Exact where
  upperDiagonal := .finite √(s Plane.x Plane.x)
  corner := .finite (s Plane.y Plane.x / √(s Plane.x Plane.x))
  lowerDiagonal := .finite √(s Plane.y Plane.y -
    s Plane.y Plane.x / √(s Plane.x Plane.x) * (s Plane.y Plane.x / √(s Plane.x Plane.x)))

theorem pivotRoot?_finite (x : ℝ) :
    pivotRoot? (Exact.finite x) = if 0 < x then some (.finite √x) else none := by
  unfold pivotRoot?
  rw [Exact.zero_eq]
  by_cases positive : 0 < x
  · rw [if_pos (Exact.finite_lt_finite.mpr positive), if_pos positive,
      Exact.sqrt_finite positive.le]
  · rw [if_neg (mt Exact.finite_lt_finite.mp positive), if_neg positive]

theorem pivot_eq (first : 0 < s 0 0) : s 1 1 - s 1 0 / √(s 0 0) * (s 1 0 / √(s 0 0)) =
    (s 0 0 * s 1 1 - s 1 0 * s 1 0) / s 0 0 := by
  rw [div_mul_div_comm, Real.mul_self_sqrt first.le]
  field_simp

theorem ofMatrix?_ofReal_eq_some_iff (symm : s.IsSymm) {l : LowerFactor Exact} :
    ofMatrix? (Mat.ofReal s) = some l ↔ s.PosDef ∧ l = ofReal s := by
  rw [posDef_iff_of_two symm]
  unfold ofMatrix?
  simp only [Mat.entry_ofReal, pivotRoot?_finite, Option.bind_eq_bind]
  by_cases first : 0 < s 0 0
  · have root : √(s 0 0) ≠ 0 := (Real.sqrt_pos.mpr first).ne'
    rw [if_pos first, Option.bind_some, Exact.finite_div_finite root, Exact.finite_mul_finite,
      Exact.finite_sub_finite, pivotRoot?_finite]
    have second : 0 < s 1 1 - s 1 0 / √(s 0 0) * (s 1 0 / √(s 0 0)) ↔
        0 < s 0 0 * s 1 1 - s 1 0 * s 1 0 := by
      rw [pivot_eq first, div_pos_iff_of_pos_right first]
    by_cases det : 0 < s 0 0 * s 1 1 - s 1 0 * s 1 0
    · rw [if_pos (second.mpr det), Option.bind_some, Option.some.injEq]
      exact ⟨fun same => ⟨⟨first, det⟩, same.symm⟩, fun both => both.2.symm⟩
    · rw [if_neg (mt second.mp det), Option.bind_none]
      exact ⟨nofun, fun both => absurd both.1.2 det⟩
  · rw [if_neg first, Option.bind_none]
    exact ⟨nofun, fun both => absurd both.1.1 first⟩

theorem ofMatrix?_ofReal_of_not_posDef (symm : s.IsSymm) (indefinite : ¬ s.PosDef) :
    ofMatrix? (Mat.ofReal s) = none :=
  Option.eq_none_iff_forall_ne_some.mpr fun _ found =>
    indefinite ((ofMatrix?_ofReal_eq_some_iff symm).mp found).1

noncomputable def substitution (u c v : ℝ) (b : Matrix (Fin 2) (Fin n) ℝ) :
    Matrix (Fin 2) (Fin n) ℝ :=
  let last (j : Fin n) : ℝ := (b Plane.y j - c * (b Plane.x j / u)) / v / v
  .of ![fun j => (b Plane.x j / u - c * last j) / u, last]

theorem solve_finite {u c v : ℝ} (nonzeroU : u ≠ 0) (nonzeroV : v ≠ 0)
    (b : Matrix (Fin 2) (Fin n) ℝ) :
    (⟨.finite u, .finite c, .finite v⟩ : LowerFactor Exact).solve (Mat.ofReal b) =
      Mat.ofReal (substitution u c v b) := by
  have last (j : Fin n) :
      ((⟨.finite u, .finite c, .finite v⟩ : LowerFactor Exact).solve (Mat.ofReal b)).entry
        Plane.y j = .finite (substitution u c v b Plane.y j) := by
    rw [entry_solve_second]
    simp only [forwardSecond, forwardFirst, Mat.entry_ofReal, Exact.finite_div_finite nonzeroU,
      Exact.finite_mul_finite, Exact.finite_sub_finite, Exact.finite_div_finite nonzeroV]
    rfl
  refine Mat.ext fun i j => ?_
  rw [Mat.entry_ofReal]
  fin_cases i
  · refine (entry_solve_first _ (Mat.ofReal b) j).trans ?_
    rw [last]
    simp only [forwardFirst, Mat.entry_ofReal, Exact.finite_div_finite nonzeroU,
      Exact.finite_mul_finite, Exact.finite_sub_finite]
    rfl
  · exact last j

theorem exists_solve_ofReal {l : LowerFactor Exact} (found : ofMatrix? (Mat.ofReal s) = some l)
    (b : Matrix (Fin 2) (Fin n) ℝ) : ∃ x, l.solve (Mat.ofReal b) = Mat.ofReal x := by
  simp only [ofMatrix?, Mat.entry_ofReal, pivotRoot?_finite, Option.bind_eq_bind,
    Option.bind_eq_some_iff, Option.ite_none_right_eq_some, Option.some.injEq] at found
  obtain ⟨_, ⟨first, rfl⟩, found⟩ := found
  have nonzero := (Real.sqrt_pos.mpr first).ne'
  simp only [Exact.finite_div_finite nonzero, Exact.finite_mul_finite, Exact.finite_sub_finite,
    pivotRoot?_finite, Option.ite_none_right_eq_some, Option.some.injEq] at found
  obtain ⟨_, ⟨second, rfl⟩, rfl⟩ := found
  exact ⟨_, solve_finite nonzero (Real.sqrt_pos.mpr second).ne' b⟩

/-- Solving with the factor of a positive definite matrix multiplies by its inverse. -/
theorem solve_ofReal (definite : s.PosDef) (b : Matrix (Fin 2) (Fin n) ℝ) :
    (ofReal s).solve (Mat.ofReal b) = Mat.ofReal (s⁻¹ * b) := by
  have symm : s.IsSymm := Matrix.isHermitian_iff_isSymm.mp definite.isHermitian
  obtain ⟨first, det⟩ := (posDef_iff_of_two symm).mp definite
  -- the entries of the factor, and how they make up the matrix
  set u := √(s 0 0) with upper
  set c := s 1 0 / u with corner
  set v := √(s 1 1 - c * c) with lower
  have nonzeroU : u ≠ 0 := (Real.sqrt_pos.mpr first).ne'
  have pivot : 0 < s 1 1 - c * c := (pivot_eq first).symm ▸ div_pos det first
  have nonzeroV : v ≠ 0 := (Real.sqrt_pos.mpr pivot).ne'
  have entryXX : s 0 0 = u * u := (Real.mul_self_sqrt first.le).symm
  have entryYX : s 1 0 = u * c := (mul_div_cancel₀ _ nonzeroU).symm
  have entryXY : s 0 1 = u * c := (symm.apply 1 0).trans entryYX
  have entryYY : s 1 1 = c * c + v * v := by
    rw [lower, Real.mul_self_sqrt pivot.le]
    ring
  have solved : s * substitution u c v b = b := by
    ext i j
    let y : ℝ := (b 1 j - c * (b 0 j / u)) / v / v
    rw [Matrix.mul_apply, Fin.sum_univ_two]
    fin_cases i
    · change s 0 0 * ((b 0 j / u - c * y) / u) + s 0 1 * y = b 0 j
      rw [entryXX, entryXY]
      field_simp
      ring
    · change s 1 0 * ((b 0 j / u - c * y) / u) + s 1 1 * y = b 1 j
      simp only [y]
      rw [entryYX, entryYY]
      field_simp
      ring
  have inverse : s⁻¹ * b = substitution u c v b := by
    nth_rewrite 1 [← solved]
    exact Matrix.nonsing_inv_mul_cancel_left _ _ definite.det_pos.ne'.isUnit
  rw [inverse]
  exact solve_finite nonzeroU nonzeroV b

end LowerFactor

end TrackFusion
