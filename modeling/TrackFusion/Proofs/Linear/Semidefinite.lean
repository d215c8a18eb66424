import Mathlib.Algebra.Order.Star.Real
import Mathlib.LinearAlgebra.Matrix.PosDef
import Mathlib.Tactic.FieldSimp
import Mathlib.Tactic.LinearCombination
import TrackFusion.Detection
import TrackFusion.Proofs.Linear.RealMatrix

/-!
The check of covariances in exact numbers.

Every step of the eigenvalue computation turns a quadratic form, drops a coupling or reads off a
diagonal block. A form that is nowhere negative stays so, and the eigenvalues that are read off in
the end are not negative, however many sweeps were made. A positive semidefinite matrix therefore
passes as a covariance.
-/

set_option autoImplicit false
set_option relaxedAutoImplicit false

namespace TrackFusion

noncomputable section

theorem exists_sign (x : ℝ) : ∃ s : ℝ, s * s = 1 ∧ |x| = s * x ∧
    ∀ n : ℝ, (if 0 ≤ x then n else -n) = s * n := by
  split_ifs with sign
  · exact ⟨1, one_mul 1, by rw [abs_of_nonneg sign, one_mul], fun n => (one_mul n).symm⟩
  · refine ⟨-1, by ring, ?_, fun n => (neg_one_mul n).symm⟩
    rw [abs_of_neg (not_le.mp sign), neg_one_mul]

namespace Symmetric2

def ofReal (m : Symmetric2 ℝ) : Symmetric2 Exact :=
  ⟨.finite m.xx, .finite m.yx, .finite m.yy⟩

def form (m : Symmetric2 ℝ) (x y : ℝ) : ℝ :=
  m.xx * x ^ 2 + 2 • (m.yx * x * y) + m.yy * y ^ 2

theorem form_eq (m : Symmetric2 ℝ) (x y : ℝ) :
    m.form x y = m.xx * x ^ 2 + 2 * m.yx * x * y + m.yy * y ^ 2 := by
  unfold form
  ring

theorem nonneg_of_form {m : Symmetric2 ℝ} (nonneg : ∀ x y, 0 ≤ m.form x y) :
    0 ≤ m.xx ∧ 0 ≤ m.yy ∧ m.yx * m.yx ≤ m.xx * m.yy := by
  have first : 0 ≤ m.xx := by simpa [form_eq] using nonneg 1 0
  have second : 0 ≤ m.yy := by simpa [form_eq] using nonneg 0 1
  refine ⟨first, second, ?_⟩
  -- the form at `(-yx, xx)` is the determinant times `xx`
  have scaled : 0 ≤ m.xx * (m.xx * m.yy - m.yx * m.yx) := by
    have value := nonneg (-m.yx) m.xx
    simp only [form_eq] at value
    linarith
  rcases first.lt_or_eq with positive | zero
  · exact sub_nonneg.mp (nonneg_of_mul_nonneg_right scaled positive)
  · -- without `xx` the form is linear in the first coordinate, so the corner vanishes
    have value : 0 ≤ -(m.yy + 2) * (m.yx * m.yx) := by
      have at_corner := nonneg (-(m.yy + 1)) m.yx
      simp only [form_eq] at at_corner
      rw [← zero] at at_corner
      linarith
    rw [← zero, zero_mul]
    exact nonpos_of_mul_nonneg_right value (by linarith)

theorem exists_eigenvalues {m : Symmetric2 ℝ} (nonneg : ∀ x y, 0 ≤ m.form x y) :
    ∃ high low, m.ofReal.eigenvalues = (.finite high, .finite low) ∧ 0 ≤ high ∧ 0 ≤ low := by
  obtain ⟨first, second, det⟩ := nonneg_of_form nonneg
  have square : 0 ≤ m.yx * m.yx + (m.xx - m.yy) * (1 / 2) * ((m.xx - m.yy) * (1 / 2)) :=
    add_nonneg (mul_self_nonneg _) (mul_self_nonneg _)
  have middle : 0 ≤ (m.xx + m.yy) * (1 / 2) := by linarith
  set root := √(m.yx * m.yx + (m.xx - m.yy) * (1 / 2) * ((m.xx - m.yy) * (1 / 2))) with root_def
  have below : root ≤ (m.xx + m.yy) * (1 / 2) := by
    refine Real.sqrt_le_iff.mpr ⟨middle, ?_⟩
    linarith
  refine ⟨_, _, ?_, add_nonneg middle (Real.sqrt_nonneg _ : 0 ≤ root), sub_nonneg.mpr below⟩
  simp only [eigenvalues, ofReal, Exact.half_eq, Exact.finite_sub_finite, Exact.finite_mul_finite,
    Exact.finite_add_finite, Exact.sqrt_finite square, ← root_def]

/-- A reflection that takes the vector `(x, y)` to the first axis turns the form. -/
theorem exists_reflect (m : Symmetric2 ℝ) (x y : ℝ) : ∃ (l a b d : ℝ) (n : Symmetric2 ℝ),
    m.ofReal.reflect (.finite x) (.finite y) = (.finite l, n.ofReal) ∧
      (∀ u v, n.form u v = m.form (a * u + b * v) (b * u + d * v)) ∧
      ∀ u v, x * (a * u + b * v) + y * (b * u + d * v) = l * u := by
  have square : 0 ≤ x * x + y * y := add_nonneg (mul_self_nonneg x) (mul_self_nonneg y)
  set norm := √(x * x + y * y) with norm_def
  have norm_sq : norm * norm = x * x + y * y := Real.mul_self_sqrt square
  obtain ⟨s, unit, turned, signed⟩ := exists_sign x
  have magnitude : Scalar.signedBy (Exact.finite x) (.finite x) = .finite |x| := by
    rw [Exact.signedBy_finite, signed, turned]
  unfold reflect
  simp only [Exact.finite_mul_finite, Exact.finite_add_finite, Exact.sqrt_finite square, magnitude,
    Exact.signedBy_finite, Exact.two_eq, Exact.zero_eq, Exact.sameValue_finite, ← norm_def, signed]
  have product : 0 ≤ |x| * norm := mul_nonneg (abs_nonneg x) (Real.sqrt_nonneg _)
  by_cases zero : (x * x + y * y + |x| * norm) * 2 = 0
  · have first : x = 0 := by nlinarith [mul_self_nonneg x, mul_self_nonneg y]
    have second : y = 0 := by nlinarith [mul_self_nonneg x, mul_self_nonneg y]
    have length : norm = 0 := by rw [norm_def, first, second]; simp
    rw [if_pos (decide_eq_true zero)]
    refine ⟨s * norm, 1, 0, 1, m, rfl, fun u v => ?_, fun u v => ?_⟩
    · simp only [form_eq]
      ring
    · rw [first, second, length]
      ring
  · have positive : 0 < (x * x + y * y + |x| * norm) * 2 :=
      lt_of_le_of_ne (by linarith) (Ne.symm zero)
    rw [if_neg (mt of_decide_eq_true zero)]
    set root := √((x * x + y * y + |x| * norm) * 2) with root_def
    have nonzero : root ≠ 0 := (Real.sqrt_pos.mpr positive).ne'
    have root_sq : root * root = (x * x + y * y + |x| * norm) * 2 :=
      Real.mul_self_sqrt positive.le
    -- the normal has length one already
    have normal : (x + s * norm) / root * ((x + s * norm) / root) + y / root * (y / root) = 1 := by
      rw [div_mul_div_comm, div_mul_div_comm, ← add_div,
        div_eq_one_iff_eq (mul_self_ne_zero.mpr nonzero), root_sq, turned]
      linear_combination norm * norm * unit + norm_sq
    simp only [Exact.sqrt_finite positive.le, ← root_def, Exact.finite_div_finite nonzero,
      Exact.finite_mul_finite, Exact.finite_add_finite, normal, Exact.sqrt_finite zero_le_one,
      Real.sqrt_one, Exact.finite_div_finite one_ne_zero, div_one]
    have first : (x + s * norm) / root * root = x + s * norm := div_mul_cancel₀ _ nonzero
    have second : y / root * root = y := div_mul_cancel₀ _ nonzero
    generalize (x + s * norm) / root = u at first ⊢
    generalize y / root = v at second ⊢
    have along : x * u + y * v = root / 2 := by
      refine mul_right_cancel₀ nonzero ?_
      linear_combination x * first + y * second - root_sq / 2 - norm * turned
    simp only [ofReal, Scalar.sum, List.foldl_cons, List.foldl_nil, Exact.zero_eq, Exact.neg_finite,
      Exact.finite_mul_finite, Exact.finite_add_finite, Exact.finite_sub_finite, zero_add]
    refine ⟨-(s * norm), 1 - 2 * u * u, -2 * u * v, 1 - 2 * v * v, ⟨_, _, _⟩, rfl,
      fun p q => ?_, fun p q => ?_⟩
    · simp only [form_eq]
      ring
    · linear_combination (-2 * (u * p + v * q)) * along - p * first - q * second

end Symmetric2

namespace Rotation

def ofReal (r : Rotation ℝ) : Rotation Exact :=
  ⟨.finite r.cosine, .finite r.sine⟩

theorem ofVector?_finite (x y : ℝ) :
    (ofVector? (Exact.finite x) (.finite y) = none ∧ y = 0) ∨
      ∃ (r : Rotation ℝ) (l : ℝ), ofVector? (.finite x) (.finite y) = some (r.ofReal, .finite l) ∧
        r.cosine * x - r.sine * y = l ∧ r.sine * x + r.cosine * y = 0 := by
  unfold ofVector?
  rw [Exact.zero_eq, Exact.sameValue_finite]
  by_cases zero : y = 0
  · exact .inl ⟨if_pos (decide_eq_true zero), zero⟩
  · right
    obtain ⟨s, unit, -, length⟩ := exists_sign x
    have positive : 0 < s * x * (s * x) + y * y :=
      add_pos_of_nonneg_of_pos (mul_self_nonneg _) (mul_self_pos.mpr zero)
    have nonzero : √(s * x * (s * x) + y * y) ≠ 0 := (Real.sqrt_pos.mpr positive).ne'
    have square : √(s * x * (s * x) + y * y) * √(s * x * (s * x) + y * y) =
        s * x * (s * x) + y * y := Real.mul_self_sqrt positive.le
    rw [if_neg (mt of_decide_eq_true zero)]
    simp only [Exact.signedBy_finite, length, Exact.finite_mul_finite,
      Exact.finite_add_finite, Exact.sqrt_finite positive.le]
    generalize √(s * x * (s * x) + y * y) = n at nonzero square ⊢
    have sign : s ≠ 0 := left_ne_zero_of_mul_eq_one unit
    have signed : s * n ≠ 0 := mul_ne_zero sign nonzero
    rw [Exact.finite_div_finite nonzero, Exact.neg_finite, Exact.finite_div_finite signed]
    refine ⟨⟨s * x / n, -y / (s * n)⟩, s * n, rfl, ?_, ?_⟩
    · field_simp
      linear_combination -square - n ^ 2 * unit
    · field_simp
      linear_combination y * x * unit

theorem exists_turn (r : Rotation ℝ) (m : Symmetric2 ℝ) : ∃ n : Symmetric2 ℝ,
    r.ofReal.turn m.ofReal = n.ofReal ∧ ∀ u v, n.form u v =
      m.form (r.cosine * u + r.sine * v) (-r.sine * u + r.cosine * v) := by
  simp only [turn, ofReal, Symmetric2.ofReal, Exact.two_eq, Exact.finite_mul_finite,
    Exact.finite_add_finite, Exact.finite_sub_finite]
  refine ⟨⟨_, _, _⟩, rfl, fun u v => ?_⟩
  simp only [Symmetric2.form_eq]
  ring

end Rotation

namespace Tridiagonal

def ofReal (t : Tridiagonal ℝ) : Tridiagonal Exact :=
  ⟨.finite t.xx, .finite t.yy, .finite t.zz, .finite t.yx, .finite t.zy⟩

def form (t : Tridiagonal ℝ) (x y z : ℝ) : ℝ :=
  t.xx * x ^ 2 + t.yy * y ^ 2 + t.zz * z ^ 2 + 2 • (t.yx * x * y) + 2 • (t.zy * y * z)

theorem form_eq (t : Tridiagonal ℝ) (x y z : ℝ) : t.form x y z =
    t.xx * x ^ 2 + t.yy * y ^ 2 + t.zz * z ^ 2 + 2 * t.yx * x * y + 2 * t.zy * y * z := by
  unfold form
  ring

def Semidefinite (t : Tridiagonal ℝ) : Prop :=
  ∀ x y z, 0 ≤ t.form x y z

theorem nonneg_of_posSemidef {m : Matrix (Fin 3) (Fin 3) ℝ} (semidefinite : m.PosSemidef)
    (x y z : ℝ) : 0 ≤ m 0 0 * x ^ 2 + m 1 1 * y ^ 2 + m 2 2 * z ^ 2 + 2 * m 1 0 * x * y +
      2 * m 2 0 * x * z + 2 * m 2 1 * y * z := by
  have symm : m.IsSymm := Matrix.isHermitian_iff_isSymm.mp semidefinite.isHermitian
  have nonneg := semidefinite.dotProduct_mulVec_nonneg ![x, y, z]
  simp only [star_trivial, dotProduct, Matrix.mulVec, Fin.sum_univ_three, symm.apply 1 0,
    symm.apply 2 0, symm.apply 2 1] at nonneg
  simp at nonneg
  linarith

theorem exists_ofMatrix {m : Matrix (Fin 3) (Fin 3) ℝ} (semidefinite : m.PosSemidef) :
    ∃ t : Tridiagonal ℝ, ofMatrix (Mat.ofReal m) = t.ofReal ∧ t.Semidefinite := by
  obtain ⟨yx, a, b, d, block, first, turned, along⟩ :=
    Symmetric2.exists_reflect ⟨m 1 1, m 2 1, m 2 2⟩ (m 1 0) (m 2 0)
  obtain ⟨zy, a', b', d', last, second, turned', along'⟩ :=
    Symmetric2.exists_reflect ⟨block.yy, 0, 0⟩ block.yx 0
  unfold Symmetric2.ofReal at first second
  dsimp only at first second
  refine ⟨⟨m 0 0, block.xx, last.xx, |yx|, |zy|⟩, ?_, ?_⟩
  · unfold ofMatrix
    simp only [Mat.entry_ofReal]
    rw [first]
    dsimp only
    rw [Exact.zero_eq, second]
    dsimp only
    rw [Exact.abs_finite, Exact.abs_finite]
    rfl
  · intro x y z
    -- the signs of the couplings go over to the outer coordinates
    obtain ⟨s, unit, same, -⟩ := exists_sign yx
    obtain ⟨s', unit', same', -⟩ := exists_sign zy
    have nonneg := nonneg_of_posSemidef semidefinite (s * x) (a * y + b * (a' * (s' * z)))
      (b * y + d * (a' * (s' * z)))
    have block_form := turned y (a' * (s' * z))
    have coupling := along y (a' * (s' * z))
    have last_form := turned' (s' * z) 0
    have coupling' := along' (s' * z) 0
    simp only [Symmetric2.form_eq] at block_form last_form
    simp only [form_eq]
    rw [same, same']
    refine nonneg.trans_eq ?_
    linear_combination -block_form + 2 * s * x * coupling + 2 * y * coupling' - last_form +
      m 0 0 * x ^ 2 * unit + last.xx * z ^ 2 * unit'

theorem exists_unitSign (x : ℝ) : ∃ s, Scalar.unitSign (Exact.finite x) = .finite s ∧
    ∀ n, |x| < n → x + s * n ≠ 0 := by
  unfold Scalar.unitSign
  rcases lt_or_ge x 0 with negative | nonneg
  · refine ⟨-1, if_pos (.inl (Exact.finite_lt_finite.mpr negative)), fun n longer => ?_⟩
    have := neg_abs_le x
    have := abs_nonneg x
    linarith
  · have upright : ¬ (Exact.finite x < 0 ∨ (Exact.finite x ≤ 0 ∧ 1 / Exact.finite x < 0)) := by
      rintro (below | ⟨below, reciprocal⟩)
      · exact absurd (Exact.finite_lt_finite.mp below) (not_lt.mpr nonneg)
      · -- only zero is left, whose reciprocal is infinite
        obtain rfl : x = 0 := le_antisymm (Exact.finite_le_finite.mp below) nonneg
        have infinite : (1 : Exact) / .finite 0 = .infinity := by
          change (if (0 : ℝ) = 0 then Exact.ofSign (SignType.sign 1) else _) = _
          rw [if_pos rfl, sign_one]
          rfl
        rw [infinite] at reciprocal
        exact reciprocal.1
    refine ⟨1, if_neg upright, fun n longer => ?_⟩
    have := abs_nonneg x
    linarith

theorem exists_shift (t : Tridiagonal ℝ) : ∃ s, t.ofReal.shift = .finite s := by
  unfold shift ofReal
  simp only [Exact.finite_mul_finite, Exact.zero_eq, Exact.sameValue_finite, Exact.half_eq,
    Exact.finite_sub_finite, Exact.finite_add_finite]
  by_cases uncoupled : t.zy * t.zy = 0
  · exact ⟨t.zz, if_pos (decide_eq_true uncoupled)⟩
  · rw [if_neg (mt of_decide_eq_true uncoupled)]
    generalize (t.yy - t.zz) * (1 / 2) = h
    have square : 0 < t.zy * t.zy := lt_of_le_of_ne (mul_self_nonneg _) (Ne.symm uncoupled)
    have longer : |h| < √(h * h + t.zy * t.zy) := by
      rw [← Real.sqrt_sq_eq_abs, sq]
      exact Real.sqrt_lt_sqrt (mul_self_nonneg h) (lt_add_of_pos_right _ square)
    obtain ⟨s, sign, nonzero⟩ := exists_unitSign h
    rw [Exact.sqrt_finite (add_nonneg (mul_self_nonneg h) square.le), sign, Exact.finite_mul_finite,
      Exact.finite_add_finite, Exact.finite_div_finite (nonzero _ longer), Exact.finite_sub_finite]
    exact ⟨_, rfl⟩

theorem exists_sweep {t : Tridiagonal ℝ} (semidefinite : t.Semidefinite) :
    ∃ swept : Tridiagonal ℝ, t.ofReal.sweep = swept.ofReal ∧ swept.Semidefinite := by
  obtain ⟨s, shift⟩ := exists_shift t
  unfold sweep
  rw [shift]
  simp only [ofReal, Exact.finite_sub_finite]
  rcases Rotation.ofVector?_finite (t.xx - s) t.yx with ⟨none, -⟩ | ⟨r, l, some, -, -⟩
  · rw [none]
    exact ⟨t, rfl, semidefinite⟩
  · obtain ⟨upper, first, turned⟩ := r.exists_turn ⟨t.xx, t.yx, t.yy⟩
    unfold Symmetric2.ofReal at first
    rw [some]
    dsimp only
    rw [first]
    simp only [Rotation.ofReal, Exact.neg_finite, Exact.finite_mul_finite]
    rcases Rotation.ofVector?_finite upper.yx (-r.sine * t.zy) with
      ⟨none', corner⟩ | ⟨r', l', some', length, removed⟩
    · rw [none']
      refine ⟨⟨upper.xx, upper.yy, t.zz, upper.yx, t.zy * r.cosine⟩, rfl, fun x y z => ?_⟩
      -- the swept form is the old one at the vector turned back
      have nonneg := semidefinite (r.cosine * x + r.sine * y) (-r.sine * x + r.cosine * y) z
      have upper_form := turned x y
      simp only [Symmetric2.form_eq] at upper_form
      simp only [form_eq] at nonneg ⊢
      refine nonneg.trans_eq ?_
      linear_combination -upper_form + 2 * x * z * corner
    · obtain ⟨lower, second, turned'⟩ := r'.exists_turn ⟨upper.yy, t.zy * r.cosine, t.zz⟩
      unfold Symmetric2.ofReal Rotation.ofReal at second
      rw [some']
      dsimp only [Rotation.ofReal]
      rw [second]
      refine ⟨⟨upper.xx, lower.xx, lower.yy, l', lower.yx⟩, rfl, fun x y z => ?_⟩
      have nonneg := semidefinite
        (r.cosine * x + r.sine * (r'.cosine * y + r'.sine * z))
        (-r.sine * x + r.cosine * (r'.cosine * y + r'.sine * z)) (-r'.sine * y + r'.cosine * z)
      have upper_form := turned x (r'.cosine * y + r'.sine * z)
      have lower_form := turned' y z
      simp only [Symmetric2.form_eq] at upper_form lower_form
      simp only [form_eq] at nonneg ⊢
      refine nonneg.trans_eq ?_
      linear_combination -upper_form - lower_form + 2 * x * y * length + 2 * x * z * removed

theorem Semidefinite.diagonal_nonneg {t : Tridiagonal ℝ} (semidefinite : t.Semidefinite) :
    0 ≤ t.xx ∧ 0 ≤ t.yy ∧ 0 ≤ t.zz := by
  refine ⟨?_, ?_, ?_⟩
  · simpa [form_eq] using semidefinite 1 0 0
  · simpa [form_eq] using semidefinite 0 1 0
  · simpa [form_eq] using semidefinite 0 0 1

/-- No eigenvalue of a positive semidefinite matrix is negative, however many sweeps are made. -/
theorem nonneg_of_mem_eigenvalues {sweeps : Nat} {t : Tridiagonal ℝ} (semidefinite : t.Semidefinite)
    {v : Exact} (member : v ∈ eigenvalues sweeps t.ofReal) : ∃ e, 0 ≤ e ∧ v = .finite e := by
  have among (a b c : ℝ) (first : 0 ≤ a) (second : 0 ≤ b) (third : 0 ≤ c)
      (listed : v ∈ [.finite a, .finite b, .finite c]) : ∃ e, 0 ≤ e ∧ v = .finite e := by
    simp only [List.mem_cons, List.not_mem_nil, or_false] at listed
    rcases listed with rfl | rfl | rfl
    exacts [⟨a, first, rfl⟩, ⟨b, second, rfl⟩, ⟨c, third, rfl⟩]
  -- sweeps keep the form semidefinite, and then no diagonal entry is negative
  induction sweeps generalizing t with
  | zero =>
    obtain ⟨first, second, third⟩ := semidefinite.diagonal_nonneg
    exact among _ _ _ first second third member
  | succ sweeps ih =>
    obtain ⟨first, second, third⟩ := semidefinite.diagonal_nonneg
    unfold eigenvalues at member
    split at member
    · split at member
      · have lower : ∀ x y, 0 ≤ (⟨t.yy, t.zy, t.zz⟩ : Symmetric2 ℝ).form x y := fun x y => by
          simpa [Symmetric2.form_eq, form_eq, add_right_comm] using semidefinite 0 x y
        obtain ⟨high, low, split, highNonneg, lowNonneg⟩ := Symmetric2.exists_eigenvalues lower
        change v ∈ [.finite t.xx, (Symmetric2.ofReal ⟨t.yy, t.zy, t.zz⟩).eigenvalues.1,
          (Symmetric2.ofReal ⟨t.yy, t.zy, t.zz⟩).eigenvalues.2] at member
        rw [split] at member
        exact among _ _ _ first highNonneg lowNonneg member
      · obtain ⟨swept, same, still⟩ := exists_sweep semidefinite
        rw [same] at member
        exact ih still member
    · split at member
      · have upper : ∀ x y, 0 ≤ (⟨t.xx, t.yx, t.yy⟩ : Symmetric2 ℝ).form x y := fun x y => by
          simpa [Symmetric2.form_eq, form_eq, add_right_comm] using semidefinite x y 0
        obtain ⟨high, low, split, highNonneg, lowNonneg⟩ := Symmetric2.exists_eigenvalues upper
        change v ∈ [(Symmetric2.ofReal ⟨t.xx, t.yx, t.yy⟩).eigenvalues.1,
          (Symmetric2.ofReal ⟨t.xx, t.yx, t.yy⟩).eigenvalues.2, .finite t.zz] at member
        rw [split] at member
        exact among _ _ _ highNonneg lowNonneg third member
      · exact among _ _ _ first second third member

end Tridiagonal

namespace Mat

theorem exists_maxAbs {m n : Nat} (a : Matrix (Fin m) (Fin n) ℝ) :
    ∃ M, 0 ≤ M ∧ (ofReal a).maxAbs = .finite M ∧
      ∀ bound, 0 ≤ bound → (∀ i j, |a i j| ≤ bound) → M ≤ bound := by
  unfold maxAbs
  have each : ∀ v ∈ (ofReal a).toList, ∃ i j, v = .finite (a i j) := by
    intro v member
    obtain ⟨i, j, rfl⟩ := mem_toList_iff.mp member
    exact ⟨i, j, entry_ofReal a i j⟩
  generalize (ofReal a).toList = entries at each ⊢
  suffices longer : ∀ start : ℝ, 0 ≤ start → ∃ M, 0 ≤ M ∧
      entries.foldl (fun acc v => Scalar.max acc (Scalar.abs v)) (.finite start) = .finite M ∧
        ∀ bound, start ≤ bound → (∀ i j, |a i j| ≤ bound) → M ≤ bound from
    longer 0 le_rfl
  induction entries with
  | nil => exact fun start nonneg => ⟨start, nonneg, rfl, fun bound below _ => below⟩
  | cons v rest ih =>
    intro start nonneg
    obtain ⟨i, j, rfl⟩ := each v List.mem_cons_self
    rw [List.foldl_cons, Exact.abs_finite, Exact.max_finite]
    obtain ⟨M, above, same, least⟩ := ih (fun w member => each w (List.mem_cons_of_mem _ member))
      (max start |a i j|) (nonneg.trans (le_max_left _ _))
    exact ⟨M, above, same, fun bound below within => least bound (max_le below (within i j)) within⟩

theorem eigenvalues_nonneg {c : Matrix (Fin 3) (Fin 3) ℝ} (semidefinite : c.PosSemidef) {v : Exact}
    (member : v ∈ (ofReal c).eigenvalues) : ∃ e, 0 ≤ e ∧ v = .finite e := by
  obtain ⟨M, nonneg, largest, -⟩ := exists_maxAbs c
  unfold eigenvalues at member
  dsimp only at member
  rw [largest, Exact.zero_eq, Exact.sameValue_finite] at member
  obtain ⟨scaled, same, still⟩ : ∃ s : Matrix (Fin 3) (Fin 3) ℝ,
      (if decide (M = 0) = true then ofReal c else (ofReal c).map (· / .finite M)) = ofReal s ∧
        s.PosSemidef := by
    by_cases zero : M = 0
    · exact ⟨c, if_pos (decide_eq_true zero), semidefinite⟩
    · refine ⟨M⁻¹ • c, ?_, semidefinite.smul (inv_nonneg.mpr nonneg)⟩
      rw [if_neg (mt of_decide_eq_true zero)]
      refine ext fun i j => ?_
      rw [entry_map, entry_ofReal, entry_ofReal, Exact.finite_div_finite zero, Matrix.smul_apply,
        smul_eq_mul, div_eq_inv_mul]
  obtain ⟨t, tridiagonal, form⟩ := Tridiagonal.exists_ofMatrix still
  rw [same, tridiagonal, List.mem_map] at member
  obtain ⟨w, listed, rfl⟩ := member
  obtain ⟨e, above, rfl⟩ := Tridiagonal.nonneg_of_mem_eigenvalues form listed
  exact ⟨e * M, mul_nonneg above nonneg, rfl⟩

/-- A positive semidefinite matrix passes as a covariance. -/
theorem isCovariance_of_posSemidef {c : Matrix (Fin 3) (Fin 3) ℝ} (semidefinite : c.PosSemidef) :
    (ofReal c).isCovariance = true := by
  obtain ⟨M, -, largest, -⟩ := exists_maxAbs c
  obtain ⟨D, -, difference, least⟩ := exists_maxAbs (c - c.transpose)
  have symm : c.IsSymm := Matrix.isHermitian_iff_isSymm.mp semidefinite.isHermitian
  have balanced : D ≤ 0 := least 0 le_rfl fun i j => by rw [symm.eq, sub_self]; simp
  obtain ⟨τ, positive, tolerance⟩ : ∃ τ : ℝ, 0 < τ ∧
      (covarianceTolerance : Exact) * Scalar.max (ofReal c).maxAbs 1 = .finite τ := by
    unfold covarianceTolerance
    rw [largest, Exact.one_eq, Exact.max_finite, Exact.scientific_eq, Exact.finite_mul_finite]
    exact ⟨_, mul_pos (by norm_num) (lt_max_of_lt_right one_pos), rfl⟩
  unfold isCovariance
  dsimp only
  rw [tolerance, transpose_ofReal, ofReal_sub, difference]
  simp only [Bool.and_eq_true, Bool.not_eq_true', decide_eq_false_iff_not, List.all_eq_true,
    Exact.finite_lt_finite, not_lt, Exact.neg_finite]
  refine ⟨⟨isFinite_iff.mpr ⟨c, rfl⟩, by linarith⟩, fun v member => ?_⟩
  obtain ⟨e, above, rfl⟩ := eigenvalues_nonneg semidefinite member
  exact decide_eq_true (Exact.finite_le_finite.mpr (by linarith))

end Mat

end

end TrackFusion
