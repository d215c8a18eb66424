import TrackFusion.Proofs.Scalar.Exact
import TrackFusion.Track

/-!
The gating distance in exact numbers.

A factor that exists has a positive diagonal, so forward and backward substitution turn the form
`dᵀ S⁻¹ d` into a sum of two squares. A gating distance that is finite is therefore not negative, and
the positions that it compares are finite. Between isotropic distributions it is the squared distance
over the sum of the variances.
-/

set_option autoImplicit false
set_option relaxedAutoImplicit false

namespace TrackFusion

namespace LowerFactor

section Entries

variable {α : Type} [Scalar α] {n : Nat} (l : LowerFactor α) (b : Mat 2 n α) (j : Fin n)

def forwardFirst : α :=
  b.entry Plane.x j / l.upperDiagonal

def forwardSecond : α :=
  (b.entry Plane.y j - l.corner * l.forwardFirst b j) / l.lowerDiagonal

private theorem get_map_ofFn {β γ : Type} (f : β → γ) (g : Fin n → β) :
    ((Vector.ofFn g).map f).get j = f (g j) := by
  change ((Vector.ofFn g).map f)[j.1] = f (g j)
  rw [Vector.getElem_map, Vector.getElem_ofFn]

theorem entry_solve_second : (l.solve b).entry Plane.y j =
    l.forwardSecond b j / l.lowerDiagonal := by
  unfold solve
  rw [Mat.entry_ofFn, if_neg (by decide), get_map_ofFn]
  rfl

theorem entry_solve_first : (l.solve b).entry Plane.x j =
    (l.forwardFirst b j - l.corner * (l.solve b).entry Plane.y j) / l.upperDiagonal := by
  rw [entry_solve_second]
  unfold solve
  rw [Mat.entry_ofFn, if_pos rfl, get_map_ofFn]
  rfl

end Entries

theorem pivotRoot?_pos {pivot root : Exact} (found : pivotRoot? pivot = some root) : 0 < root := by
  unfold pivotRoot? at found
  split at found
  · rename_i positive
    cases found
    exact Exact.sqrt_pos positive
  · cases found

theorem diagonal_pos {s : Mat 2 2 Exact} {l : LowerFactor Exact} (found : ofMatrix? s = some l) :
    0 < l.upperDiagonal ∧ 0 < l.lowerDiagonal := by
  simp only [ofMatrix?, Option.bind_eq_bind, Option.bind_eq_some_iff, Option.some.injEq] at found
  obtain ⟨upper, first, lower, second, rfl⟩ := found
  exact ⟨pivotRoot?_pos first, pivotRoot?_pos second⟩

/-- If the solution is finite, so is the vector that it solves for, and their product is a sum of two
squares. -/
theorem exists_squares_of_solve {l : LowerFactor Exact} (upper : 0 < l.upperDiagonal)
    (lower : 0 < l.lowerDiagonal) {d : Mat 2 1 Exact} {p q : ℝ}
    (solvedX : (l.solve d).entry Plane.x onlyColumn = .finite p)
    (solvedY : (l.solve d).entry Plane.y onlyColumn = .finite q) :
    ∃ x y first second : ℝ, d.entry Plane.x onlyColumn = .finite x ∧
      d.entry Plane.y onlyColumn = .finite y ∧ x * p + y * q = first ^ 2 + second ^ 2 := by
  obtain ⟨u, -, divUpper⟩ := Exact.exists_reciprocal upper
  obtain ⟨v, -, divLower⟩ := Exact.exists_reciprocal lower
  -- backward substitution: `p` and `q` solve against the forward entries `f` and `t`
  obtain ⟨t, forwardY, qOfT⟩ :=
    (divLower _ _).mp ((l.entry_solve_second d onlyColumn).symm.trans solvedY)
  obtain ⟨numeratorX, innerX, pOfN⟩ :=
    (divUpper _ _).mp ((l.entry_solve_first d onlyColumn).symm.trans solvedX)
  obtain ⟨f, _, forwardX, cornerLast, differenceX⟩ := Exact.sub_eq_finite innerX
  obtain ⟨c, q', corner, last, productC⟩ := Exact.mul_eq_finite cornerLast
  obtain rfl : q' = q := Exact.finite.inj (last.symm.trans solvedY)
  -- forward substitution: `f` and `t` come from the finite entries `x` and `y`
  obtain ⟨x, entryX, fOfX⟩ := (divUpper _ _).mp forwardX
  obtain ⟨numeratorY, innerY, tOfN⟩ := (divLower _ _).mp forwardY
  obtain ⟨y, _, entryY, cornerFirst, differenceY⟩ := Exact.sub_eq_finite innerY
  obtain ⟨c', f', corner', first, productF⟩ := Exact.mul_eq_finite cornerFirst
  obtain rfl : c' = c := Exact.finite.inj (corner'.symm.trans corner)
  obtain rfl : f' = f := Exact.finite.inj (first.symm.trans forwardX)
  refine ⟨x, y, f', t, entryX, entryY, ?_⟩
  have partX : x * p = f' * (f' - c' * q') := by
    rw [← pOfN, ← differenceX, ← productC, ← fOfX]
    ring
  have partY : y * q' = t ^ 2 + c' * f' * q' := by
    have sum : y = numeratorY + c' * f' := by
      rw [← differenceY, ← productF]
      ring
    calc y * q' = numeratorY * v * t + c' * f' * q' := by rw [sum, ← qOfT]; ring
      _ = t ^ 2 + c' * f' * q' := by rw [tOfN]; ring
  rw [partX, partY]
  ring

theorem quadratic_eq_finite {l : LowerFactor Exact} (upper : 0 < l.upperDiagonal)
    (lower : 0 < l.lowerDiagonal) {d : Mat 2 1 Exact} {z : ℝ}
    (result : (d.transpose * l.solve d).entry onlyColumn onlyColumn = .finite z) :
    ∃ x y first second : ℝ, d.entry Plane.x onlyColumn = .finite x ∧
      d.entry Plane.y onlyColumn = .finite y ∧ z = first ^ 2 + second ^ 2 := by
  simp only [Mat.entry_mul, Fin.foldl_succ, Fin.foldl_zero, Mat.entry_transpose] at result
  obtain ⟨_, _, head, tail, total⟩ := Exact.add_eq_finite result
  obtain ⟨_, _, start, product, partialSum⟩ := Exact.add_eq_finite head
  obtain ⟨x, p, entryX, solvedX, productX⟩ := Exact.mul_eq_finite product
  obtain ⟨y, q, entryY, solvedY, productY⟩ := Exact.mul_eq_finite tail
  have empty := Exact.finite.inj start
  obtain ⟨x', y', first, second, sameX, sameY, squares⟩ :=
    exists_squares_of_solve upper lower solvedX solvedY
  obtain rfl : x' = x := Exact.finite.inj (sameX.symm.trans entryX)
  obtain rfl : y' = y := Exact.finite.inj (sameY.symm.trans entryY)
  refine ⟨x', y', first, second, sameX, sameY, ?_⟩
  calc z = x' * p + y' * q := by rw [← total, ← partialSum, ← empty, productX, productY, zero_add]
    _ = first ^ 2 + second ^ 2 := squares

theorem ofMatrix?_isotropic {s : Mat 2 2 Exact} {v : ℝ} (positive : 0 < v)
    (first : s.entry Plane.x Plane.x = .finite v) (corner : s.entry Plane.y Plane.x = .finite 0)
    (second : s.entry Plane.y Plane.y = .finite v) :
    ofMatrix? s = some ⟨.finite (Real.sqrt v), .finite 0, .finite (Real.sqrt v)⟩ := by
  have root : pivotRoot? (Exact.finite v) = some (.finite (Real.sqrt v)) := by
    unfold pivotRoot?
    rw [Exact.zero_eq, if_pos (Exact.finite_lt_finite.mpr positive), Exact.sqrt_finite positive.le]
  have nonzero : Real.sqrt v ≠ 0 := (Real.sqrt_pos.mpr positive).ne'
  have quotient : Exact.finite 0 / Exact.finite (Real.sqrt v) = .finite 0 := by
    rw [Exact.finite_div_finite nonzero, zero_div]
  have pivot : Exact.finite v - Exact.finite 0 * Exact.finite 0 = .finite v := by
    rw [Exact.finite_mul_finite, Exact.finite_sub_finite, mul_zero, sub_zero]
  simp only [ofMatrix?, first, corner, second, root, Option.bind_eq_bind, Option.bind_some,
    quotient, pivot]

theorem quadratic_isotropic {v x y : ℝ} (positive : 0 < v) {d : Mat 2 1 Exact}
    (first : d.entry Plane.x onlyColumn = .finite x)
    (second : d.entry Plane.y onlyColumn = .finite y) :
    (d.transpose * solve ⟨.finite (Real.sqrt v), .finite 0, .finite (Real.sqrt v)⟩ d).entry onlyColumn
      onlyColumn = .finite ((x ^ 2 + y ^ 2) / v) := by
  have nonzero : Real.sqrt v ≠ 0 := (Real.sqrt_pos.mpr positive).ne'
  have square : Real.sqrt v * Real.sqrt v = v := Real.mul_self_sqrt positive.le
  simp only [Mat.entry_mul, Fin.foldl_succ, Fin.foldl_zero, Mat.entry_transpose]
  change 0 + d.entry Plane.x onlyColumn * (solve _ d).entry Plane.x onlyColumn +
    d.entry Plane.y onlyColumn * (solve _ d).entry Plane.y onlyColumn = _
  simp only [entry_solve_first, entry_solve_second, forwardSecond, forwardFirst, first, second,
    Exact.zero_eq, Exact.finite_div_finite nonzero, Exact.finite_mul_finite,
    Exact.finite_sub_finite, Exact.finite_add_finite, zero_mul, sub_zero, zero_add, div_div, square]
  congr 1
  ring

end LowerFactor

namespace KinematicState

theorem project_mean_eq_finite {s : KinematicState Exact} {noise : Mat 2 2 Exact} {i : Fin 2}
    {z : ℝ} (result : (s.project .position noise).mean.entry i onlyColumn = .finite z) :
    ∃ x, s.mean.entry (i.castLE (by decide)) onlyColumn = .finite x := by
  simp only [project, Mat.entry_mul, Fin.foldl_succ, Fin.foldl_zero] at result
  obtain ⟨_, _, first, fourth, -⟩ := Exact.add_eq_finite result
  obtain ⟨_, _, second, third, -⟩ := Exact.add_eq_finite first
  obtain ⟨_, _, start, other, -⟩ := Exact.add_eq_finite second
  obtain ⟨_, _, -, head, -⟩ := Exact.add_eq_finite start
  obtain ⟨_, x, -, entryX, -⟩ := Exact.mul_eq_finite head
  obtain ⟨_, y, -, entryY, -⟩ := Exact.mul_eq_finite other
  match i with
  | ⟨0, _⟩ => exact ⟨x, entryX⟩
  | ⟨1, _⟩ => exact ⟨y, entryY⟩

/-- A finite gating distance is not negative, and it compares finite positions. -/
theorem gatingDistance_eq_finite {s : KinematicState Exact} {noise : Mat 2 2 Exact}
    {measured : Vec2 Exact} {z : ℝ} (result : s.gatingDistance noise measured = .ok (.finite z)) :
    0 ≤ z ∧ ∃ x y px py : ℝ, measured = ⟨.finite x, .finite y⟩ ∧
      s.position = ⟨.finite px, .finite py⟩ := by
  unfold gatingDistance gatingForm at result
  dsimp only at result
  split at result
  · cases result
  · rename_i factor found
    obtain ⟨upper, lower⟩ := LowerFactor.diagonal_pos found
    obtain ⟨x, y, first, second, offsetX, offsetY, rfl⟩ :=
      LowerFactor.quadratic_eq_finite upper lower (Except.ok.inj result)
    rw [Mat.entry_sub] at offsetX offsetY
    obtain ⟨mx, _, measuredX, meanX, -⟩ := Exact.sub_eq_finite offsetX
    obtain ⟨my, _, measuredY, meanY, -⟩ := Exact.sub_eq_finite offsetY
    obtain ⟨px, positionX⟩ := project_mean_eq_finite meanX
    obtain ⟨py, positionY⟩ := project_mean_eq_finite meanY
    refine ⟨by positivity, mx, my, px, py, ?_, ?_⟩
    · exact congrArg₂ Vec2.mk measuredX measuredY
    · exact congrArg₂ Vec2.mk positionX positionY

theorem gatingDistance_isotropic (a b x y u w q : ℝ) {p r : ℝ} (positive : 0 < p + r) :
    (initiate ⟨.finite a, .finite b⟩ (isotropic (.finite p)) ⟨.finite u, .finite w⟩
      (isotropic (.finite q))).gatingDistance (isotropic (.finite r)) ⟨.finite x, .finite y⟩ =
        .ok (Exact.finite (((x - a) ^ 2 + (y - b) ^ 2) / (p + r))) := by
  let s : KinematicState Exact := initiate ⟨.finite a, .finite b⟩ (isotropic (.finite p))
    ⟨.finite u, .finite w⟩ (isotropic (.finite q))
  have covariance (i j : Fin 2) : (s.project .position (isotropic (.finite r))).covariance.entry i j =
      .finite (if i = j then p + r else 0) := by
    simp only [project, isotropic, Mat.entry_add, Mat.entry_mul, Mat.entry_transpose,
      Mat.entry_scale, Mat.entry_identity, Fin.foldl_succ, Fin.foldl_zero]
    match i, j with
    | 0, 0 => exact congrArg Exact.finite (by norm_num)
    | 0, 1 => exact congrArg Exact.finite (by norm_num)
    | 1, 0 => exact congrArg Exact.finite (by norm_num)
    | 1, 1 => exact congrArg Exact.finite (by norm_num)
  have meanX : (s.project .position (isotropic (.finite r))).mean.entry Plane.x onlyColumn =
      .finite a := by
    simp only [project, Mat.entry_mul, Fin.foldl_succ, Fin.foldl_zero]
    exact congrArg Exact.finite (by norm_num)
  have meanY : (s.project .position (isotropic (.finite r))).mean.entry Plane.y onlyColumn =
      .finite b := by
    simp only [project, Mat.entry_mul, Fin.foldl_succ, Fin.foldl_zero]
    exact congrArg Exact.finite (by norm_num)
  have factor := LowerFactor.ofMatrix?_isotropic positive (covariance 0 0) (covariance 1 0)
    (covariance 1 1)
  change (s.gatingForm _).map _ = _
  unfold gatingForm
  dsimp only
  rw [factor]
  refine congrArg Except.ok (LowerFactor.quadratic_isotropic positive ?_ ?_)
  · rw [Mat.entry_sub, meanX]
    rfl
  · rw [Mat.entry_sub, meanY]
    rfl

end KinematicState

end TrackFusion
