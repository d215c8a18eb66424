import Mathlib.Data.Matrix.Mul
import TrackFusion.Linear.Matrix
import TrackFusion.Proofs.Scalar.Exact

/-!
Matrices of real numbers.

A matrix of exact numbers whose entries are finite is a matrix of real numbers, and sums,
products, transposes and multiples of such matrices are those of the real matrices. Conversely, a
product that is finite has finite factors, as long as no factor is empty.
-/

set_option autoImplicit false
set_option relaxedAutoImplicit false

namespace TrackFusion

namespace Mat

variable {m n p : Nat}

noncomputable def ofReal (a : Matrix (Fin m) (Fin n) ℝ) : Mat m n Exact :=
  .ofFn fun i j => .finite (a i j)

@[simp] theorem entry_ofReal (a : Matrix (Fin m) (Fin n) ℝ) (i : Fin m) (j : Fin n) :
    (ofReal a).entry i j = .finite (a i j) :=
  entry_ofFn _ i j

theorem ofReal_injective :
    Function.Injective (ofReal : Matrix (Fin m) (Fin n) ℝ → Mat m n Exact) := by
  intro a b same
  ext i j
  have entries := congrArg (fun c => c.entry i j) same
  simp only [entry_ofReal] at entries
  exact Exact.finite.inj entries

theorem exists_ofReal_iff {a : Mat m n Exact} :
    (∃ b, a = ofReal b) ↔ ∀ i j, ∃ x, a.entry i j = .finite x := by
  constructor
  · rintro ⟨b, rfl⟩ i j
    exact ⟨b i j, entry_ofReal b i j⟩
  · intro finite
    choose b entries using finite
    exact ⟨.of b, ext fun i j => by rw [entries, entry_ofReal, Matrix.of_apply]⟩

theorem mem_toList_iff {α : Type} {a : Mat m n α} {v : α} :
    v ∈ a.toList ↔ ∃ i j, a.entry i j = v := by
  unfold toList
  simp only [List.mem_flatten, List.mem_map, Vector.mem_toList_iff]
  constructor
  · rintro ⟨_, ⟨row, member, rfl⟩, listed⟩
    obtain ⟨i, hi, rfl⟩ := Vector.getElem_of_mem member
    obtain ⟨j, hj, rfl⟩ := Vector.getElem_of_mem (Vector.mem_toList_iff.mp listed)
    exact ⟨⟨i, hi⟩, ⟨j, hj⟩, rfl⟩
  · rintro ⟨i, j, rfl⟩
    exact ⟨_, ⟨a.rows.get i, Vector.getElem_mem i.isLt, rfl⟩,
      Vector.mem_toList_iff.mpr (Vector.getElem_mem j.isLt)⟩

theorem isFinite_iff {a : Mat m n Exact} : a.isFinite = true ↔ ∃ b, a = ofReal b := by
  rw [exists_ofReal_iff]
  unfold isFinite
  simp only [List.all_eq_true, mem_toList_iff, Exact.isFinite_iff]
  constructor
  · exact fun finite i j => finite _ ⟨i, j, rfl⟩
  · rintro finite _ ⟨i, j, rfl⟩
    exact finite i j

theorem ofReal_add (a b : Matrix (Fin m) (Fin n) ℝ) : ofReal a + ofReal b = ofReal (a + b) :=
  ext fun i j => by simp

theorem ofReal_sub (a b : Matrix (Fin m) (Fin n) ℝ) : ofReal a - ofReal b = ofReal (a - b) :=
  ext fun i j => by simp

theorem transpose_ofReal (a : Matrix (Fin m) (Fin n) ℝ) :
    (ofReal a).transpose = ofReal a.transpose :=
  ext fun i j => by simp

theorem scale_ofReal (a : Matrix (Fin m) (Fin n) ℝ) (c : ℝ) :
    (ofReal a).scale (.finite c) = ofReal (c • a) :=
  ext fun i j => by simp [mul_comm]

theorem identity_eq_ofReal : (identity : Mat n n Exact) = ofReal 1 :=
  ext fun i j => by
    rw [entry_identity, entry_ofReal, Matrix.one_apply]
    split_ifs <;> rfl

theorem foldl_add_finite (f : Fin n → ℝ) (s : ℝ) :
    Fin.foldl n (fun acc k => acc + Exact.finite (f k)) (.finite s) = .finite (s + ∑ k, f k) := by
  induction n with
  | zero => simp
  | succ n ih =>
    rw [Fin.foldl_succ_last, ih fun k => f k.castSucc, Exact.finite_add_finite,
      Fin.sum_univ_castSucc, add_assoc]

theorem foldl_add_eq_finite {f : Fin n → Exact} {start : Exact} {z : ℝ}
    (result : Fin.foldl n (fun acc k => acc + f k) start = .finite z) :
    (∃ s, start = .finite s) ∧ ∀ k, ∃ x, f k = .finite x := by
  induction n generalizing start with
  | zero => exact ⟨⟨z, by rwa [Fin.foldl_zero] at result⟩, nofun⟩
  | succ n ih =>
    rw [Fin.foldl_succ] at result
    obtain ⟨⟨s, head⟩, rest⟩ := ih result
    obtain ⟨x, y, first, second, -⟩ := Exact.add_eq_finite head
    refine ⟨⟨x, first⟩, fun k => ?_⟩
    cases k using Fin.cases with
    | zero => exact ⟨y, second⟩
    | succ k => exact rest k

theorem ofReal_mul (a : Matrix (Fin m) (Fin n) ℝ) (b : Matrix (Fin n) (Fin p) ℝ) :
    ofReal a * ofReal b = ofReal (a * b) := by
  refine ext fun i j => ?_
  rw [entry_mul, entry_ofReal, Matrix.mul_apply]
  simp only [entry_ofReal, Exact.finite_mul_finite, Exact.zero_eq]
  rw [foldl_add_finite, zero_add]

theorem exists_ofReal_of_mul [NeZero m] [NeZero p] {a : Mat m n Exact} {b : Mat n p Exact}
    {c : Matrix (Fin m) (Fin p) ℝ} (product : a * b = ofReal c) :
    (∃ a', a = ofReal a') ∧ ∃ b', b = ofReal b' := by
  have factors (i : Fin m) (j : Fin p) (k : Fin n) :
      ∃ x y, a.entry i k = .finite x ∧ b.entry k j = .finite y := by
    have entry := congrArg (fun d => d.entry i j) product
    rw [entry_mul, entry_ofReal] at entry
    obtain ⟨z, term⟩ := (foldl_add_eq_finite entry).2 k
    obtain ⟨x, y, first, second, -⟩ := Exact.mul_eq_finite term
    exact ⟨x, y, first, second⟩
  constructor
  · refine exists_ofReal_iff.mpr fun i k => ?_
    obtain ⟨x, -, first, -⟩ := factors i 0 k
    exact ⟨x, first⟩
  · refine exists_ofReal_iff.mpr fun k j => ?_
    obtain ⟨-, y, -, second⟩ := factors 0 j k
    exact ⟨y, second⟩

end Mat

end TrackFusion
