import Mathlib.Algebra.BigOperators.Group.Finset.Basic
import Mathlib.Algebra.Order.BigOperators.Group.Finset
import Mathlib.Data.Finset.Max
import Mathlib.Data.Fintype.Pi
import Mathlib.Data.Fintype.Sum
import TrackFusion.Assignment.Matching

/-!
Assignments of least weight.

An optimal solver gives every row its own column at the least total weight. If no weight lies above a
bound, its pairs have the least total excess over that bound among all partial assignments too: a
partial assignment extends to all rows, and the rows that it left out only lower its total. With more
rows than columns the same holds of the transposed weights.
-/

set_option autoImplicit false
set_option relaxedAutoImplicit false

open Finset

namespace TrackFusion

variable {n m : Nat}

structure IsPartialAssignment (pairs : Finset (Fin n × Fin m)) : Prop where
  rows : Set.InjOn Prod.fst (pairs : Set (Fin n × Fin m))
  columns : Set.InjOn Prod.snd (pairs : Set (Fin n × Fin m))

/-- The solver gives each row of the weights its own column, at the least total weight. -/
structure Solver.Minimal (solver : Solver) (fits : n ≤ m) (weights : Mat n m Int) : Prop where
  distinct : Function.Injective (solver.columns fits weights).get
  least : ∀ f : Fin n → Fin m, Function.Injective f →
    ∑ i, weights.entry i ((solver.columns fits weights).get i) ≤ ∑ i, weights.entry i (f i)

def Solver.MinimalFor (solver : Solver) (weights : Mat n m Int) : Prop :=
  if fits : n ≤ m then solver.Minimal fits weights
  else solver.Minimal (Nat.le_of_not_le fits) weights.transpose

/-- The solver is minimal wherever the sums of its weights stay far within 64 bits. -/
def Solver.IsOptimal (solver : Solver) : Prop :=
  ∀ {n m : Nat} (fits : n ≤ m) (weights : Mat n m Int) (bound : Int),
    (∀ i j, 0 ≤ weights.entry i j ∧ weights.entry i j ≤ bound) → n * bound < 2 ^ 62 →
      solver.Minimal fits weights

namespace IsPartialAssignment

variable {pairs : Finset (Fin n × Fin m)}

theorem mono {fewer : Finset (Fin n × Fin m)} (isPartial : IsPartialAssignment pairs)
    (subset : fewer ⊆ pairs) : IsPartialAssignment fewer :=
  ⟨isPartial.rows.mono (Finset.coe_subset.mpr subset),
    isPartial.columns.mono (Finset.coe_subset.mpr subset)⟩

theorem swap (isPartial : IsPartialAssignment pairs) :
    IsPartialAssignment (pairs.image Prod.swap) := by
  constructor
  · simp only [Finset.coe_image]
    rintro _ ⟨p, first, rfl⟩ _ ⟨q, second, rfl⟩ same
    exact congrArg Prod.swap (isPartial.columns first second same)
  · simp only [Finset.coe_image]
    rintro _ ⟨p, first, rfl⟩ _ ⟨q, second, rfl⟩ same
    exact congrArg Prod.swap (isPartial.rows first second same)

theorem of_injective {k : Nat} {row : Fin k → Fin n} {column : Fin k → Fin m}
    (rows : Function.Injective row) (columns : Function.Injective column) :
    IsPartialAssignment (Finset.univ.image fun i => (row i, column i)) := by
  constructor
  · simp only [Finset.coe_image, Finset.coe_univ, Set.image_univ]
    rintro _ ⟨i, rfl⟩ _ ⟨j, rfl⟩ same
    rw [rows same]
  · simp only [Finset.coe_image, Finset.coe_univ, Set.image_univ]
    rintro _ ⟨i, rfl⟩ _ ⟨j, rfl⟩ same
    rw [columns same]

theorem exists_injective_extension (isPartial : IsPartialAssignment pairs) (fits : n ≤ m) :
    ∃ f : Fin n → Fin m, Function.Injective f ∧ ∀ p ∈ pairs, f p.1 = p.2 := by
  rcases pairs.eq_empty_or_nonempty with rfl | ⟨pair, _⟩
  · exact ⟨Fin.castLE fits, Fin.castLE_injective fits, nofun⟩
  · have : Nonempty (Fin n × Fin m) := ⟨pair⟩
    let column (i : Fin n) : Fin m := (Function.invFunOn Prod.fst (pairs : Set (Fin n × Fin m)) i).2
    have columnOf {p : Fin n × Fin m} (member : p ∈ pairs) : column p.1 = p.2 :=
      congrArg Prod.snd (isPartial.rows.leftInvOn_invFunOn member)
    have injective : Set.InjOn column (pairs.image Prod.fst : Finset (Fin n)) := by
      simp only [Finset.coe_image]
      rintro _ ⟨p, first, rfl⟩ _ ⟨q, second, rfl⟩ same
      rw [columnOf first, columnOf second] at same
      rw [isPartial.columns first second same]
    have few : ((pairs.image Prod.fst).image column).card ≤ n :=
      Finset.card_image_le.trans ((Finset.card_le_univ _).trans_eq (Fintype.card_fin n))
    -- the rows are given `n` columns that include the used ones
    obtain ⟨columns, within, -, size⟩ := Finset.exists_subsuperset_card_eq
      (Finset.subset_univ ((pairs.image Prod.fst).image column)) few
      (fits.trans_eq (Fintype.card_fin m).symm)
    obtain ⟨f, agrees⟩ := Finset.exists_equiv_extend_of_card_eq
      ((Fintype.card_fin n).trans size.symm) within injective
    refine ⟨fun i => f i, Subtype.val_injective.comp f.injective, ?_⟩
    intro p member
    rw [← columnOf member]
    exact agrees p.1 (Finset.mem_image_of_mem Prod.fst member)

end IsPartialAssignment

namespace Solver

variable {solver : Solver} {weights : Mat n m Int} {bound : Int}

/-- Against the bound, the rows of a minimal solution do no worse than any partial assignment. -/
theorem Minimal.sum_sub_le {fits : n ≤ m} (minimal : solver.Minimal fits weights)
    (below : ∀ i j, weights.entry i j ≤ bound) {pairs : Finset (Fin n × Fin m)}
    (isPartial : IsPartialAssignment pairs) :
    ∑ i, (weights.entry i ((solver.columns fits weights).get i) - bound) ≤
      ∑ p ∈ pairs, (weights.entry p.1 p.2 - bound) := by
  obtain ⟨f, injective, extension⟩ := isPartial.exists_injective_extension fits
  calc ∑ i, (weights.entry i ((solver.columns fits weights).get i) - bound)
      ≤ ∑ i, (weights.entry i (f i) - bound) := by
        rw [Finset.sum_sub_distrib, Finset.sum_sub_distrib]
        exact Int.sub_le_sub_right (minimal.least f injective) _
    _ ≤ ∑ i ∈ pairs.image Prod.fst, (weights.entry i (f i) - bound) := by
        refine Finset.sum_le_sum_of_subset_of_nonpos' (Finset.subset_univ _) ?_
        intro i _ _
        exact Int.sub_nonpos_of_le (below i (f i))
    _ = ∑ p ∈ pairs, (weights.entry p.1 p.2 - bound) := by
        rw [Finset.sum_image isPartial.rows]
        refine Finset.sum_congr rfl ?_
        intro p member
        rw [extension p member]

theorem toFinset_chosenPairs_of_le (solver : Solver) (fits : n ≤ m) (weights : Mat n m Int) :
    (solver.chosenPairs weights).toFinset =
      Finset.univ.image fun i => (i, (solver.columns fits weights).get i) := by
  unfold chosenPairs
  rw [dif_pos fits]
  ext p
  simp only [List.mem_toFinset, List.mem_map, List.mem_finRange, true_and, Finset.mem_image,
    Finset.mem_univ]

theorem toFinset_chosenPairs_of_not_le (solver : Solver) (tall : ¬ n ≤ m) (weights : Mat n m Int) :
    (solver.chosenPairs weights).toFinset = Finset.univ.image fun j =>
      ((solver.columns (Nat.le_of_not_le tall) weights.transpose).get j, j) := by
  unfold chosenPairs
  rw [dif_neg tall]
  ext p
  simp only [List.mem_toFinset, List.mem_map, List.mem_finRange, true_and, Finset.mem_image,
    Finset.mem_univ]

theorem length_chosenPairs (solver : Solver) (weights : Mat n m Int) :
    (solver.chosenPairs weights).length = min n m := by
  unfold chosenPairs
  split_ifs with fits
  · rw [List.length_map, List.length_finRange, Nat.min_eq_left fits]
  · rw [List.length_map, List.length_finRange, Nat.min_eq_right (Nat.le_of_not_le fits)]

theorem nodup_chosenPairs (solver : Solver) (weights : Mat n m Int) :
    (solver.chosenPairs weights).Nodup := by
  unfold chosenPairs
  split_ifs with fits
  · exact (List.nodup_finRange n).map fun i j same => congrArg Prod.fst same
  · exact (List.nodup_finRange m).map fun i j same => congrArg Prod.snd same

theorem card_chosenPairs (solver : Solver) (weights : Mat n m Int) :
    (solver.chosenPairs weights).toFinset.card = min n m := by
  rw [List.toFinset_card_of_nodup (solver.nodup_chosenPairs weights), length_chosenPairs]

/-- The chosen pairs are a partial assignment, and against a bound of the weights none does better. -/
theorem MinimalFor.chosenPairs (minimal : solver.MinimalFor weights)
    (below : ∀ i j, weights.entry i j ≤ bound) :
    IsPartialAssignment (solver.chosenPairs weights).toFinset ∧
      ∀ pairs, IsPartialAssignment pairs →
        ∑ p ∈ (solver.chosenPairs weights).toFinset, (weights.entry p.1 p.2 - bound) ≤
          ∑ p ∈ pairs, (weights.entry p.1 p.2 - bound) := by
  unfold MinimalFor at minimal
  split_ifs at minimal with fits
  · have injective : Function.Injective fun i => (i, (solver.columns fits weights).get i) :=
      fun i j same => congrArg Prod.fst same
    rw [toFinset_chosenPairs_of_le solver fits]
    refine ⟨.of_injective Function.injective_id minimal.distinct, ?_⟩
    intro pairs isPartial
    rw [Finset.sum_image injective.injOn]
    exact minimal.sum_sub_le below isPartial
  · have tall : m ≤ n := Nat.le_of_not_le fits
    have injective : Function.Injective fun j =>
        ((solver.columns tall weights.transpose).get j, j) :=
      fun i j same => congrArg Prod.snd same
    rw [toFinset_chosenPairs_of_not_le solver fits]
    refine ⟨.of_injective minimal.distinct Function.injective_id, ?_⟩
    intro pairs isPartial
    have transposed := minimal.sum_sub_le
      (fun j i => by rw [Mat.entry_transpose]; exact below i j) isPartial.swap
    rw [Finset.sum_image Prod.swap_injective.injOn] at transposed
    simp only [Mat.entry_transpose, Prod.fst_swap, Prod.snd_swap] at transposed
    rwa [Finset.sum_image injective.injOn]

theorem MinimalFor.sum_chosenPairs_le (minimal : solver.MinimalFor weights)
    (below : ∀ i j, weights.entry i j ≤ bound) {others : Finset (Fin n × Fin m)}
    (isPartial : IsPartialAssignment others) (count : others.card = min n m) :
    ∑ p ∈ (solver.chosenPairs weights).toFinset, weights.entry p.1 p.2 ≤
      ∑ p ∈ others, weights.entry p.1 p.2 := by
  have least := (minimal.chosenPairs below).2 others isPartial
  rw [Finset.sum_sub_distrib, Finset.sum_sub_distrib, Finset.sum_const, Finset.sum_const, count,
    card_chosenPairs] at least
  exact Int.le_of_sub_le_sub_right least

theorem IsOptimal.minimalFor (optimal : solver.IsOptimal)
    (range : ∀ i j, 0 ≤ weights.entry i j ∧ weights.entry i j ≤ bound)
    (small : (min n m : Nat) * bound < 2 ^ 62) : solver.MinimalFor weights := by
  unfold MinimalFor
  split_ifs with fits
  · rw [Nat.min_eq_left fits] at small
    exact optimal fits weights bound range small
  · rw [Nat.min_eq_right (Nat.le_of_not_le fits)] at small
    exact optimal (Nat.le_of_not_le fits) weights.transpose bound
      (fun j i => by rw [Mat.entry_transpose]; exact range i j) small

theorem IsOptimal.chosenPairs (optimal : solver.IsOptimal)
    (range : ∀ i j, 0 ≤ weights.entry i j ∧ weights.entry i j ≤ bound)
    (small : (min n m : Nat) * bound < 2 ^ 62) :
    IsPartialAssignment (solver.chosenPairs weights).toFinset ∧
      ∀ pairs, IsPartialAssignment pairs →
        ∑ p ∈ (solver.chosenPairs weights).toFinset, (weights.entry p.1 p.2 - bound) ≤
          ∑ p ∈ pairs, (weights.entry p.1 p.2 - bound) :=
  (optimal.minimalFor range small).chosenPairs fun i j => (range i j).2

theorem exists_least (fits : n ≤ m) (weights : Mat n m Int) :
    ∃ f : Fin n → Fin m, Function.Injective f ∧ ∀ other : Fin n → Fin m,
      Function.Injective other → ∑ i, weights.entry i (f i) ≤ ∑ i, weights.entry i (other i) := by
  classical
  obtain ⟨f, member, least⟩ := Finset.exists_min_image
    (Finset.univ.filter fun f : Fin n → Fin m => Function.Injective f)
    (fun f => ∑ i, weights.entry i (f i))
    ⟨Fin.castLE fits, Finset.mem_filter.mpr ⟨Finset.mem_univ _, Fin.castLE_injective fits⟩⟩
  refine ⟨f, (Finset.mem_filter.mp member).2, ?_⟩
  intro other injective
  exact least other (Finset.mem_filter.mpr ⟨Finset.mem_univ _, injective⟩)

noncomputable def exhaustive : Solver where
  columns fits weights := Vector.ofFn (exists_least fits weights).choose

theorem exhaustive_isOptimal : exhaustive.IsOptimal := by
  intro n m fits weights bound _ _
  obtain ⟨distinct, least⟩ := (exists_least fits weights).choose_spec
  have columns : (exhaustive.columns fits weights).get = (exists_least fits weights).choose := by
    funext i
    change (Vector.ofFn (exists_least fits weights).choose)[i.1] = _
    rw [Vector.getElem_ofFn]
  constructor
  · rwa [columns]
  · rwa [columns]

end Solver

end TrackFusion
