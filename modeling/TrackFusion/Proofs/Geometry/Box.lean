import Mathlib.Order.Interval.Set.Basic
import Mathlib.Order.Lattice
import TrackFusion.Geometry.Box
import TrackFusion.Proofs.Scalar.Exact

/-!
Boxes of real numbers.

Points of an image are pairs of real numbers, ordered coordinate by coordinate, and a box holds the
points between its two corners. The box around some points has their infimum and their supremum as
corners, if these enclose an interior, and clipping joins and meets the corners with those of the
image.
-/

set_option autoImplicit false
set_option relaxedAutoImplicit false

namespace TrackFusion

namespace Vec2

def ofReal (p : ℝ × ℝ) : Vec2 Exact :=
  ⟨.finite p.1, .finite p.2⟩

theorem ofReal_injective : Function.Injective ofReal := by
  intro p q same
  obtain ⟨x, y⟩ := Vec2.mk.inj same
  exact Prod.ext (Exact.finite.inj x) (Exact.finite.inj y)

theorem isFinite_ofReal (p : ℝ × ℝ) : (ofReal p).isFinite = true :=
  rfl

end Vec2

section Folds

variable {α β : Type}

theorem foldl_inf_le [SemilatticeInf α] (first : α) (rest : List α) :
    ∀ p ∈ first :: rest, rest.foldl (· ⊓ ·) first ≤ p := by
  induction rest generalizing first with
  | nil => exact fun p member => (List.mem_singleton.mp member).ge
  | cons next rest ih =>
    intro p member
    have start := ih (first ⊓ next) _ List.mem_cons_self
    rcases List.mem_cons.mp member with rfl | member
    · exact start.trans inf_le_left
    rcases List.mem_cons.mp member with rfl | member
    · exact start.trans inf_le_right
    · exact ih _ p (List.mem_cons_of_mem _ member)

theorem le_foldl_sup [SemilatticeSup α] (first : α) (rest : List α) :
    ∀ p ∈ first :: rest, p ≤ rest.foldl (· ⊔ ·) first :=
  foldl_inf_le (α := αᵒᵈ) first rest

/-- What is read of a fold is read of one of its elements, if each step keeps one of the two. -/
theorem exists_mem_foldl {step : α → α → α} {read : α → β}
    (keeps : ∀ p q, read (step p q) = read p ∨ read (step p q) = read q) (first : α)
    (rest : List α) : ∃ p ∈ first :: rest, read p = read (rest.foldl step first) := by
  induction rest generalizing first with
  | nil => exact ⟨first, List.mem_cons_self, rfl⟩
  | cons next rest ih =>
    obtain ⟨p, member, same⟩ := ih (step first next)
    rcases List.mem_cons.mp member with rfl | later
    · rcases keeps first next with kept | kept
      · exact ⟨first, List.mem_cons_self, kept.symm.trans same⟩
      · exact ⟨next, List.mem_cons_of_mem _ List.mem_cons_self, kept.symm.trans same⟩
    · exact ⟨p, List.mem_cons_of_mem _ (List.mem_cons_of_mem _ later), same⟩

end Folds

namespace Box

variable {a b : ℝ × ℝ}

def between (a b : ℝ × ℝ) : Box Exact :=
  ⟨.finite a.1, .finite a.2, .finite (b.1 - a.1), .finite (b.2 - a.2)⟩

theorem least_between (a b : ℝ × ℝ) : (between a b).least = .ofReal a :=
  rfl

theorem greatest_between (a b : ℝ × ℝ) : (between a b).greatest = .ofReal b := by
  unfold greatest between Vec2.ofReal
  simp only [Exact.finite_add_finite, add_sub_cancel]

/-- The corners enclose an interior. -/
def Encloses (a b : ℝ × ℝ) : Prop :=
  a.1 < b.1 ∧ a.2 < b.2

theorem ofCorners?_eq_some_iff {B : Box Exact} :
    ofCorners? (.ofReal a) (.ofReal b) = some B ↔ Encloses a b ∧ B = between a b := by
  unfold ofCorners? Encloses Vec2.ofReal between
  simp only [Exact.finite_lt_finite, Exact.finite_sub_finite]
  split_ifs with encloses
  · rw [Option.some.injEq, eq_comm, and_iff_right encloses]
  · exact iff_of_false not_false fun both => encloses both.1

theorem ofCorners?_eq_none_iff :
    ofCorners? (.ofReal a) (.ofReal b) = none ↔ ¬ Encloses a b := by
  rw [Option.eq_none_iff_forall_ne_some]
  exact ⟨fun none encloses => none _ (ofCorners?_eq_some_iff.mpr ⟨encloses, rfl⟩),
    fun flat B found => flat (ofCorners?_eq_some_iff.mp found).1⟩

theorem on_line_of_not_encloses (flat : ¬ Encloses a b) {points : Set (ℝ × ℝ)}
    (within : points ⊆ Set.Icc a b) :
    (∃ x, ∀ p ∈ points, p.1 = x) ∨ ∃ y, ∀ p ∈ points, p.2 = y := by
  rcases not_and_or.mp flat with narrow | low
  · exact .inl ⟨a.1, fun p member =>
      le_antisymm ((within member).2.1.trans (not_lt.mp narrow)) (within member).1.1⟩
  · exact .inr ⟨a.2, fun p member =>
      le_antisymm ((within member).2.2.trans (not_lt.mp low)) (within member).1.2⟩

section Points

theorem enclose?_of_finite (low high : Vec2 Exact) (p : ℝ × ℝ) :
    enclose? (low, high) (.ofReal p) =
      some (⟨Scalar.min low.x (.finite p.1), Scalar.min low.y (.finite p.2)⟩,
        ⟨Scalar.max high.x (.finite p.1), Scalar.max high.y (.finite p.2)⟩) := by
  unfold enclose?
  dsimp only
  rw [if_pos (Vec2.isFinite_ofReal p)]
  rfl

theorem enclose?_ofReal (low high p : ℝ × ℝ) :
    enclose? (.ofReal low, .ofReal high) (.ofReal p) =
      some (.ofReal (low ⊓ p), .ofReal (high ⊔ p)) := by
  rw [enclose?_of_finite]
  simp only [Vec2.ofReal, Exact.min_finite, Exact.max_finite, Prod.fst_inf, Prod.snd_inf,
    Prod.fst_sup, Prod.snd_sup]

theorem enclose?_noCorners (p : ℝ × ℝ) :
    enclose? noCorners (.ofReal p) = some (.ofReal p, .ofReal p) := by
  have start : (noCorners : Vec2 Exact × Vec2 Exact) =
      (⟨.infinity, .infinity⟩, ⟨.negInfinity, .negInfinity⟩) := rfl
  rw [start, enclose?_of_finite]
  simp only [Exact.min_infinity_finite, Exact.max_negInfinity_finite]
  rfl

/-- Corners widened by points are moved to their infimum and their supremum. -/
theorem foldlM_enclose?_ofReal (low high : ℝ × ℝ) (points : List (ℝ × ℝ)) :
    (points.map Vec2.ofReal).foldlM enclose? (.ofReal low, .ofReal high) =
      some (.ofReal (points.foldl (· ⊓ ·) low), .ofReal (points.foldl (· ⊔ ·) high)) := by
  induction points generalizing low high with
  | nil => rfl
  | cons p points ih =>
    rw [List.map_cons, List.foldlM_cons, enclose?_ofReal]
    exact ih (low ⊓ p) (high ⊔ p)

theorem foldlM_enclose?_of_infinite {points : List (Vec2 Exact)} {p : Vec2 Exact}
    (member : p ∈ points) (infinite : p.isFinite = false) (corners : Vec2 Exact × Vec2 Exact) :
    points.foldlM enclose? corners = none := by
  induction points generalizing corners with
  | nil => exact absurd member List.not_mem_nil
  | cons first rest ih =>
    rw [List.foldlM_cons]
    rcases List.mem_cons.mp member with rfl | later
    · rw [enclose?, infinite]
      rfl
    · cases enclose? corners first with
      | none => rfl
      | some wider => exact ih later wider

theorem ofPoints?_nil : ofPoints? ([] : List (Vec2 Exact)) = none :=
  if_neg fun encloses => encloses.1.1

theorem ofPoints?_ofReal (first : ℝ × ℝ) (rest : List (ℝ × ℝ)) :
    ofPoints? ((first :: rest).map Vec2.ofReal) =
      ofCorners? (.ofReal (rest.foldl (· ⊓ ·) first)) (.ofReal (rest.foldl (· ⊔ ·) first)) := by
  rw [ofPoints?, List.map_cons, List.foldlM_cons, enclose?_noCorners]
  change ((rest.map Vec2.ofReal).foldlM enclose? (.ofReal first, .ofReal first)).bind _ = _
  rw [foldlM_enclose?_ofReal, Option.bind_some]

end Points

theorem Encloses.mono {c d : ℝ × ℝ} (encloses : Encloses a b) (left : c ≤ a) (right : b ≤ d) :
    Encloses c d :=
  ⟨left.1.trans_lt (encloses.1.trans_le right.1), left.2.trans_lt (encloses.2.trans_le right.2)⟩

theorem clip?_between (a b size : ℝ × ℝ) :
    (between a b).clip? (.finite size.1) (.finite size.2) =
      ofCorners? (.ofReal (a ⊔ 0)) (.ofReal (b ⊓ size)) := by
  unfold clip? between Vec2.ofReal
  simp only [Exact.zero_eq, Exact.finite_add_finite, Exact.max_finite, Exact.min_finite,
    add_sub_cancel, Prod.fst_sup, Prod.snd_sup, Prod.fst_inf, Prod.snd_inf, Prod.fst_zero,
    Prod.snd_zero]

theorem bind_clip?_ofCorners? (a b size : ℝ × ℝ) :
    (ofCorners? (.ofReal a) (.ofReal b)).bind (·.clip? (.finite size.1) (.finite size.2)) =
      ofCorners? (.ofReal (a ⊔ 0)) (.ofReal (b ⊓ size)) := by
  cases drawn : ofCorners? (.ofReal a) (.ofReal b) with
  | some B =>
    obtain ⟨-, rfl⟩ := ofCorners?_eq_some_iff.mp drawn
    exact clip?_between a b size
  | none =>
    refine (ofCorners?_eq_none_iff.mpr fun encloses => ?_).symm
    exact ofCorners?_eq_none_iff.mp drawn (encloses.mono le_sup_left inf_le_left)

end Box

end TrackFusion
