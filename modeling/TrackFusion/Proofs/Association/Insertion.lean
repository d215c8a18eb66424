import Mathlib.Order.Monotone.Basic
import TrackFusion.Proofs.Association.Optimal

/-!
Inserting observations that nothing can be assigned to.

They are columns without a finite cost. They may turn a tall table into a wide one, but the admissible
pairs are those of the narrower table at their new places, with the same excess. If the least ones are
unique, a solver that is optimal on both tables therefore finds the same pairs.
-/

set_option autoImplicit false
set_option relaxedAutoImplicit false

namespace TrackFusion

section Lists

variable {α β : Type} {P : α → Prop} {small large : List α}

inductive Inserts (P : α → Prop) : List α → List α → Prop
  | nil : Inserts P [] []
  | kept (x : α) {small large : List α} (rest : Inserts P small large) :
      Inserts P (x :: small) (x :: large)
  | inserted {y : α} {small large : List α} (kind : P y) (rest : Inserts P small large) :
      Inserts P small (y :: large)

/-- The places in the second list of the entries of the first one. They may go on past the ends. -/
structure Inserts.Places (P : α → Prop) (small large : List α) (place : Nat → Nat) : Prop where
  ascending : StrictMono place
  kept : ∀ j, large[place j]? = small[j]?
  inserted : ∀ k y, large[k]? = some y → (∀ j, place j ≠ k) → P y

namespace Inserts

theorem map {Q : β → Prop} (f : α → β) (kind : ∀ y, P y → Q (f y)) (inserts : Inserts P small large) :
    Inserts Q (small.map f) (large.map f) := by
  induction inserts with
  | nil => exact .nil
  | kept x _ ih => exact .kept (f x) ih
  | inserted first _ ih => exact .inserted (kind _ first) ih

theorem eq_or_exists (inserts : Inserts P small large) :
    small = large ∨ small.length < large.length ∧ ∃ y ∈ large, P y := by
  induction inserts with
  | nil => exact .inl rfl
  | kept x _ ih =>
    rcases ih with rfl | ⟨longer, y, member, kind⟩
    · exact .inl rfl
    · exact .inr ⟨Nat.succ_lt_succ longer, y, List.mem_cons_of_mem x member, kind⟩
  | @inserted y _ _ kind _ ih =>
    refine .inr ⟨?_, y, List.mem_cons_self, kind⟩
    rcases ih with rfl | ⟨longer, -⟩
    · exact Nat.lt_succ_self _
    · exact longer.trans (Nat.lt_succ_self _)

theorem length_le (inserts : Inserts P small large) : small.length ≤ large.length := by
  rcases inserts.eq_or_exists with rfl | ⟨longer, -⟩
  · exact Nat.le_refl _
  · exact longer.le

theorem exists_places (inserts : Inserts P small large) : ∃ place, Places P small large place := by
  induction inserts with
  | nil => exact ⟨id, strictMono_id, fun j => rfl, nofun⟩
  | @kept x small large _ ih =>
    obtain ⟨place, ascending, kept, inserted⟩ := ih
    let shifted : Nat → Nat
      | 0 => 0
      | j + 1 => place j + 1
    refine ⟨shifted, strictMono_nat_of_lt_succ ?_, ?_, ?_⟩
    · intro j
      cases j with
      | zero => exact Nat.succ_pos _
      | succ j => exact Nat.succ_lt_succ (ascending (Nat.lt_succ_self j))
    · intro j
      cases j with
      | zero => rfl
      | succ j => exact kept j
    · intro k y listed fresh
      cases k with
      | zero => exact absurd rfl (fresh 0)
      | succ k => exact inserted k y listed fun j same => fresh (j + 1) (congrArg Nat.succ same)
  -- an entry put in front moves every place on by one
  | @inserted first small large kind _ ih =>
    obtain ⟨place, ascending, kept, inserted⟩ := ih
    refine ⟨fun j => place j + 1, fun i j before => Nat.succ_lt_succ (ascending before), kept, ?_⟩
    intro k y listed fresh
    cases k with
    | zero =>
      obtain rfl := Option.some.inj listed
      exact kind
    | succ k => exact inserted k y listed fun j same => fresh j (congrArg Nat.succ same)

theorem Places.lt_length_iff {place : Nat → Nat} (places : Places P small large place) {j : Nat} :
    place j < large.length ↔ j < small.length := by
  rw [← not_le, ← List.getElem?_eq_none_iff, places.kept, List.getElem?_eq_none_iff, not_le]

end Inserts

end Lists

section Tables

variable {n m m' : Nat} {cost : Mat n m Exact} {cost' : Mat n m' Exact} {g : ℝ}
  {column : Fin m → Fin m'} {pairs : Finset (Fin n × Fin m)}

/-- The second table has the columns of the first one at the given places. No other column has a
finite cost. -/
structure Widens (cost : Mat n m Exact) (cost' : Mat n m' Exact) (column : Fin m → Fin m') :
    Prop where
  injective : Function.Injective column
  entry : ∀ i j, cost'.entry i (column j) = cost.entry i j
  excluded : ∀ i k, (∀ j, column j ≠ k) → Scalar.isFinite (cost'.entry i k) = false

/-- The pairs are admissible, and no admissible pairs have a smaller excess. -/
structure IsLeastAdmissible (cost : Mat n m Exact) (g : ℝ) (pairs : Finset (Fin n × Fin m)) : Prop
    extends IsAdmissible cost pairs where
  least : ∀ others, IsAdmissible cost others → excess cost g pairs ≤ excess cost g others

namespace Widens

theorem exists_column (wide : Widens cost cost' column) {i : Fin n} {k : Fin m'}
    (finite : Scalar.isFinite (cost'.entry i k) = true) : ∃ j, column j = k := by
  by_contra fresh
  rw [wide.excluded i k (not_exists.mp fresh)] at finite
  cases finite

theorem gated (wide : Widens cost cost' column) (gated : Gated cost g) : Gated cost' g := by
  intro i k finite
  obtain ⟨j, rfl⟩ := wide.exists_column finite
  rw [wide.entry] at finite ⊢
  exact gated i j finite

theorem excess_image (wide : Widens cost cost' column) (pairs : Finset (Fin n × Fin m)) :
    excess cost' g (pairs.image (Prod.map id column)) = excess cost g pairs := by
  have injective : Function.Injective (Prod.map (id : Fin n → Fin n) column) :=
    Function.injective_id.prodMap wide.injective
  unfold excess
  rw [Finset.sum_image injective.injOn]
  simp only [Prod.map_fst, Prod.map_snd, id_eq, wide.entry]

theorem isAdmissible_image_iff (wide : Widens cost cost' column) :
    IsAdmissible cost' (pairs.image (Prod.map id column)) ↔ IsAdmissible cost pairs := by
  constructor
  · rintro ⟨⟨rows, columns⟩, finite⟩
    refine ⟨⟨?_, ?_⟩, ?_⟩
    · intro p first q second same
      have moved := rows (Finset.mem_image_of_mem _ first) (Finset.mem_image_of_mem _ second) same
      exact Prod.ext same (wide.injective (congrArg Prod.snd moved))
    · intro p first q second same
      have moved := columns (Finset.mem_image_of_mem _ first) (Finset.mem_image_of_mem _ second)
        (congrArg column same)
      have row := congrArg Prod.fst moved
      exact Prod.ext row same
    · intro p member
      rw [← wide.entry]
      exact finite _ (Finset.mem_image_of_mem _ member)
  · rintro ⟨⟨rows, columns⟩, finite⟩
    refine ⟨⟨?_, ?_⟩, ?_⟩
    · rw [Finset.coe_image]
      rintro _ ⟨p, first, rfl⟩ _ ⟨q, second, rfl⟩ same
      rw [rows first second same]
    · rw [Finset.coe_image]
      rintro _ ⟨p, first, rfl⟩ _ ⟨q, second, rfl⟩ same
      rw [columns first second (wide.injective same)]
    · intro p member
      obtain ⟨q, old, rfl⟩ := Finset.mem_image.mp member
      rw [Prod.map_fst, Prod.map_snd, wide.entry]
      exact finite q old

theorem exists_image_eq (wide : Widens cost cost' column) {wider : Finset (Fin n × Fin m')}
    (admissible : IsAdmissible cost' wider) :
    ∃ pairs : Finset (Fin n × Fin m), pairs.image (Prod.map id column) = wider := by
  have within : wider ⊆ Finset.univ.image (Prod.map id column) := by
    intro p member
    obtain ⟨j, same⟩ := wide.exists_column (admissible.finite p member)
    exact Finset.mem_image.mpr ⟨(p.1, j), Finset.mem_univ _, Prod.ext rfl same⟩
  obtain ⟨pairs, -, same⟩ := Finset.subset_image_iff.mp within
  exact ⟨pairs, same⟩

theorem isLeastAdmissible_of_image (wide : Widens cost cost' column)
    (least : IsLeastAdmissible cost' g (pairs.image (Prod.map id column))) :
    IsLeastAdmissible cost g pairs := by
  refine ⟨wide.isAdmissible_image_iff.mp least.toIsAdmissible, ?_⟩
  intro others admissible
  have compared := least.least _ (wide.isAdmissible_image_iff.mpr admissible)
  rwa [wide.excess_image, wide.excess_image] at compared

end Widens

variable {solver : Solver}

/-- If the least admissible pairs are unique, the wider table has the pairs of the narrower one. -/
theorem assignedPairs_of_widens (optimal : solver.IsOptimal) (gated : Gated cost g) (nonneg : 0 ≤ g)
    (wide : Widens cost cost' column) (fits : m ≤ m')
    (small : (min n m' : Nat) * Gate.weightOf (g + 1e-5) < 2 ^ 62)
    (unique : ∀ pairs others, IsLeastAdmissible cost g pairs → IsLeastAdmissible cost g others →
      pairs = others) (hadErrors hadErrors' : Bool) :
    (Association.ofMatching n m' (minCostMatching solver cost' (.finite g)) hadErrors').assignedPairs
        n m' =
      ((Association.ofMatching n m (minCostMatching solver cost (.finite g)) hadErrors).assignedPairs
        n m).image (Prod.map id column) := by
  have excluded : 0 ≤ Gate.weightOf (g + 1e-5) := Gate.weightOf_nonneg (by positivity)
  have fewer : ((min n m : Nat) : ℤ) ≤ (min n m' : Nat) := by omega
  have smaller : (min n m : Nat) * Gate.weightOf (g + 1e-5) < 2 ^ 62 :=
    (mul_le_mul_of_nonneg_right fewer excluded).trans_lt small
  obtain ⟨admissible, least⟩ := assignedPairs_least optimal gated nonneg smaller hadErrors
  obtain ⟨admissible', least'⟩ :=
    assignedPairs_least optimal (wide.gated gated) nonneg small hadErrors'
  -- pairs of the wider table lie in columns of the narrower one, where they are least as well
  obtain ⟨pairs, same⟩ := wide.exists_image_eq admissible'
  rw [← same] at admissible' least' ⊢
  have leastPairs := wide.isLeastAdmissible_of_image ⟨admissible', least'⟩
  rw [unique pairs _ leastPairs ⟨admissible, least⟩]

theorem observationOf_ofMatching_of_negative (negative : g < 0) (cost : Mat n m Exact)
    (hadErrors : Bool) (i : Nat) :
    (Association.ofMatching n m (minCostMatching solver cost (.finite g)) hadErrors).observationOf
      i = none := by
  rw [Option.eq_none_iff_forall_ne_some]
  intro j assigned
  obtain ⟨found, matched, k, member, -, -⟩ := Association.exists_match_of_observationOf assigned
  obtain ⟨-, nonneg, -⟩ := mem_pairs_of_minCostMatching matched member
  exact nonneg (Exact.finite_lt_finite.mpr negative)

theorem Association.Partitions.observationOf_eq_map {a a' : Association}
    (partitions : a.Partitions n m) (partitions' : a'.Partitions n m')
    (same : a'.assignedPairs n m' = (a.assignedPairs n m).image (Prod.map id column))
    {place : Nat → Nat} (atPlace : ∀ j, (column j).val = place j) (i : Nat) :
    a'.observationOf i = (a.observationOf i).map place := by
  ext k
  rw [Option.map_eq_some_iff]
  constructor
  · intro assigned
    obtain ⟨track, observation⟩ := partitions'.inRange i k assigned
    have member : ((⟨i, track⟩, ⟨k, observation⟩) : Fin n × Fin m') ∈ a'.assignedPairs n m' :=
      mem_assignedPairs_iff.mpr assigned
    rw [same] at member
    obtain ⟨⟨u, j⟩, old, moved⟩ := Finset.mem_image.mp member
    obtain ⟨rfl, rfl⟩ : u.val = i ∧ (column j).val = k :=
      ⟨congrArg (fun p => p.1.val) moved, congrArg (fun p => p.2.val) moved⟩
    exact ⟨j, mem_assignedPairs_iff.mp old, (atPlace j).symm⟩
  · rintro ⟨j, assigned, rfl⟩
    obtain ⟨track, observation⟩ := partitions.inRange i j assigned
    have member : ((⟨i, track⟩, ⟨j, observation⟩) : Fin n × Fin m) ∈ a.assignedPairs n m :=
      mem_assignedPairs_iff.mpr assigned
    have moved := Finset.mem_image_of_mem (Prod.map id column) member
    rw [← same] at moved
    have named := mem_assignedPairs_iff.mp moved
    rwa [atPlace] at named

end Tables

namespace ObjectGates

variable {π : Type} {gates : ObjectGates Exact} {g : ℝ} {tracks : List (Track Exact π)}
  {detections larger : List (Detection Exact π)} {place : Nat → Nat}

/-- Pairs that could be assigned, at the least total excess of all such. -/
structure IsLeastChoice (gates : ObjectGates Exact) (g : ℝ) (tracks : List (Track Exact π))
    (detections : List (Detection Exact π))
    (pairs : Finset (Fin tracks.length × Fin detections.length)) : Prop
    extends gates.Assignable tracks detections pairs where
  least : ∀ others, gates.Assignable tracks detections others →
    gates.totalExcess g tracks detections pairs ≤ gates.totalExcess g tracks detections others

/-- There is only one least choice of pairs. -/
def HasOneChoice (gates : ObjectGates Exact) (g : ℝ) (tracks : List (Track Exact π))
    (detections : List (Detection Exact π)) : Prop :=
  ∀ pairs others, gates.IsLeastChoice g tracks detections pairs →
    gates.IsLeastChoice g tracks detections others → pairs = others

theorem isLeastChoice_iff {pairs : Finset (Fin tracks.length × Fin detections.length)} :
    gates.IsLeastChoice g tracks detections pairs ↔
      IsLeastAdmissible (gates.costs tracks detections) g pairs := by
  constructor
  · rintro ⟨assignable, least⟩
    refine ⟨assignable_iff.mp assignable, fun others admissible => ?_⟩
    have other := assignable_iff.mpr admissible
    rw [← assignable.totalExcess_eq, ← other.totalExcess_eq]
    exact least others other
  · rintro ⟨admissible, least⟩
    have assignable := assignable_iff.mpr admissible
    refine ⟨assignable, fun others other => ?_⟩
    rw [assignable.totalExcess_eq, other.totalExcess_eq]
    exact least others (assignable_iff.mp other)

def columnAt (places : Inserts.Places (fun d => d.isValid = false) detections larger place)
    (j : Fin detections.length) : Fin larger.length :=
  ⟨place j, places.lt_length_iff.mpr j.isLt⟩

theorem widens_costs (gates : ObjectGates Exact) (tracks : List (Track Exact π))
    (places : Inserts.Places (fun d => d.isValid = false) detections larger place) :
    Widens (gates.costs tracks detections) (gates.costs tracks larger) (columnAt places) := by
  refine ⟨?_, ?_, ?_⟩
  · intro i j same
    exact Fin.ext (places.ascending.injective (congrArg Fin.val same))
  · intro i j
    have same : larger.get (columnAt places j) = detections.get j := by
      have kept := places.kept j
      rw [List.getElem?_eq_getElem j.isLt,
        List.getElem?_eq_getElem (places.lt_length_iff.mpr j.isLt)] at kept
      exact Option.some.inj kept
    unfold costs
    rw [Mat.entry_ofFn, Mat.entry_ofFn, same]
  · intro i k fresh
    have invalid : (larger.get k).isValid = false := by
      refine places.inserted k _ (List.getElem?_eq_getElem k.isLt) ?_
      intro j same
      have bound : j < detections.length := places.lt_length_iff.mp (by rw [same]; exact k.isLt)
      exact fresh ⟨j, bound⟩ (Fin.ext same)
    unfold costs
    rw [Mat.entry_ofFn, if_neg (by rw [invalid]; exact Bool.false_ne_true)]
    rfl

/-- If there is one least choice of pairs, invalid detections do not change which detection goes to
which track. -/
theorem observationOf_associate_of_places {solver : Solver} (optimal : solver.IsOptimal)
    (threshold : gates.gatingThreshold = .finite g)
    (places : Inserts.Places (fun d => d.isValid = false) detections larger place)
    (fits : detections.length ≤ larger.length)
    (small : (min tracks.length larger.length : Nat) * Gate.weightOf (g + 1e-5) < 2 ^ 62)
    (one : gates.HasOneChoice g tracks detections) (i : Nat) :
    (gates.associate solver larger tracks).observationOf i =
      ((gates.associate solver detections tracks).observationOf i).map place := by
  unfold associate
  rw [threshold]
  rcases lt_or_ge g 0 with negative | nonneg
  · rw [observationOf_ofMatching_of_negative negative, observationOf_ofMatching_of_negative negative]
    rfl
  · have unique : ∀ pairs others, IsLeastAdmissible (gates.costs tracks detections) g pairs →
        IsLeastAdmissible (gates.costs tracks detections) g others → pairs = others :=
      fun pairs others first second =>
        one pairs others (isLeastChoice_iff.mpr first) (isLeastChoice_iff.mpr second)
    have same := assignedPairs_of_widens optimal (gated_costs threshold) nonneg
      (widens_costs gates tracks places) fits small unique (detections.any fun d => !d.isValid)
      (larger.any fun d => !d.isValid)
    exact (Association.partitions_ofMatching _ _ _ _).observationOf_eq_map
      (Association.partitions_ofMatching _ _ _ _) same (fun j => rfl) i

theorem hasOneChoice_of_length_eq_one (threshold : gates.gatingThreshold = .finite g)
    (oneTrack : tracks.length = 1) (oneDetection : detections.length = 1) :
    gates.HasOneChoice g tracks detections := by
  intro pairs others first second
  have only (p q : Fin tracks.length × Fin detections.length) : p = q := by
    refine Prod.ext (Fin.ext ?_) (Fin.ext ?_) <;> omega
  have within {chosen more : Finset (Fin tracks.length × Fin detections.length)}
      (least : gates.IsLeastChoice g tracks detections chosen)
      (choice : gates.IsLeastChoice g tracks detections more) : more ⊆ chosen := by
    intro p member
    have admissible := isLeastChoice_iff.mp least
    obtain ⟨q, used, -⟩ := admissible.toIsAdmissible.used_of_isFinite (gated_costs threshold)
      admissible.least ((isLeastChoice_iff.mp choice).finite p member)
    rwa [only p q]
  exact (within second first).antisymm (within first second)

end ObjectGates

end TrackFusion
