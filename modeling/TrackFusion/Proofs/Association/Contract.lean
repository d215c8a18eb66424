import TrackFusion.Association.Regions
import TrackFusion.Proofs.Assignment.Gate
import TrackFusion.Proofs.Association.Objects
import TrackFusion.Proofs.Association.OneToOne
import TrackFusion.Proofs.Geometry.OverlapCost
import TrackFusion.Proofs.Scene

/-!
The contract of the built-in associators.

Whichever columns a solver answers, an association partitions both sides, tells whether an
observation could not be interpreted, and assigns only pairs of observations that could be and that
its gates admit.
-/

set_option autoImplicit false
set_option relaxedAutoImplicit false

namespace TrackFusion

/-- What an association of observations with tracks promises, given which observations can be
interpreted and which pairs are admitted. -/
structure Association.Honours {α β : Type} (a : Association) (tracks : List α)
    (observations : List β) (interpretable : β → Bool) (Admits : α → β → Prop) : Prop where
  partitions : a.Partitions tracks.length observations.length
  hadErrors : a.hadErrors = true ↔ ∃ o ∈ observations, interpretable o = false
  assigned : ∀ i j, a.observationOf i = some j → ∃ t o, tracks[i]? = some t ∧
    observations[j]? = some o ∧ interpretable o = true ∧ Admits t o

theorem exists_entry_of_mem_pairs {n m : Nat} {solver : Solver} {cost : Mat n m Exact}
    {gate : Exact} {found : Matching Exact} {k : Match Exact}
    (returned : minCostMatching solver cost gate = .ok found) (member : k ∈ found.pairs) :
    ∃ (i : Fin n) (j : Fin m), k.track = i ∧ k.observation = j ∧
      Scalar.isFinite (cost.entry i j) = true ∧ cost.entry i j ≤ gate := by
  obtain ⟨defined, nonneg, ⟨i, j⟩, -, kept⟩ := mem_pairs_of_minCostMatching returned member
  obtain ⟨finite, within, rfl⟩ := Gate.keep?_eq_some_iff.mp kept
  rw [Gate.prices, Mat.entry_map] at within
  exact ⟨i, j, rfl, rfl, finite, Gate.cost_le_of_price_le defined nonneg finite within⟩

theorem honours_ofMatching {α β : Type} {tracks : List α} {observations : List β}
    {interpretable : β → Bool} {Admits : α → β → Prop} {n m : Nat} (solver : Solver)
    (cost : Mat n m Exact) (gate : Exact)
    (admitted : ∀ i j, Scalar.isFinite (cost.entry i j) = true → cost.entry i j ≤ gate →
      ∃ t o, tracks[i.val]? = some t ∧ observations[j.val]? = some o ∧ interpretable o = true ∧
        Admits t o) :
    (Association.ofMatching tracks.length observations.length (minCostMatching solver cost gate)
      (observations.any fun o => !interpretable o)).Honours tracks observations interpretable
        Admits := by
  refine ⟨Association.partitions_ofMatching _ _ _ _, ?_, ?_⟩
  · rw [Association.hadErrors_ofMatching]
    simp only [List.any_eq_true, Bool.not_eq_true']
  · intro i j assigned
    obtain ⟨found, returned, k, member, rfl, rfl⟩ :=
      Association.exists_match_of_observationOf assigned
    obtain ⟨i, j, track, observation, finite, within⟩ := exists_entry_of_mem_pairs returned member
    rw [track, observation]
    exact admitted i j finite within

theorem ObjectGates.associate_honours {π : Type} (gates : ObjectGates Exact) (solver : Solver)
    (detections : List (Detection Exact π)) (tracks : List (Track Exact π)) :
    (gates.associate solver detections tracks).Honours tracks detections Detection.isValid
      gates.Admits := by
  refine honours_ofMatching solver _ _ ?_
  intro i j finite _
  obtain ⟨valid, same⟩ := entry_costs_of_isFinite finite
  rw [same] at finite
  exact ⟨tracks.get i, detections.get j, List.getElem?_eq_getElem i.isLt,
    List.getElem?_eq_getElem j.isLt, valid, admits_of_isFinite finite⟩

theorem ObjectGates.isValid_of_observationOf {ρ π : Type} [ExtendedScalar ρ] [InfiniteCost ρ]
    {gates : ObjectGates ρ} {solver : Solver} {detections : List (Detection ρ π)}
    {tracks : List (Track ρ π)} {i j : Nat}
    (assigned : (gates.associate solver detections tracks).observationOf i = some j) :
    ∃ d, detections[j]? = some d ∧ d.isValid = true := by
  obtain ⟨found, returned, k, member, -, rfl⟩ := Association.exists_match_of_observationOf assigned
  obtain ⟨-, -, pair, -, kept⟩ := mem_pairs_of_minCostMatching returned member
  obtain ⟨finite, -, rfl⟩ := Gate.keep?_eq_some_iff.mp kept
  have valid := (entry_costs_of_isFinite finite).1
  exact ⟨detections.get pair.2, List.getElem?_eq_getElem pair.2.isLt, valid⟩

namespace VisionGates

variable {π : Type} {gates : VisionGates Exact}

/-- The shape is visible in a box that overlaps the one of the region by the threshold at least. -/
def Admits (gates : VisionGates Exact) (view : Pose Exact) (s : Shape Exact)
    (r : Region Exact π) : Prop :=
  ∃ p b, gates.intrinsics.projectShape? view s = some p ∧ r.box? = some b ∧
    gates.iouThreshold ≤ p.intersectionOverUnion b

theorem le_of_one_sub_le {a b : Exact} (finite : Scalar.isFinite (1 - a) = true)
    (within : 1 - a ≤ 1 - b) : b ≤ a := by
  obtain ⟨z, same⟩ := Exact.isFinite_iff.mp finite
  obtain ⟨one, x, unit, rfl, difference⟩ := Exact.sub_eq_finite same
  rw [same] at within
  cases b with
  | undefined => exact within.elim
  | negInfinity => trivial
  | infinity => exact within.elim
  | finite y =>
    obtain rfl : 1 = one := Exact.finite.inj unit
    rw [Exact.one_eq, Exact.finite_sub_finite, Exact.finite_le_finite] at within
    rw [Exact.finite_le_finite]
    linarith

theorem admits_of_overlapCost {view : Pose Exact} {shapes : List (Shape Exact)}
    {regions : List (Region Exact π)} {i : Fin (gates.projections view shapes).length}
    {j : Fin (regions.map Region.box?).length}
    (finite : Scalar.isFinite
      ((overlapCost (gates.projections view shapes) (regions.map Region.box?)).entry i j) = true)
    (within : (overlapCost (gates.projections view shapes) (regions.map Region.box?)).entry i j ≤
      1 - gates.iouThreshold) :
    ∃ s r, shapes[i.val]? = some s ∧ regions[j.val]? = some r ∧ r.box?.isSome = true ∧
      gates.Admits view s r := by
  rw [entry_overlapCost] at finite within
  split at finite
  · rename_i p b visible outlined
    rw [visible, outlined] at within
    have placeI : (shapes.map (gates.intrinsics.projectShape? view))[i.val]? = some (some p) :=
      (List.getElem?_eq_getElem i.isLt).trans (congrArg some visible)
    have placeJ : (regions.map Region.box?)[j.val]? = some (some b) :=
      (List.getElem?_eq_getElem j.isLt).trans (congrArg some outlined)
    rw [List.getElem?_map, Option.map_eq_some_iff] at placeI placeJ
    obtain ⟨s, placeS, projected⟩ := placeI
    obtain ⟨r, placeR, boxed⟩ := placeJ
    exact ⟨s, r, placeS, placeR, boxed ▸ rfl, p, b, projected, boxed,
      le_of_one_sub_le finite within⟩
  · cases finite

theorem associateShapes_honours (gates : VisionGates Exact) (solver : Solver)
    (regions : List (Region Exact π)) (shapes : List (Shape Exact)) (view : Pose Exact) :
    (gates.associateShapes solver regions shapes view).Honours shapes regions
      (fun r => r.box?.isSome) (gates.Admits view) := by
  have missing : (regions.map Region.box?).any Option.isNone =
      regions.any fun r => !r.box?.isSome := by
    rw [List.any_map]
    congr 1
    funext r
    dsimp only [Function.comp_apply]
    rw [Option.not_isSome]
  unfold associateShapes
  dsimp only
  rw [missing]
  exact honours_ofMatching solver _ _ fun i j finite within => admits_of_overlapCost finite within

end VisionGates

theorem Association.Honours.of_map {α β γ : Type} {a : Association} {f : α → γ} {tracks : List α}
    {observations : List β} {interpretable : β → Bool} {Admits : γ → β → Prop}
    (honours : a.Honours (tracks.map f) observations interpretable Admits) :
    a.Honours tracks observations interpretable fun t o => Admits (f t) o := by
  obtain ⟨partitions, hadErrors, assigned⟩ := honours
  rw [List.length_map] at partitions
  refine ⟨partitions, hadErrors, ?_⟩
  intro i j pair
  obtain ⟨s, o, place, other, readable, admits⟩ := assigned i j pair
  rw [List.getElem?_map, Option.map_eq_some_iff] at place
  obtain ⟨t, place, rfl⟩ := place
  exact ⟨t, o, place, other, readable, admits⟩

/-- Object association, and region association with shapes and with tracks, honour the contract of
associators, whatever the solver, the gates and the observations are. -/
theorem associators_honour_contract {π : Type} (solver : Solver) (objects : ObjectGates Exact)
    (vision : VisionGates Exact) (view : Pose Exact) (tracks : List (Track Exact π))
    (shapes : List (Shape Exact)) (detections : List (Detection Exact π))
    (regions : List (Region Exact π)) :
    (objects.associate solver detections tracks).Honours tracks detections Detection.isValid
      objects.Admits ∧
    (vision.associateShapes solver regions shapes view).Honours shapes regions
      (fun r => r.box?.isSome) (vision.Admits view) ∧
    (vision.associate solver regions view tracks).Honours tracks regions
      (fun r => r.box?.isSome) fun t r => vision.Admits view t.shape r :=
  ⟨objects.associate_honours solver detections tracks,
    vision.associateShapes_honours solver regions shapes view,
    (vision.associateShapes_honours solver regions (tracks.map Track.shape) view).of_map⟩

theorem Solver.chosenPairs_alone (solver : Solver) (weights : Mat 1 1 Int) :
    solver.chosenPairs weights = [(0, 0)] := by
  unfold chosenPairs
  rw [dif_pos (le_refl 1)]
  exact congrArg (fun j => [((0 : Fin 1), j)]) (Subsingleton.elim _ _)

theorem Solver.minCostMatching_alone (solver : Solver) {cost : Mat 1 1 Exact} {x g : ℝ}
    (entry : cost.entry 0 0 = .finite x) (nonneg : 0 ≤ x) (within : x ≤ g) :
    minCostMatching solver cost (.finite g) = .ok (.ofPairs 1 1 [⟨0, 0, .finite x⟩]) := by
  have price : (Gate.prices cost (.finite g)).entry 0 0 = .finite x := by
    unfold Gate.prices
    rw [Mat.entry_map, entry, Gate.excludedPrice_finite]
    refine Gate.price_of_mem nonneg ?_
    linarith
  have kept : Gate.keep? cost (Gate.prices cost (.finite g)) (.finite g) (0, 0) =
      some ⟨0, 0, .finite x⟩ := by
    rw [Gate.keep?_eq_some_iff, price, entry]
    exact ⟨rfl, Exact.finite_le_finite.mpr within, rfl⟩
  have chosen : solver.chosenPairs ((Gate.prices cost (.finite g)).map Gate.weight) = [(0, 0)] :=
    Solver.chosenPairs_alone solver _
  rw [minCostMatching_eq solver cost (by simp) (Exact.isNaN_finite g)
    (Exact.not_finite_lt_zero (nonneg.trans within)), chosen, List.filterMap_cons_some kept,
    List.filterMap_nil, List.mergeSort_singleton]

theorem ObjectGates.observationOf_associate_alone {π : Type} {gates : ObjectGates Exact} {g : ℝ}
    (threshold : gates.gatingThreshold = .finite g) (solver : Solver) {t : Track Exact π}
    {d : Detection Exact π} (valid : d.isValid = true)
    (finite : Scalar.isFinite (gates.cost t d) = true) :
    (gates.associate solver [d] [t]).observationOf 0 = some 0 := by
  obtain ⟨x, same, nonneg⟩ := exists_cost_eq_finite finite
  obtain ⟨-, -, -, within⟩ := cost_of_isFinite finite
  rw [same, threshold, Exact.finite_le_finite] at within
  let table : Mat 1 1 Exact := gates.costs [t] [d]
  have entry : table.entry 0 0 = .finite x :=
    (Mat.entry_ofFn _ _ _).trans ((if_pos valid).trans same)
  unfold associate
  rw [threshold]
  exact congrArg (fun matching => (Association.ofMatching 1 1 matching _).observationOf 0)
    (solver.minCostMatching_alone entry nonneg within)

theorem Box.intersectionOverUnion_self (x y : ℝ) {w h : ℝ} (width : 0 < w) (height : 0 < h) :
    (Box.mk (.finite x) (.finite y) (.finite w) (.finite h) : Box Exact).intersectionOverUnion
      ⟨.finite x, .finite y, .finite w, .finite h⟩ = .finite 1 := by
  have area : w * h ≠ 0 := (mul_pos width height).ne'
  simp only [intersectionOverUnion, intersectionArea, Box.area, greatest, Exact.finite_add_finite,
    Exact.finite_sub_finite, Exact.finite_mul_finite, Exact.min_finite, Exact.max_finite,
    Exact.zero_eq, min_self, max_self, add_sub_cancel_left, max_eq_left width.le,
    max_eq_left height.le, Exact.finite_div_finite area, div_self area]

theorem VisionGates.observationOf_associateShapes_alone {π : Type} {gates : VisionGates Exact}
    {threshold x y w h : ℝ} {view : Pose Exact} {s : Shape Exact} {r : Region Exact π}
    (sameThreshold : gates.iouThreshold = .finite threshold) (atMost : threshold ≤ 1)
    (width : 0 < w) (height : 0 < h)
    (visible : gates.intrinsics.projectShape? view s =
      some ⟨.finite x, .finite y, .finite w, .finite h⟩)
    (outlined : r.box? = some ⟨.finite x, .finite y, .finite w, .finite h⟩) (solver : Solver) :
    (gates.associateShapes solver [r] [s] view).observationOf 0 = some 0 := by
  let table : Mat 1 1 Exact := overlapCost (gates.projections view [s]) ([r].map Region.box?)
  have entry : table.entry 0 0 = .finite 0 := by
    refine (@entry_overlapCost_of_some _ _ (gates.projections view [s]) ([r].map Region.box?)
      ⟨0, Nat.one_pos⟩ ⟨0, Nat.one_pos⟩ _ _ visible outlined).trans ?_
    rw [Box.intersectionOverUnion_self x y width height, Exact.one_eq, Exact.finite_sub_finite,
      sub_self]
  unfold associateShapes
  dsimp only
  rw [sameThreshold, Exact.one_eq, Exact.finite_sub_finite]
  exact congrArg (fun matching => (Association.ofMatching 1 1 matching _).observationOf 0)
    (solver.minCostMatching_alone entry (le_refl 0) (sub_nonneg.mpr atMost))

/-- An undefined distance gate excludes nothing: a car is assigned to a track a hundred metres away.
-/
theorem undefined_maxDistance_excludes_nothing :
    let gates : ObjectGates Exact := ⟨.undefined, .finite 10, .finite 10000⟩
    (gates.associate .augmentingPaths [Scene.car 100] [Scene.tracked 3 1 0]).observationOf 0 =
        some 0 ∧
      ¬ ObjectGates.planarDistance (Scene.tracked 3 1 0) (Scene.car 100) ≤ gates.maxDistance := by
  intro gates
  have notBeyond : ¬ gates.areaBound (Scene.tracked 3 1 0) (Scene.car 100) <
      ObjectGates.largerArea (Scene.tracked 3 1 0) (Scene.car 100) := by
    unfold ObjectGates.areaBound ObjectGates.largerArea
    rw [Scene.shapeArea_tracked, Scene.area_car, Exact.min_finite, Exact.max_finite,
      Exact.finite_mul_finite, Exact.finite_lt_finite]
    norm_num
  have cost : gates.cost (Scene.tracked 3 1 0) (Scene.car 100) = .finite 2500 := by
    refine ObjectGates.cost_of_within ?_ notBeyond ?_ ?_
    · exact fun below => below.1
    · rw [Scene.mahalanobisDistance_tracked (by norm_num)]
      norm_num
    · exact Exact.finite_le_finite.mpr (by norm_num)
  refine ⟨ObjectGates.observationOf_associate_alone rfl _ (Scene.isValid_car 100) ?_,
    Exact.not_le_undefined _⟩
  rw [cost, Exact.isFinite_finite]

end TrackFusion
