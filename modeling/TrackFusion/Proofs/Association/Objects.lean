import TrackFusion.Association.Objects
import TrackFusion.Proofs.Kalman.GatingDistance

/-!
The cost of a track and a detection in exact numbers.

A finite cost is the squared Mahalanobis distance of a pair that passed all gates. It lies between
zero and the threshold, and the planar offset that the distance gate looked at is finite. What a gate
lets through is therefore within its bound, unless the bound itself is undefined.
-/

set_option autoImplicit false
set_option relaxedAutoImplicit false

namespace TrackFusion

namespace ObjectGates

variable {π : Type} {gates : ObjectGates Exact} {t : Track Exact π} {d : Detection Exact π}

noncomputable def planarDistance (t : Track Exact π) (d : Detection Exact π) : Exact :=
  (d.centroid - t.position).planar.norm

noncomputable def largerArea (t : Track Exact π) (d : Detection Exact π) : Exact :=
  Scalar.max t.shapeArea d.shape.area

noncomputable def areaBound (gates : ObjectGates Exact) (t : Track Exact π) (d : Detection Exact π) :
    Exact :=
  gates.maxAreaRatio * Scalar.min t.shapeArea d.shape.area

/-- The pair is within every bound that is defined, and its squared Mahalanobis distance is within the
threshold. -/
structure Admits (gates : ObjectGates Exact) (t : Track Exact π) (d : Detection Exact π) : Prop where
  distance : gates.maxDistance = .undefined ∨ planarDistance t d ≤ gates.maxDistance
  area : gates.areaBound t d = .undefined ∨ largerArea t d ≤ gates.areaBound t d
  gating : ∃ v, t.mahalanobisDistance d = .ok v ∧ v ≤ gates.gatingThreshold

theorem cost_of_isFinite (finite : Scalar.isFinite (gates.cost t d) = true) :
    ¬ gates.maxDistance < planarDistance t d ∧ ¬ gates.areaBound t d < largerArea t d ∧
      t.mahalanobisDistance d = .ok (gates.cost t d) ∧ gates.cost t d ≤ gates.gatingThreshold := by
  unfold cost at finite ⊢
  dsimp only at finite ⊢
  split at finite
  · cases finite
  · rename_i near
    split at finite
    · cases finite
    · rename_i alike
      rw [if_neg near, if_neg alike]
      split at finite
      · rename_i v distance
        split at finite
        · rename_i within
          rw [if_pos within]
          exact ⟨near, alike, distance, within⟩
        · cases finite
      · cases finite

theorem cost_of_within {v : Exact} (near : ¬ gates.maxDistance < planarDistance t d)
    (alike : ¬ gates.areaBound t d < largerArea t d) (distance : t.mahalanobisDistance d = .ok v)
    (within : v ≤ gates.gatingThreshold) : gates.cost t d = v := by
  refine (if_neg near).trans ((if_neg alike).trans ?_)
  rw [distance]
  exact if_pos within

theorem exists_cost_eq_finite (finite : Scalar.isFinite (gates.cost t d) = true) :
    ∃ x, gates.cost t d = .finite x ∧ 0 ≤ x := by
  obtain ⟨-, -, distance, -⟩ := cost_of_isFinite finite
  obtain ⟨x, same⟩ := Exact.isFinite_iff.mp finite
  rw [same] at distance
  exact ⟨x, same, (KinematicState.gatingDistance_eq_finite distance).1⟩

theorem planarDistance_of_finite {x y px py : ℝ}
    (centroid : d.centroid.planar = ⟨.finite x, .finite y⟩)
    (position : t.state.position = ⟨.finite px, .finite py⟩) :
    planarDistance t d = .finite (Real.sqrt ((x - px) * (x - px) + (y - py) * (y - py))) := by
  have centroidX : d.centroid.x = .finite x := congrArg Vec2.x centroid
  have centroidY : d.centroid.y = .finite y := congrArg Vec2.y centroid
  have positionX : t.position.x = .finite px := congrArg Vec2.x position
  have positionY : t.position.y = .finite py := congrArg Vec2.y position
  change Scalar.sqrt ((d.centroid.x - t.position.x) * (d.centroid.x - t.position.x) +
    (d.centroid.y - t.position.y) * (d.centroid.y - t.position.y)) = _
  rw [centroidX, centroidY, positionX, positionY]
  simp only [Exact.finite_sub_finite, Exact.finite_mul_finite, Exact.finite_add_finite]
  exact Exact.sqrt_finite (add_nonneg (mul_self_nonneg _) (mul_self_nonneg _))

theorem exists_planarDistance_eq_finite (finite : Scalar.isFinite (gates.cost t d) = true) :
    ∃ r, planarDistance t d = .finite r := by
  obtain ⟨-, -, distance, -⟩ := cost_of_isFinite finite
  obtain ⟨z, same⟩ := Exact.isFinite_iff.mp finite
  rw [same] at distance
  obtain ⟨-, x, y, px, py, measured, position⟩ := KinematicState.gatingDistance_eq_finite distance
  exact ⟨_, planarDistance_of_finite measured position⟩

theorem areaBound_eq_undefined (undefined : largerArea t d = .undefined) :
    gates.areaBound t d = .undefined := by
  have smaller : Scalar.min t.shapeArea d.shape.area = .undefined := by
    unfold largerArea Scalar.max at undefined
    unfold Scalar.min
    by_cases nan : Scalar.isNaN t.shapeArea = true
    · rw [nan, Bool.true_or, if_pos rfl] at undefined ⊢
      exact undefined
    · rw [Bool.not_eq_true] at nan
      rw [nan, Bool.false_or] at undefined
      split at undefined
      · rename_i below
        rw [decide_eq_true_eq, undefined] at below
        exact absurd below (Exact.not_lt_undefined _)
      · exact absurd undefined (Exact.isNaN_eq_false_iff.mp nan)
  unfold areaBound
  rw [smaller]
  cases gates.maxAreaRatio <;> rfl

theorem admits_of_isFinite (finite : Scalar.isFinite (gates.cost t d) = true) :
    gates.Admits t d := by
  obtain ⟨near, alike, distance, within⟩ := cost_of_isFinite finite
  refine ⟨?_, ?_, _, distance, within⟩
  · by_cases undefined : gates.maxDistance = .undefined
    · exact .inl undefined
    · obtain ⟨r, same⟩ := exists_planarDistance_eq_finite finite
      refine .inr (Exact.le_of_not_lt undefined ?_ near)
      rw [same]
      exact nofun
  · by_cases undefined : gates.areaBound t d = .undefined
    · exact .inl undefined
    · exact .inr (Exact.le_of_not_lt undefined (mt areaBound_eq_undefined undefined) alike)

theorem entry_costs_of_isFinite {ρ : Type} [ExtendedScalar ρ] [InfiniteCost ρ]
    {gates : ObjectGates ρ} {tracks : List (Track ρ π)} {detections : List (Detection ρ π)}
    {i : Fin tracks.length} {j : Fin detections.length}
    (finite : Scalar.isFinite ((gates.costs tracks detections).entry i j) = true) :
    (detections.get j).isValid = true ∧
      (gates.costs tracks detections).entry i j =
        gates.cost (tracks.get i) (detections.get j) := by
  unfold costs at finite ⊢
  rw [Mat.entry_ofFn] at finite ⊢
  split at finite
  · rename_i valid
    rw [if_pos valid]
    exact ⟨valid, rfl⟩
  · rw [InfiniteCost.isFinite_infinity] at finite
    cases finite

end ObjectGates

end TrackFusion
