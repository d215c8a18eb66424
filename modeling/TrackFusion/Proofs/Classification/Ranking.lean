import TrackFusion.Proofs.Classification.Belief
import TrackFusion.Scenario.Replay

/-!
The ranking of a belief.

It lists the classes of positive probability, each once, by falling probability and equally likely
ones in the order of the classes. As a belief always holds probabilities, there is a first one: the
most likely class, which is also what a table shows of a track.
-/

set_option autoImplicit false
set_option relaxedAutoImplicit false

namespace TrackFusion

theorem pairwise_mergeSort_of_pairwise {α : Type} (p : α → ℝ) {r : α → α → Prop} {l : List α}
    (ordered : l.Pairwise r) :
    (l.mergeSort fun a b => p b ≤ p a).Pairwise fun a b => p b < p a ∨ p a = p b ∧ r a b := by
  induction l with
  | nil =>
    rw [List.mergeSort_nil]
    exact .nil
  | cons a l ih =>
    have sorted := List.pairwise_mergeSort (falling_trans p) (falling_total p) (a :: l)
    obtain ⟨before, after, whole, rest, greater⟩ :=
      List.mergeSort_cons (falling_trans p) (falling_total p) a l
    obtain ⟨first, others⟩ := List.pairwise_cons.mp ordered
    have later := ih others
    rw [rest] at later
    rw [whole] at sorted ⊢
    obtain ⟨front, back, across⟩ := List.pairwise_append.mp later
    obtain ⟨below, -⟩ := List.pairwise_cons.mp (List.pairwise_append.mp sorted).2.1
    -- The first element goes behind the greater ones and before all others.
    refine List.pairwise_append.mpr ⟨front, List.pairwise_cons.mpr ⟨fun b member => ?_, back⟩, ?_⟩
    · have listed : b ∈ l := List.mem_mergeSort.mp (rest ▸ List.mem_append_right before member)
      rcases (of_decide_eq_true (below b member)).lt_or_eq with less | same
      · exact .inl less
      · exact .inr ⟨same.symm, first b listed⟩
    · intro b ahead c member
      rcases List.mem_cons.mp member with rfl | behind
      · have above := greater b ahead
        rw [Bool.not_eq_true', decide_eq_false_iff_not, not_le] at above
        exact .inl above
      · exact across b ahead c behind

namespace ClassBelief

section Members

variable {α : Type} [Scalar α] (b : ClassBelief α)

theorem mem_ranking_iff (h : Hypothesis α) :
    h ∈ b.ranking ↔
      0 < h.probability ∧ h.probability = b.distribution.probability h.objectClass := by
  unfold ranking
  rw [List.mem_mergeSort, List.mem_filter, decide_eq_true_eq, List.mem_map, and_comm]
  refine and_congr_right fun _ => ⟨?_, fun same => ?_⟩
  · rintro ⟨c, -, rfl⟩
    rfl
  · refine ⟨h.objectClass, ObjectClass.mem_all _, ?_⟩
    rw [hypothesis, ← same]

theorem nodup_ranking : (b.ranking.map (·.objectClass)).Nodup := by
  have classes : (ObjectClass.all.map b.hypothesis).map (·.objectClass) = ObjectClass.all := by
    rw [List.map_map]
    exact List.map_id _
  have once : ((ObjectClass.all.map b.hypothesis).map (·.objectClass)).Nodup := by
    rw [classes]
    decide
  unfold ranking
  refine ((List.mergeSort_perm _ _).map _).nodup_iff.mpr ?_
  exact once.sublist (List.filter_sublist.map _)

end Members

noncomputable section

/-- A ranking of what a belief holds. -/
structure IsRanking (b : ClassBelief Exact) (ranking : List (Hypothesis Exact)) : Prop where
  nonempty : ranking ≠ []
  mem_iff : ∀ h, h ∈ ranking ↔
    0 < h.probability ∧ h.probability = b.distribution.probability h.objectClass
  once : (ranking.map (·.objectClass)).Nodup
  /-- By falling probability, equally likely classes in the order of the classes. -/
  ordered : ranking.Pairwise fun h k => k.probability < h.probability ∨
    h.probability = k.probability ∧ h.objectClass.index < k.objectClass.index
  first : ranking.head? = some b.mostLikely

variable {b : ClassBelief Exact} {p : ObjectClass → ℝ} {s : ℝ}

theorem IsReal.ranking_ordered (real : b.IsReal p s) :
    b.ranking.Pairwise fun h k => k.probability < h.probability ∨
      h.probability = k.probability ∧ h.objectClass.index < k.objectClass.index := by
  have ascending : ObjectClass.all.Pairwise fun c d => c.index < d.index := by decide
  rw [real.ranking_eq, List.pairwise_map]
  refine (pairwise_mergeSort_of_pairwise p (ascending.filter fun c => 0 < p c)).imp ?_
  rintro c d (less | ⟨same, before⟩)
  · exact .inl (Exact.finite_lt_finite.mpr less)
  · exact .inr ⟨congrArg Exact.finite same, before⟩

/-- A belief that was started and updated ranks its classes, and a table shows of a track with that
belief the first of the ranking, its most likely class. -/
theorem isRanking_of_reachable (reachable : b.Reachable) :
    b.IsRanking b.ranking ∧
      ∀ {ρ : Type} [Scalar ρ] (t : Track ρ Exact), t.belief = b → ∀ header status,
        (Replay.rowOf header status t.snapshot).objectClass = b.mostLikely.objectClass := by
  obtain ⟨p, s, real⟩ := reachable.exists_isReal
  have first := reachable.head?_ranking
  refine ⟨⟨fun empty => ?_, b.mem_ranking_iff, b.nodup_ranking, real.ranking_ordered, first⟩, ?_⟩
  · rw [empty] at first
    cases first
  · rintro ρ _ t rfl header status
    change ((t.belief.ranking.head?.map (·.objectClass)).getD .unknown) = _
    rw [first]
    rfl

/-- A class seen once by a belief with the usual weight is as likely as the unknown class. -/
theorem isRanking_of_tie :
    let b := (initial none : ClassBelief Exact).update [⟨.car, 1⟩]
    b.Reachable ∧ b.IsRanking b.ranking ∧
      ∀ {ρ : Type} [Scalar ρ] (t : Track ρ Exact), t.belief = b → ∀ header status,
        (Replay.rowOf header status t.snapshot).objectClass = b.mostLikely.objectClass := by
  intro b
  have reachable : b.Reachable := .update _ (.initial none nofun)
  exact ⟨reachable, isRanking_of_reachable reachable⟩

end

end ClassBelief

end TrackFusion
