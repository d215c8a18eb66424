import Mathlib.Data.List.Basic
import TrackFusion.Association.Basic

/-!
Associations are one-to-one.

Whatever matches come in, first come first served keeps pairs that are in range and share neither a
track nor an observation, and it keeps all of them if they are so already. `Partitions` is what this
makes of the association: an observation per track at most, and exactly the others left over.
-/

set_option autoImplicit false
set_option relaxedAutoImplicit false

namespace TrackFusion

namespace Association

structure OneToOne (n m : Nat) (pairs : List (Nat × Nat)) : Prop where
  inRange : ∀ p ∈ pairs, p.1 < n ∧ p.2 < m
  track : ∀ p ∈ pairs, ∀ q ∈ pairs, p.1 = q.1 → p = q
  observation : ∀ p ∈ pairs, ∀ q ∈ pairs, p.2 = q.2 → p = q

/-- Each of `n` tracks has one of `m` observations or none, no observation goes to two tracks, and
what is left over on either side is listed in ascending order. -/
structure Partitions (a : Association) (n m : Nat) : Prop where
  length : a.assignments.length = n
  inRange : ∀ t o, a.observationOf t = some o → t < n ∧ o < m
  injective : ∀ t u o, a.observationOf t = some o → a.observationOf u = some o → t = u
  tracksAscend : a.unassignedTracks.Pairwise (· < ·)
  tracks : ∀ t, t ∈ a.unassignedTracks ↔ t < n ∧ a.observationOf t = none
  observationsAscend : a.unassignedObservations.Pairwise (· < ·)
  observations : ∀ o, o ∈ a.unassignedObservations ↔ o < m ∧ ∀ t, a.observationOf t ≠ some o

variable {n m : Nat} {kept pairs : List (Nat × Nat)} {p pair : Nat × Nat}

theorem OneToOne.nil : OneToOne n m [] :=
  ⟨nofun, nofun, nofun⟩

theorem keepPair_cases (n m : Nat) (kept : List (Nat × Nat)) (pair : Nat × Nat) :
    (keepPair n m kept pair = kept ++ [pair] ∧ pair.1 < n ∧ pair.2 < m ∧
      ∀ k ∈ kept, k.1 ≠ pair.1 ∧ k.2 ≠ pair.2) ∨
    (keepPair n m kept pair = kept ∧
      (pair.1 < n → pair.2 < m → ∃ k ∈ kept, k.1 = pair.1 ∨ k.2 = pair.2)) := by
  unfold keepPair
  split
  · rename_i free
    obtain ⟨track, observation, newTrack, newObservation⟩ := free
    simp only [List.any_eq_true, beq_iff_eq, not_exists, not_and] at newTrack newObservation
    exact .inl ⟨rfl, track, observation, fun k member => ⟨newTrack k member, newObservation k member⟩⟩
  · rename_i taken
    refine .inr ⟨rfl, fun track observation => ?_⟩
    by_contra free
    simp only [not_exists, not_and, not_or] at free
    refine taken ⟨track, observation, ?_, ?_⟩ <;>
      simp only [List.any_eq_true, beq_iff_eq, not_exists, not_and]
    · exact fun k member => (free k member).1
    · exact fun k member => (free k member).2

theorem OneToOne.keepPair (oneToOne : OneToOne n m kept) (pair : Nat × Nat) :
    OneToOne n m (keepPair n m kept pair) := by
  rcases keepPair_cases n m kept pair with ⟨same, track, observation, free⟩ | ⟨same, -⟩
  · rw [same]
    have members {p : Nat × Nat} : p ∈ kept ++ [pair] → p ∈ kept ∨ p = pair := by
      rw [List.mem_append, List.mem_singleton]
      exact id
    refine ⟨?_, ?_, ?_⟩
    · intro p member
      rcases members member with old | rfl
      · exact oneToOne.inRange p old
      · exact ⟨track, observation⟩
    · intro p first q second meet
      rcases members first with old | rfl <;> rcases members second with old' | rfl
      · exact oneToOne.track p old q old' meet
      · exact absurd meet (free p old).1
      · exact absurd meet.symm (free q old').1
      · rfl
    · intro p first q second meet
      rcases members first with old | rfl <;> rcases members second with old' | rfl
      · exact oneToOne.observation p old q old' meet
      · exact absurd meet (free p old).2
      · exact absurd meet.symm (free q old').2
      · rfl
  · rwa [same]

theorem mem_of_mem_keepPair (member : p ∈ keepPair n m kept pair) : p ∈ kept ∨ p = pair := by
  rcases keepPair_cases n m kept pair with ⟨same, -⟩ | ⟨same, -⟩
  · rwa [same, List.mem_append, List.mem_singleton] at member
  · rw [same] at member
    exact .inl member

theorem OneToOne.foldl_keepPair (oneToOne : OneToOne n m kept) (pairs : List (Nat × Nat)) :
    OneToOne n m (pairs.foldl (Association.keepPair n m) kept) := by
  induction pairs generalizing kept with
  | nil => exact oneToOne
  | cons pair rest ih => exact ih (oneToOne.keepPair pair)

theorem mem_of_mem_foldl_keepPair (member : p ∈ pairs.foldl (keepPair n m) kept) :
    p ∈ kept ∨ p ∈ pairs := by
  induction pairs generalizing kept with
  | nil => exact .inl member
  | cons pair rest ih =>
    rcases ih member with old | later
    · rcases mem_of_mem_keepPair old with older | rfl
      · exact .inl older
      · exact .inr List.mem_cons_self
    · exact .inr (List.mem_cons_of_mem pair later)

/-- Among pairs that are one-to-one together with those kept before, none is passed over. -/
theorem OneToOne.mem_foldl_keepPair (oneToOne : OneToOne n m (kept ++ pairs))
    (member : p ∈ kept ++ pairs) : p ∈ pairs.foldl (Association.keepPair n m) kept := by
  induction pairs generalizing kept with
  | nil => rwa [List.append_nil] at member
  | cons pair rest ih =>
    have listed : pair ∈ kept ++ pair :: rest := List.mem_append_right _ List.mem_cons_self
    have split {q : Nat × Nat} : q ∈ kept ++ pair :: rest ↔ q ∈ (kept ++ [pair]) ++ rest := by
      rw [List.append_assoc, List.singleton_append]
    rw [List.foldl_cons]
    rcases keepPair_cases n m kept pair with ⟨same, -⟩ | ⟨same, taken⟩
    · rw [same]
      refine ih ?_ (split.mp member)
      rwa [List.append_assoc, List.singleton_append]
    · -- a pair that meets a kept one is that one
      obtain ⟨track, observation⟩ := oneToOne.inRange pair listed
      obtain ⟨k, old, meet⟩ := taken track observation
      have older : k ∈ kept ++ pair :: rest := List.mem_append_left _ old
      have again : pair ∈ kept := by
        rcases meet with meet | meet
        · exact oneToOne.track k older pair listed meet ▸ old
        · exact oneToOne.observation k older pair listed meet ▸ old
      have fewer {q : Nat × Nat} : q ∈ kept ++ rest → q ∈ kept ++ pair :: rest := by
        simp only [List.mem_append, List.mem_cons]
        rintro (first | last)
        · exact .inl first
        · exact .inr (.inr last)
      rw [same]
      refine ih ⟨fun q h => oneToOne.inRange q (fewer h),
        fun q h r h' => oneToOne.track q (fewer h) r (fewer h'),
        fun q h r h' => oneToOne.observation q (fewer h) r (fewer h')⟩ ?_
      simp only [List.mem_append, List.mem_cons] at member ⊢
      rcases member with first | rfl | last
      · exact .inl first
      · exact .inl again
      · exact .inr last

theorem observationOf_ofPairs {t : Nat} (inRange : t < n) (pairs : List (Nat × Nat))
    (hadErrors : Bool) : (ofPairs n m pairs hadErrors).observationOf t =
      (pairs.find? fun p => p.1 == t).map Prod.snd := by
  simp only [observationOf, ofPairs, List.getElem?_map, List.getElem?_range inRange,
    Option.map_some, Option.join_some]

theorem OneToOne.observationOf_eq_some_iff (oneToOne : OneToOne n m pairs) {t o : Nat}
    {hadErrors : Bool} : (ofPairs n m pairs hadErrors).observationOf t = some o ↔
      (t, o) ∈ pairs := by
  constructor
  · intro assigned
    have inRange : t < n := by
      by_contra outside
      have none : (List.range n)[t]? = Option.none :=
        List.getElem?_eq_none (by rw [List.length_range]; omega)
      simp only [observationOf, ofPairs, List.getElem?_map, none] at assigned
      cases assigned
    rw [observationOf_ofPairs inRange, Option.map_eq_some_iff] at assigned
    obtain ⟨⟨u, _⟩, found, rfl⟩ := assigned
    obtain rfl : u = t := by simpa only [beq_iff_eq] using List.find?_some found
    exact List.mem_of_find?_eq_some found
  · intro member
    rw [observationOf_ofPairs (oneToOne.inRange _ member).1, Option.map_eq_some_iff]
    cases found : pairs.find? fun p => p.1 == t with
    | none =>
      have missing := List.find?_eq_none.mp found (t, o) member
      rw [beq_self_eq_true] at missing
      exact absurd rfl missing
    | some p =>
      have sameTrack : p.1 = t := by simpa only [beq_iff_eq] using List.find?_some found
      have same := oneToOne.track p (List.mem_of_find?_eq_some found) (t, o) member sameTrack
      exact ⟨p, rfl, by rw [same]⟩

theorem OneToOne.partitions (oneToOne : OneToOne n m pairs) (hadErrors : Bool) :
    (ofPairs n m pairs hadErrors).Partitions n m := by
  have assigned {t o : Nat} :
      (ofPairs n m pairs hadErrors).observationOf t = some o ↔ (t, o) ∈ pairs :=
    oneToOne.observationOf_eq_some_iff
  refine ⟨?_, ?_, ?_, ?_, ?_, ?_, ?_⟩
  · simp only [ofPairs, List.length_map, List.length_range]
  · intro t o pair
    exact oneToOne.inRange (t, o) (assigned.mp pair)
  · intro t u o first second
    exact congrArg Prod.fst
      (oneToOne.observation (t, o) (assigned.mp first) (u, o) (assigned.mp second) rfl)
  · exact List.pairwise_lt_range.filter _
  · intro t
    rw [Option.eq_none_iff_forall_ne_some]
    simp only [ne_eq, assigned]
    simp only [ofPairs, List.mem_filter, List.mem_range, Bool.not_eq_true', List.any_eq_false,
      beq_iff_eq]
    refine and_congr_right fun _ => ?_
    constructor
    · exact fun free o member => free (t, o) member rfl
    · rintro free ⟨_, o⟩ member rfl
      exact free o member
  · exact List.pairwise_lt_range.filter _
  · intro o
    simp only [ne_eq, assigned]
    simp only [ofPairs, List.mem_filter, List.mem_range, Bool.not_eq_true', List.any_eq_false,
      beq_iff_eq]
    refine and_congr_right fun _ => ?_
    constructor
    · exact fun free t member => free (t, o) member rfl
    · rintro free ⟨t, _⟩ member rfl
      exact free t member

theorem unassigned_eq_ofPairs (n m : Nat) (hadErrors : Bool) :
    unassigned n m hadErrors = ofPairs n m [] hadErrors := by
  have every {k : Nat} : ((List.range k).filter fun _ => true) = List.range k :=
    List.filter_true (List.range k)
  simp only [unassigned, ofPairs, List.find?_nil, Option.map_none, List.map_const',
    List.length_range, List.any_nil, Bool.not_false, every]

section Matchings

variable {ρ : Type} {matching : Except GateError (Matching ρ)} {hadErrors : Bool}

theorem hadErrors_ofMatching (n m : Nat) (matching : Except GateError (Matching ρ))
    (hadErrors : Bool) : (ofMatching n m matching hadErrors).hadErrors = hadErrors := by
  cases matching <;> rfl

theorem exists_ofMatching_eq (n m : Nat) (matching : Except GateError (Matching ρ))
    (hadErrors : Bool) : ∃ pairs, OneToOne n m pairs ∧
      ofMatching n m matching hadErrors = ofPairs n m pairs hadErrors ∧
      ∀ p ∈ pairs, ∃ found, matching = .ok found ∧
        ∃ k ∈ found.pairs, k.track = p.1 ∧ k.observation = p.2 := by
  cases matching with
  | error e => exact ⟨[], .nil, unassigned_eq_ofPairs n m hadErrors, nofun⟩
  | ok found =>
    refine ⟨_, OneToOne.nil.foldl_keepPair _, rfl, ?_⟩
    intro p member
    rcases mem_of_mem_foldl_keepPair member with none | listed
    · cases none
    · obtain ⟨k, matched, rfl⟩ := List.mem_map.mp listed
      exact ⟨found, rfl, k, matched, rfl, rfl⟩

theorem partitions_ofMatching (n m : Nat) (matching : Except GateError (Matching ρ))
    (hadErrors : Bool) : (ofMatching n m matching hadErrors).Partitions n m := by
  obtain ⟨pairs, oneToOne, same, -⟩ := exists_ofMatching_eq n m matching hadErrors
  rw [same]
  exact oneToOne.partitions hadErrors

theorem ofMatching_congr [ExtendedScalar ρ] {n' m' : Nat} {cost : Mat n m ρ} {cost' : Mat n' m' ρ}
    (rows : n' = n) (columns : m' = m)
    (entries : ∀ i j, cost'.entry i j = cost.entry (i.cast rows) (j.cast columns)) (solver : Solver)
    (gate : ρ) (hadErrors : Bool) :
    ofMatching n' m' (minCostMatching solver cost' gate) hadErrors =
      ofMatching n m (minCostMatching solver cost gate) hadErrors := by
  subst rows columns
  rw [Mat.ext entries]

theorem exists_match_of_observationOf {t o : Nat}
    (assigned : (ofMatching n m matching hadErrors).observationOf t = some o) :
    ∃ found, matching = .ok found ∧ ∃ k ∈ found.pairs, k.track = t ∧ k.observation = o := by
  obtain ⟨pairs, oneToOne, same, listed⟩ := exists_ofMatching_eq n m matching hadErrors
  rw [same, oneToOne.observationOf_eq_some_iff] at assigned
  exact listed (t, o) assigned

theorem observationOf_ofMatches_iff {matched : List (Match ρ)} {t o : Nat}
    (oneToOne : OneToOne n m (matched.map fun k => (k.track, k.observation))) :
    (ofMatches n m matched hadErrors).observationOf t = some o ↔
      ∃ k ∈ matched, k.track = t ∧ k.observation = o := by
  have kept : OneToOne n m _ := OneToOne.nil.foldl_keepPair
    (matched.map fun k => (k.track, k.observation))
  unfold ofMatches
  rw [kept.observationOf_eq_some_iff]
  constructor
  · intro member
    rcases mem_of_mem_foldl_keepPair member with none | listed
    · cases none
    · simpa only [List.mem_map, Prod.mk.injEq] using listed
  · rintro ⟨k, member, rfl, rfl⟩
    have whole : OneToOne n m ([] ++ matched.map fun k => (k.track, k.observation)) := oneToOne
    exact whole.mem_foldl_keepPair (List.mem_map_of_mem member)

end Matchings

section Pairs

variable {a : Association}

def orderedPairs (a : Association) : List (Nat × Nat) :=
  a.assignments.zipIdx.filterMap fun e => e.1.map fun o => (e.2, o)

theorem mem_orderedPairs_iff {t o : Nat} :
    (t, o) ∈ a.orderedPairs ↔ a.observationOf t = some o := by
  unfold orderedPairs observationOf
  simp only [List.mem_filterMap, Option.map_eq_some_iff, Prod.mk.injEq, Prod.exists,
    List.mk_mem_zipIdx_iff_getElem?, Option.join_eq_some_iff]
  constructor
  · rintro ⟨_, _, place, _, rfl, rfl, rfl⟩
    exact place
  · intro place
    exact ⟨some o, t, place, o, rfl, rfl, rfl⟩

theorem orderedPairs_ascend (a : Association) : a.orderedPairs.Pairwise fun p q => p.1 < q.1 := by
  have places : a.assignments.zipIdx.Pairwise fun e f => e.2 < f.2 := by
    have ascending := List.pairwise_lt_range' (s := 0) (n := a.assignments.length)
    rw [← List.zipIdx_map_snd 0 a.assignments, List.pairwise_map] at ascending
    exact ascending
  refine places.filterMap _ ?_
  rintro ⟨_, t⟩ ⟨_, u⟩ before p first q second
  obtain ⟨_, -, rfl⟩ := Option.map_eq_some_iff.mp first
  obtain ⟨_, -, rfl⟩ := Option.map_eq_some_iff.mp second
  exact before

theorem length_orderedPairs (a : Association) : a.orderedPairs.length = a.pairCount := by
  unfold orderedPairs pairCount
  rw [List.length_filterMap_eq_countP]
  conv_rhs => rw [← List.zipIdx_map_fst 0 a.assignments, List.countP_map]
  simp only [Option.isSome_map, Function.comp_def]

theorem mem_map_snd_orderedPairs {j : Nat} :
    j ∈ a.orderedPairs.map Prod.snd ↔ ∃ i, a.observationOf i = some j := by
  simp only [List.mem_map, Prod.exists, mem_orderedPairs_iff, exists_eq_right]

theorem Partitions.orderedPairs_distinct (partitions : a.Partitions n m) :
    (a.orderedPairs.map Prod.snd).Nodup := by
  refine List.pairwise_map.mpr (a.orderedPairs_ascend.imp_of_mem ?_)
  rintro ⟨t, o⟩ ⟨u, _⟩ first second before rfl
  have same := partitions.injective t u o (mem_orderedPairs_iff.mp first)
    (mem_orderedPairs_iff.mp second)
  exact absurd same (Nat.ne_of_lt before)

end Pairs

end Association

end TrackFusion
