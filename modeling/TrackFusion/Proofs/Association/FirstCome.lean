import Mathlib.Data.Finset.Card
import TrackFusion.Proofs.Association.OneToOne

/-!
First come first served.

Of any list of matches, exactly those are served that are in range and whose ends are both free of the
matches served before them. The association can be kept in two tables, one with the observation of
each track and one that marks the observations that are taken. A match that is passed over changes
neither, so that an observation is marked exactly if some track has it.
-/

set_option autoImplicit false
set_option relaxedAutoImplicit false

namespace TrackFusion

namespace Association

/-- The places of the matches that are served: in range, and neither end is that of a match that is
served at an earlier place. -/
structure FirstCome (n m : Nat) (pairs : List (Nat × Nat)) (served : Finset Nat) : Prop where
  listed : ∀ i ∈ served, i < pairs.length
  mem_iff : ∀ i p, pairs[i]? = some p → (i ∈ served ↔ p.1 < n ∧ p.2 < m ∧
    ∀ j ∈ served, j < i → ∀ q, pairs[j]? = some q → q.1 ≠ p.1 ∧ q.2 ≠ p.2)

def keptBefore (n m : Nat) (pairs : List (Nat × Nat)) (i : Nat) : List (Nat × Nat) :=
  (pairs.take i).foldl (keepPair n m) []

def servedPlaces (n m : Nat) (pairs : List (Nat × Nat)) : Finset Nat :=
  (Finset.range pairs.length).filter fun i => keptBefore n m pairs (i + 1) ≠ keptBefore n m pairs i

variable {n m : Nat} {pairs : List (Nat × Nat)} {served other : Finset Nat} {i j : Nat}
  {p q : Nat × Nat}

theorem FirstCome.apart (come : FirstCome n m pairs served) (first : i ∈ served)
    (second : j ∈ served) (place : pairs[i]? = some p) (place' : pairs[j]? = some q)
    (distinct : i ≠ j) : p.1 ≠ q.1 ∧ p.2 ≠ q.2 := by
  rcases Nat.lt_or_gt_of_ne distinct with before | after
  · exact ((come.mem_iff j q place').mp second).2.2 i first before p place
  · obtain ⟨track, observation⟩ := ((come.mem_iff i p place).mp first).2.2 j second after q place'
    exact ⟨track.symm, observation.symm⟩

theorem FirstCome.unique (come : FirstCome n m pairs served) (come' : FirstCome n m pairs other) :
    served = other := by
  have same (i : Nat) : i ∈ served ↔ i ∈ other := by
    induction i using Nat.strongRecOn with
    | ind i earlier =>
      by_cases inside : i < pairs.length
      · have place := List.getElem?_eq_getElem inside
        rw [come.mem_iff i _ place, come'.mem_iff i _ place]
        refine and_congr_right fun _ => and_congr_right fun _ => forall_congr' fun j => ?_
        constructor
        · exact fun free member before => free ((earlier j before).mpr member) before
        · exact fun free member before => free ((earlier j before).mp member) before
      · exact iff_of_false (fun member => inside (come.listed i member))
          fun member => inside (come'.listed i member)
  exact Finset.ext same

theorem keptBefore_succ (place : pairs[i]? = some p) :
    keptBefore n m pairs (i + 1) = keepPair n m (keptBefore n m pairs i) p := by
  unfold keptBefore
  rw [List.take_add_one, place, Option.toList_some, List.foldl_append, List.foldl_cons,
    List.foldl_nil]

theorem keptBefore_length : keptBefore n m pairs pairs.length = pairs.foldl (keepPair n m) [] := by
  unfold keptBefore
  rw [List.take_length]

theorem servedPlaces_cases (place : pairs[i]? = some p) :
    (i ∈ servedPlaces n m pairs ∧
      keptBefore n m pairs (i + 1) = keptBefore n m pairs i ++ [p] ∧ p.1 < n ∧ p.2 < m ∧
        ∀ k ∈ keptBefore n m pairs i, k.1 ≠ p.1 ∧ k.2 ≠ p.2) ∨
    (i ∉ servedPlaces n m pairs ∧ keptBefore n m pairs (i + 1) = keptBefore n m pairs i ∧
      (p.1 < n → p.2 < m → ∃ k ∈ keptBefore n m pairs i, k.1 = p.1 ∨ k.2 = p.2)) := by
  have inside : i < pairs.length := (List.getElem?_eq_some_iff.mp place).1
  have grows := keptBefore_succ (n := n) (m := m) place
  unfold servedPlaces
  rw [Finset.mem_filter, Finset.mem_range, and_iff_right inside, not_not]
  rcases keepPair_cases n m (keptBefore n m pairs i) p with ⟨same, free⟩ | ⟨same, taken⟩
  · refine .inl ⟨?_, grows.trans same, free⟩
    rw [grows, same]
    exact mt List.append_right_eq_self.mp (List.cons_ne_nil p [])
  · exact .inr ⟨grows.trans same, grows.trans same, taken⟩

theorem mem_keptBefore_iff : p ∈ keptBefore n m pairs i ↔
    ∃ j ∈ servedPlaces n m pairs, j < i ∧ pairs[j]? = some p := by
  induction i with
  | zero =>
    refine iff_of_false (List.not_mem_nil) ?_
    rintro ⟨j, -, before, -⟩
    exact Nat.not_lt_zero j before
  | succ i ih =>
    -- one more match adds its own pair if it is served, and nothing otherwise
    have split : (∃ j ∈ servedPlaces n m pairs, j < i + 1 ∧ pairs[j]? = some p) ↔
        p ∈ keptBefore n m pairs i ∨ i ∈ servedPlaces n m pairs ∧ pairs[i]? = some p := by
      rw [ih]
      simp only [Nat.lt_succ_iff_lt_or_eq, or_and_right, and_or_left, exists_or]
      simp only [and_left_comm (b := _ = i), exists_eq_left]
    rw [split]
    cases place : pairs[i]? with
    | none =>
      have same : keptBefore n m pairs (i + 1) = keptBefore n m pairs i := by
        unfold keptBefore
        rw [List.take_add_one, place, Option.toList_none, List.append_nil]
      rw [same, or_iff_left]
      exact fun h => Option.some_ne_none p h.2.symm
    | some r =>
      rcases servedPlaces_cases (n := n) (m := m) place with
        ⟨member, same, -⟩ | ⟨missing, same, -⟩
      · rw [same, List.mem_append, List.mem_singleton, and_iff_right member, Option.some_inj,
          eq_comm (a := p)]
      · rw [same, or_iff_left]
        exact fun h => missing h.1

theorem firstCome_servedPlaces (n m : Nat) (pairs : List (Nat × Nat)) :
    FirstCome n m pairs (servedPlaces n m pairs) := by
  refine ⟨fun i member => Finset.mem_range.mp (Finset.mem_filter.mp member).1, fun i p place => ?_⟩
  rcases servedPlaces_cases (n := n) (m := m) place with
    ⟨member, -, track, observation, free⟩ | ⟨missing, -, taken⟩
  · refine iff_of_true member ⟨track, observation, fun j earlier before q place' => ?_⟩
    exact free q (mem_keptBefore_iff.mpr ⟨j, earlier, before, place'⟩)
  · refine iff_of_false missing ?_
    rintro ⟨track, observation, free⟩
    obtain ⟨k, old, meet⟩ := taken track observation
    obtain ⟨j, earlier, before, place'⟩ := mem_keptBefore_iff.mp old
    obtain ⟨newTrack, newObservation⟩ := free j earlier before k place'
    exact meet.elim newTrack newObservation

/-- The two tables that are filled in while matches are offered: the observation of each track, and
a mark for each observation that is taken. -/
structure Tables where
  assignments : List (Option Nat)
  taken : List Bool

namespace Tables

def empty (n m : Nat) : Tables :=
  ⟨List.replicate n none, List.replicate m false⟩

/-- The tables after one more match. If it is in range and its track is free, it marks its
observation, and it is assigned unless the observation was marked before. -/
def offer (n m : Nat) (t : Tables) (pair : Nat × Nat) : Tables :=
  if pair.1 < n ∧ pair.2 < m ∧ t.assignments[pair.1]?.join = none then
    let marked := t.taken.set pair.2 true
    if t.taken[pair.2]? = some true then { t with taken := marked }
    else ⟨t.assignments.set pair.1 (some pair.2), marked⟩
  else t

def association (n m : Nat) (t : Tables) (hadErrors : Bool) : Association where
  assignments := t.assignments
  unassignedTracks := (List.range n).filter fun i => t.assignments[i]?.join.isNone
  unassignedObservations := (List.range m).filter fun o => !t.taken[o]?.getD false
  hadErrors := hadErrors

def ofPairs (n m : Nat) (kept : List (Nat × Nat)) : Tables where
  assignments := (List.range n).map fun t => (kept.find? fun k => k.1 == t).map Prod.snd
  taken := (List.range m).map fun o => kept.any fun k => k.2 == o

variable {kept : List (Nat × Nat)} {t o : Nat}

theorem empty_eq_ofPairs (n m : Nat) : empty n m = ofPairs n m [] := by
  unfold empty ofPairs
  simp only [List.find?_nil, Option.map_none, List.any_nil, List.map_const', List.length_range]

theorem getElem?_assignments_ofPairs (inRange : t < n) :
    (ofPairs n m kept).assignments[t]? = some ((kept.find? fun k => k.1 == t).map Prod.snd) := by
  simp only [ofPairs, List.getElem?_map, List.getElem?_range inRange, Option.map_some]

theorem getElem?_taken_ofPairs (inRange : o < m) :
    (ofPairs n m kept).taken[o]? = some (kept.any fun k => k.2 == o) := by
  simp only [ofPairs, List.getElem?_map, List.getElem?_range inRange, Option.map_some]

theorem association_ofPairs (n m : Nat) (kept : List (Nat × Nat)) (hadErrors : Bool) :
    (ofPairs n m kept).association n m hadErrors = Association.ofPairs n m kept hadErrors := by
  have tracks : ((ofPairs n m kept).association n m hadErrors).unassignedTracks =
      (Association.ofPairs n m kept hadErrors).unassignedTracks := by
    refine List.filter_congr fun t inRange => ?_
    rw [getElem?_assignments_ofPairs (List.mem_range.mp inRange), Option.join_some,
      Option.isNone_map, Bool.eq_iff_iff, Option.isNone_iff_eq_none, List.find?_eq_none,
      Bool.not_eq_true', List.any_eq_false]
  have observations : ((ofPairs n m kept).association n m hadErrors).unassignedObservations =
      (Association.ofPairs n m kept hadErrors).unassignedObservations := by
    refine List.filter_congr fun o inRange => ?_
    rw [getElem?_taken_ofPairs (List.mem_range.mp inRange), Option.getD_some]
  unfold association Association.ofPairs at *
  dsimp only at tracks observations
  rw [tracks, observations]
  rfl

theorem join_getElem?_ofPairs_eq_none_iff (inRange : t < n) :
    (ofPairs n m kept).assignments[t]?.join = none ↔ ∀ k ∈ kept, k.1 ≠ t := by
  rw [getElem?_assignments_ofPairs inRange, Option.join_some, Option.map_eq_none_iff,
    List.find?_eq_none]
  simp only [beq_iff_eq, ne_eq]

theorem getElem?_ofPairs_eq_true_iff (inRange : o < m) :
    (ofPairs n m kept).taken[o]? = some true ↔ ∃ k ∈ kept, k.2 = o := by
  rw [getElem?_taken_ofPairs inRange, Option.some_inj, List.any_eq_true]
  simp only [beq_iff_eq]

private theorem set_map_range {β : Type} (f : Nat → β) (k i : Nat) (b : β) :
    ((List.range k).map f).set i b = (List.range k).map (Function.update f i b) := by
  refine List.ext_getElem? fun j => ?_
  by_cases inside : j < k
  · rw [List.getElem?_set, List.getElem?_map, List.getElem?_map, List.getElem?_range inside,
      List.length_map, List.length_range, Option.map_some, Option.map_some, Function.update_apply]
    by_cases same : i = j
    · subst same
      rw [if_pos rfl, if_pos inside, if_pos rfl]
    · rw [if_neg same, if_neg (Ne.symm same)]
  · rw [List.getElem?_eq_none (by simpa using inside), List.getElem?_eq_none (by simpa using inside)]

theorem ofPairs_append (free : ∀ k ∈ kept, k.1 ≠ p.1) :
    ofPairs n m (kept ++ [p]) = ⟨(ofPairs n m kept).assignments.set p.1 (some p.2),
      (ofPairs n m kept).taken.set p.2 true⟩ := by
  unfold ofPairs
  rw [set_map_range, set_map_range]
  congr 2
  · funext t
    rw [Function.update_apply, List.find?_append, List.find?_singleton]
    by_cases own : t = p.1
    · have unmatched : (kept.find? fun k => k.1 == t) = none := by
        refine List.find?_eq_none.mpr fun k member => ?_
        rw [beq_iff_eq, own]
        exact free k member
      rw [unmatched, if_pos own, if_pos (beq_iff_eq.mpr own.symm), Option.none_or, Option.map_some]
    · rw [if_neg own, if_neg (fun same => own (beq_iff_eq.mp same).symm), Option.or_none]
  · funext o
    rw [Function.update_apply, List.any_append]
    by_cases own : o = p.2
    · simp [own]
    · simp [own, Ne.symm own]

/-- Offering a match to the tables keeps its pair or passes it over. -/
theorem offer_ofPairs (n m : Nat) (kept : List (Nat × Nat)) (pair : Nat × Nat) :
    (ofPairs n m kept).offer n m pair = ofPairs n m (keepPair n m kept pair) := by
  unfold offer
  rcases keepPair_cases n m kept pair with ⟨same, track, observation, free⟩ | ⟨same, taken⟩
  · have freeTrack : ∀ k ∈ kept, k.1 ≠ pair.1 := fun k member => (free k member).1
    have unmarked : ¬ (ofPairs n m kept).taken[pair.2]? = some true := by
      rw [getElem?_ofPairs_eq_true_iff observation]
      rintro ⟨k, member, meet⟩
      exact (free k member).2 meet
    rw [if_pos ⟨track, observation, (join_getElem?_ofPairs_eq_none_iff track).mpr freeTrack⟩, same]
    dsimp only
    rw [if_neg unmarked, ofPairs_append freeTrack]
  · rw [same]
    split
    · rename_i free
      obtain ⟨track, observation, unassigned⟩ := free
      obtain ⟨k, member, meet⟩ := taken track observation
      -- the track is free, so it is the observation that is taken
      have meet : k.2 = pair.2 :=
        meet.resolve_left ((join_getElem?_ofPairs_eq_none_iff track).mp unassigned k member)
      have marked := (getElem?_ofPairs_eq_true_iff (n := n) observation).mpr ⟨k, member, meet⟩
      have unchanged : (ofPairs n m kept).taken.set pair.2 true = (ofPairs n m kept).taken := by
        obtain ⟨inside, entry⟩ := List.getElem?_eq_some_iff.mp marked
        nth_rewrite 2 [← List.set_getElem_self inside]
        rw [entry]
      dsimp only
      rw [if_pos marked, unchanged]
    · rfl

theorem foldl_offer (n m : Nat) (pairs : List (Nat × Nat)) :
    pairs.foldl (offer n m) (empty n m) = ofPairs n m (pairs.foldl (keepPair n m) []) := by
  rw [empty_eq_ofPairs]
  exact List.foldl_hom (ofPairs n m) (offer_ofPairs n m)

end Tables

section Matches

variable {ρ : Type} {matched : List (Match ρ)} {hadErrors : Bool} {t o : Nat}

theorem observationOf_ofMatches (n m : Nat) (matched : List (Match ρ)) (hadErrors : Bool)
    (t o : Nat) : (ofMatches n m matched hadErrors).observationOf t = some o ↔
      ∃ i ∈ servedPlaces n m (matched.map fun k => (k.track, k.observation)),
        (matched.map fun k => (k.track, k.observation))[i]? = some (t, o) := by
  have kept : OneToOne n m _ := OneToOne.nil.foldl_keepPair
    (matched.map fun k => (k.track, k.observation))
  unfold ofMatches
  rw [kept.observationOf_eq_some_iff, ← keptBefore_length, mem_keptBefore_iff]
  refine exists_congr fun i => and_congr_right fun _ => and_iff_right_of_imp fun place => ?_
  exact (List.getElem?_eq_some_iff.mp place).1

theorem FirstCome.pairCount {a : Association} (come : FirstCome n m pairs served)
    (assigned : ∀ t o, a.observationOf t = some o ↔ ∃ i ∈ served, pairs[i]? = some (t, o)) :
    a.pairCount = served.card := by
  have different : Set.InjOn (fun i : Nat => pairs[i]?) (served : Set Nat) := by
    intro i first j second same
    by_contra distinct
    have place := List.getElem?_eq_getElem (come.listed i first)
    exact (come.apart first second place (same.symm.trans place) distinct).1 rfl
  have nodup : (a.orderedPairs.map some).Nodup := by
    refine List.Nodup.map (Option.some_injective _) (a.orderedPairs_ascend.imp ?_)
    rintro p _ before rfl
    exact Nat.lt_irrefl _ before
  -- the served matches and the assigned pairs are the same entries of the list
  have places : served.image (fun i => pairs[i]?) = (a.orderedPairs.map some).toFinset := by
    ext pair
    rw [Finset.mem_image, List.mem_toFinset, List.mem_map]
    constructor
    · rintro ⟨i, member, rfl⟩
      have place := List.getElem?_eq_getElem (come.listed i member)
      exact ⟨_, mem_orderedPairs_iff.mpr ((assigned _ _).mpr ⟨i, member, place⟩), place.symm⟩
    · rintro ⟨⟨t, o⟩, member, rfl⟩
      exact (assigned t o).mp (mem_orderedPairs_iff.mp member)
  rw [← length_orderedPairs, ← Finset.card_image_of_injOn different, places,
    List.toFinset_card_of_nodup nodup, List.length_map]

/-- Any matches come to a partial one-to-one assignment, that of the ones that are served first come
first served. It is what the two tables hold at the end, and offering a match that is passed over does
not change them. -/
theorem ofMatches_firstCome (n m : Nat) (matched : List (Match ρ)) (hadErrors : Bool) :
    let pairs := matched.map fun k => (k.track, k.observation)
    let tables (pairs : List (Nat × Nat)) := pairs.foldl (Tables.offer n m) (Tables.empty n m)
    let a := ofMatches n m matched hadErrors
    a = (tables pairs).association n m hadErrors ∧ a.Partitions n m ∧
      (∃! served, FirstCome n m pairs served) ∧
      ∃ served, FirstCome n m pairs served ∧
        (∀ t o, a.observationOf t = some o ↔ ∃ i ∈ served, pairs[i]? = some (t, o)) ∧
        a.pairCount = served.card ∧
        ∀ i, i ∉ served → tables (pairs.take (i + 1)) = tables (pairs.take i) := by
  intro pairs tables a
  have come := firstCome_servedPlaces n m pairs
  have assigned := observationOf_ofMatches n m matched hadErrors
  have filled (pairs : List (Nat × Nat)) :
      tables pairs = Tables.ofPairs n m (pairs.foldl (keepPair n m) []) :=
    Tables.foldl_offer n m pairs
  refine ⟨?_, (OneToOne.nil.foldl_keepPair pairs).partitions hadErrors,
    ⟨_, come, fun other come' => come'.unique come⟩, _, come, assigned, come.pairCount assigned, ?_⟩
  · rw [filled, Tables.association_ofPairs]
    rfl
  · intro i missing
    rw [filled, filled]
    refine congrArg (Tables.ofPairs n m) ?_
    cases place : pairs[i]? with
    | none => rw [List.take_add_one, place, Option.toList_none, List.append_nil]
    | some p =>
      rcases servedPlaces_cases (n := n) (m := m) place with ⟨member, -⟩ | ⟨-, same, -⟩
      · exact absurd member missing
      · exact same

example : ofMatches 3 3 [⟨2, 0, 1⟩, ⟨0, 2, 3⟩, (⟨1, 2, 4⟩ : Match Nat)] false =
    ⟨[some 2, none, some 0], [1], [1], false⟩ := by
  decide

end Matches

end Association

end TrackFusion
