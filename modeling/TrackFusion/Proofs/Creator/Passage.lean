import TrackFusion.Proofs.Creator.Waiting

/-!
Track creation in another setting.

A passage maps detections, waiting batches, tracks and creators into another setting: into another
frame, to later times, to data without classes. Confirmation commutes with a passage under which
batches stand to the detections in time as before and confirm the same detections.
-/

set_option autoImplicit false
set_option relaxedAutoImplicit false

namespace TrackFusion

variable {ρ π π' : Type}

namespace WaitingRegions

/-- A batch stands to a time as another one does to another time. -/
structure StandsAs (window stamp : Duration) (b : WaitingRegions ρ π) (stamp' : Duration)
    (b' : WaitingRegions ρ π') : Prop where
  endsInTime : b'.EndsInTime window ↔ b.EndsInTime window
  reaches : b'.Reaches window stamp' ↔ b.Reaches window stamp
  distance : b'.stamp.distance stamp' = b.stamp.distance stamp

theorem standsAs_of_stamp {b : WaitingRegions ρ π} {b' : WaitingRegions ρ π'}
    (same : b'.stamp = b.stamp) (window stamp : Duration) : StandsAs window stamp b stamp b' := by
  constructor
  · unfold EndsInTime
    rw [same]
  · unfold Reaches
    rw [same]
  · rw [same]

variable {f : WaitingRegions ρ π → WaitingRegions ρ π'} {window stamp stamp' : Duration}
  {batches : List (WaitingRegions ρ π)}

theorem keepRecent_map (alike : ∀ b ∈ batches, StandsAs window stamp b stamp' (f b)) :
    keepRecent window stamp' (batches.map f) =
      (keepRecent window stamp batches).map (List.map f) := by
  have sameFilter : (batches.map f).filter (·.Reaches window stamp') =
      (batches.filter (·.Reaches window stamp)).map f := by
    rw [List.filter_map]
    refine congrArg (List.map f) (List.filter_congr fun b member => ?_)
    exact decide_eq_decide.mpr (alike b member).reaches
  have sameEnds : (∀ b ∈ batches.map f, b.EndsInTime window) ↔
      ∀ b ∈ batches, b.EndsInTime window := by
    rw [List.forall_mem_map]
    exact forall₂_congr fun b member => (alike b member).endsInTime
  cases kept : keepRecent window stamp batches with
  | ok recent =>
    obtain ⟨ends, rfl⟩ := keepRecent_eq_ok_iff.mp kept
    exact keepRecent_eq_ok_iff.mpr ⟨sameEnds.mpr ends, sameFilter⟩
  | error e =>
    -- a failure does not tell at which batch it happened
    cases kept' : keepRecent window stamp' (batches.map f) with
    | error e' =>
      cases e
      cases e'
      rfl
    | ok recent' =>
      have ends := sameEnds.mp (keepRecent_eq_ok_iff.mp kept').1
      rw [keepRecent_eq_ok_iff.mpr ⟨ends, rfl⟩] at kept
      cases kept

theorem mem_of_nearest? {batch : WaitingRegions ρ π} {place : Nat}
    (found : nearest? window stamp batches = some (batch, place)) : batch ∈ batches := by
  obtain ⟨before, after, split, -, -⟩ := isNearest_of_nearest? found
  rw [split]
  exact List.mem_append_right _ List.mem_cons_self

theorem nearest?_map (alike : ∀ b ∈ batches, StandsAs window stamp b stamp' (f b)) :
    nearest? window stamp' (batches.map f) =
      (nearest? window stamp batches).map (Prod.map f id) := by
  induction batches using List.reverseRecOn with
  | nil => rfl
  | append_singleton batches last ih =>
    rw [List.forall_mem_append, List.forall_mem_singleton] at alike
    rw [List.map_append, List.map_singleton, nearest?_append_singleton,
      nearest?_append_singleton, ih alike.1, List.length_map, alike.2.distance]
    cases found : nearest? window stamp batches with
    | none =>
      rw [Option.map_none]
      dsimp only
      split <;> rfl
    | some b =>
      have member : b.1 ∈ batches := mem_of_nearest? found
      rw [Option.map_some]
      simp only [Prod.map_fst, (alike.1 b.1 member).distance]
      split_ifs <;> rfl

theorem consume_map {batch : WaitingRegions ρ π} {a : Association}
    (rest : (f batch).withoutMatched a = f (batch.withoutMatched a))
    (sameEmpty : (f (batch.withoutMatched a)).regions.isEmpty =
      (batch.withoutMatched a).regions.isEmpty)
    (batches : List (WaitingRegions ρ π)) (place : Nat) :
    consume (batches.map f) (f batch) place a = (consume batches batch place a).map f := by
  unfold consume
  rw [rest]
  dsimp only
  rw [sameEmpty]
  split
  · rw [List.eraseIdx_map]
  · rw [List.map_set]

end WaitingRegions

namespace Creator

variable [ExtendedScalar ρ] [Scalar π]

def confirmRecent (c : Creator ρ π) (solver : Solver) (detections : List (Detection ρ π))
    (stamp : Duration) (recent : List (WaitingRegions ρ π)) : List (Track ρ π) × Creator ρ π :=
  match WaitingRegions.nearest? c.settings.window stamp recent with
  | none => ([], { c with batches := recent })
  | some (batch, place) =>
    if detections.isEmpty then ([], { c with batches := recent })
    else
      let a := c.shapeAssociation solver batch detections
      let tracks := c.spawnConfirmed (confirmed detections batch a)
      (tracks, { c with
        batches := WaitingRegions.consume recent batch place a
        nextId := c.nextId + tracks.length })

theorem createConfirmed_of_seen {c : Creator ρ π} {stamp : Duration}
    (seen : c.detectionStamp = some stamp) (solver : Solver) (detections : List (Detection ρ π)) :
    c.createConfirmed solver detections =
      (WaitingRegions.keepRecent c.settings.window stamp c.batches).map
        (c.confirmRecent solver detections stamp) := by
  unfold createConfirmed
  rw [seen]
  refine bind_eq_map fun recent => ?_
  unfold confirmRecent shapeAssociation
  rw [seen]
  cases WaitingRegions.nearest? c.settings.window stamp recent with
  | none => rfl
  | some chosen =>
    dsimp only
    split_ifs <;> rfl

end Creator

/-- Maps of all that a creator handles into another setting. -/
structure Passage (ρ π π' : Type) where
  stamp : Duration → Duration
  detection : Detection ρ π → Detection ρ π'
  batch : WaitingRegions ρ π → WaitingRegions ρ π'
  track : Track ρ π → Track ρ π'
  creator : Creator ρ π → Creator ρ π'

namespace Passage

variable {T : Passage ρ π π'} {c : Creator ρ π}

structure Carries (T : Passage ρ π π') (c : Creator ρ π) : Prop where
  settings : (T.creator c).settings = c.settings
  parts : ∀ batches nextId, T.creator { c with batches := batches, nextId := nextId } =
    { T.creator c with batches := batches.map T.batch, nextId := nextId }
  isEmpty : ∀ b, (T.batch b).regions.isEmpty = b.regions.isEmpty

namespace Carries

theorem batches (carries : T.Carries c) : (T.creator c).batches = c.batches.map T.batch :=
  congrArg Creator.batches (carries.parts c.batches c.nextId)

theorem nextId (carries : T.Carries c) : (T.creator c).nextId = c.nextId :=
  congrArg Creator.nextId (carries.parts c.batches c.nextId)

theorem creator (carries : T.Carries c) (batches : List (WaitingRegions ρ π)) :
    T.creator { c with batches := batches } =
      { T.creator c with batches := batches.map T.batch } := by
  refine (carries.parts batches c.nextId).trans ?_
  rw [← carries.nextId]

theorem addRegions [ExtendedScalar ρ] (carries : T.Carries c) {batch : RegionBatch ρ π}
    {batch' : RegionBatch ρ π'} {view view' : Pose ρ} {a : Association}
    (mapped : T.batch ⟨batch.header.stamp, Creator.leftRegions batch a, view⟩ =
      ⟨batch'.header.stamp, Creator.leftRegions batch' a, view'⟩) :
    (T.creator c).addRegions batch' view' a = T.creator (c.addRegions batch view a) := by
  have sameEmpty : Creator.leftRegions batch' a = [] ↔ Creator.leftRegions batch a = [] := by
    have lists := carries.isEmpty ⟨batch.header.stamp, Creator.leftRegions batch a, view⟩
    rw [mapped] at lists
    rw [← List.isEmpty_iff, ← List.isEmpty_iff]
    exact Bool.eq_iff_iff.mp lists
  have samePolicy := congrArg CreationSettings.policy carries.settings
  have sameBound := congrArg CreationSettings.maxBatches carries.settings
  cases policy : c.settings.policy with
  | everyDetection =>
    rw [Creator.addRegions_of_unused (.inl policy),
      Creator.addRegions_of_unused (.inl (samePolicy.trans policy))]
  | visionConfirmed =>
    by_cases none : Creator.leftRegions batch a = []
    · rw [Creator.addRegions_of_unused (.inr none),
        Creator.addRegions_of_unused (.inr (sameEmpty.mpr none))]
    · rw [Creator.addRegions_of_used policy none,
        Creator.addRegions_of_used (samePolicy.trans policy) (mt sameEmpty.mp none)]
      refine Eq.trans ?_ (carries.creator _).symm
      rw [List.map_drop, List.map_append, List.map_singleton, mapped, carries.batches,
        List.length_map, sameBound]

end Carries

variable [ExtendedScalar ρ] [Scalar π] [Scalar π']

def created (T : Passage ρ π π') (given : List (Track ρ π) × Creator ρ π) :
    List (Track ρ π') × Creator ρ π' :=
  (given.1.map T.track, T.creator given.2)

/-- What makes the confirmation of detections by a creator commute with a passage: the batches stand
to the detections as before, and they confirm the same detections. -/
structure Keeps (T : Passage ρ π π') (solver : Solver) (c : Creator ρ π)
    (detections : List (Detection ρ π)) : Prop extends T.Carries c where
  detectionStamp : (T.creator c).detectionStamp = c.detectionStamp.map T.stamp
  alike : ∀ stamp, c.detectionStamp = some stamp → ∀ b ∈ c.batches,
    b.StandsAs c.settings.window stamp (T.stamp stamp) (T.batch b)
  association : ∀ b ∈ c.batches,
    (T.creator c).shapeAssociation solver (T.batch b) (detections.map T.detection) =
      c.shapeAssociation solver b detections
  started : ∀ b ∈ c.batches, ∀ a, (T.creator c).spawnConfirmed
    (Creator.confirmed (detections.map T.detection) (T.batch b) a) =
      (c.spawnConfirmed (Creator.confirmed detections b a)).map T.track
  withoutMatched : ∀ b a, (T.batch b).withoutMatched a = T.batch (b.withoutMatched a)

variable {solver : Solver} {detections : List (Detection ρ π)}

theorem Keeps.confirmRecent (keeps : T.Keeps solver c detections) {stamp : Duration}
    (seen : c.detectionStamp = some stamp) {recent : List (WaitingRegions ρ π)}
    (waiting : recent ⊆ c.batches) :
    (T.creator c).confirmRecent solver (detections.map T.detection) (T.stamp stamp)
        (recent.map T.batch) = T.created (c.confirmRecent solver detections stamp recent) := by
  have window := congrArg CreationSettings.window keeps.settings
  have nearest := WaitingRegions.nearest?_map fun b member =>
    keeps.alike stamp seen b (waiting member)
  unfold Creator.confirmRecent created
  rw [window, nearest]
  cases found : WaitingRegions.nearest? c.settings.window stamp recent with
  | none => exact Prod.ext rfl (keeps.creator recent).symm
  | some chosen =>
    obtain ⟨batch, place⟩ := chosen
    have member : batch ∈ c.batches := waiting (WaitingRegions.mem_of_nearest? found)
    rw [Option.map_some]
    dsimp only [Prod.map_apply, id_eq]
    rw [List.isEmpty_map]
    split
    · exact Prod.ext rfl (keeps.creator recent).symm
    · rw [keeps.association batch member, keeps.started batch member, List.length_map,
        WaitingRegions.consume_map (keeps.withoutMatched _ _) (keeps.isEmpty _), keeps.nextId]
      exact Prod.ext rfl (keeps.parts _ _).symm

theorem Keeps.createConfirmed (keeps : T.Keeps solver c detections) :
    (T.creator c).createConfirmed solver (detections.map T.detection) =
      (c.createConfirmed solver detections).map T.created := by
  cases seen : c.detectionStamp with
  | none =>
    have seen' : (T.creator c).detectionStamp = none := by
      rw [keeps.detectionStamp, seen, Option.map_none]
    unfold Creator.createConfirmed
    rw [seen, seen']
    rfl
  | some stamp =>
    have seen' : (T.creator c).detectionStamp = some (T.stamp stamp) := by
      rw [keeps.detectionStamp, seen, Option.map_some]
    rw [Creator.createConfirmed_of_seen seen, Creator.createConfirmed_of_seen seen', keeps.settings,
      keeps.batches, WaitingRegions.keepRecent_map (keeps.alike stamp seen)]
    cases kept : WaitingRegions.keepRecent c.settings.window stamp c.batches with
    | error e => rfl
    | ok recent =>
      obtain ⟨-, rfl⟩ := WaitingRegions.keepRecent_eq_ok_iff.mp kept
      exact congrArg Except.ok (keeps.confirmRecent seen (List.filter_subset_self _))

end Passage

end TrackFusion
