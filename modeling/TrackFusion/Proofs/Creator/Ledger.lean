import TrackFusion.Proofs.Association.Contract
import TrackFusion.Proofs.Creator.NewTracks
import TrackFusion.Proofs.Creator.Waiting

/-!
The books of a creator that confirms detections by regions.

The books number the regions in the order in which they are stored and note which number started
which track. `Ledger.Step` says which entries a call may make: a creation takes the nearest of all
waiting batches, the first arrived one in a tie, starts a track for every pair of its association
with the waiting detections, and leaves to each batch what it did not use. Creators keep such
books, and in books that are kept so every number starts one track at most.
-/

set_option autoImplicit false
set_option relaxedAutoImplicit false

namespace TrackFusion

variable {ρ π : Type}

def ObjectClass.sumIn [Scalar π] (c : ObjectClass) (hypotheses : List (Hypothesis π)) : π :=
  Scalar.sum ((hypotheses.filter fun h =>
    h.objectClass = c ∧ Scalar.isFinite h.probability = true ∧ 0 < h.probability).map
      (·.probability))

/-- The probabilities of a belief are the shares of each class in all positive finite probabilities;
where these sum to nothing, all of it is on the unknown class. -/
structure ClassBelief.Normalises [Scalar π] (b : ClassBelief π) (hypotheses : List (Hypothesis π)) :
    Prop where
  shares : 0 < Scalar.sum (ObjectClass.all.map (·.sumIn hypotheses)) → ∀ c,
    b.distribution.probability c =
      c.sumIn hypotheses / Scalar.sum (ObjectClass.all.map (·.sumIn hypotheses))
  unknown : ¬ 0 < Scalar.sum (ObjectClass.all.map (·.sumIn hypotheses)) → ∀ c,
    b.distribution.probability c = if c = .unknown then 1 else 0

structure Track.StartsAt [Scalar ρ] [Scalar π] (t : Track ρ π) (noise : TrackNoise ρ)
    (d : Detection ρ π) (r : Region ρ π) : Prop where
  detection : t = { Track.ofDetection t.id noise d with belief := t.belief }
  classes : t.belief.Normalises r.hypotheses

theorem ClassDistribution.massOf_eq_sumIn [Scalar π] (hypotheses : List (Hypothesis π)) :
    massOf hypotheses = ofFn (·.sumIn hypotheses) := by
  unfold massOf ObjectClass.sumIn counts
  simp only [Bool.and_comm, Bool.decide_and, Bool.decide_eq_true]

theorem ClassBelief.normalises_ofHypotheses [Scalar π] (hypotheses : List (Hypothesis π)) :
    (ClassBelief.ofHypotheses hypotheses).Normalises hypotheses := by
  have total : (ClassDistribution.massOf hypotheses).total =
      Scalar.sum (ObjectClass.all.map (·.sumIn hypotheses)) := by
    rw [ClassDistribution.massOf_eq_sumIn]
    rfl
  unfold ofHypotheses ClassDistribution.ofHypotheses?
  dsimp only
  split_ifs with massive
  · rw [total] at massive
    refine ⟨fun _ c => ?_, fun empty => absurd massive empty⟩
    change ((ClassDistribution.massOf hypotheses).values.map _)[c.index.1] = _
    rw [Vector.getElem_map, total, ← ClassDistribution.probability_ofFn (·.sumIn hypotheses) c,
      ← ClassDistribution.massOf_eq_sumIn]
    rfl
  · rw [total] at massive
    exact ⟨fun massive' => absurd massive' massive,
      fun _ c => ClassDistribution.probability_ofFn _ c⟩

/-- A track that a confirmation started: the place of its detection among the waiting ones, the
place of its region in the batch, and the number of that region. -/
structure Seed (ρ π : Type) where
  detection : Nat
  region : Nat
  number : Nat
  track : Track ρ π

structure NumberedBatch (ρ π : Type) where
  stamp : Duration
  view : Pose ρ
  entries : List (Region ρ π × Nat)

namespace NumberedBatch

def plain (b : NumberedBatch ρ π) : WaitingRegions ρ π :=
  ⟨b.stamp, b.entries.map Prod.fst, b.view⟩

/-- The entries of a batch that did not start a track, in their order. -/
def rest (b : NumberedBatch ρ π) (seeds : List (Seed ρ π)) : List (Region ρ π × Nat) :=
  (b.entries.zipIdx.filter fun e => e.2 ∉ seeds.map Seed.region).map Prod.fst

/-- What is left of a batch whose entries started tracks, unless they all did. -/
def without (b : NumberedBatch ρ π) (seeds : List (Seed ρ π)) : List (NumberedBatch ρ π) :=
  if (b.rest seeds).isEmpty then [] else [{ b with entries := b.rest seeds }]

theorem rest_sublist (b : NumberedBatch ρ π) (seeds : List (Seed ρ π)) :
    (b.rest seeds).Sublist b.entries := by
  have fewer := (List.filter_sublist (l := b.entries.zipIdx)
    (p := fun e => decide (e.2 ∉ seeds.map Seed.region))).map Prod.fst
  rwa [List.zipIdx_map_fst] at fewer

theorem exists_place_of_mem_rest {b : NumberedBatch ρ π} {seeds : List (Seed ρ π)}
    {e : Region ρ π × Nat} (member : e ∈ b.rest seeds) :
    ∃ i, b.entries[i]? = some e ∧ ∀ s ∈ seeds, s.region ≠ i := by
  obtain ⟨⟨_, i⟩, kept, rfl⟩ := List.mem_map.mp member
  obtain ⟨listed, free⟩ := List.mem_filter.mp kept
  refine ⟨i, List.mk_mem_zipIdx_iff_getElem?.mp listed, fun s seeded same => ?_⟩
  exact of_decide_eq_true free (List.mem_map.mpr ⟨s, seeded, same⟩)

theorem flatMap_without {β : Type} (b : NumberedBatch ρ π) (seeds : List (Seed ρ π))
    (f : Region ρ π × Nat → β) :
    ((b.without seeds).flatMap fun b => b.entries.map f) = (b.rest seeds).map f := by
  unfold without
  split_ifs with none
  · rw [List.isEmpty_iff.mp none]
    rfl
  · exact List.flatMap_singleton _ _

theorem remainder_eq {a : Association} {seeds : List (Seed ρ π)} (b : NumberedBatch ρ π)
    (kept : ∀ i < b.entries.length, i ∈ a.unassignedObservations ↔ i ∉ seeds.map Seed.region) :
    b.plain.remainder a = (b.without seeds).map plain := by
  have sameRegions : (b.plain.withoutMatched a).regions = (b.rest seeds).map Prod.fst := by
    have kept' : ∀ e ∈ b.entries.zipIdx,
        a.unassignedObservations.contains e.2 = decide (e.2 ∉ seeds.map Seed.region) := by
      rintro ⟨e, i⟩ member
      rw [Bool.eq_iff_iff, decide_eq_true_eq, List.contains_iff_mem]
      exact kept i (List.snd_lt_of_mem_zipIdx member)
    simp only [WaitingRegions.withoutMatched, plain, rest, List.zipIdx_map, List.filter_map,
      List.map_map]
    rw [← List.filter_congr kept']
    rfl
  unfold WaitingRegions.remainder without
  rw [sameRegions, List.isEmpty_map]
  split_ifs
  · rfl
  · exact congrArg (fun regions => [WaitingRegions.mk _ regions _]) sameRegions

theorem filter_reaches_map (window stamp : Duration) (batches : List (NumberedBatch ρ π)) :
    (batches.map plain).filter (·.Reaches window stamp) =
      (batches.filter fun b => b.plain.Reaches window stamp).map plain :=
  List.filter_map

end NumberedBatch

/-- The books of a creator: the detections that wait and the latest stamp of detections, the batches
that wait, all regions that were ever stored, in the order of their numbers, and all seeds. -/
structure Ledger (ρ π : Type) where
  detections : List (Detection ρ π)
  latest : Option Duration
  waiting : List (NumberedBatch ρ π)
  stored : List (Region ρ π)
  seeds : List (Seed ρ π)

namespace Ledger

def empty : Ledger ρ π :=
  ⟨[], none, [], [], []⟩

def waitingNumbers (l : Ledger ρ π) : List Nat :=
  l.waiting.flatMap fun b => b.entries.map Prod.snd

def seedNumbers (l : Ledger ρ π) : List Nat :=
  l.seeds.map Seed.number

variable [Scalar π] {l : Ledger ρ π}

/-- Every region of the books is stored under its number, and it waits once or started one track. -/
structure Sound (l : Ledger ρ π) : Prop where
  waiting : ∀ b ∈ l.waiting, ∀ e ∈ b.entries, l.stored[e.2]? = some e.1
  seeds : ∀ s ∈ l.seeds, ∃ r, l.stored[s.number]? = some r ∧ s.track.belief.Normalises r.hypotheses
  once : (l.seedNumbers ++ l.waitingNumbers).Nodup

theorem Sound.lt_length (sound : l.Sound) {n : Nat}
    (listed : n ∈ l.seedNumbers ++ l.waitingNumbers) : n < l.stored.length := by
  rcases List.mem_append.mp listed with seeded | waits
  · obtain ⟨s, member, rfl⟩ := List.mem_map.mp seeded
    obtain ⟨r, place, -⟩ := sound.seeds s member
    exact (List.getElem?_eq_some_iff.mp place).1
  · obtain ⟨b, member, entry⟩ := List.mem_flatMap.mp waits
    obtain ⟨e, inside, rfl⟩ := List.mem_map.mp entry
    exact (List.getElem?_eq_some_iff.mp (sound.waiting b member e inside)).1

theorem Sound.sublist (sound : l.Sound) {waiting : List (NumberedBatch ρ π)}
    (fewer : waiting.Sublist l.waiting) (detections : List (Detection ρ π)) :
    Sound { l with detections := detections, waiting := waiting } := by
  refine ⟨fun b member => sound.waiting b (fewer.subset member), sound.seeds, ?_⟩
  exact sound.once.sublist ((List.Sublist.refl _).append (fewer.flatMap _))

theorem Sound.stored (sound : l.Sound) (stamp : Duration) (view : Pose ρ)
    (regions : List (Region ρ π)) :
    Sound { l with
      waiting := l.waiting ++ [⟨stamp, view, regions.zipIdx l.stored.length⟩]
      stored := l.stored ++ regions } := by
  -- new regions stand behind the stored ones, whose numbers stay the same
  have kept {n : Nat} {r : Region ρ π} (place : l.stored[n]? = some r) :
      (l.stored ++ regions)[n]? = some r := by
    rw [List.getElem?_append_left (List.getElem?_eq_some_iff.mp place).1, place]
  refine ⟨?_, ?_, ?_⟩
  · intro b member e entry
    rcases List.mem_append.mp member with old | new
    · exact kept (sound.waiting b old e entry)
    · obtain rfl := List.mem_singleton.mp new
      obtain ⟨beyond, place⟩ := List.mk_mem_zipIdx_iff_le_and_getElem?_sub.mp entry
      rw [List.getElem?_append_right beyond, place]
  · intro s member
    obtain ⟨r, place, classes⟩ := sound.seeds s member
    exact ⟨r, kept place, classes⟩
  · have numbers : waitingNumbers { l with
        waiting := l.waiting ++ [⟨stamp, view, regions.zipIdx l.stored.length⟩]
        stored := l.stored ++ regions } =
          l.waitingNumbers ++ List.range' l.stored.length regions.length := by
      simp only [waitingNumbers, List.flatMap_append, List.flatMap_singleton, List.zipIdx_map_snd]
    rw [numbers, ← List.append_assoc, List.nodup_append]
    refine ⟨sound.once, List.nodup_range', fun n old k new same => ?_⟩
    have below := sound.lt_length old
    have above := (List.mem_range'_1.mp new).1
    omega

end Ledger

namespace Creator

theorem forall₂_confirmed {detections : List (Detection ρ π)} {batch : WaitingRegions ρ π}
    {a : Association} (partitions : a.Partitions detections.length batch.regions.length) :
    List.Forall₂ (fun p c => detections[p.1]? = some c.1 ∧ batch.regions[p.2]? = some c.2)
      a.orderedPairs (confirmed detections batch a) := by
  have lengths := partitions.length
  have together : List.Forall₂ (fun e f => detections[e.2]? = some f.1 ∧ e.1 = f.2 ∧
      a.observationOf e.2 = e.1) a.assignments.zipIdx (detections.zip a.assignments) := by
    rw [List.forall₂_iff_get]
    constructor
    · rw [List.length_zipIdx, List.length_zip, lengths, Nat.min_self]
    · intro i first second
      rw [List.length_zipIdx] at first
      have bound : i < detections.length := lengths ▸ first
      simp only [List.get_eq_getElem, List.getElem_zipIdx, List.getElem_zip, Nat.zero_add,
        Association.observationOf, List.getElem?_eq_getElem first, List.getElem?_eq_getElem bound,
        Option.join_some, and_self]
  refine List.rel_filterMap ?_ together
  rintro ⟨o, t⟩ ⟨d, _⟩ ⟨place, rfl, observed⟩
  cases o with
  | none => exact .none
  | some o =>
    have bound := (partitions.inRange t o observed).2
    dsimp only
    rw [Option.bind_some, List.getElem?_eq_getElem bound]
    exact .some ⟨place, List.getElem?_eq_getElem bound⟩

theorem partitions_shapeAssociation [ExtendedScalar ρ] (c : Creator ρ π) (solver : Solver)
    (batch : WaitingRegions ρ π) (detections : List (Detection ρ π)) :
    (c.shapeAssociation solver batch detections).Partitions detections.length
      batch.regions.length := by
  rw [← List.length_map Detection.shape]
  exact Association.partitions_ofMatching _ _ _ _

end Creator

variable [ExtendedScalar ρ] [Scalar π]

/-- The seeds are the pairs that an association of a batch with the shapes of detections makes, each
with the track that starts at the detection and has the classes of the region. -/
structure Confirms (settings : CreationSettings ρ) (solver : Solver)
    (detections : List (Detection ρ π)) (batch : NumberedBatch ρ π) (seeds : List (Seed ρ π)) :
    Prop where
  ordered : seeds.Pairwise fun s t => s.detection < t.detection
  distinct : (seeds.map Seed.region).Nodup
  matched : ∀ i j, (∃ s ∈ seeds, s.detection = i ∧ s.region = j) ↔
    (settings.gates.associateShapes solver batch.plain.regions (detections.map Detection.shape)
      batch.view).observationOf i = some j
  started : ∀ s ∈ seeds, ∃ d r, detections[s.detection]? = some d ∧
    batch.entries[s.region]? = some (r, s.number) ∧ s.track.StartsAt settings.noise d r

namespace Confirms

variable {settings : CreationSettings ρ} {solver : Solver} {detections : List (Detection ρ π)}
  {batch : NumberedBatch ρ π} {seeds : List (Seed ρ π)}
  (confirms : Confirms settings solver detections batch seeds)

include confirms

theorem getElem?_number {s : Seed ρ π} (member : s ∈ seeds) :
    (batch.entries.map Prod.snd)[s.region]? = some s.number := by
  obtain ⟨d, r, -, entry, -⟩ := confirms.started s member
  rw [List.getElem?_map, entry, Option.map_some]

theorem eq_region (distinct : (batch.entries.map Prod.snd).Nodup) {s : Seed ρ π}
    (member : s ∈ seeds) {i : Nat} (place : (batch.entries.map Prod.snd)[i]? = some s.number) :
    s.region = i := by
  have own := confirms.getElem?_number member
  exact (List.getElem?_inj (List.getElem?_eq_some_iff.mp own).1 distinct).mp
    (own.trans place.symm)

theorem nodup_numbers (distinct : (batch.entries.map Prod.snd).Nodup) :
    (seeds.map Seed.number).Nodup := by
  refine List.pairwise_map.mpr ((List.pairwise_map.mp confirms.distinct).imp_of_mem ?_)
  intro s t first second different same
  have place := confirms.getElem?_number second
  rw [← same] at place
  exact different (confirms.eq_region distinct first place)

theorem not_mem_rest (distinct : (batch.entries.map Prod.snd).Nodup) {n : Nat}
    (taken : n ∈ seeds.map Seed.number) : n ∉ (batch.rest seeds).map Prod.snd := by
  intro left
  obtain ⟨s, member, rfl⟩ := List.mem_map.mp taken
  obtain ⟨e, inside, same⟩ := List.mem_map.mp left
  obtain ⟨i, entry, free⟩ := NumberedBatch.exists_place_of_mem_rest inside
  refine free s member (confirms.eq_region distinct member ?_)
  rw [List.getElem?_map, entry, Option.map_some, same]

end Confirms

namespace Creator

theorem forall₂_spawnConfirmed (c : Creator ρ π) (pairs : List (Detection ρ π × Region ρ π)) :
    List.Forall₂ (fun p t => t.StartsAt c.settings.noise p.1 p.2) pairs
      (c.spawnConfirmed pairs) := by
  rw [List.forall₂_iff_get]
  refine ⟨(length_spawnConfirmed c pairs).symm, fun i first second => ?_⟩
  simp only [spawnConfirmed, spawn, List.get_eq_getElem, List.getElem_map, List.getElem_zip,
    List.getElem_mapIdx]
  exact ⟨rfl, ClassBelief.normalises_ofHypotheses _⟩

theorem exists_seeds {noise : TrackNoise ρ} {detections : List (Detection ρ π)}
    {entries : List (Region ρ π × Nat)} {places : List (Nat × Nat)}
    {found : List (Detection ρ π × Region ρ π)} {tracks : List (Track ρ π)}
    (first : List.Forall₂ (fun p c => detections[p.1]? = some c.1 ∧
      (entries.map Prod.fst)[p.2]? = some c.2) places found)
    (second : List.Forall₂ (fun c t => t.StartsAt noise c.1 c.2) found tracks) :
    ∃ seeds : List (Seed ρ π), seeds.map (fun s => (s.detection, s.region)) = places ∧
      seeds.map Seed.track = tracks ∧ ∀ s ∈ seeds, ∃ d r, detections[s.detection]? = some d ∧
        entries[s.region]? = some (r, s.number) ∧ s.track.StartsAt noise d r := by
  induction first generalizing tracks with
  | nil =>
    cases second
    exact ⟨[], rfl, rfl, nofun⟩
  | @cons p c _ _ head _ ih =>
    obtain _ | ⟨starts, others⟩ := second
    rename_i t _
    obtain ⟨seeds, rfl, rfl, each⟩ := ih others
    obtain ⟨detected, stored⟩ := head
    rw [List.getElem?_map, Option.map_eq_some_iff] at stored
    obtain ⟨⟨r, n⟩, place, same⟩ := stored
    refine ⟨⟨p.1, p.2, n, t⟩ :: seeds, rfl, rfl, ?_⟩
    rw [List.forall_mem_cons]
    exact ⟨⟨c.1, c.2, detected, by rw [place, ← same], starts⟩, each⟩

theorem exists_confirms (c : Creator ρ π) (solver : Solver) (detections : List (Detection ρ π))
    (batch : NumberedBatch ρ π) :
    ∃ seeds, Confirms c.settings solver detections batch seeds ∧
      seeds.map Seed.track = c.spawnConfirmed
        (confirmed detections batch.plain (c.shapeAssociation solver batch.plain detections)) := by
  have partitions := partitions_shapeAssociation c solver batch.plain detections
  obtain ⟨seeds, places, tracks, started⟩ :=
    exists_seeds (forall₂_confirmed partitions) (forall₂_spawnConfirmed c _)
  refine ⟨seeds, ⟨?_, ?_, ?_, started⟩, tracks⟩
  · have ordered := Association.orderedPairs_ascend
      (c.shapeAssociation solver batch.plain detections)
    rwa [← places, List.pairwise_map] at ordered
  · have distinct := partitions.orderedPairs_distinct
    rwa [← places, List.map_map] at distinct
  · intro i j
    rw [show c.settings.gates.associateShapes solver batch.plain.regions
      (detections.map Detection.shape) batch.view =
        c.shapeAssociation solver batch.plain detections from rfl,
      ← Association.mem_orderedPairs_iff, ← places]
    simp only [List.mem_map, Prod.mk.injEq]

theorem remainder_eq_without {c : Creator ρ π} {solver : Solver} {detections : List (Detection ρ π)}
    {batch : NumberedBatch ρ π} {seeds : List (Seed ρ π)}
    (confirms : Confirms c.settings solver detections batch seeds) :
    batch.plain.remainder (c.shapeAssociation solver batch.plain detections) =
      (batch.without seeds).map NumberedBatch.plain := by
  have partitions := partitions_shapeAssociation c solver batch.plain detections
  refine batch.remainder_eq fun i bound => ?_
  rw [partitions.observations, and_iff_right (by rwa [NumberedBatch.plain, List.length_map]),
    List.mem_map, not_exists]
  constructor
  · rintro free s ⟨member, rfl⟩
    exact free s.detection ((confirms.matched _ _).mp ⟨s, member, rfl, rfl⟩)
  · intro free t assigned
    obtain ⟨s, member, -, rfl⟩ := (confirms.matched t i).mpr assigned
    exact free s ⟨member, rfl⟩

end Creator

inductive CreatorCall (ρ π : Type) where
  | detections (batch : DetectionBatch ρ π) (a : Association)
  | regions (batch : RegionBatch ρ π) (view : Pose ρ) (a : Association)
  | create

namespace Creator

def perform (solver : Solver) (c : Creator ρ π) :
    CreatorCall ρ π → Except DurationOverflow (List (Track ρ π) × Creator ρ π)
  | .detections batch a => .ok ([], c.addDetections batch a)
  | .regions batch view a => .ok ([], c.addRegions batch view a)
  | .create => c.create solver

def performAll (solver : Solver) (c : Creator ρ π) :
    List (CreatorCall ρ π) → Except DurationOverflow (List (List (Track ρ π)) × Creator ρ π)
  | [] => .ok ([], c)
  | call :: rest => do
    let (created, next) ← c.perform solver call
    let (others, last) ← next.performAll solver rest
    return (created :: others, last)

end Creator

namespace Ledger

/-- The entries that a call may make, and the tracks that it answers. -/
inductive Step (settings : CreationSettings ρ) (solver : Solver) (l : Ledger ρ π) :
    CreatorCall ρ π → List (Track ρ π) → Ledger ρ π → Prop
  | detections (batch : DetectionBatch ρ π) (a : Association) :
      Step settings solver l (.detections batch a) []
        { l with
          latest := some batch.header.stamp
          detections := l.detections ++
            (a.unassignedObservations.filterMap (batch.objects[·]?)).filter Detection.isValid }
  | ignored {batch : RegionBatch ρ π} {a : Association} (view : Pose ρ) :
      Creator.leftRegions batch a = [] → Step settings solver l (.regions batch view a) [] l
  /-- The readable regions that no track received are stored as a batch of their own; the batches
  that arrived first leave if there are too many. -/
  | stored {batch : RegionBatch ρ π} {a : Association} (view : Pose ρ) :
      Creator.leftRegions batch a ≠ [] →
      Step settings solver l (.regions batch view a) []
        { l with
          waiting := (l.waiting ++ [NumberedBatch.mk batch.header.stamp view
            ((Creator.leftRegions batch a).zipIdx l.stored.length)]).drop
              (l.waiting.length + 1 - settings.maxBatches)
          stored := l.stored ++ Creator.leftRegions batch a }
  | unseen : l.latest = none → Step settings solver l .create [] { l with detections := [] }
  | idle {stamp : Duration} : l.latest = some stamp →
      l.detections = [] ∨
        (∀ b ∈ l.waiting, settings.window < b.stamp.distance stamp) →
      Step settings solver l .create []
        { l with
          detections := []
          waiting := l.waiting.filter fun b => b.plain.Reaches settings.window stamp }
  /-- The nearest batch confirms detections and keeps its other regions. -/
  | confirmed {stamp : Duration} {before after : List (NumberedBatch ρ π)}
      {batch : NumberedBatch ρ π} {seeds : List (Seed ρ π)} : l.latest = some stamp →
      l.detections ≠ [] → l.waiting = before ++ batch :: after →
      WaitingRegions.IsNearest settings.window stamp (before.map NumberedBatch.plain) batch.plain
        (after.map NumberedBatch.plain) →
      Confirms settings solver l.detections batch seeds →
      Step settings solver l .create (seeds.map Seed.track)
        { l with
          detections := []
          waiting := before.filter (fun b => b.plain.Reaches settings.window stamp) ++
            batch.without seeds ++
              after.filter fun b => b.plain.Reaches settings.window stamp
          seeds := l.seeds ++ seeds }

/-- The books describe a creator. -/
structure Describes (settings : CreationSettings ρ) (l : Ledger ρ π) (c : Creator ρ π) : Prop where
  settings : c.settings = settings
  detections : c.detections = l.detections
  latest : c.detectionStamp = l.latest
  batches : c.batches = l.waiting.map NumberedBatch.plain

theorem Describes.exists_step {settings : CreationSettings ρ} {solver : Solver} {l : Ledger ρ π}
    {c next : Creator ρ π} {call : CreatorCall ρ π} {created : List (Track ρ π)}
    (describes : l.Describes settings c) (confirming : settings.policy = .visionConfirmed)
    (performed : c.perform solver call = .ok (created, next)) :
    ∃ m, Step settings solver l call created m ∧ m.Describes settings next := by
  obtain ⟨rfl, detections, latest, batches⟩ := describes
  cases call with
  | detections batch a =>
    cases performed
    exact ⟨_, .detections batch a, rfl, congrArg (· ++ _) detections, rfl, batches⟩
  | regions batch view a =>
    cases performed
    by_cases left : Creator.leftRegions batch a = []
    · rw [Creator.addRegions_of_unused (.inr left)]
      exact ⟨l, .ignored view left, rfl, detections, latest, batches⟩
    · rw [Creator.addRegions_of_used confirming left]
      refine ⟨_, .stored view left, rfl, detections, latest, ?_⟩
      have plain : (NumberedBatch.mk batch.header.stamp view
          ((Creator.leftRegions batch a).zipIdx l.stored.length)).plain =
            ⟨batch.header.stamp, Creator.leftRegions batch a, view⟩ :=
        congrArg (WaitingRegions.mk _ · _) (List.zipIdx_map_fst _ _)
      dsimp only
      rw [List.map_drop, List.map_append, List.map_singleton, plain, batches, List.length_map]
  | create =>
    change c.create solver = _ at performed
    rw [Creator.create_of_visionConfirmed confirming] at performed
    cases Creator.confirmation_of_createConfirmed performed with
    | unseen unseen => exact ⟨_, .unseen (latest ▸ unseen), rfl, rfl, latest, batches⟩
    | @idle stamp seen nothing =>
      dsimp only at seen nothing ⊢
      rw [batches, List.forall_mem_map, detections] at nothing
      refine ⟨_, .idle (latest ▸ seen) nothing, rfl, rfl, latest, ?_⟩
      dsimp only
      rw [batches, NumberedBatch.filter_reaches_map]
    | @confirmed stamp front back chosen seen some split near =>
      dsimp only at seen some split near ⊢
      rw [batches, List.map_eq_append_iff] at split
      obtain ⟨before, rest, waiting, rfl, split⟩ := split
      obtain ⟨batch, after, rfl, rfl, rfl⟩ := List.map_eq_cons_iff.mp split
      obtain ⟨seeds, confirms, tracks⟩ := Creator.exists_confirms { c with detections := [] } solver
        c.detections batch
      rw [← tracks]
      refine ⟨_, .confirmed (latest ▸ seen) (detections ▸ some) waiting near
        (detections ▸ confirms), rfl, rfl, latest, ?_⟩
      dsimp only
      rw [Creator.remainder_eq_without confirms, List.map_append, List.map_append,
        NumberedBatch.filter_reaches_map, NumberedBatch.filter_reaches_map]

theorem nodup_exchange {α : Type} {early taken before rest chosen after : List α}
    (all : (early ++ (before ++ (chosen ++ after))).Nodup) (distinct : taken.Nodup)
    (listed : taken ⊆ chosen) (kept : rest.Sublist chosen) (apart : ∀ n ∈ taken, n ∉ rest) :
    (early ++ taken ++ (before ++ rest ++ after)).Nodup := by
  have remains : rest ⊆ chosen := kept.subset
  have ordered : rest.Nodup := by
    refine List.Nodup.sublist kept ?_
    simp only [List.nodup_append] at all
    exact all.2.1.2.1.1
  simp only [List.nodup_append, List.mem_append] at all ⊢
  grind

section Steps

variable {settings : CreationSettings ρ} {solver : Solver} {l m : Ledger ρ π}
  {call : CreatorCall ρ π} {created : List (Track ρ π)}

theorem Sound.confirmed (sound : l.Sound) {before after : List (NumberedBatch ρ π)}
    {batch : NumberedBatch ρ π} {seeds : List (Seed ρ π)}
    (waiting : l.waiting = before ++ batch :: after)
    (confirms : Confirms settings solver l.detections batch seeds) :
    Sound { l with
      waiting := before ++ batch.without seeds ++ after
      seeds := l.seeds ++ seeds } := by
  have once := sound.once
  have stored : ∀ e ∈ batch.entries, l.stored[e.2]? = some e.1 :=
    sound.waiting batch (by rw [waiting]; exact List.mem_append_right _ List.mem_cons_self)
  have numbers : l.waitingNumbers = (before.flatMap fun b => b.entries.map Prod.snd) ++
      (batch.entries.map Prod.snd ++ after.flatMap fun b => b.entries.map Prod.snd) := by
    rw [waitingNumbers, waiting, List.flatMap_append, List.flatMap_cons]
  have distinct : (batch.entries.map Prod.snd).Nodup := by
    rw [numbers] at once
    exact once.sublist (((List.sublist_append_left _ _).trans
      (List.sublist_append_right _ _)).trans (List.sublist_append_right _ _))
  refine ⟨?_, ?_, ?_⟩
  · intro b member
    simp only [List.mem_append] at member
    rcases member with (old | left) | old
    · exact sound.waiting b (by rw [waiting]; exact List.mem_append_left _ old)
    · unfold NumberedBatch.without at left
      split_ifs at left
      · cases left
      · obtain rfl := List.mem_singleton.mp left
        exact fun e inside => stored e ((batch.rest_sublist seeds).subset inside)
    · exact sound.waiting b
        (by rw [waiting]; exact List.mem_append_right _ (List.mem_cons_of_mem _ old))
  · intro s member
    rcases List.mem_append.mp member with old | new
    · exact sound.seeds s old
    · obtain ⟨d, r, -, entry, starts⟩ := confirms.started s new
      exact ⟨r, stored _ (List.mem_of_getElem? entry), starts.classes⟩
  -- numbers of the batch go over to the seeds, so that each of them still stands once
  · rw [numbers] at once
    simp only [seedNumbers, waitingNumbers, List.flatMap_append, List.map_append,
      NumberedBatch.flatMap_without]
    refine nodup_exchange once (confirms.nodup_numbers distinct) ?_
      ((batch.rest_sublist seeds).map _) fun n taken => confirms.not_mem_rest distinct taken
    intro n taken
    obtain ⟨s, member, rfl⟩ := List.mem_map.mp taken
    exact List.mem_of_getElem? (confirms.getElem?_number member)

theorem Sound.step (sound : l.Sound) (step : Step settings solver l call created m) : m.Sound := by
  cases step with
  | detections batch a => exact ⟨sound.waiting, sound.seeds, sound.once⟩
  | ignored => exact sound
  | stored view left => exact (sound.stored _ view _).sublist (List.drop_sublist _ _) l.detections
  | unseen => exact sound.sublist (List.Sublist.refl _) []
  | idle => exact sound.sublist List.filter_sublist []
  | confirmed _ _ waiting _ confirms =>
    refine (sound.confirmed waiting confirms).sublist ?_ []
    exact (List.filter_sublist.append (List.Sublist.refl _)).append List.filter_sublist

end Steps

end Ledger

def CreatorCall.EndsInTime (window : Duration) : CreatorCall ρ π → Prop
  | .regions batch _ _ => batch.header.stamp.nanoseconds + window.nanoseconds < durationLimit
  | _ => True

namespace Creator

variable {solver : Solver} {c next : Creator ρ π} {call : CreatorCall ρ π}
  {created : List (Track ρ π)}

theorem WindowsEnd.perform (ends : c.WindowsEnd) (inTime : call.EndsInTime c.settings.window)
    (performed : c.perform solver call = .ok (created, next)) : next.WindowsEnd := by
  cases call with
  | detections batch a =>
    cases performed
    exact ends
  | regions batch view a =>
    cases performed
    exact ends.addRegions fun _ => inTime
  | create => exact ends.create performed

theorem leftRegions_region (stamp : Duration) :
    leftRegions (⟨⟨stamp, "camera"⟩, [Scene.region]⟩ : RegionBatch Exact Exact)
      (.unassigned 0 1 false) = [Scene.region] := by
  change [Scene.region].filter (fun r => r.box?.isSome) = _
  rw [List.filter_cons, Scene.box?_region]
  rfl

theorem confirmed_car (solver : Solver) (c : Creator Exact Exact)
    (gates : c.settings.gates = .standard) :
    confirmed [Scene.car 0] ⟨Scene.second, [Scene.region], Scene.below⟩
      (c.shapeAssociation solver ⟨Scene.second, [Scene.region], Scene.below⟩ [Scene.car 0]) =
        [(Scene.car 0, Scene.region)] := by
  have threshold : c.settings.gates.iouThreshold = .finite 0.1 := by
    rw [gates]
    exact Exact.scientific_eq _ _ _
  have assigned : (c.shapeAssociation solver ⟨Scene.second, [Scene.region], Scene.below⟩
      [Scene.car 0]).observationOf 0 = some 0 :=
    VisionGates.observationOf_associateShapes_alone threshold (by norm_num) (by norm_num)
      (by norm_num) (by rw [gates]; exact Scene.projectShape?_car) Scene.box?_region solver
  have partitions := partitions_shapeAssociation c solver
    ⟨Scene.second, [Scene.region], Scene.below⟩ [Scene.car 0]
  obtain ⟨o, only⟩ := List.length_eq_one_iff.mp partitions.length
  obtain rfl : o = some 0 := by
    rw [Association.observationOf, only] at assigned
    exact Option.join_eq_some_iff.mp assigned |> Option.some.inj
  unfold confirmed
  rw [only]
  rfl

theorem exists_create_car (solver : Solver) :
    let c : Creator Exact Exact := ⟨Scene.confirming.creation, [Scene.car 0], some Scene.second,
      [⟨Scene.second, [Scene.region], Scene.below⟩], 0⟩
    ∃ t next, c.create solver = .ok ([t], next) := by
  intro c
  have ends : c.WindowsEnd := by
    rintro - b member
    obtain rfl := List.mem_singleton.mp member
    change Scene.second.nanoseconds + c.settings.window.nanoseconds < durationLimit
    decide
  obtain ⟨created, next, returned⟩ := (exists_create_iff solver rfl).mpr ends
  rw [create_of_visionConfirmed rfl] at returned
  cases confirmation_of_createConfirmed returned with
  | unseen unseen => cases unseen
  | idle seen nothing =>
    rcases nothing with none | far
    · cases none
    · have near := far _ (List.mem_singleton_self _)
      obtain rfl := Option.some.inj seen
      exact absurd near (by decide)
  | @confirmed _ before after batch _ _ split _ =>
    obtain ⟨rfl, rfl, rfl⟩ : before = [] ∧
        batch = ⟨Scene.second, [Scene.region], Scene.below⟩ ∧ after = [] := by
      cases before with
      | nil =>
        obtain ⟨same, rest⟩ := List.cons.inj split
        exact ⟨rfl, same.symm, rest.symm⟩
      | cons _ _ =>
        obtain ⟨-, rest⟩ := List.cons.inj split
        exact absurd rest.symm (List.append_ne_nil_of_right_ne_nil _ (List.cons_ne_nil _ _))
    have found := confirmed_car solver { c with detections := [] } rfl
    rw [create_of_visionConfirmed rfl, returned]
    exact ⟨_, _, congrArg (fun found => Except.ok (spawnConfirmed _ found, _)) found⟩

theorem exists_performAll_car (solver : Solver) :
    let calls : List (CreatorCall Exact Exact) :=
      [.regions ⟨⟨Scene.second, "camera"⟩, [Scene.region]⟩ Scene.below (.unassigned 0 1 false),
        .detections (Scene.batch Scene.second [Scene.car 0]) (.unassigned 0 1 false), .create]
    ∃ t c, (empty Scene.confirming.creation).performAll solver calls = .ok ([[], [], [t]], c) := by
  intro calls
  have stored : (empty Scene.confirming.creation : Creator Exact Exact).addRegions
      ⟨⟨Scene.second, "camera"⟩, [Scene.region]⟩ Scene.below (.unassigned 0 1 false) =
        { (empty Scene.confirming.creation) with
          batches := [⟨Scene.second, [Scene.region], Scene.below⟩] } := by
    rw [addRegions_of_used rfl (by rw [leftRegions_region]; exact List.cons_ne_nil _ _),
      leftRegions_region]
    rfl
  have taken : addDetections
      { (empty Scene.confirming.creation : Creator Exact Exact) with
        batches := [⟨Scene.second, [Scene.region], Scene.below⟩] }
      (Scene.batch Scene.second [Scene.car 0]) (.unassigned 0 1 false) =
        ⟨Scene.confirming.creation, [Scene.car 0], some Scene.second,
          [⟨Scene.second, [Scene.region], Scene.below⟩], 0⟩ := by
    have valid : [Scene.car 0].filter Detection.isValid = [Scene.car 0] := by
      rw [List.filter_cons, if_pos (Scene.isValid_car 0), List.filter_nil]
    exact congrArg (fun detections => Creator.mk _ detections _ _ _) valid
  obtain ⟨t, c, created⟩ := exists_create_car solver
  refine ⟨t, c, ?_⟩
  refine bind_eq_ok_iff.mpr ⟨_, rfl, bind_eq_ok_iff.mpr ⟨([[], [t]], c), ?_, rfl⟩⟩
  refine bind_eq_ok_iff.mpr ⟨_, rfl, bind_eq_ok_iff.mpr ⟨([[t]], c), ?_, rfl⟩⟩
  refine bind_eq_ok_iff.mpr ⟨([t], c), ?_, rfl⟩
  dsimp only [perform]
  rw [stored, taken]
  exact created

end Creator

end TrackFusion
