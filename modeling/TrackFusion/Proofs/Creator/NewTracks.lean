import Mathlib.Data.List.Basic
import TrackFusion.Creator
import TrackFusion.Proofs.Sequencing

/-!
The tracks that a creator starts.

Whatever the policy, new tracks carry consecutive identities from the next free one on, count one
hit, and are as fresh as a track that was just corrected. The next free identity moves past them.
-/

set_option autoImplicit false
set_option relaxedAutoImplicit false

namespace TrackFusion

variable {ρ π : Type}

def Track.IsNew (t : Track ρ π) : Prop :=
  t.hits = 1 ∧ t.ticksSinceUpdate = 0 ∧ t.timeSinceUpdate = 0

namespace Creator

/-- New tracks continue the identities of the creator, and the next free one lies beyond them. -/
structure Continues (c : Creator ρ π) (created : List (Track ρ π)) (next : Creator ρ π) :
    Prop where
  ids : created.map Track.id = List.range' c.nextId created.length
  nextId : next.nextId = c.nextId + created.length
  new : ∀ t ∈ created, t.IsNew
  settings : next.settings = c.settings

theorem Continues.none {c next : Creator ρ π} (same : next.nextId = c.nextId)
    (settings : next.settings = c.settings) : c.Continues [] next :=
  ⟨rfl, same, nofun, settings⟩

theorem Continues.id_mem {c next : Creator ρ π} {created : List (Track ρ π)}
    (continues : c.Continues created next) {t : Track ρ π} (member : t ∈ created) :
    c.nextId ≤ t.id ∧ t.id < next.nextId := by
  have listed : t.id ∈ List.range' c.nextId created.length := by
    rw [← continues.ids]
    exact List.mem_map_of_mem member
  rw [continues.nextId]
  exact List.mem_range'_1.mp listed

theorem Continues.ids_nodup {c next : Creator ρ π} {created : List (Track ρ π)}
    (continues : c.Continues created next) : (created.map Track.id).Nodup := by
  rw [continues.ids]
  exact List.nodup_range'

section Waiting

variable [ExtendedScalar ρ]

@[simp] theorem nextId_addDetections (c : Creator ρ π) (batch : DetectionBatch ρ π)
    (a : Association) : (c.addDetections batch a).nextId = c.nextId :=
  rfl

@[simp] theorem settings_addDetections (c : Creator ρ π) (batch : DetectionBatch ρ π)
    (a : Association) : (c.addDetections batch a).settings = c.settings :=
  rfl

@[simp] theorem nextId_addRegions (c : Creator ρ π) (batch : RegionBatch ρ π) (view : Pose ρ)
    (a : Association) : (c.addRegions batch view a).nextId = c.nextId := by
  unfold addRegions
  dsimp only
  split <;> rfl

@[simp] theorem settings_addRegions (c : Creator ρ π) (batch : RegionBatch ρ π) (view : Pose ρ)
    (a : Association) : (c.addRegions batch view a).settings = c.settings := by
  unfold addRegions
  dsimp only
  split <;> rfl

@[simp] theorem detections_addRegions (c : Creator ρ π) (batch : RegionBatch ρ π) (view : Pose ρ)
    (a : Association) : (c.addRegions batch view a).detections = c.detections := by
  unfold addRegions
  dsimp only
  split <;> rfl

end Waiting

theorem fst_mem_of_mem_confirmed {detections : List (Detection ρ π)} {batch : WaitingRegions ρ π}
    {a : Association} {pair : Detection ρ π × Region ρ π}
    (member : pair ∈ confirmed detections batch a) : pair.1 ∈ detections := by
  obtain ⟨⟨d, o⟩, zipped, chosen⟩ := List.mem_filterMap.mp member
  obtain ⟨r, -, rfl⟩ := Option.map_eq_some_iff.mp chosen
  exact (List.of_mem_zip zipped).1

variable [ExtendedScalar ρ] [Scalar π]

@[simp] theorem length_spawn (c : Creator ρ π) (detections : List (Detection ρ π)) :
    (c.spawn detections).length = detections.length := by
  simp only [spawn, List.length_mapIdx]

theorem spawn_ids (c : Creator ρ π) (detections : List (Detection ρ π)) :
    (c.spawn detections).map Track.id = List.range' c.nextId detections.length := by
  apply List.ext_getElem
  · simp only [List.length_map, length_spawn, List.length_range']
  · intro i first second
    simp only [spawn, List.getElem_map, List.getElem_mapIdx, List.getElem_range', Nat.one_mul,
      Track.ofDetection]

theorem spawn_new {c : Creator ρ π} {detections : List (Detection ρ π)} {t : Track ρ π}
    (member : t ∈ c.spawn detections) : t.IsNew := by
  obtain ⟨i, bound, rfl⟩ := List.mem_mapIdx.mp member
  exact ⟨rfl, rfl, rfl⟩

@[simp] theorem length_spawnConfirmed (c : Creator ρ π)
    (pairs : List (Detection ρ π × Region ρ π)) :
    (c.spawnConfirmed pairs).length = pairs.length := by
  simp only [spawnConfirmed, List.length_map, List.length_zip, length_spawn, Nat.min_self]

theorem spawnConfirmed_ids (c : Creator ρ π) (pairs : List (Detection ρ π × Region ρ π)) :
    (c.spawnConfirmed pairs).map Track.id = List.range' c.nextId pairs.length := by
  have seeded : (fun p : Track ρ π × Detection ρ π × Region ρ π =>
      (p.1.seedClasses p.2.2.hypotheses).id) = Track.id ∘ Prod.fst := rfl
  calc (c.spawnConfirmed pairs).map Track.id
      = (((c.spawn (pairs.map Prod.fst)).zip pairs).map Prod.fst).map Track.id := by
        simp only [spawnConfirmed, List.map_map, ← seeded]
        rfl
    _ = (c.spawn (pairs.map Prod.fst)).map Track.id := by
        rw [List.map_fst_zip (by simp)]
    _ = List.range' c.nextId pairs.length := by
        rw [spawn_ids, List.length_map]

theorem spawnConfirmed_new {c : Creator ρ π} {pairs : List (Detection ρ π × Region ρ π)}
    {t : Track ρ π} (member : t ∈ c.spawnConfirmed pairs) : t.IsNew := by
  simp only [spawnConfirmed, List.mem_map] at member
  obtain ⟨⟨s, d, r⟩, paired, rfl⟩ := member
  have new : s.IsNew := spawn_new (List.of_mem_zip paired).1
  exact new

theorem exists_detection_of_spawn {c : Creator ρ π} {detections : List (Detection ρ π)}
    {t : Track ρ π} (member : t ∈ c.spawn detections) :
    ∃ d ∈ detections, t = .ofDetection t.id c.settings.noise d := by
  obtain ⟨i, bound, rfl⟩ := List.mem_mapIdx.mp member
  exact ⟨_, List.getElem_mem bound, rfl⟩

theorem exists_detection_of_spawnConfirmed {c : Creator ρ π} {detections : List (Detection ρ π)}
    {batch : WaitingRegions ρ π} {a : Association} {t : Track ρ π}
    (member : t ∈ c.spawnConfirmed (confirmed detections batch a)) : ∃ d ∈ detections,
      t = { Track.ofDetection t.id c.settings.noise d with belief := t.belief } := by
  simp only [spawnConfirmed, List.mem_map] at member
  obtain ⟨⟨s, d, r⟩, paired, rfl⟩ := member
  obtain ⟨d, listed, same⟩ := exists_detection_of_spawn (List.of_mem_zip paired).1
  obtain ⟨pair, found, rfl⟩ := List.mem_map.mp listed
  exact ⟨pair.1, fst_mem_of_mem_confirmed found, by rw [same]; rfl⟩

theorem createConfirmed_continues {c next : Creator ρ π} {solver : Solver}
    {detections : List (Detection ρ π)} {created : List (Track ρ π)}
    (returned : c.createConfirmed solver detections = .ok (created, next)) :
    c.Continues created next := by
  unfold createConfirmed at returned
  split at returned
  · cases returned
    exact .none rfl rfl
  · obtain ⟨recent, -, rest⟩ := bind_eq_ok_iff.mp returned
    split at rest
    · cases rest
      exact .none rfl rfl
    · split at rest
      · cases rest
        exact .none rfl rfl
      · cases rest
        exact ⟨by rw [spawnConfirmed_ids, length_spawnConfirmed], rfl,
          fun t member => spawnConfirmed_new member, rfl⟩

theorem create_continues {c next : Creator ρ π} {solver : Solver} {created : List (Track ρ π)}
    (returned : c.create solver = .ok (created, next)) : c.Continues created next := by
  unfold create at returned
  dsimp only at returned
  split at returned
  · cases returned
    exact ⟨by rw [spawn_ids, length_spawn], rfl, fun t member => spawn_new member, rfl⟩
  · obtain ⟨ids, nextId, new, settings⟩ := createConfirmed_continues returned
    exact ⟨ids, nextId, new, settings⟩

theorem create_of_everyDetection {c : Creator ρ π} (every : c.settings.policy = .everyDetection)
    (solver : Solver) : c.create solver = .ok (c.spawn c.detections,
      { c with detections := [], nextId := c.nextId + (c.spawn c.detections).length }) := by
  unfold create
  rw [every]

theorem exists_create_of_everyDetection {c : Creator ρ π} (solver : Solver)
    (every : c.settings.policy = .everyDetection) :
    ∃ created next, c.create solver = .ok (created, next) :=
  ⟨_, _, create_of_everyDetection every solver⟩

end Creator

end TrackFusion
