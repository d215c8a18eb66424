import TrackFusion.Association.Regions

/-!
Creation of tracks from observations that no track received.

Unassigned valid detections wait for the end of their cycle. Under the policy `everyDetection` each
one starts a track. Under `visionConfirmed` a detection starts a track only if it matches an
unassigned image region of one waiting batch: the batch captured nearest in time, within the window,
the first arrived one in a tie. A region confirms one detection at most, as matched regions leave
their batch. Batches whose window ended before the latest detections are dropped.
-/

set_option autoImplicit false
set_option relaxedAutoImplicit false

namespace TrackFusion

inductive CreationPolicy where
  | everyDetection
  | visionConfirmed
  deriving DecidableEq, Repr

/-- The settings of track creation: the policy, the noise of new tracks, the longest time between
detections and the regions that confirm them, the number of batches kept waiting, and the gates of
confirmation. -/
structure CreationSettings (ρ : Type) where
  policy : CreationPolicy
  noise : TrackNoise ρ
  window : Duration
  maxBatches : Nat
  gates : VisionGates ρ
  deriving DecidableEq

structure WaitingRegions (ρ π : Type) where
  stamp : Duration
  regions : List (Region ρ π)
  view : Pose ρ
  deriving DecidableEq

structure Creator (ρ π : Type) where
  settings : CreationSettings ρ
  detections : List (Detection ρ π)
  detectionStamp : Option Duration
  batches : List (WaitingRegions ρ π)
  nextId : Nat
  deriving DecidableEq

/-- Every detection starts a track, with a default variance of ten, a noise variance and a process
noise of one, a window of 200 milliseconds and ten batches. -/
def CreationSettings.standard {ρ : Type} [Scalar ρ] : CreationSettings ρ where
  policy := .everyDetection
  noise := ⟨⟨1.0⟩, 10.0, 1.0⟩
  window := ⟨200000000, by decide⟩
  maxBatches := 10
  gates := .standard

namespace WaitingRegions

variable {ρ π : Type}

def keepRecent (window stamp : Duration) :
    List (WaitingRegions ρ π) → Except DurationOverflow (List (WaitingRegions ρ π))
  | [] => .ok []
  | batch :: rest => do
    let last ← batch.stamp.add window
    -- one end that cannot be held fails for all batches, also for those that would be kept
    let kept ← keepRecent window stamp rest
    return if stamp ≤ last then batch :: kept else kept

/-- The batch nearest to the given time, within the window, with its place; the first one in a tie.
-/
def nearest? (window stamp : Duration) (batches : List (WaitingRegions ρ π)) :
    Option (WaitingRegions ρ π × Nat) :=
  (batches.zipIdx.filter fun b => b.1.stamp.distance stamp ≤ window).foldl
    (fun best candidate =>
      match best with
      | none => some candidate
      | some b =>
        if candidate.1.stamp.distance stamp < b.1.stamp.distance stamp then some candidate
        else some b)
    none

def withoutMatched (batch : WaitingRegions ρ π) (a : Association) : WaitingRegions ρ π :=
  { batch with
    regions := (batch.regions.zipIdx.filter fun r => a.unassignedObservations.contains r.2).map
      Prod.fst }

def consume (batches : List (WaitingRegions ρ π)) (batch : WaitingRegions ρ π) (place : Nat)
    (a : Association) : List (WaitingRegions ρ π) :=
  let rest := batch.withoutMatched a
  if rest.regions.isEmpty then batches.eraseIdx place else batches.set place rest

end WaitingRegions

namespace Creator

variable {ρ π : Type}

def empty (settings : CreationSettings ρ) : Creator ρ π :=
  ⟨settings, [], none, [], 0⟩

def regionCount (c : Creator ρ π) : Nat :=
  (c.batches.flatMap fun b => b.regions).length

def addDetections [Scalar ρ] (c : Creator ρ π) (batch : DetectionBatch ρ π) (a : Association) :
    Creator ρ π :=
  { c with
    detectionStamp := some batch.header.stamp
    detections := c.detections ++
      (a.unassignedObservations.filterMap (batch.objects[·]?)).filter Detection.isValid }

/-- Takes in the regions of an image that no track received, as far as they can be interpreted and
the policy has a use for them. Beyond the number of batches kept, the first arrived ones leave. -/
def addRegions [ExtendedScalar ρ] (c : Creator ρ π) (batch : RegionBatch ρ π) (view : Pose ρ)
    (a : Association) : Creator ρ π :=
  let unassigned :=
    (a.unassignedObservations.filterMap (batch.regions[·]?)).filter fun r => r.box?.isSome
  if c.settings.policy = .everyDetection || unassigned.isEmpty then c
  else
    let batches := c.batches ++ [⟨batch.header.stamp, unassigned, view⟩]
    { c with batches := batches.drop (batches.length - c.settings.maxBatches) }

variable [ExtendedScalar ρ] [Scalar π]

def spawn (c : Creator ρ π) (detections : List (Detection ρ π)) : List (Track ρ π) :=
  detections.mapIdx fun i d => .ofDetection (c.nextId + i) c.settings.noise d

def confirmed (detections : List (Detection ρ π)) (batch : WaitingRegions ρ π) (a : Association) :
    List (Detection ρ π × Region ρ π) :=
  (detections.zip a.assignments).filterMap fun (d, assigned) =>
    (assigned.bind (batch.regions[·]?)).map fun r => (d, r)

def spawnConfirmed (c : Creator ρ π) (pairs : List (Detection ρ π × Region ρ π)) :
    List (Track ρ π) :=
  ((c.spawn (pairs.map Prod.fst)).zip pairs).map fun (t, _, r) => t.seedClasses r.hypotheses

def createConfirmed (c : Creator ρ π) (solver : Solver) (detections : List (Detection ρ π)) :
    Except DurationOverflow (List (Track ρ π) × Creator ρ π) :=
  match c.detectionStamp with
  | none => .ok ([], c)
  | some stamp => do
    -- outdated batches leave even if there is nothing to confirm
    let recent ← WaitingRegions.keepRecent c.settings.window stamp c.batches
    match WaitingRegions.nearest? c.settings.window stamp recent with
    | none => return ([], { c with batches := recent })
    | some (batch, place) =>
      if detections.isEmpty then return ([], { c with batches := recent })
      else
        let a := c.settings.gates.associateShapes solver batch.regions
          (detections.map Detection.shape) batch.view
        let tracks := c.spawnConfirmed (confirmed detections batch a)
        return (tracks,
          { c with
            batches := WaitingRegions.consume recent batch place a
            nextId := c.nextId + tracks.length })

def create (c : Creator ρ π) (solver : Solver) :
    Except DurationOverflow (List (Track ρ π) × Creator ρ π) :=
  -- a detection waits for one creation only, whether or not it is confirmed
  let cleared := { c with detections := [] }
  match c.settings.policy with
  | .everyDetection =>
    let tracks := c.spawn c.detections
    .ok (tracks, { cleared with nextId := c.nextId + tracks.length })
  | .visionConfirmed => cleared.createConfirmed solver c.detections

end Creator

end TrackFusion
