import Mathlib.Data.List.Induction
import Mathlib.Data.List.InsertIdx
import TrackFusion.Creator
import TrackFusion.Proofs.Creator.NewTracks

/-!
The batches of regions that wait for detections.

A creation first adds the window to the stamp of every waiting batch, and this is the only step of
it that can fail. What remains are the batches whose window reaches the detections. A creator
fails to create only where it needs the regions and one of these sums cannot be held.
-/

set_option autoImplicit false
set_option relaxedAutoImplicit false

namespace TrackFusion

variable {ρ π : Type}

namespace WaitingRegions

def EndsInTime (window : Duration) (b : WaitingRegions ρ π) : Prop :=
  b.stamp.nanoseconds + window.nanoseconds < durationLimit

def Reaches (window stamp : Duration) (b : WaitingRegions ρ π) : Prop :=
  stamp.nanoseconds ≤ b.stamp.nanoseconds + window.nanoseconds

instance (window stamp : Duration) :
    DecidablePred (Reaches window stamp : WaitingRegions ρ π → Prop) := fun b =>
  inferInstanceAs (Decidable (stamp.nanoseconds ≤ b.stamp.nanoseconds + window.nanoseconds))

theorem exists_add_window_iff {window : Duration} {b : WaitingRegions ρ π} :
    (∃ last, b.stamp.add window = .ok last) ↔ b.EndsInTime window := by
  constructor
  · rintro ⟨last, sum⟩
    have bound := last.bounded
    rwa [Duration.add_eq_ok_iff.mp sum] at bound
  · intro short
    exact ⟨⟨_, short⟩, Duration.add_eq_ok_iff.mpr rfl⟩

/-- Eviction succeeds exactly if every window ends in time, and keeps the batches that reach the
stamp, in order. -/
theorem keepRecent_eq_ok_iff {window stamp : Duration} {batches kept : List (WaitingRegions ρ π)} :
    keepRecent window stamp batches = .ok kept ↔
      (∀ b ∈ batches, b.EndsInTime window) ∧ batches.filter (·.Reaches window stamp) = kept := by
  induction batches generalizing kept with
  | nil =>
    constructor
    · intro same
      cases same
      exact ⟨nofun, rfl⟩
    · rintro ⟨-, rfl⟩
      rfl
  | cons b rest ih =>
    have reaches {last : Duration} (sum : b.stamp.add window = .ok last) :
        stamp ≤ last ↔ b.Reaches window stamp := by
      rw [Duration.add_eq_ok_iff] at sum
      change stamp.nanoseconds ≤ last.nanoseconds ↔ _
      rw [sum]
      rfl
    simp only [keepRecent, bind_eq_ok_iff, pure_eq_ok_iff, ih, List.forall_mem_cons]
    constructor
    · rintro ⟨last, sum, recent, ⟨short, rfl⟩, rfl⟩
      refine ⟨⟨exists_add_window_iff.mp ⟨last, sum⟩, short⟩, ?_⟩
      simp only [List.filter_cons, decide_eq_true_eq, reaches sum]
    · rintro ⟨⟨first, short⟩, rfl⟩
      obtain ⟨last, sum⟩ := exists_add_window_iff.mpr first
      refine ⟨last, sum, _, ⟨short, rfl⟩, ?_⟩
      simp only [List.filter_cons, decide_eq_true_eq, reaches sum]

/-- The batch is within the window of a time, nearer to it than every batch before it and at least
as near as every batch behind it. -/
structure IsNearest (window stamp : Duration) (before : List (WaitingRegions ρ π))
    (batch : WaitingRegions ρ π) (after : List (WaitingRegions ρ π)) : Prop where
  within : batch.stamp.distance stamp ≤ window
  before : ∀ b ∈ before, batch.stamp.distance stamp < b.stamp.distance stamp
  after : ∀ b ∈ after, batch.stamp.distance stamp ≤ b.stamp.distance stamp

section Nearest

variable {window stamp : Duration} {batches before after : List (WaitingRegions ρ π)}
  {batch b : WaitingRegions ρ π} {place : Nat}

theorem nearest?_append_singleton (window stamp : Duration) (batches : List (WaitingRegions ρ π))
    (last : WaitingRegions ρ π) :
    nearest? window stamp (batches ++ [last]) =
      if last.stamp.distance stamp ≤ window then
        match nearest? window stamp batches with
        | none => some (last, batches.length)
        | some b =>
          if last.stamp.distance stamp < b.1.stamp.distance stamp then some (last, batches.length)
          else some b
      else nearest? window stamp batches := by
  unfold nearest?
  simp only [List.zipIdx_append, List.zipIdx_cons, List.zipIdx_nil, List.filter_append,
    List.foldl_append, Nat.zero_add]
  split_ifs with within
  · have kept : [(last, batches.length)].filter
        (fun b => decide (b.1.stamp.distance stamp ≤ window)) = [(last, batches.length)] :=
      List.filter_cons_of_pos (decide_eq_true within)
    exact congrArg (List.foldl _ _) kept
  · have dropped : [(last, batches.length)].filter
        (fun b => decide (b.1.stamp.distance stamp ≤ window)) = [] :=
      List.filter_cons_of_neg (mt of_decide_eq_true within)
    exact congrArg (List.foldl _ _) dropped

theorem nearest?_eq_none_iff : nearest? window stamp batches = none ↔
    ∀ b ∈ batches, window < b.stamp.distance stamp := by
  induction batches using List.reverseRecOn with
  | nil => exact ⟨fun _ => nofun, fun _ => rfl⟩
  | append_singleton batches last ih =>
    rw [nearest?_append_singleton]
    simp only [List.forall_mem_append, List.forall_mem_singleton, ← ih]
    split_ifs with within
    · have near : ¬ window < last.stamp.distance stamp := Nat.not_lt.mpr within
      constructor
      · intro missing
        split at missing
        · cases missing
        · split at missing <;> cases missing
      · exact fun far => absurd far.2 near
    · exact (and_iff_left (Nat.lt_of_not_le within)).symm

theorem isNearest_of_nearest? (found : nearest? window stamp batches = some (batch, place)) :
    ∃ before after, batches = before ++ batch :: after ∧ before.length = place ∧
      IsNearest window stamp before batch after := by
  induction batches using List.reverseRecOn generalizing batch place with
  | nil => cases found
  | append_singleton batches last ih =>
    -- the last batch is taken only if it is nearer than the one that was found before it
    have takesLast (within : last.stamp.distance stamp ≤ window)
        (nearer : ∀ b ∈ batches, last.stamp.distance stamp < b.stamp.distance stamp) :
        ∃ before after, batches ++ [last] = before ++ last :: after ∧
          before.length = batches.length ∧ IsNearest window stamp before last after :=
      ⟨batches, [], rfl, rfl, within, nearer, nofun⟩
    rw [nearest?_append_singleton] at found
    split_ifs at found with within
    · split at found
      · rename_i missing
        cases found
        refine takesLast within fun b member => ?_
        exact Nat.lt_of_le_of_lt within (nearest?_eq_none_iff.mp missing b member)
      · rename_i b earlier
        obtain ⟨before, after, rfl, counted, near⟩ := ih earlier
        split_ifs at found with nearer
        · cases found
          refine takesLast within fun c member => ?_
          rcases List.mem_append.mp member with first | later
          · exact Nat.lt_trans nearer (near.before c first)
          · rcases List.mem_cons.mp later with rfl | later
            · exact nearer
            · exact Nat.lt_of_lt_of_le nearer (near.after c later)
        · cases found
          refine ⟨before, after ++ [last], by simp, counted, near.within, near.before, ?_⟩
          intro c member
          rcases List.mem_append.mp member with old | new
          · exact near.after c old
          · obtain rfl := List.mem_singleton.mp new
            exact Nat.le_of_not_lt nearer
    · obtain ⟨before, after, rfl, rfl, near⟩ := ih found
      refine ⟨before, after ++ [last], by simp, rfl, near.within, near.before, ?_⟩
      intro c member
      rcases List.mem_append.mp member with old | new
      · exact near.after c old
      · obtain rfl := List.mem_singleton.mp new
        exact Nat.le_trans near.within (Nat.le_of_not_le within)

theorem lt_distance_of_not_reaches (late : ¬ b.Reaches window stamp) :
    window < b.stamp.distance stamp := by
  have past : b.stamp.nanoseconds + window.nanoseconds < stamp.nanoseconds := Nat.lt_of_not_le late
  have order : ¬ stamp < b.stamp := Nat.not_lt.mpr (by omega)
  unfold Duration.distance
  rw [if_neg order]
  change window.nanoseconds < stamp.nanoseconds - b.stamp.nanoseconds
  omega

theorem IsNearest.of_filter {rest : List (WaitingRegions ρ π)}
    (near : IsNearest window stamp before batch after)
    (kept : rest.filter (·.Reaches window stamp) = before ++ batch :: after) :
    ∃ earlier later, rest = earlier ++ batch :: later ∧
      earlier.filter (·.Reaches window stamp) = before ∧
      later.filter (·.Reaches window stamp) = after ∧
      IsNearest window stamp earlier batch later := by
  obtain ⟨front, back, rfl, first, second⟩ := List.filter_eq_append_iff.mp kept
  obtain ⟨skipped, later, rfl, dropped, reaches, third⟩ := List.filter_eq_cons_iff.mp second
  -- a batch that was left out is out of reach, and so farther away than any within the window
  have far {c : WaitingRegions ρ π} (late : ¬ c.Reaches window stamp) :
      batch.stamp.distance stamp < c.stamp.distance stamp :=
    Nat.lt_of_le_of_lt near.within (lt_distance_of_not_reaches late)
  refine ⟨front ++ skipped, later, by simp, ?_, third, near.within, ?_, ?_⟩
  · rw [List.filter_append, first, List.filter_eq_nil_iff.mpr dropped, List.append_nil]
  · intro c member
    by_cases late : c.Reaches window stamp
    · refine near.before c ?_
      rcases List.mem_append.mp member with old | new
      · rw [← first]
        exact List.mem_filter.mpr ⟨old, decide_eq_true late⟩
      · exact absurd (decide_eq_true late) (dropped c new)
    · exact far late
  · intro c member
    by_cases late : c.Reaches window stamp
    · refine near.after c ?_
      rw [← third]
      exact List.mem_filter.mpr ⟨member, decide_eq_true late⟩
    · exact Nat.le_of_lt (far late)

end Nearest

def remainder (batch : WaitingRegions ρ π) (a : Association) : List (WaitingRegions ρ π) :=
  if (batch.withoutMatched a).regions.isEmpty then [] else [batch.withoutMatched a]

theorem consume_at (before after : List (WaitingRegions ρ π)) (batch : WaitingRegions ρ π)
    (a : Association) : consume (before ++ batch :: after) batch before.length a =
      before ++ batch.remainder a ++ after := by
  unfold consume remainder
  dsimp only
  split_ifs with empty
  · rw [List.eraseIdx_append_of_length_le (Nat.le_refl _), Nat.sub_self, List.eraseIdx_cons_zero,
      List.append_nil]
  · rw [List.set_append_right _ _ (Nat.le_refl _), Nat.sub_self, List.set_cons_zero,
      List.append_assoc, List.singleton_append]

theorem eq_of_mem_remainder {batch b : WaitingRegions ρ π} {a : Association}
    (member : b ∈ batch.remainder a) : b = batch.withoutMatched a := by
  unfold remainder at member
  split_ifs at member
  · cases member
  · exact List.mem_singleton.mp member

end WaitingRegions

namespace Creator

/-- The creator has to look at its waiting batches, and all their windows end in time. -/
def WindowsEnd (c : Creator ρ π) : Prop :=
  c.settings.policy = .visionConfirmed → ∀ b ∈ c.batches, b.EndsInTime c.settings.window

section Regions

variable [ExtendedScalar ρ] {c : Creator ρ π} {batch : RegionBatch ρ π} {view : Pose ρ}
  {a : Association}

def leftRegions (batch : RegionBatch ρ π) (a : Association) : List (Region ρ π) :=
  (a.unassignedObservations.filterMap (batch.regions[·]?)).filter fun r => r.box?.isSome

theorem addRegions_of_unused
    (unused : c.settings.policy = .everyDetection ∨ leftRegions batch a = []) :
    c.addRegions batch view a = c := by
  refine if_pos ?_
  rw [Bool.or_eq_true, decide_eq_true_eq, List.isEmpty_iff]
  exact unused

theorem addRegions_of_used (confirming : c.settings.policy = .visionConfirmed)
    (left : leftRegions batch a ≠ []) :
    c.addRegions batch view a =
      { c with
        batches := (c.batches ++
          [WaitingRegions.mk batch.header.stamp (leftRegions batch a) view]).drop
            (c.batches.length + 1 - c.settings.maxBatches) } := by
  refine (if_neg ?_).trans ?_
  · rw [confirming, Bool.or_eq_true, decide_eq_true_eq, List.isEmpty_iff]
    rintro (every | empty)
    · cases every
    · exact left empty
  · rw [List.length_append, List.length_singleton]
    rfl

@[simp] theorem detectionStamp_addRegions (c : Creator ρ π) (batch : RegionBatch ρ π)
    (view : Pose ρ) (a : Association) :
    (c.addRegions batch view a).detectionStamp = c.detectionStamp := by
  unfold addRegions
  dsimp only
  split <;> rfl

theorem mem_batches_addRegions {b : WaitingRegions ρ π}
    (member : b ∈ (c.addRegions batch view a).batches) :
    b ∈ c.batches ∨ b.stamp = batch.header.stamp ∧ b.view = view := by
  by_cases empty : leftRegions batch a = []
  · rw [addRegions_of_unused (.inr empty)] at member
    exact .inl member
  · cases policy : c.settings.policy with
    | everyDetection =>
      rw [addRegions_of_unused (.inl policy)] at member
      exact .inl member
    | visionConfirmed =>
      rw [addRegions_of_used policy empty] at member
      rcases List.mem_append.mp (List.mem_of_mem_drop member) with old | new
      · exact .inl old
      · obtain rfl := List.mem_singleton.mp new
        exact .inr ⟨rfl, rfl⟩

theorem WindowsEnd.addRegions (ends : c.WindowsEnd)
    (inTime : c.settings.policy = .visionConfirmed →
      batch.header.stamp.nanoseconds + c.settings.window.nanoseconds < durationLimit) :
    (c.addRegions batch view a).WindowsEnd := by
  unfold WindowsEnd
  rw [settings_addRegions]
  intro confirming b member
  rcases mem_batches_addRegions member with old | ⟨new, -⟩
  · exact ends confirming b old
  · unfold WaitingRegions.EndsInTime
    rw [new]
    exact inTime confirming

theorem not_windowsEnd_addRegions (confirming : c.settings.policy = .visionConfirmed)
    (left : leftRegions batch a ≠ []) (room : 0 < c.settings.maxBatches)
    (late : durationLimit ≤ batch.header.stamp.nanoseconds + c.settings.window.nanoseconds) :
    ¬ (c.addRegions batch view a).WindowsEnd := by
  intro ends
  rw [addRegions_of_used confirming left] at ends
  have stored : WaitingRegions.mk batch.header.stamp (leftRegions batch a) view ∈
      (c.batches ++ [WaitingRegions.mk batch.header.stamp (leftRegions batch a) view]).drop
        (c.batches.length + 1 - c.settings.maxBatches) := by
    rw [List.drop_append_of_le_length (by omega)]
    exact List.mem_append_right _ (List.mem_singleton_self _)
  exact Nat.not_lt.mpr late (ends confirming _ stored)

end Regions

variable [ExtendedScalar ρ] [Scalar π]

def shapeAssociation (c : Creator ρ π) (solver : Solver) (batch : WaitingRegions ρ π)
    (detections : List (Detection ρ π)) : Association :=
  c.settings.gates.associateShapes solver batch.regions (detections.map Detection.shape) batch.view

/-- All that a confirmation of detections by waiting regions can do when it returns. -/
inductive Confirmation (solver : Solver) (c : Creator ρ π) (detections : List (Detection ρ π)) :
    List (Track ρ π) → Creator ρ π → Prop
  | unseen : c.detectionStamp = none → Confirmation solver c detections [] c
  | idle {stamp : Duration} : c.detectionStamp = some stamp →
      detections = [] ∨ (∀ b ∈ c.batches, c.settings.window < b.stamp.distance stamp) →
      Confirmation solver c detections []
        { c with batches := c.batches.filter (·.Reaches c.settings.window stamp) }
  | confirmed {stamp : Duration} {before after : List (WaitingRegions ρ π)}
      {batch : WaitingRegions ρ π} : c.detectionStamp = some stamp → detections ≠ [] →
      c.batches = before ++ batch :: after →
      WaitingRegions.IsNearest c.settings.window stamp before batch after →
      Confirmation solver c detections
        (c.spawnConfirmed (confirmed detections batch (c.shapeAssociation solver batch detections)))
        { c with
          batches := before.filter (·.Reaches c.settings.window stamp) ++
            batch.remainder (c.shapeAssociation solver batch detections) ++
              after.filter (·.Reaches c.settings.window stamp)
          nextId := c.nextId + (c.spawnConfirmed (confirmed detections batch
            (c.shapeAssociation solver batch detections))).length }

theorem confirmation_of_createConfirmed {c next : Creator ρ π} {solver : Solver}
    {detections : List (Detection ρ π)} {created : List (Track ρ π)}
    (returned : c.createConfirmed solver detections = .ok (created, next)) :
    Confirmation solver c detections created next := by
  unfold createConfirmed at returned
  split at returned
  · rename_i unseen
    cases returned
    exact .unseen unseen
  · rename_i stamp seen
    obtain ⟨recent, kept, rest⟩ := bind_eq_ok_iff.mp returned
    obtain ⟨-, rfl⟩ := WaitingRegions.keepRecent_eq_ok_iff.mp kept
    split at rest
    · rename_i missing
      obtain ⟨rfl, rfl⟩ := Prod.mk.inj (pure_eq_ok_iff.mp rest)
      refine .idle seen (.inr fun b member => ?_)
      -- evicted batches are not within the window either
      by_cases reaches : b.Reaches c.settings.window stamp
      · exact WaitingRegions.nearest?_eq_none_iff.mp missing b
          (List.mem_filter.mpr ⟨member, decide_eq_true reaches⟩)
      · exact WaitingRegions.lt_distance_of_not_reaches reaches
    · rename_i batch place found
      split_ifs at rest with empty
      · obtain ⟨rfl, rfl⟩ := Prod.mk.inj (pure_eq_ok_iff.mp rest)
        exact .idle seen (.inl (List.isEmpty_iff.mp empty))
      · obtain ⟨rfl, rfl⟩ := Prod.mk.inj (pure_eq_ok_iff.mp rest)
        obtain ⟨front, back, recent, rfl, near⟩ := WaitingRegions.isNearest_of_nearest? found
        obtain ⟨before, after, batches, rfl, rfl, nearest⟩ := near.of_filter recent
        rw [recent, WaitingRegions.consume_at]
        exact .confirmed seen (mt List.isEmpty_iff.mpr empty) batches nearest

theorem create_of_visionConfirmed {c : Creator ρ π}
    (confirming : c.settings.policy = .visionConfirmed) (solver : Solver) :
    c.create solver = createConfirmed { c with detections := [] } solver c.detections := by
  unfold create
  rw [confirming]

theorem exists_createConfirmed_iff {c : Creator ρ π} (solver : Solver)
    (detections : List (Detection ρ π)) {stamp : Duration} (seen : c.detectionStamp = some stamp) :
    (∃ created next, c.createConfirmed solver detections = .ok (created, next)) ↔
      ∀ b ∈ c.batches, b.EndsInTime c.settings.window := by
  unfold createConfirmed
  rw [seen]
  constructor
  · rintro ⟨created, next, returned⟩
    obtain ⟨recent, kept, -⟩ := bind_eq_ok_iff.mp returned
    exact (WaitingRegions.keepRecent_eq_ok_iff.mp kept).1
  · intro short
    have kept := WaitingRegions.keepRecent_eq_ok_iff.mpr
      (⟨short, rfl⟩ : _ ∧ c.batches.filter (·.Reaches c.settings.window stamp) = _)
    dsimp only
    rw [kept, ok_bind]
    cases WaitingRegions.nearest? c.settings.window stamp
      (c.batches.filter (·.Reaches c.settings.window stamp)) with
    | none => exact ⟨_, _, rfl⟩
    | some chosen =>
      dsimp only
      split_ifs
      · exact ⟨_, _, rfl⟩
      · exact ⟨_, _, rfl⟩

/-- After a batch of detections a creation returns exactly if the windows that it looks at end in
time. -/
theorem exists_create_iff {c : Creator ρ π} (solver : Solver) {stamp : Duration}
    (seen : c.detectionStamp = some stamp) :
    (∃ created next, c.create solver = .ok (created, next)) ↔ c.WindowsEnd := by
  unfold create WindowsEnd
  cases policy : c.settings.policy with
  | everyDetection => exact ⟨fun _ => nofun, fun _ => ⟨_, _, rfl⟩⟩
  | visionConfirmed =>
    let cleared : Creator ρ π := { c with detections := [] }
    have confirmed := exists_createConfirmed_iff (c := cleared) solver c.detections seen
    exact confirmed.trans ⟨fun short _ => short, fun short => short rfl⟩

theorem detectionStamp_of_create {c next : Creator ρ π} {solver : Solver}
    {created : List (Track ρ π)} (returned : c.create solver = .ok (created, next)) :
    next.detectionStamp = c.detectionStamp := by
  cases policy : c.settings.policy with
  | everyDetection =>
    rw [create_of_everyDetection policy] at returned
    cases returned
    rfl
  | visionConfirmed =>
    rw [create_of_visionConfirmed policy] at returned
    cases confirmation_of_createConfirmed returned <;> rfl

theorem exists_earlier_of_create {c next : Creator ρ π} {solver : Solver}
    {created : List (Track ρ π)} (returned : c.create solver = .ok (created, next))
    {b : WaitingRegions ρ π} (member : b ∈ next.batches) :
    ∃ earlier ∈ c.batches, earlier.stamp = b.stamp ∧ earlier.view = b.view := by
  unfold create at returned
  dsimp only at returned
  split at returned
  · cases returned
    exact ⟨b, member, rfl, rfl⟩
  · cases confirmation_of_createConfirmed returned with
    | unseen => exact ⟨b, member, rfl, rfl⟩
    | idle => exact ⟨b, List.mem_of_mem_filter member, rfl, rfl⟩
    | @confirmed stamp before after batch _ _ batches _ =>
      change c.batches = before ++ batch :: after at batches
      rw [batches]
      simp only [List.mem_append, List.mem_cons] at member ⊢
      rcases member with (old | rest) | new
      · exact ⟨b, .inl (List.mem_of_mem_filter old), rfl, rfl⟩
      · obtain rfl := WaitingRegions.eq_of_mem_remainder rest
        exact ⟨batch, .inr (.inl rfl), rfl, rfl⟩
      · exact ⟨b, .inr (.inr (List.mem_of_mem_filter new)), rfl, rfl⟩

theorem WindowsEnd.create {c next : Creator ρ π} (ends : c.WindowsEnd) {solver : Solver}
    {created : List (Track ρ π)} (returned : c.create solver = .ok (created, next)) :
    next.WindowsEnd := by
  unfold WindowsEnd
  rw [(create_continues returned).settings]
  intro confirming b member
  obtain ⟨earlier, waiting, same, -⟩ := exists_earlier_of_create returned member
  unfold WaitingRegions.EndsInTime
  rw [← same]
  exact ends confirming earlier waiting

/-- A new track starts at a detection that waited, though its classes may be those of a region;
and no detection waits any longer. -/
theorem exists_detection_of_create {c next : Creator ρ π} {solver : Solver}
    {created : List (Track ρ π)} (returned : c.create solver = .ok (created, next)) :
    next.detections = [] ∧ ∀ t ∈ created, ∃ d ∈ c.detections,
      t = { Track.ofDetection t.id c.settings.noise d with belief := t.belief } := by
  cases policy : c.settings.policy with
  | everyDetection =>
    unfold create at returned
    rw [policy] at returned
    cases returned
    refine ⟨rfl, fun t member => ?_⟩
    obtain ⟨d, waiting, same⟩ := exists_detection_of_spawn member
    exact ⟨d, waiting, by rw [same]; rfl⟩
  | visionConfirmed =>
    rw [create_of_visionConfirmed policy] at returned
    cases confirmation_of_createConfirmed returned with
    | unseen => exact ⟨rfl, nofun⟩
    | idle => exact ⟨rfl, nofun⟩
    | confirmed => exact ⟨rfl, fun t member => exists_detection_of_spawnConfirmed member⟩

end Creator

end TrackFusion
