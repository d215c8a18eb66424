import TrackFusion.Proofs.Creator.Ledger

/-!
What a creator holds, at any time.

The batches that wait are parts of batches that arrived, in the order of their arrival: each call
keeps some of them, perhaps with fewer regions, and takes in one more at most. They are never empty,
never too many and never unreadable, and no detection waits that is not valid. A creation leaves no
detection waiting and no batch whose window has passed.
-/

set_option autoImplicit false
set_option relaxedAutoImplicit false

namespace TrackFusion

variable {ρ π : Type}

namespace WaitingRegions

/-- The batch has some of the regions of a batch that arrived, in their order. -/
structure IsPartOf (b arrived : WaitingRegions ρ π) : Prop where
  stamp : b.stamp = arrived.stamp
  view : b.view = arrived.view
  regions : b.regions.Sublist arrived.regions

theorem IsPartOf.refl (b : WaitingRegions ρ π) : b.IsPartOf b :=
  ⟨rfl, rfl, List.Sublist.refl _⟩

theorem IsPartOf.trans {b c d : WaitingRegions ρ π} (first : b.IsPartOf c)
    (second : c.IsPartOf d) : b.IsPartOf d :=
  ⟨first.stamp.trans second.stamp, first.view.trans second.view,
    first.regions.trans second.regions⟩

instance : Std.Refl (IsPartOf : WaitingRegions ρ π → WaitingRegions ρ π → Prop) :=
  ⟨IsPartOf.refl⟩

instance : IsTrans (WaitingRegions ρ π) IsPartOf :=
  ⟨fun _ _ _ => IsPartOf.trans⟩

theorem isPartOf_withoutMatched (b : WaitingRegions ρ π) (a : Association) :
    (b.withoutMatched a).IsPartOf b := by
  have fewer := (List.filter_sublist (l := b.regions.zipIdx)
    (p := fun r => a.unassignedObservations.contains r.2)).map Prod.fst
  rw [List.zipIdx_map_fst] at fewer
  exact ⟨rfl, rfl, fewer⟩

/-- The batches are parts of batches that arrived, in the order of their arrival. -/
def ComeFrom (batches arrived : List (WaitingRegions ρ π)) : Prop :=
  List.SublistForall₂ IsPartOf batches arrived

namespace ComeFrom

variable {batches arrived batches' arrived' : List (WaitingRegions ρ π)}

theorem of_sublist (fewer : batches.Sublist arrived) : ComeFrom batches arrived :=
  fewer.sublistForall₂

theorem trans {earlier : List (WaitingRegions ρ π)} (first : ComeFrom batches earlier)
    (second : ComeFrom earlier arrived) : ComeFrom batches arrived :=
  List.SublistForall₂.is_trans.trans _ _ _ first second

theorem append (first : ComeFrom batches arrived) (second : ComeFrom batches' arrived') :
    ComeFrom (batches ++ batches') (arrived ++ arrived') := by
  obtain ⟨kept, parts, fewer⟩ := List.sublistForall₂_iff.mp first
  obtain ⟨kept', parts', fewer'⟩ := List.sublistForall₂_iff.mp second
  exact List.sublistForall₂_iff.mpr
    ⟨kept ++ kept', List.rel_append parts parts', fewer.append fewer'⟩

theorem length_le (come : ComeFrom batches arrived) : batches.length ≤ arrived.length := by
  obtain ⟨kept, parts, fewer⟩ := List.sublistForall₂_iff.mp come
  rw [parts.length_eq]
  exact fewer.length_le

theorem exists_of_mem (come : ComeFrom batches arrived) {b : WaitingRegions ρ π}
    (member : b ∈ batches) : ∃ whole ∈ arrived, b.IsPartOf whole := by
  obtain ⟨kept, parts, fewer⟩ := List.sublistForall₂_iff.mp come
  obtain ⟨whole, listed, part⟩ :=
    exists_mem_of_forall₂ (R := fun whole b => IsPartOf b whole) parts.flip member
  exact ⟨whole, fewer.subset listed, part⟩

end ComeFrom

theorem comeFrom_remainder (batch : WaitingRegions ρ π) (a : Association) :
    ComeFrom (batch.remainder a) [batch] := by
  unfold remainder
  split_ifs
  · exact .nil
  · exact .cons (isPartOf_withoutMatched batch a) .nil

theorem regions_ne_nil_of_mem_remainder {batch b : WaitingRegions ρ π} {a : Association}
    (member : b ∈ batch.remainder a) : b.regions ≠ [] := by
  unfold remainder at member
  split_ifs at member with empty
  · cases member
  · obtain rfl := List.mem_singleton.mp member
    exact mt List.isEmpty_iff.mpr empty

end WaitingRegions

/-- The batch that a call hands over to wait, if the policy has a use for it and a region of it is
left and readable. -/
def CreatorCall.arrival? [ExtendedScalar ρ] (policy : CreationPolicy) :
    CreatorCall ρ π → Option (WaitingRegions ρ π)
  | .regions batch view a =>
    if policy = .everyDetection ∨ Creator.leftRegions batch a = [] then none
    else some ⟨batch.header.stamp, Creator.leftRegions batch a, view⟩
  | _ => none

def CreatorCall.detectionStamp? : CreatorCall ρ π → Option Duration
  | .detections batch _ => some batch.header.stamp
  | _ => none

def CreatorCall.arrivals [ExtendedScalar ρ] (policy : CreationPolicy)
    (calls : List (CreatorCall ρ π)) : List (WaitingRegions ρ π) :=
  calls.filterMap (arrival? policy)

def CreatorCall.latestStamp? (calls : List (CreatorCall ρ π)) : Option Duration :=
  (calls.filterMap detectionStamp?).getLast?

namespace CreatorCall

theorem arrivals_append_singleton [ExtendedScalar ρ] (policy : CreationPolicy)
    (calls : List (CreatorCall ρ π)) (call : CreatorCall ρ π) :
    arrivals policy (calls ++ [call]) = arrivals policy calls ++ (call.arrival? policy).toList := by
  unfold arrivals
  rw [List.filterMap_append]
  cases arrived : call.arrival? policy <;> simp [arrived]

theorem latestStamp?_append_singleton (calls : List (CreatorCall ρ π)) (call : CreatorCall ρ π) :
    latestStamp? (calls ++ [call]) = call.detectionStamp?.or (latestStamp? calls) := by
  unfold latestStamp?
  cases stamp : call.detectionStamp? <;> simp [stamp]

theorem regions_ne_nil_of_arrival? [ExtendedScalar ρ] {policy : CreationPolicy}
    {call : CreatorCall ρ π} {b : WaitingRegions ρ π} (arrived : call.arrival? policy = some b) :
    b.regions ≠ [] ∧ ∀ r ∈ b.regions, r.box?.isSome = true := by
  cases call with
  | detections batch a => cases arrived
  | create => cases arrived
  | regions batch view a =>
    dsimp only [arrival?] at arrived
    split_ifs at arrived with unused
    cases arrived
    exact ⟨(not_or.mp unused).2, fun r member => (List.mem_filter.mp member).2⟩

end CreatorCall

namespace Creator

open WaitingRegions

section Waiting

variable [ExtendedScalar ρ]

theorem batches_addRegions (c : Creator ρ π) (batch : RegionBatch ρ π) (view : Pose ρ)
    (a : Association) (bounded : c.batches.length ≤ c.settings.maxBatches) :
    let waiting := c.batches ++
      ((CreatorCall.regions batch view a).arrival? c.settings.policy).toList
    (c.addRegions batch view a).batches =
      waiting.drop (waiting.length - c.settings.maxBatches) := by
  dsimp only [CreatorCall.arrival?]
  split_ifs with unused
  · have room : c.batches.length - c.settings.maxBatches = 0 := Nat.sub_eq_zero_of_le bounded
    rw [addRegions_of_unused unused, Option.toList_none, List.append_nil, room, List.drop_zero]
  · obtain ⟨used, left⟩ := not_or.mp unused
    have confirming : c.settings.policy = .visionConfirmed := by
      cases policy : c.settings.policy with
      | everyDetection => exact absurd policy used
      | visionConfirmed => rfl
    rw [addRegions_of_used confirming left, Option.toList_some, List.length_append,
      List.length_singleton]

/-- What a creator with given settings holds after a sequence of calls. -/
structure Invariant (settings : CreationSettings ρ) (calls : List (CreatorCall ρ π))
    (c : Creator ρ π) : Prop where
  sameSettings : c.settings = settings
  latest : c.detectionStamp = CreatorCall.latestStamp? calls
  bounded : c.batches.length ≤ settings.maxBatches
  full : ∀ b ∈ c.batches, b.regions ≠ []
  readable : ∀ b ∈ c.batches, ∀ r ∈ b.regions, r.box?.isSome = true
  ordered : ComeFrom c.batches (CreatorCall.arrivals settings.policy calls)
  valid : ∀ d ∈ c.detections, d.isValid = true
  unused : settings.policy = .everyDetection → c.batches = []

namespace Invariant

variable {settings : CreationSettings ρ} {calls : List (CreatorCall ρ π)} {c : Creator ρ π}

theorem empty (settings : CreationSettings ρ) :
    Invariant settings [] (.empty settings : Creator ρ π) :=
  ⟨rfl, rfl, Nat.zero_le _, nofun, nofun, .nil, nofun, fun _ => rfl⟩

theorem addDetections (invariant : c.Invariant settings calls) (batch : DetectionBatch ρ π)
    (a : Association) :
    (c.addDetections batch a).Invariant settings (calls ++ [.detections batch a]) := by
  refine ⟨invariant.sameSettings, ?_, invariant.bounded, invariant.full, invariant.readable, ?_, ?_,
    invariant.unused⟩
  · rw [CreatorCall.latestStamp?_append_singleton]
    rfl
  · rw [CreatorCall.arrivals_append_singleton]
    exact invariant.ordered.trans (.of_sublist (List.sublist_append_left _ _))
  · intro d member
    rcases List.mem_append.mp member with old | new
    · exact invariant.valid d old
    · exact (List.mem_filter.mp new).2

theorem addRegions (invariant : c.Invariant settings calls) (batch : RegionBatch ρ π)
    (view : Pose ρ) (a : Association) :
    (c.addRegions batch view a).Invariant settings (calls ++ [.regions batch view a]) := by
  obtain rfl := invariant.sameSettings
  have batches := c.batches_addRegions batch view a invariant.bounded
  dsimp only at batches
  generalize arrived : (CreatorCall.regions batch view a).arrival? c.settings.policy = arrival
    at batches
  have fewer : (c.addRegions batch view a).batches.Sublist (c.batches ++ arrival.toList) := by
    rw [batches]
    exact List.drop_sublist _ _
  -- the batch that arrives was handed over because it has regions that can be read
  have new {b : WaitingRegions ρ π} (member : b ∈ arrival.toList) :
      b.regions ≠ [] ∧ ∀ r ∈ b.regions, r.box?.isSome = true :=
    CreatorCall.regions_ne_nil_of_arrival? (arrived.trans (Option.mem_toList.mp member))
  refine ⟨settings_addRegions c batch view a, ?_, ?_, ?_, ?_, ?_, ?_, ?_⟩
  · rw [CreatorCall.latestStamp?_append_singleton, detectionStamp_addRegions, invariant.latest]
    rfl
  · rw [batches, List.length_drop]
    omega
  · intro b member
    rcases List.mem_append.mp (fewer.subset member) with old | arrives
    · exact invariant.full b old
    · exact (new arrives).1
  · intro b member
    rcases List.mem_append.mp (fewer.subset member) with old | arrives
    · exact invariant.readable b old
    · exact (new arrives).2
  · rw [CreatorCall.arrivals_append_singleton, arrived]
    exact (ComeFrom.of_sublist fewer).trans
      (invariant.ordered.append (.of_sublist (List.Sublist.refl _)))
  · rw [detections_addRegions]
    exact invariant.valid
  · intro every
    rw [addRegions_of_unused (.inl every)]
    exact invariant.unused every

end Invariant

end Waiting

variable [ExtendedScalar ρ] [Scalar π] {c next : Creator ρ π} {solver : Solver}
  {created : List (Track ρ π)}

theorem comeFrom_of_create (returned : c.create solver = .ok (created, next)) :
    ComeFrom next.batches c.batches ∧
      ((∀ b ∈ c.batches, b.regions ≠ []) → ∀ b ∈ next.batches, b.regions ≠ []) := by
  cases policy : c.settings.policy with
  | everyDetection =>
    rw [create_of_everyDetection policy] at returned
    cases returned
    exact ⟨.of_sublist (List.Sublist.refl _), id⟩
  | visionConfirmed =>
    rw [create_of_visionConfirmed policy] at returned
    cases confirmation_of_createConfirmed returned with
    | unseen => exact ⟨.of_sublist (List.Sublist.refl _), id⟩
    | idle =>
      exact ⟨.of_sublist List.filter_sublist,
        fun full b member => full b (List.mem_of_mem_filter member)⟩
    | @confirmed stamp before after batch _ _ split _ =>
      change c.batches = before ++ batch :: after at split
      rw [split, ← List.singleton_append, ← List.append_assoc]
      refine ⟨((ComeFrom.of_sublist List.filter_sublist).append ?_).append
        (.of_sublist List.filter_sublist), ?_⟩
      · exact comeFrom_remainder batch _
      · intro full b member
        simp only [List.mem_append, List.mem_singleton] at full member
        rcases member with (old | rest) | new
        · exact full b (.inl (.inl (List.mem_of_mem_filter old)))
        · exact regions_ne_nil_of_mem_remainder rest
        · exact full b (.inr (List.mem_of_mem_filter new))

theorem reaches_of_create (returned : c.create solver = .ok (created, next))
    (confirming : c.settings.policy = .visionConfirmed) {stamp : Duration}
    (seen : c.detectionStamp = some stamp) :
    ∀ b ∈ next.batches, b.Reaches c.settings.window stamp := by
  have kept {batches : List (WaitingRegions ρ π)} {b : WaitingRegions ρ π}
      (member : b ∈ batches.filter (·.Reaches c.settings.window stamp)) :
      b.Reaches c.settings.window stamp := of_decide_eq_true (List.mem_filter.mp member).2
  rw [create_of_visionConfirmed confirming] at returned
  cases confirmation_of_createConfirmed returned with
  | unseen unseen =>
    change c.detectionStamp = none at unseen
    rw [seen] at unseen
    cases unseen
  | idle seen' =>
    obtain rfl := Option.some.inj (seen.symm.trans seen')
    exact fun b => kept
  | @confirmed stamp' before after batch seen' _ _ near =>
    obtain rfl := Option.some.inj (seen.symm.trans seen')
    intro b member
    simp only [List.mem_append] at member
    rcases member with (old | rest) | new
    · exact kept old
    · obtain rfl := eq_of_mem_remainder rest
      -- the matched batch lies within the window
      by_contra late
      exact Nat.not_lt.mpr near.within (lt_distance_of_not_reaches late)
    · exact kept new

section Calls

variable {settings : CreationSettings ρ} {calls : List (CreatorCall ρ π)}

theorem Invariant.create (invariant : c.Invariant settings calls)
    (returned : c.create solver = .ok (created, next)) :
    next.Invariant settings (calls ++ [.create]) := by
  obtain rfl := invariant.sameSettings
  obtain ⟨come, full⟩ := comeFrom_of_create returned
  refine ⟨(create_continues returned).settings, ?_, ?_, full invariant.full, ?_, ?_, ?_, ?_⟩
  · rw [CreatorCall.latestStamp?_append_singleton, detectionStamp_of_create returned,
      invariant.latest]
    rfl
  · exact come.length_le.trans invariant.bounded
  · intro b member
    obtain ⟨whole, listed, part⟩ := come.exists_of_mem member
    exact fun r inside => invariant.readable whole listed r (part.regions.subset inside)
  · rw [CreatorCall.arrivals_append_singleton]
    exact (come.trans invariant.ordered).trans (.of_sublist (List.sublist_append_left _ _))
  · rw [(exists_detection_of_create returned).1]
    exact nofun
  · intro every
    rw [invariant.unused every] at come
    exact List.eq_nil_of_length_eq_zero (Nat.le_zero.mp come.length_le)

theorem Invariant.perform {call : CreatorCall ρ π} (invariant : c.Invariant settings calls)
    (performed : c.perform solver call = .ok (created, next)) :
    next.Invariant settings (calls ++ [call]) := by
  cases call with
  | detections batch a =>
    cases performed
    exact invariant.addDetections batch a
  | regions batch view a =>
    cases performed
    exact invariant.addRegions batch view a
  | create => exact invariant.create performed

theorem Invariant.performAll {rest : List (CreatorCall ρ π)} {answers : List (List (Track ρ π))}
    {last : Creator ρ π} (invariant : c.Invariant settings calls)
    (performed : c.performAll solver rest = .ok (answers, last)) :
    last.Invariant settings (calls ++ rest) := by
  induction rest generalizing c calls answers with
  | nil =>
    cases performed
    rwa [List.append_nil]
  | cons call rest ih =>
    obtain ⟨⟨first, middle⟩, step, others⟩ := bind_eq_ok_iff.mp performed
    obtain ⟨⟨later, _⟩, run, same⟩ := bind_eq_ok_iff.mp others
    cases same
    rw [← List.singleton_append, ← List.append_assoc]
    exact ih (invariant.perform step) run

/-- What a creator holds after a sequence of calls, and what one more call leaves of it. -/
structure WellKept (settings : CreationSettings ρ) (solver : Solver)
    (calls : List (CreatorCall ρ π)) (c : Creator ρ π) : Prop where
  invariant : c.Invariant settings calls
  /-- Of the batches that wait and the one that arrives the last ones stay, as many as there is room
  for. -/
  addRegions : ∀ (batch : RegionBatch ρ π) (view : Pose ρ) (a : Association),
    let waiting := c.batches ++
      ((CreatorCall.regions batch view a).arrival? settings.policy).toList
    (c.addRegions batch view a).batches <:+ waiting ∧
      (c.addRegions batch view a).batches.length = min settings.maxBatches waiting.length
  create : ∀ created next, c.create solver = .ok (created, next) →
    next.detections = [] ∧
      ∀ stamp, settings.policy = .visionConfirmed → CreatorCall.latestStamp? calls = some stamp →
        ∀ b ∈ next.batches, b.Reaches settings.window stamp

theorem Invariant.wellKept (invariant : c.Invariant settings calls) (solver : Solver) :
    c.WellKept settings solver calls := by
  refine ⟨invariant, fun batch view a => ?_, fun created next returned => ?_⟩
  · obtain rfl := invariant.sameSettings
    dsimp only
    rw [batches_addRegions c batch view a invariant.bounded, List.length_drop]
    refine ⟨List.drop_suffix _ _, ?_⟩
    omega
  · refine ⟨(exists_detection_of_create returned).1, fun stamp confirming latest => ?_⟩
    obtain rfl := invariant.sameSettings
    exact reaches_of_create returned confirming (invariant.latest.trans latest)

/-- Whatever a creator is asked, as long as it returns, it holds what it should. -/
theorem wellKept_of_performAll {answers : List (List (Track ρ π))}
    (performed : (empty settings).performAll solver calls = .ok (answers, c)) :
    c.WellKept settings solver calls :=
  Invariant.wellKept ((Invariant.empty settings).performAll performed) solver

/-- A camera sees a region, then a car is detected where the camera saw it, and starts a track. -/
theorem wellKept_of_confirmation :
    let settings := Scene.confirming.creation
    let calls : List (CreatorCall Exact Exact) :=
      [.regions ⟨⟨Scene.second, "camera"⟩, [Scene.region]⟩ Scene.below (.unassigned 0 1 false),
        .detections (Scene.batch Scene.second [Scene.car 0]) (.unassigned 0 1 false), .create]
    ∃ t c, (empty settings).performAll .augmentingPaths calls = .ok ([[], [], [t]], c) ∧
      c.WellKept settings .augmentingPaths calls := by
  intro settings calls
  obtain ⟨t, c, performed⟩ := exists_performAll_car .augmentingPaths
  exact ⟨t, c, performed, wellKept_of_performAll performed⟩

end Calls

end Creator

end TrackFusion
