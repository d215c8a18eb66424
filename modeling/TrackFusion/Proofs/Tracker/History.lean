import TrackFusion.Proofs.Tracker.Cycle

/-!
The history of a tracker.

A history lists what the applied detection cycles did, the latest first. It tells when a track was
last touched, that is created or corrected, and how often it was corrected. A track follows a history
if its age, its missed cycles and its hits are what the history tells; the lemmas say how a cycle
that corrects, misses or creates a track carries this to the longer history.
-/

set_option autoImplicit false
set_option relaxedAutoImplicit false

namespace TrackFusion

/-- What an applied cycle did: its stamp, and the identities of the tracks that it corrected and of
those that it created. -/
structure CycleRecord where
  stamp : Duration
  corrected : List Nat
  created : List Nat

def CycleRecord.Touches (r : CycleRecord) (id : Nat) : Prop :=
  id ∈ r.corrected ∨ id ∈ r.created

instance (r : CycleRecord) (id : Nat) : Decidable (r.Touches id) :=
  inferInstanceAs (Decidable (_ ∨ _))

/-- The applied cycles, the latest first. -/
abbrev History := List CycleRecord

namespace History

def latest (h : History) : Option Duration :=
  h.head?.map CycleRecord.stamp

/-- The stamp of the latest cycle that touched a track, and the number of cycles after it. -/
def lastContact (id : Nat) : History → Option (Duration × Nat)
  | [] => none
  | r :: earlier =>
    if r.Touches id then some (r.stamp, 0)
    else (lastContact id earlier).map fun (stamp, later) => (stamp, later + 1)

def corrections (id : Nat) (h : History) : Nat :=
  h.countP fun r => id ∈ r.corrected

/-- By the latest cycle more time or more cycles have passed since a track was touched than a track
may miss. -/
def Expired (time : Duration) (ticks : Nat) (id : Nat) (h : History) : Prop :=
  ∃ (last stamp : Duration) (later : Nat), latest h = some last ∧
    lastContact id h = some (stamp, later) ∧
    (stamp.nanoseconds + time.nanoseconds < last.nanoseconds ∨ ticks < later)

@[simp] theorem latest_cons (r : CycleRecord) (h : History) : latest (r :: h) = some r.stamp :=
  rfl

theorem lastContact_of_touches {r : CycleRecord} {id : Nat} (touched : r.Touches id) (h : History) :
    lastContact id (r :: h) = some (r.stamp, 0) :=
  if_pos touched

theorem lastContact_of_not_touches {r : CycleRecord} {id : Nat} (untouched : ¬ r.Touches id)
    (h : History) : lastContact id (r :: h) =
      (lastContact id h).map fun (stamp, later) => (stamp, later + 1) :=
  if_neg untouched

theorem exists_getElem?_of_lastContact {id k : Nat} {stamp : Duration} {h : History}
    (contact : lastContact id h = some (stamp, k)) :
    ∃ r, h[k]? = some r ∧ r.Touches id ∧ ∀ later ∈ h.take k, ¬ later.Touches id := by
  induction h generalizing k with
  | nil => cases contact
  | cons r earlier ih =>
    by_cases touched : r.Touches id
    · rw [lastContact_of_touches touched] at contact
      cases contact
      exact ⟨r, rfl, touched, nofun⟩
    · rw [lastContact_of_not_touches touched, Option.map_eq_some_iff] at contact
      obtain ⟨⟨stamp', k'⟩, before, same⟩ := contact
      cases same
      obtain ⟨r', place, touches, untouched⟩ := ih before
      exact ⟨r', place, touches, List.forall_mem_cons.mpr ⟨touched, untouched⟩⟩

theorem corrections_of_mem {r : CycleRecord} {id : Nat} (corrected : id ∈ r.corrected)
    (h : History) : corrections id (r :: h) = corrections id h + 1 :=
  List.countP_cons_of_pos (decide_eq_true corrected)

theorem corrections_of_not_mem {r : CycleRecord} {id : Nat} (missed : id ∉ r.corrected)
    (h : History) : corrections id (r :: h) = corrections id h :=
  List.countP_cons_of_neg (by rwa [decide_eq_true_eq])

theorem corrections_eq_zero {id : Nat} {h : History} (never : ∀ r ∈ h, id ∉ r.corrected) :
    corrections id h = 0 :=
  List.countP_eq_zero.mpr fun r member => by
    rw [decide_eq_true_eq]
    exact never r member

end History

variable {ρ π : Type}

/-- The age, the missed cycles and the hits of a track are what a history tells of its identity. -/
structure Track.Follows (t : Track ρ π) (h : History) : Prop where
  contact : ∃ last stamp : Duration, History.latest h = some last ∧
    History.lastContact t.id h = some (stamp, t.ticksSinceUpdate) ∧
    stamp.nanoseconds + t.timeSinceUpdate.nanoseconds = last.nanoseconds
  hits : t.hits = 1 + History.corrections t.id h

namespace Track

theorem Follows.congr {t u : Track ρ π} {h : History} (follows : t.Follows h) (id : u.id = t.id)
    (time : u.timeSinceUpdate = t.timeSinceUpdate) (ticks : u.ticksSinceUpdate = t.ticksSinceUpdate)
    (hits : u.hits = t.hits) : u.Follows h := by
  obtain ⟨contact, count⟩ := follows
  constructor
  · rwa [id, time, ticks]
  · rw [hits, id, count]

theorem IsNew.follows {t : Track ρ π} (new : t.IsNew) {r : CycleRecord} {h : History}
    (created : t.id ∈ r.created) (fresh : ∀ e ∈ r :: h, t.id ∉ e.corrected) :
    t.Follows (r :: h) := by
  obtain ⟨hits, ticks, time⟩ := new
  refine ⟨⟨r.stamp, r.stamp, History.latest_cons r h, ?_, ?_⟩, ?_⟩
  · rw [History.lastContact_of_touches (.inr created), ticks]
  · rw [time, Duration.nanoseconds_zero, Nat.add_zero]
  · rw [hits, History.corrections_eq_zero fresh]

variable [Scalar ρ] {t p q : Track ρ π} {given : Option (Detection ρ π)}
  {dt : Duration} {r : CycleRecord} {h : History}

theorem Follows.corrected [Scalar π] (follows : t.Follows h) (predicted : t.predict dt = .ok p)
    (corrected : p.Corrected given q) (listed : t.id ∈ r.corrected) : q.Follows (r :: h) := by
  obtain ⟨d, -, updated, hits, ticks, time⟩ := corrected
  obtain ⟨id, same, -, -⟩ := predict_fields predicted
  have sameId : q.id = t.id := (update_fields updated).1.trans id
  refine ⟨⟨r.stamp, r.stamp, History.latest_cons r h, ?_, ?_⟩, ?_⟩
  · rw [sameId, History.lastContact_of_touches (.inl listed), ticks]
  · rw [time, Duration.nanoseconds_zero, Nat.add_zero]
  · rw [hits, same, follows.hits, sameId, History.corrections_of_mem listed, Nat.add_assoc]

/-- A missed track follows the history with the cycle that missed it, if the prediction covered the
time since the cycle before. -/
theorem Follows.missed (follows : t.Follows h) (predicted : t.predict dt = .ok p)
    (missed : p.Missed given q) (untouched : ¬ r.Touches t.id)
    (elapsed : ∀ last, History.latest h = some last →
      last.nanoseconds + dt.nanoseconds = r.stamp.nanoseconds) : q.Follows (r :: h) := by
  obtain ⟨-, rfl⟩ := missed
  obtain ⟨id, hits, ticks, time⟩ := predict_fields predicted
  obtain ⟨⟨last, stamp, latest, contact, age⟩, count⟩ := follows
  have uncorrected : t.id ∉ r.corrected := fun listed => untouched (.inl listed)
  refine ⟨⟨r.stamp, stamp, History.latest_cons r h, ?_, ?_⟩, ?_⟩
  · dsimp only
    rw [id, History.lastContact_of_not_touches untouched, contact, ticks, Option.map_some]
  · -- the telescoping step: the age so far ends where the prediction begins
    have passed := elapsed last latest
    dsimp only
    rw [time]
    omega
  · dsimp only
    rw [hits, count, id, History.corrections_of_not_mem uncorrected]

end Track

namespace CycleStages

variable [Scalar ρ] [Scalar π]

/-- The record of a cycle: a predicted track is corrected if the correction by the detection that
the association names for it succeeds. -/
def record (s : CycleStages ρ π) (batch : DetectionBatch ρ π) : CycleRecord where
  stamp := batch.header.stamp
  corrected := s.predicted.zipIdx.filterMap fun (p, i) =>
    if (s.given batch.objects i).any fun d => (p.update d).isOk then some p.id else none
  created := s.created.map Track.id

variable {s : CycleStages ρ π} {batch : DetectionBatch ρ π}

theorem mem_record_corrected {id : Nat} : id ∈ (s.record batch).corrected ↔
    ∃ (i : Nat) (p : Track ρ π), s.predicted[i]? = some p ∧ p.id = id ∧
      ∃ d u, s.given batch.objects i = some d ∧ p.update d = .ok u := by
  have isOk_iff (p : Track ρ π) (d : Detection ρ π) :
      (p.update d).isOk = true ↔ ∃ u, p.update d = .ok u := by
    cases p.update d <;> simp [Except.isOk, Except.toBool]
  simp only [record, List.mem_filterMap, Prod.exists, List.mem_zipIdx_iff_getElem?,
    Option.ite_none_right_eq_some, Option.some.injEq, Option.any_eq_true, isOk_iff]
  constructor
  · rintro ⟨p, i, place, ⟨d, given, u, updated⟩, rfl⟩
    exact ⟨i, p, place, rfl, d, u, given, updated⟩
  · rintro ⟨i, p, place, rfl, d, u, given, updated⟩
    exact ⟨p, i, place, ⟨d, given, u, updated⟩, rfl⟩

theorem mem_record_corrected_iff (distinct : (s.predicted.map Track.id).Nodup) {i : Nat}
    {p : Track ρ π} (place : s.predicted[i]? = some p) :
    p.id ∈ (s.record batch).corrected ↔
      p.Corrected (s.given batch.objects i) (p.advance (s.given batch.objects i)) := by
  rw [mem_record_corrected]
  constructor
  · rintro ⟨j, p', place', sameId, d, u, given, updated⟩
    have idAt : (s.predicted.map Track.id)[i]? = (s.predicted.map Track.id)[j]? := by
      rw [List.getElem?_map, List.getElem?_map, place, place', Option.map_some, Option.map_some,
        sameId]
    have bound : i < (s.predicted.map Track.id).length := by
      rw [List.length_map]
      exact (List.getElem?_eq_some_iff.mp place).1
    obtain rfl : i = j := (List.getElem?_inj bound distinct).mp idAt
    obtain rfl : p = p' := Option.some.inj (place.symm.trans place')
    rcases p.advance_cases (s.given batch.objects i) with corrected | ⟨fails, -⟩
    · exact corrected
    · obtain ⟨e, failed⟩ := Track.update_eq_error_iff.mpr (fails d given)
      rw [updated] at failed
      cases failed
  · rintro ⟨d, given, updated, -⟩
    exact ⟨i, p, place, rfl, d, _, given, updated⟩

end CycleStages

end TrackFusion
