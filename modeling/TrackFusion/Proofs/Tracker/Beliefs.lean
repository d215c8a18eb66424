import TrackFusion.Proofs.Classification.Belief
import TrackFusion.Proofs.Creator.Waiting
import TrackFusion.Proofs.Tracker.Session

/-!
Beliefs of tracks over whole runs.

A track starts with the belief of the hypotheses of a detection or of a region, and only further
observations change it, so that every live track of a run holds a belief that was started and updated.
-/

set_option autoImplicit false
set_option relaxedAutoImplicit false

namespace TrackFusion

variable {ρ π : Type}

namespace Track

variable [Scalar ρ]

theorem predict_belief {t p : Track ρ π} {dt : Duration} (predicted : t.predict dt = .ok p) :
    p.belief = t.belief := by
  obtain ⟨age, -, rfl⟩ := predict_eq_ok_iff.mp predicted
  rfl

variable [Scalar π]

theorem update_belief {t u : Track ρ π} {d : Detection ρ π} (updated : t.update d = .ok u) :
    u.belief = t.belief.update d.hypotheses := by
  simp only [update, bind_eq_ok_iff, pure_eq_ok_iff] at updated
  obtain ⟨s, -, rfl⟩ := updated
  rfl

theorem reachable_advance {t : Track ρ π} (reachable : t.belief.Reachable)
    (given : Option (Detection ρ π)) : (t.advance given).belief.Reachable := by
  rcases t.advance_cases given with ⟨d, -, updated, -⟩ | ⟨-, same⟩
  · rw [update_belief updated]
    exact reachable.update d.hypotheses
  · rwa [same]

end Track

variable [ExtendedScalar ρ] [Scalar π] {solver : Solver}

namespace Creator

theorem reachable_of_spawn {c : Creator ρ π} {detections : List (Detection ρ π)} {t : Track ρ π}
    (member : t ∈ c.spawn detections) : t.belief.Reachable := by
  obtain ⟨d, -, same⟩ := exists_detection_of_spawn member
  rw [same]
  exact .ofHypotheses d.hypotheses

theorem reachable_of_create {c next : Creator ρ π} {created : List (Track ρ π)}
    (returned : c.create solver = .ok (created, next)) {t : Track ρ π} (member : t ∈ created) :
    t.belief.Reachable := by
  cases policy : c.settings.policy with
  | everyDetection =>
    unfold create at returned
    rw [policy] at returned
    cases returned
    exact reachable_of_spawn member
  | visionConfirmed =>
    rw [create_of_visionConfirmed policy] at returned
    cases confirmation_of_createConfirmed returned with
    | unseen => cases member
    | idle => cases member
    | confirmed =>
      obtain ⟨⟨s, d, r⟩, -, rfl⟩ := List.mem_map.mp member
      exact .ofHypotheses r.hypotheses

end Creator

namespace Session

variable {options : TrackerOptions ρ} {s next : Session ρ π}

/-- Every live track holds a belief that was started and updated. -/
def BeliefsReachable (s : Session ρ π) : Prop :=
  ∀ t ∈ s.tracker.tracks, t.belief.Reachable

theorem BeliefsReachable.step {call : Call ρ π} (reachable : s.BeliefsReachable)
    (returned : s.step solver call = .ok next) : next.BeliefsReachable := by
  cases outcome_of_step returned with
  | rejected => exact reachable
  | observed batch view a =>
    intro u member
    obtain ⟨i, bound, rfl⟩ := List.mem_mapIdx.mp member
    have before := reachable _ (List.getElem_mem bound)
    split
    · exact before.update _
    · exact before
  | applied accepted staged =>
    intro u member
    obtain ⟨predicted, -, created⟩ := Tracker.stages_eq_ok_iff.mp staged
    rcases List.mem_append.mp (List.mem_of_mem_filter member) with old | new
    · obtain ⟨i, bound, rfl⟩ := List.mem_mapIdx.mp old
      obtain ⟨t, listed, predicts⟩ := exists_mem_of_forall₂ predicted (List.getElem_mem bound)
      refine Track.reachable_advance ?_ _
      rw [Track.predict_belief predicts]
      exact reachable t listed
    · exact Creator.reachable_of_create created new

theorem beliefsReachable_of_run {calls : List (Call ρ π)}
    (returned : (start options).run solver calls = .ok s) : s.BeliefsReachable := by
  have empty : (start options : Session ρ π).BeliefsReachable := by
    intro t member
    cases member
  exact foldlM_preserves (P := BeliefsReachable) (fun _ _ _ reachable step => reachable.step step)
    empty returned

end Session

end TrackFusion
