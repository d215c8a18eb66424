import TrackFusion.Assignment.Matching

/-!
The outcome of associating observations with tracks.

`Association.ofMatches` turns any list of matches into a partial one-to-one assignment: matches are
taken in order, and one whose track or observation is out of range or already taken is passed over.
-/

set_option autoImplicit false
set_option relaxedAutoImplicit false

namespace TrackFusion

/-- Which observation each track received, what is left over on both sides, and whether some
observation could not be interpreted. -/
structure Association where
  assignments : List (Option Nat)
  unassignedTracks : List Nat
  unassignedObservations : List Nat
  hadErrors : Bool
  deriving DecidableEq, Repr, Inhabited

namespace Association

def unassigned (tracks observations : Nat) (hadErrors : Bool) : Association where
  assignments := List.replicate tracks none
  unassignedTracks := List.range tracks
  unassignedObservations := List.range observations
  hadErrors := hadErrors

def keepPair (tracks observations : Nat) (kept : List (Nat × Nat)) (pair : Nat × Nat) :
    List (Nat × Nat) :=
  if pair.1 < tracks ∧ pair.2 < observations ∧ ¬(kept.any fun k => k.1 == pair.1) ∧
      ¬(kept.any fun k => k.2 == pair.2) then
    kept ++ [pair]
  else kept

def ofPairs (tracks observations : Nat) (pairs : List (Nat × Nat)) (hadErrors : Bool) :
    Association where
  assignments := (List.range tracks).map fun t => (pairs.find? fun p => p.1 == t).map Prod.snd
  unassignedTracks := (List.range tracks).filter fun t => !(pairs.any fun p => p.1 == t)
  unassignedObservations :=
    (List.range observations).filter fun o => !(pairs.any fun p => p.2 == o)
  hadErrors := hadErrors

/-- The one-to-one assignment of a list of matches, first come first served. -/
def ofMatches {ρ : Type} (tracks observations : Nat) (matched : List (Match ρ)) (hadErrors : Bool) :
    Association :=
  let pairs := matched.map fun m => (m.track, m.observation)
  ofPairs tracks observations (pairs.foldl (keepPair tracks observations) []) hadErrors

/-- The association of a matching that may have failed; a failed one assigns nothing. -/
def ofMatching {ρ : Type} (tracks observations : Nat) (matching : Except GateError (Matching ρ))
    (hadErrors : Bool) : Association :=
  match matching with
  | .ok matching => ofMatches tracks observations matching.pairs hadErrors
  | .error _ => unassigned tracks observations hadErrors

def observationOf (a : Association) (track : Nat) : Option Nat :=
  a.assignments[track]?.join

def pairCount (a : Association) : Nat :=
  a.assignments.countP Option.isSome

end Association

end TrackFusion
