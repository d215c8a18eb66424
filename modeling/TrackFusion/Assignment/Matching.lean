import TrackFusion.Assignment.Solver

/-!
Matching tracks with observations at minimum cost, under a gate.

Costs above the gate, infinite and undefined ones are priced just above the gate, so that the solver
prefers every other pair; pairs at such a price are dropped from its answer. Prices become integers
in steps of 10⁻⁹. The matches of `minCostMatching` are ordered by track, and every track and
observation is either in one match or in its list of unmatched ones.
-/

set_option autoImplicit false
set_option relaxedAutoImplicit false

namespace TrackFusion

structure Match (ρ : Type) where
  track : Nat
  observation : Nat
  cost : ρ
  deriving DecidableEq

def Match.samePair {ρ : Type} (a b : Match ρ) : Bool :=
  a.track == b.track && a.observation == b.observation

/-- The matches, ordered by track, and what is left over on both sides, ascending. -/
structure Matching (ρ : Type) where
  pairs : List (Match ρ)
  unmatchedTracks : List Nat
  unmatchedObservations : List Nat
  deriving DecidableEq

inductive GateError where
  | undefined
  deriving DecidableEq, Repr

def GateError.message : GateError → String
  | .undefined => "invalid gating threshold NaN"

namespace Matching

def ofPairs {ρ : Type} (n m : Nat) (pairs : List (Match ρ)) : Matching ρ where
  pairs := pairs
  unmatchedTracks := (List.range n).filter fun t => !(pairs.any (·.track == t))
  unmatchedObservations := (List.range m).filter fun o => !(pairs.any (·.observation == o))

end Matching

/-- The pairs that a solver chooses. It is given the transposed weights when there are more rows
than columns. -/
def Solver.chosenPairs (solver : Solver) {n m : Nat} (weights : Mat n m Int) :
    List (Fin n × Fin m) :=
  if fits : n ≤ m then
    let columns := solver.columns fits weights
    (List.finRange n).map fun i => (i, columns.get i)
  else
    let rows := solver.columns (Nat.le_of_not_le fits) weights.transpose
    (List.finRange m).map fun j => (rows.get j, j)

namespace Gate

variable {ρ : Type} [ExtendedScalar ρ] {n m : Nat}

/-- How far the price of an excluded pair lies above the gate. -/
def margin : ρ := 1e-5

def resolution : ρ := 1000000000.0

/-- The price of an excluded pair: just above the gate, or above every finite cost if the gate is
infinite. -/
def excludedPrice (cost : Mat n m ρ) (gate : ρ) : ρ :=
  (if Scalar.isFinite gate then gate
    else (cost.toList.filter Scalar.isFinite).foldl Scalar.max 0) + margin

def price (excluded cost : ρ) : ρ :=
  if Scalar.isFinite cost then Scalar.clamp cost 0 excluded else excluded

def prices (cost : Mat n m ρ) (gate : ρ) : Mat n m ρ :=
  cost.map (price (excludedPrice cost gate))

def weight (price : ρ) : Int :=
  ExtendedScalar.toInt64 (price * resolution)

def keep? (cost prices : Mat n m ρ) (gate : ρ) (pair : Fin n × Fin m) : Option (Match ρ) :=
  let (i, j) := pair
  if Scalar.isFinite (cost.entry i j) ∧ prices.entry i j ≤ gate then
    some ⟨i, j, prices.entry i j⟩
  else none

end Gate

/-- Matches tracks (rows) with observations (columns) at minimum total price. Infinite and undefined
costs and costs above the gate are never matched; a negative gate matches nothing. -/
def minCostMatching {ρ : Type} [ExtendedScalar ρ] {n m : Nat} (solver : Solver) (cost : Mat n m ρ)
    (gate : ρ) : Except GateError (Matching ρ) :=
  if n = 0 ∨ m = 0 then .ok (.ofPairs n m [])
  else if Scalar.isNaN gate then .error .undefined
  else if gate < 0 then .ok (.ofPairs n m [])
  else
    let prices := Gate.prices cost gate
    -- the solver works on whole numbers, but a pair is kept by its price
    let chosen := solver.chosenPairs (prices.map Gate.weight)
    let kept := chosen.filterMap (Gate.keep? cost prices gate)
    .ok (.ofPairs n m (kept.mergeSort fun a b => a.track ≤ b.track))

end TrackFusion
