import TrackFusion.Scalar

/-!
Classes of objects and the smoothed class distribution of a track.

An observation is a list of class hypotheses; only positive finite probabilities count, and what
they sum to per class is scaled to a distribution. A belief blends each such distribution into its
own one with a fixed weight.
-/

set_option autoImplicit false
set_option relaxedAutoImplicit false

namespace TrackFusion

inductive ObjectClass where
  | unknown
  | car
  | truck
  | bus
  | trailer
  | motorcycle
  | bicycle
  | pedestrian
  deriving DecidableEq, Repr

namespace ObjectClass

/-- Every class, in the order that settles ties. -/
def all : List ObjectClass :=
  [.unknown, .car, .truck, .bus, .trailer, .motorcycle, .bicycle, .pedestrian]

def index : ObjectClass → Fin 8
  | .unknown => 0
  | .car => 1
  | .truck => 2
  | .bus => 3
  | .trailer => 4
  | .motorcycle => 5
  | .bicycle => 6
  | .pedestrian => 7

theorem mem_all (c : ObjectClass) : c ∈ all := by
  cases c <;> decide

theorem idxOf_all (c : ObjectClass) : all.idxOf c = c.index := by
  cases c <;> rfl

def name : ObjectClass → String
  | .unknown => "unknown"
  | .car => "car"
  | .truck => "truck"
  | .bus => "bus"
  | .trailer => "trailer"
  | .motorcycle => "motorcycle"
  | .bicycle => "bicycle"
  | .pedestrian => "pedestrian"

end ObjectClass

structure Hypothesis (α : Type) where
  objectClass : ObjectClass
  probability : α
  deriving DecidableEq

structure ClassDistribution (α : Type) where
  values : Vector α 8
  deriving DecidableEq

namespace ClassDistribution

variable {α : Type}

def probability (d : ClassDistribution α) (c : ObjectClass) : α :=
  d.values.get c.index

def ofFn (f : ObjectClass → α) : ClassDistribution α :=
  ⟨#v[f .unknown, f .car, f .truck, f .bus, f .trailer, f .motorcycle, f .bicycle, f .pedestrian]⟩

@[simp] theorem probability_ofFn (f : ObjectClass → α) (c : ObjectClass) :
    (ofFn f).probability c = f c := by
  cases c <;> rfl

variable [Scalar α]

def total (d : ClassDistribution α) : α :=
  Scalar.sum d.values.toList

def scaled (d : ClassDistribution α) : ClassDistribution α :=
  let total := d.total
  ⟨d.values.map (· / total)⟩

def unknown : ClassDistribution α :=
  ofFn fun c => if c = .unknown then 1 else 0

def counts (h : Hypothesis α) : Bool :=
  Scalar.isFinite h.probability && 0 < h.probability

def massOf (hypotheses : List (Hypothesis α)) : ClassDistribution α :=
  ofFn fun c =>
    Scalar.sum ((hypotheses.filter fun h => counts h && h.objectClass = c).map (·.probability))

def ofHypotheses? (hypotheses : List (Hypothesis α)) : Option (ClassDistribution α) :=
  let mass := massOf hypotheses
  if 0 < mass.total then some mass.scaled else none

end ClassDistribution

structure ClassBelief (α : Type) where
  distribution : ClassDistribution α
  smoothing : α
  deriving DecidableEq

namespace ClassBelief

variable {α : Type} [Scalar α]

/-- The least weight of a new observation: the distance from one to the next single-precision
number. -/
def minimalSmoothing : α := 1.1920928955078125e-7

/-- The belief before any observation: all mass on the unknown class. The weight is one half unless
given, and is held between the least weight and one. -/
def initial (smoothing : Option α) : ClassBelief α where
  distribution := .unknown
  smoothing := Scalar.clamp (smoothing.getD 0.5) minimalSmoothing 1

def ofHypotheses (hypotheses : List (Hypothesis α)) : ClassBelief α :=
  let start := initial none
  match ClassDistribution.ofHypotheses? hypotheses with
  | some observed => { start with distribution := observed }
  | none => start

def blended (b : ClassBelief α) (observed : ClassDistribution α) : ClassDistribution α :=
  .ofFn fun c =>
    (1 - b.smoothing) * b.distribution.probability c + b.smoothing * observed.probability c

/-- The belief after a further observation; one without mass changes nothing. -/
def update (b : ClassBelief α) (hypotheses : List (Hypothesis α)) : ClassBelief α :=
  match ClassDistribution.ofHypotheses? hypotheses with
  | some observed => { b with distribution := (b.blended observed).scaled }
  | none => b

def hypothesis (b : ClassBelief α) (c : ObjectClass) : Hypothesis α :=
  ⟨c, b.distribution.probability c⟩

def lowestProbability : α := -340282346638528859811704183484516925440.0

def mostLikely (b : ClassBelief α) : Hypothesis α :=
  (ObjectClass.all.map b.hypothesis).foldl
    (fun best candidate => if best.probability < candidate.probability then candidate else best)
    ⟨.unknown, lowestProbability⟩

/-- The classes of positive probability, most likely first; ties keep the order of the classes. -/
def ranking (b : ClassBelief α) : List (Hypothesis α) :=
  ((ObjectClass.all.map b.hypothesis).filter fun h => 0 < h.probability).mergeSort
    fun a b => b.probability ≤ a.probability

end ClassBelief

end TrackFusion
