import TrackFusion.Association.Objects
import TrackFusion.Creator

/-!
The options of a tracker and the check that they can be used.

An infinite gate is usable and disables that gate.
-/

set_option autoImplicit false
set_option relaxedAutoImplicit false

namespace TrackFusion

structure TrackerOptions (ρ : Type) where
  frame : String
  pruningTime : Duration
  pruningTicks : Nat
  objectGates : ObjectGates ρ
  visionGates : VisionGates ρ
  creation : CreationSettings ρ
  deriving DecidableEq

inductive CheckedOption where
  | maxDistance
  | maxAreaRatio
  | gatingThreshold
  | iouThreshold
  | defaultVariance
  | noiseVariance
  | processNoise
  deriving DecidableEq, Repr

def CheckedOption.name : CheckedOption → String
  | .maxDistance => "max_distance"
  | .maxAreaRatio => "max_area_ratio"
  | .gatingThreshold => "gating_threshold"
  | .iouThreshold => "iou_threshold"
  | .defaultVariance => "default_variance"
  | .noiseVariance => "noise_variance"
  | .processNoise => "process_noise"

structure InvalidOption (ρ : Type) where
  option : CheckedOption
  value : ρ
  deriving DecidableEq

def InvalidOption.message {ρ : Type} (write : ρ → String) (e : InvalidOption ρ) : String :=
  "invalid " ++ e.option.name ++ " " ++ write e.value

namespace TrackerOptions

variable {ρ : Type} [Scalar ρ]

/-- The frame `map`; tracks are removed after one second or five cycles without an update. -/
def standard : TrackerOptions ρ where
  frame := "map"
  pruningTime := ⟨1000000000, by decide⟩
  pruningTicks := 5
  objectGates := .standard
  visionGates := .standard
  creation := .standard

def isVariance (v : ρ) : Bool :=
  Scalar.isFinite v && 0 < v

def checks (o : TrackerOptions ρ) : List (CheckedOption × ρ × Bool) :=
  let objects := o.objectGates
  let confirmation := o.creation.gates
  let noise := o.creation.noise
  [(.maxDistance, objects.maxDistance, 0 ≤ objects.maxDistance),
    (.maxAreaRatio, objects.maxAreaRatio, 1 ≤ objects.maxAreaRatio),
    (.gatingThreshold, objects.gatingThreshold, 0 ≤ objects.gatingThreshold),
    (.iouThreshold, o.visionGates.iouThreshold,
      0 ≤ o.visionGates.iouThreshold ∧ o.visionGates.iouThreshold ≤ 1),
    -- the threshold of confirmations is reported under the name of the other one
    (.iouThreshold, confirmation.iouThreshold,
      0 ≤ confirmation.iouThreshold ∧ confirmation.iouThreshold ≤ 1),
    (.defaultVariance, noise.defaultVariance, isVariance noise.defaultVariance),
    (.noiseVariance, noise.noiseVariance, isVariance noise.noiseVariance),
    (.processNoise, noise.model.processNoise,
      Scalar.isFinite noise.model.processNoise && 0 ≤ noise.model.processNoise)]

def validate (o : TrackerOptions ρ) : Except (InvalidOption ρ) Unit :=
  match o.checks.find? fun (_, _, valid) => !valid with
  | some (option, value, _) => .error ⟨option, value⟩
  | none => .ok ()

end TrackerOptions

end TrackFusion
