import TrackFusion.Tracker.Basic
import TrackFusion.Text.Lines

/-!
Scenarios: recorded cycles, one on each line of a file.

Reading stops at the first line that is not text or, unless it is blank, no event. Lines are counted
from one, blank ones included. How a line is read as an event is a parameter here.
-/

set_option autoImplicit false
set_option relaxedAutoImplicit false

namespace TrackFusion

inductive Event (ρ π : Type) where
  | detections (batch : DetectionBatch ρ π) (odometry : Odometry ρ)
  | regions (batch : RegionBatch ρ π) (view : Pose ρ)

inductive ScenarioError where
  | invalidEvent (line : Nat)
  | notText
  deriving DecidableEq, Repr

def ScenarioError.message : ScenarioError → String
  | .invalidEvent line => "invalid event on line " ++ String.ofList (Nat.toDigits 10 line)
  | .notText => "stream did not contain valid UTF-8"

namespace Scenario

variable {ε : Type}

def readLine (parse : String → Option ε) (number : Nat) (line : List UInt8) :
    Except ScenarioError (Option ε) :=
  match Lines.decode? line with
  | none => .error .notText
  | some text =>
    if Lines.isBlank text then .ok none
    else
      match parse text with
      | some event => .ok (some event)
      | none => .error (.invalidEvent number)

/-- The events of lines, of which the first has the given number. -/
def readLines (parse : String → Option ε) : Nat → List (List UInt8) → Except ScenarioError (List ε)
  | _, [] => .ok []
  | number, line :: rest => do
    let event ← readLine parse number line
    let events ← readLines parse (number + 1) rest
    return event.toList ++ events

def read (parse : String → Option ε) (bytes : List UInt8) : Except ScenarioError (List ε) :=
  readLines parse 1 (Lines.split bytes)

end Scenario

end TrackFusion
