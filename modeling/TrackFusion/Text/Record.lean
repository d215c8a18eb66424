import TrackFusion.Duration
import TrackFusion.Text.Json

/-!
Reading structures from JSON values.

A structure is written as an object, whose members may stand in any order, or as an array in the
order of its fields. A field that an object names twice is refused; members of other names are
passed over unless the record is strict. A record whose fields all have defaults may leave out
members, and as an array its last fields.
-/

set_option autoImplicit false
set_option relaxedAutoImplicit false

namespace TrackFusion

inductive RecordKind where
  | plain
  | strict
  | defaulted
  deriving DecidableEq, Repr

namespace Json

def valuesOf (members : List (String × Json)) (field : String) : List Json :=
  (members.filter fun m => m.1 = field).map Prod.snd

def fields? (kind : RecordKind) (names : List String) : Json → Option (List (Option Json))
  | .object members => do
    let members ← members.mapM fun (name, value) => name.map fun name => (name, value)
    if kind = .strict && members.any fun m => !names.contains m.1 then none
    names.mapM fun name =>
      match valuesOf members name with
      | [] => some none
      | [value] => some (some value)
      | _ => none
  -- an array lists the fields in their order; those with a default may be missing at its end
  | .array items =>
    if items.length = names.length ∨ (kind = .defaulted ∧ items.length < names.length) then
      some (items.map some ++ List.replicate (names.length - items.length) none)
    else none
  | _ => none

def required {α : Type} (read : Json → Option α) (field : Option Json) : Option α :=
  field.bind read

def optional {α : Type} (read : Json → Option α) : Option Json → Option (Option α)
  | none => some none
  | some .null => some none
  | some value => (read value).map some

def withDefault {α : Type} (default : α) (read : Json → Option α) : Option Json → Option α
  | none => some default
  | some value => read value

def string? : Json → Option String
  | .text s => s
  | _ => none

def float? : Json → Option Float
  | .number n => if n.toFloat.isFinite then some n.toFloat else none
  | _ => none

def float32? : Json → Option Float32
  | .number n => if n.toFloat32.isFinite then some n.toFloat32 else none
  | _ => none

def natBelow? (bound : Nat) : Json → Option Nat
  | .number n => n.toNat?.filter (· < bound)
  | _ => none

def word? : Json → Option Nat :=
  natBelow? 18446744073709551616

def list? {α : Type} (read : Json → Option α) : Json → Option (List α)
  | .array items => items.mapM read
  | _ => none

/-- The name of a case that carries nothing, written as a text or as an object with a `null`. -/
def caseName? : Json → Option String
  | .text s => s
  | .object [(name, .null)] => name
  | _ => none

def case? : Json → Option (String × Json)
  | .object [(some name, contents)] => some (name, contents)
  | _ => none

def duration? (value : Json) : Option Duration := do
  match ← value.fields? .strict ["secs", "nanos"] with
  | [seconds, nanoseconds] =>
    Duration.ofParts? (← required word? seconds) (← required (natBelow? 4294967296) nanoseconds)
  | _ => none

end Json

end TrackFusion
