import TrackFusion.Text.Numeral

/-!
Shortest decimal texts of double-precision numbers.

Among the decimals that are nearest to no other double-precision number than the given one, those
with the fewest digits are taken, and of these the nearest; if two are equally near, the style of
writing decides. All arithmetic is on natural numbers, from the mantissa and exponent that the bits
of the number hold.
-/

set_option autoImplicit false
set_option relaxedAutoImplicit false

namespace TrackFusion

open Numeral (tenTo)

inductive BinaryValue where
  | undefined
  | infinite (negative : Bool)
  | finite (negative : Bool) (mantissa : Nat) (exponent : Int)
  deriving DecidableEq, Repr

def BinaryValue.ofFloat (v : Float) : BinaryValue :=
  let bits : Nat := v.toBits.toNat
  let negative : Bool := bits / twoTo 63 = 1
  let field : Nat := bits / twoTo 52 % twoTo 11
  let fraction : Nat := bits % twoTo 52
  if field = 2047 then if fraction = 0 then .infinite negative else .undefined
  else if field = 0 then .finite negative fraction (-1074)
  else .finite negative (twoTo 52 + fraction) (field - 1075)

/-- Which of two equally near neighbours is taken: the even one, or the greater one. -/
inductive TieRule where
  | toEven
  | up
  deriving DecidableEq, Repr

def TieRule.keepsFloor (ties : TieRule) (floor : Nat) : Bool :=
  match ties with
  | .toEven => floor % 2 = 0
  | .up => false

/-- The positive number `value / unit` and the interval around it of what rounds to it. -/
structure RoundingInterval where
  low : Nat
  value : Nat
  high : Nat
  unit : Nat
  closed : Bool

namespace RoundingInterval

/-- The interval of `mantissa * 2 ^ exponent`. It ends half way to the neighbours, and a neighbour
below a power of two is nearer. The ends belong to it if the mantissa is even. -/
def ofBinary (mantissa : Nat) (exponent : Int) : RoundingInterval :=
  let shift := exponent - 2
  let scale := twoTo shift.toNat
  let below := if mantissa = twoTo 52 ∧ -1074 < exponent then 1 else 2
  { low := (4 * mantissa - below) * scale
    value := 4 * mantissa * scale
    high := (4 * mantissa + 2) * scale
    unit := twoTo (-shift).toNat
    closed := mantissa % 2 = 0 }

def contains (r : RoundingInterval) (digits : Nat) (exponent : Int) : Bool :=
  let up := tenTo (-exponent).toNat
  let point := digits * tenTo exponent.toNat * r.unit
  if r.closed then r.low * up ≤ point && point ≤ r.high * up
  else r.low * up < point && point < r.high * up

def leadingPlace (r : RoundingInterval) : Int :=
  if r.unit ≤ r.value then (Numeral.digitCount (r.value / r.unit) : Int) - 1
  else
    let count := Numeral.digitCount (r.unit / r.value)
    if r.unit ≤ r.value * tenTo (count - 1) then 1 - (count : Int) else -(count : Int)

def nearestMultiple? (r : RoundingInterval) (ties : TieRule) (exponent : Int) : Option Nat :=
  let numerator := r.value * tenTo (-exponent).toNat
  let denominator := r.unit * tenTo exponent.toNat
  let floor := numerator / denominator
  let rest := 2 * (numerator % denominator)
  -- the nearer multiple is tried first
  let lowerFirst := rest < denominator || (rest = denominator && ties.keepsFloor floor)
  let (first, second) := if lowerFirst then (floor, floor + 1) else (floor + 1, floor)
  if r.contains first exponent then some first
  else if r.contains second exponent then some second
  else none

/-- The shortest decimal of the interval. Seventeen digits are always enough. -/
def shortest (r : RoundingInterval) (ties : TieRule) : Nat × Int :=
  let place := r.leadingPlace
  let grids := (List.range 17).map fun (n : Nat) => place - (n : Int)
  (grids.findSome? fun e => (r.nearestMultiple? ties e).map fun d => (d, e)).getD (0, 0)

end RoundingInterval

/-- How numbers are written: which places of the leading digit are written without an exponent, what
follows a whole number, and which of two equally near texts is taken. -/
structure NumberStyle where
  isPositional : Int → Bool
  wholeSuffix : String
  ties : TieRule

namespace NumberStyle

/-- Numbers in messages: never an exponent, whole numbers without a point, and of two equally near
texts the greater one. -/
def message : NumberStyle :=
  ⟨fun _ => true, "", .up⟩

/-- Numbers in tables: an exponent from 10 ^ 16 on and below 10 ^ -5, whole numbers with `.0`, and
of two equally near texts the even one. -/
def table : NumberStyle :=
  ⟨fun place => -5 ≤ place && place < 16, ".0", .toEven⟩

def digitsOf (n : Nat) : String :=
  String.ofList (Nat.toDigits 10 n)

def zeros (n : Nat) : String :=
  String.ofList (List.replicate n '0')

def withPoint (digits : List Char) (n : Nat) : String :=
  String.ofList (digits.take n) ++ "." ++ String.ofList (digits.drop n)

def writeDigits (style : NumberStyle) (digits : Nat) (exponent : Int) : String :=
  let written := Nat.toDigits 10 digits
  let place : Int := written.length + exponent - 1
  if style.isPositional place then
    if 0 ≤ exponent then String.ofList written ++ zeros exponent.toNat ++ style.wholeSuffix
    else if 0 ≤ place then withPoint written (place.toNat + 1)
    else "0." ++ zeros (-place - 1).toNat ++ String.ofList written
  else
    let mantissa := if written.length = 1 then String.ofList written else withPoint written 1
    let sign := if place < 0 then "-" else ""
    mantissa ++ "e" ++ sign ++ digitsOf place.natAbs

def stripZeros : Nat → Nat → Int → Nat × Int
  | 0, digits, exponent => (digits, exponent)
  | fuel + 1, digits, exponent =>
    if digits % 10 = 0 then stripZeros fuel (digits / 10) (exponent + 1) else (digits, exponent)

def write (style : NumberStyle) (v : Float) : String :=
  let signed (negative : Bool) (body : String) : String := if negative then "-" ++ body else body
  match BinaryValue.ofFloat v with
  | .undefined => "NaN"
  | .infinite negative => signed negative "inf"
  | .finite negative 0 _ => signed negative ("0" ++ style.wholeSuffix)
  | .finite negative mantissa exponent =>
    let (digits, place) := (RoundingInterval.ofBinary mantissa exponent).shortest style.ties
    let (digits, place) := stripZeros 17 digits place
    signed negative (style.writeDigits digits place)

end NumberStyle

end TrackFusion
