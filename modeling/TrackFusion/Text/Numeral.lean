import TrackFusion.Scalar.Nearest

/-!
Decimal numerals and the floating-point numbers they denote.

A numeral is kept exactly, as an integer of digits and a power of ten; `toFloat` and `toFloat32` are
the nearest numbers of their precisions, infinite beyond the range.
-/

set_option autoImplicit false
set_option relaxedAutoImplicit false

namespace TrackFusion

/-- The number `digits * 10 ^ exponent` with a sign. A numeral is integral if it was written without
a point and without an exponent. -/
structure Numeral where
  negative : Bool
  digits : Nat
  exponent : Int
  integral : Bool
  deriving DecidableEq, Repr

namespace Numeral

def natOfDigits (digits : List Char) : Nat :=
  digits.foldl (fun acc c => 10 * acc + (c.toNat - '0'.toNat)) 0

def tenTo (n : Nat) : Nat :=
  Nat.pow 10 n

def digitCount (n : Nat) : Nat :=
  (Nat.toDigits 10 n).length

def ofParts (negative : Bool) (whole fraction : List Char) (exponent : Int) (integral : Bool) :
    Numeral :=
  ⟨negative, natOfDigits (whole ++ fraction), exponent - fraction.length, integral⟩

def splitSign : List Char → Bool × List Char
  | '-' :: rest => (true, rest)
  | '+' :: rest => (false, rest)
  | rest => (false, rest)

def splitDigits (cs : List Char) : List Char × List Char :=
  cs.span Char.isDigit

/-- The exponent at the start, zero if there is none; fails if a mark has no digits after it. The
flag tells whether there was one. -/
def splitExponent (cs : List Char) : Option (Int × Bool × List Char) :=
  match cs with
  | [] => some (0, false, cs)
  | mark :: rest =>
    if mark = 'e' ∨ mark = 'E' then
      let (negative, rest) := splitSign rest
      let (digits, rest) := splitDigits rest
      let size : Int := natOfDigits digits
      if digits.isEmpty then none else some (if negative then -size else size, true, rest)
    else some (0, false, cs)

/-- The pattern of the magnitude of a numeral in a binary format. Sizes far beyond the range are
settled by the number of digits. -/
def magnitudePattern (n : Numeral) (f : BinaryFormat) : Nat :=
  let size : Int := digitCount n.digits + n.exponent
  if n.digits = 0 ∨ size < -400 then 0
  else if 400 < size then f.infinityPattern
  else f.nearest (n.digits * tenTo n.exponent.toNat) (tenTo (-n.exponent).toNat)

def toFloat (n : Numeral) : Float :=
  let magnitude := Float.ofBits (n.magnitudePattern .double).toUInt64
  if n.negative then -magnitude else magnitude

def nearestFloat32 (n : Numeral) : Float32 :=
  let magnitude := Float32.ofBits (n.magnitudePattern .single).toUInt32
  if n.negative then -magnitude else magnitude

def isBelowSignedWords (n : Numeral) : Bool :=
  n.integral && n.negative && 9223372036854775808 < n.digits && n.digits < 18446744073709551616

/-- The single-precision number of a numeral: the nearest one, except that an integer below the
signed words is rounded to double precision before. -/
def toFloat32 (n : Numeral) : Float32 :=
  if n.isBelowSignedWords then n.toFloat.toFloat32 else n.nearestFloat32

def toNat? (n : Numeral) : Option Nat :=
  if n.integral && !n.negative then some n.digits else none

/-- The double-precision number written as an argument: digits with an optional sign, point and
exponent, or the name of an infinity or of the undefined value in any case of letters. -/
def parseFloat? (text : String) : Option Float :=
  let (negative, body) := splitSign text.toList
  let name := String.ofList (body.map Char.toLower)
  let signed (v : Float) : Float := if negative then -v else v
  if name = "inf" ∨ name = "infinity" then some (signed (Float.ofBits 0x7FF0000000000000))
  else if name = "nan" then some (Float.ofBits 0x7FF8000000000000)
  else
    let (whole, rest) := splitDigits body
    let (fraction, rest) :=
      match rest with
      | '.' :: rest => splitDigits rest
      | _ => ([], rest)
    match whole ++ fraction, splitExponent rest with
    | _ :: _, some (exponent, _, []) =>
      some (ofParts negative whole fraction exponent false).toFloat
    | _, _ => none

def parseNat? (bound : Nat) (text : String) : Option Nat :=
  let body :=
    match text.toList with
    | '+' :: rest => rest
    | cs => cs
  if body.isEmpty || !body.all Char.isDigit then none
  else if natOfDigits body < bound then some (natOfDigits body) else none

end Numeral

end TrackFusion
