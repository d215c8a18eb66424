/-!
The binary number nearest to a quotient.

A positive quotient of natural numbers lies between two neighbouring multiples of the unit that a
binary format has at its size. The nearer one is taken, in a tie the even one. The patterns of a
format count its numbers from zero upwards, so that a mantissa which rounding carries to the next
power of two needs no case of its own.
-/

set_option autoImplicit false
set_option relaxedAutoImplicit false

namespace TrackFusion

def twoTo (n : Nat) : Nat :=
  Nat.pow 2 n

/-- The whole number nearest to a quotient, the even one in a tie. -/
def roundQuotient (numerator denominator : Nat) : Nat :=
  let floor := numerator / denominator
  let rest := 2 * (numerator % denominator)
  if rest < denominator ∨ (rest = denominator ∧ floor % 2 = 0) then floor else floor + 1

def leadingExponent (numerator denominator : Nat) : Int :=
  let guess : Int := (Nat.log2 numerator : Int) - (Nat.log2 denominator : Int)
  if numerator * twoTo (-guess).toNat < denominator * twoTo guess.toNat then guess - 1 else guess

/-- A binary format: the digits of a mantissa beyond the leading one, the exponent of the least
positive number, and the pattern of infinity. -/
structure BinaryFormat where
  fractionDigits : Nat
  leastExponent : Int
  infinityPattern : Nat
  deriving DecidableEq, Repr

namespace BinaryFormat

def double : BinaryFormat :=
  ⟨52, -1074, 0x7FF0000000000000⟩

def single : BinaryFormat :=
  ⟨23, -149, 0x7F800000⟩

def nearest (f : BinaryFormat) (numerator denominator : Nat) : Nat :=
  if numerator = 0 then 0
  else
    let unit := max (leadingExponent numerator denominator - f.fractionDigits) f.leastExponent
    let mantissa :=
      roundQuotient (numerator * twoTo (-unit).toNat) (denominator * twoTo unit.toNat)
    min ((unit - f.leastExponent).toNat * twoTo f.fractionDigits + mantissa) f.infinityPattern

end BinaryFormat

end TrackFusion
