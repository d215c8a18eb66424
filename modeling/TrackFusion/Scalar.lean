/-!
The numbers a tracker computes with.

Every algorithm of the library is written once over `Scalar`, so that the same definitions run on
binary floating point and can be read over exact numbers. Comparisons are decidable propositions,
and a quantity that fails `v ≤ v` is not a number. `ExtendedScalar` adds what gating needs: a cost
above every other one and the passage to 64-bit integers.
-/

set_option autoImplicit false
set_option relaxedAutoImplicit false

namespace TrackFusion

class Scalar (α : Type) extends Zero α, One α, Add α, Sub α, Neg α, Mul α, Div α, LT α, LE α,
    OfScientific α where
  decLt : DecidableLT α
  decLe : DecidableLE α
  sqrt : α → α
  cos : α → α
  isFinite : α → Bool

attribute [reducible, instance] Scalar.decLt Scalar.decLe

class ExtendedScalar (α : Type) extends Scalar α where
  /-- A value above every finite one. -/
  infinity : α
  /-- The nearest integer, halves away from zero, held within the signed 64-bit range. -/
  toInt64 : α → Int

namespace Scalar

variable {α : Type} [Scalar α]

def ofNat (n : Nat) : α :=
  OfScientific.ofScientific n false 0

/-- The distance from one to the next double-precision number. -/
def epsilon : α := 2.220446049250313080847263336181640625e-16

/-- Holds of the undefined value only, as it alone is not at most itself. -/
def isNaN (a : α) : Bool :=
  !decide (a ≤ a)

def abs (a : α) : α :=
  if a < 0 then -a else a

def signedBy (sign magnitude : α) : α :=
  if 0 ≤ sign then magnitude else -magnitude

/-- The sign of a scalar as one or minus one; a zero has the sign of its reciprocal. -/
def unitSign (a : α) : α :=
  if a < 0 ∨ (a ≤ 0 ∧ 1 / a < 0) then -1 else 1

/-- The larger of two scalars; an undefined operand is ignored. -/
def max (a b : α) : α :=
  if isNaN a || a < b then b else a

def min (a b : α) : α :=
  if isNaN a || b < a then b else a

def clamp (a low high : α) : α :=
  if a < low then low else if high < a then high else a

def sameValue (a b : α) : Bool :=
  a ≤ b && b ≤ a

def sum (values : List α) : α :=
  values.foldl (· + ·) 0

end Scalar

end TrackFusion
