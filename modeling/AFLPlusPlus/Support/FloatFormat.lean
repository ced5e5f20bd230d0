import Mathlib.Algebra.Order.Ring.Nat

/-!
# Binary floating-point formats

A number is a sign, an exponent field and a fraction field.  Two numbers are
compared by the values they stand for, where both zeros are the same value
and a NaN is unordered with everything.
-/

/-- The widths of the exponent and the fraction field. -/
structure FloatFormat where
  exponentBits : Nat
  fractionBits : Nat

/-- What the bits of a number stand for. A finite number is counted in units
of the least positive number of the format. -/
inductive FloatValue
  | nan
  | infinity (negative : Bool)
  | finite (units : Int)

namespace FloatFormat

def half : FloatFormat := ⟨5, 10⟩

def float : FloatFormat := ⟨8, 23⟩

def double : FloatFormat := ⟨11, 52⟩

variable (format : FloatFormat)

def size : Nat := format.fractionBits + format.exponentBits + 1

def fraction (bits : BitVec format.size) : Nat := bits.toNat % 2 ^ format.fractionBits

def exponent (bits : BitVec format.size) : Nat :=
  bits.toNat / 2 ^ format.fractionBits % 2 ^ format.exponentBits

def negative (bits : BitVec format.size) : Bool := bits.getLsbD (format.size - 1)

/-- The absolute value of a finite number: a number with exponent field 0 is
subnormal, the others have a hidden leading bit. -/
def magnitude (bits : BitVec format.size) : Nat :=
  if format.exponent bits = 0 then format.fraction bits
  else (2 ^ format.fractionBits + format.fraction bits) *
    2 ^ (format.exponent bits - 1)

def value (bits : BitVec format.size) : FloatValue :=
  if format.exponent bits + 1 = 2 ^ format.exponentBits then
    if format.fraction bits = 0 then .infinity (format.negative bits) else .nan
  else if format.negative bits = true then
    .finite (-(format.magnitude bits : Int))
  else .finite (format.magnitude bits)

end FloatFormat

namespace FloatValue

def orderUnits (first second : Int) : Ordering :=
  if first < second then .lt else if first = second then .eq else .gt

/-- How two values compare; there is no result for a NaN. -/
def compare : FloatValue → FloatValue → Option Ordering
  | .nan, _ => none
  | _, .nan => none
  | .infinity true, .infinity true => some .eq
  | .infinity true, _ => some .lt
  | .infinity false, .infinity false => some .eq
  | .infinity false, _ => some .gt
  | .finite _, .infinity true => some .gt
  | .finite _, .infinity false => some .lt
  | .finite first, .finite second => some (orderUnits first second)

end FloatValue
