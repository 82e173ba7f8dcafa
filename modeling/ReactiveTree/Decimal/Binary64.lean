/-! # Double-precision numbers

A number is its 64 bits, so that equality of numbers is equality of bits and every operation on them
is exact arithmetic on naturals. `Binary64.ofRatio` rounds a quotient to the nearest number, ties to
the even one.
-/

namespace ReactiveTree

/-- Two to the given power. -/
def powerOfTwo (exponent : Nat) : Nat :=
  Nat.pow 2 exponent

/-- Ten to the given power. -/
def powerOfTen (exponent : Nat) : Nat :=
  Nat.pow 10 exponent

/-- A binary floating-point number of 64 bits: sign, eleven exponent bits, 52 fraction bits. -/
structure Binary64 where
  bits : UInt64
  deriving DecidableEq, Repr

namespace Binary64

/-- The number with the given sign and magnitude bits. -/
def ofMagnitude (negative : Bool) (magnitude : Nat) : Binary64 :=
  ⟨UInt64.ofNat (if negative then powerOfTwo 63 + magnitude else magnitude)⟩

def isNegative (number : Binary64) : Bool :=
  powerOfTwo 63 ≤ number.bits.toNat

/-- The bits besides the sign. -/
def magnitude (number : Binary64) : Nat :=
  number.bits.toNat % powerOfTwo 63

/-- The magnitude bits of an infinity; those of a NaN are larger. -/
def infinite : Nat :=
  2047 * powerOfTwo 52

def isNaN (number : Binary64) : Bool :=
  infinite < number.magnitude

def isInfinite (number : Binary64) : Bool :=
  number.magnitude = infinite

def isZero (number : Binary64) : Bool :=
  number.magnitude = 0

/-- The one NaN that reading produces, of either sign. -/
def nan (negative : Bool) : Binary64 :=
  ofMagnitude negative (infinite + powerOfTwo 51)

/-- A finite number's magnitude is `significand * 2 ^ power`. -/
def significand (number : Binary64) : Nat :=
  let fraction := number.magnitude % powerOfTwo 52
  if number.magnitude < powerOfTwo 52 then fraction else powerOfTwo 52 + fraction

/-- The power of two that scales the significand. -/
def power (number : Binary64) : Int :=
  max 1 (number.magnitude / powerOfTwo 52 : Nat) - 1075

/-- Numeric equality: a NaN equals nothing, and the two zeros are equal. -/
def equal (left right : Binary64) : Bool :=
  !left.isNaN && !right.isNaN && (left == right || left.isZero && right.isZero)

/-- The nearest natural to a quotient, the even one of two. -/
def nearestNat (numerator denominator : Nat) : Nat :=
  let quotient := numerator / denominator
  let twice := 2 * (numerator % denominator)
  if twice > denominator ∨ (twice = denominator ∧ quotient % 2 = 1) then quotient + 1 else quotient

/-- The nearest natural to `numerator / denominator / 2 ^ power`. -/
def nearestScaled (numerator denominator : Nat) (power : Int) : Nat :=
  nearestNat (numerator * powerOfTwo (-power).toNat) (denominator * powerOfTwo power.toNat)

/-- The place of the leading bit of a quotient. -/
def leadingBit (numerator denominator : Nat) : Int :=
  let guess := (numerator.log2 : Int) - denominator.log2
  if denominator * powerOfTwo guess.toNat ≤ numerator * powerOfTwo (-guess).toNat then guess
  else guess - 1

/-- The number nearest to `numerator / denominator`; too large a quotient gives infinity. -/
def ofRatio (negative : Bool) (numerator denominator : Nat) : Binary64 :=
  if numerator = 0 then ofMagnitude negative 0
  else
    let power := max (-1074) (leadingBit numerator denominator - 52)
    let rounded := nearestScaled numerator denominator power
    ofMagnitude negative (min ((power + 1074).toNat * powerOfTwo 52 + rounded) infinite)

/-- The number nearest to `digits * 10 ^ exponent`. -/
def ofDecimal (negative : Bool) (digits : Nat) (exponent : Int) : Binary64 :=
  let size := (Nat.toDigits 10 digits).length + exponent
  if digits = 0 ∨ size < -400 then ofMagnitude negative 0
  else if size > 400 then ofMagnitude negative infinite
  else ofRatio negative (digits * powerOfTen exponent.toNat) (powerOfTen (-exponent).toNat)

def ofInt (value : Int) : Binary64 :=
  ofRatio (value < 0) value.natAbs 1

/-- A finite magnitude as a quotient. -/
def ratio (number : Binary64) : Nat × Nat :=
  (number.significand * powerOfTwo number.power.toNat, powerOfTwo (-number.power).toNat)

/-- The number nearest to the product of two finite magnitudes; an infinite one stays infinite. -/
def times (left right : Binary64) : Binary64 :=
  if left.isInfinite ∨ right.isInfinite then ofMagnitude false infinite
  else ofRatio false (left.ratio.1 * right.ratio.1) (left.ratio.2 * right.ratio.2)

/-- The number nearest to the quotient of two finite magnitudes, the second not zero. -/
def dividedBy (left right : Binary64) : Binary64 :=
  ofRatio false (left.ratio.1 * right.ratio.2) (left.ratio.2 * right.ratio.1)

def negate (number : Binary64) : Binary64 :=
  ofMagnitude (!number.isNegative) number.magnitude

end Binary64

end ReactiveTree
