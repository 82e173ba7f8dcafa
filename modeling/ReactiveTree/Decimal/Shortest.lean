import ReactiveTree.Decimal.Binary64

/-! # The shortest decimal of a number

Among the decimals that read back as a given number, `Binary64.shortest` finds one with the fewest
digits, and of those the nearest; a `HalfwayRule` says which one when two are equally near. It
looks, for one digit, for two and so on, at the two decimals of that many digits next to the number,
in exact arithmetic.
-/

namespace ReactiveTree

/-- Which of two neighbouring decimals stands for a number halfway between them. -/
inductive HalfwayRule where
  /-- The larger one. -/
  | up
  /-- The one with the even last digit. -/
  | toEven
  deriving DecidableEq, Repr

/-- The decimal `digits * 10 ^ exponent`. -/
structure Decimal where
  digits : Nat
  exponent : Int
  deriving DecidableEq, Repr

/-- Whether the smaller of two neighbours, of the given digits, stands for a number that lies
`part / whole` of the way to the larger one. -/
def HalfwayRule.choosesSmaller (rule : HalfwayRule) (digits part whole : Nat) : Bool :=
  match compare (2 * part) whole, rule with
  | .lt, _ => true
  | .gt, _ => false
  | .eq, .up => false
  | .eq, .toEven => digits % 2 = 0

namespace Decimal

/-- The same decimal without zeros at the end. -/
def trim (decimal : Decimal) : Nat → Decimal
  | 0 => decimal
  | rounds + 1 =>
    if decimal.digits ≠ 0 ∧ decimal.digits % 10 = 0 then
      trim ⟨decimal.digits / 10, decimal.exponent + 1⟩ rounds
    else decimal

/-- Compare a decimal with `units * 2 ^ power`. -/
def compareBinary (decimal : Decimal) (units : Nat) (power : Int) : Ordering :=
  compare (decimal.digits * powerOfTen decimal.exponent.toNat * powerOfTwo (-power).toNat)
    (units * powerOfTwo power.toNat * powerOfTen (-decimal.exponent).toNat)

end Decimal

namespace Binary64

/-- Whether the gap to the next smaller magnitude is half the gap to the next larger one. -/
def gapNarrows (number : Binary64) : Bool :=
  number.significand = powerOfTwo 52 ∧ number.power > -1074

/-- Whether a decimal lies among the reals that round to a finite magnitude. The ends of that
interval belong to it when the significand is even. -/
def readsBack (number : Binary64) (decimal : Decimal) : Bool :=
  let quarters := 4 * number.significand
  let low := if number.gapNarrows then quarters - 1 else quarters - 2
  let inclusive := number.significand % 2 = 0
  let above := decimal.compareBinary low (number.power - 2)
  let below := decimal.compareBinary (quarters + 2) (number.power - 2)
  (above = .gt ∨ (inclusive ∧ above = .eq)) ∧ (below = .lt ∨ (inclusive ∧ below = .eq))

/-- The place of the leading decimal digit of a positive quotient. -/
def leadingDigit (numerator denominator : Nat) : Int :=
  if denominator ≤ numerator then (Nat.toDigits 10 (numerator / denominator)).length - 1
  else
    let inverse := denominator / numerator
    let places := (Nat.toDigits 10 inverse).length
    if numerator * powerOfTen (places - 1) = denominator then 1 - (places : Int)
    else -(places : Int)

/-- The decimal of the given number of digits nearest to a positive magnitude, if one of the two
around it reads back. -/
def nearestDecimal? (rule : HalfwayRule) (number : Binary64) (places : Nat) : Option Decimal :=
  let (numerator, denominator) := number.ratio
  let exponent := leadingDigit numerator denominator + 1 - places
  let scaled := numerator * powerOfTen (-exponent).toNat
  let unit := denominator * powerOfTen exponent.toNat
  let lower : Decimal := ⟨scaled / unit, exponent⟩
  let upper : Decimal := ⟨scaled / unit + 1, exponent⟩
  match number.readsBack lower, number.readsBack upper with
  | true, true =>
    some (if rule.choosesSmaller lower.digits (scaled % unit) unit then lower else upper)
  | true, false => some lower
  | false, true => some upper
  | false, false => none

/-- The shortest decimal that reads back as a finite magnitude; seventeen digits always do. -/
def shortest (rule : HalfwayRule) (number : Binary64) : Decimal :=
  if number.isZero then ⟨0, 0⟩
  else
    match (List.range 17).findSome? fun places => number.nearestDecimal? rule (places + 1) with
    | some decimal => decimal.trim 400
    | none =>
      ⟨number.significand * Nat.pow 5 (-number.power).toNat * powerOfTwo number.power.toNat,
        min number.power 0⟩

end Binary64

end ReactiveTree
