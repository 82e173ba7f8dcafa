import ReactiveTree.Decimal.Shortest

/-! # Numbers as text

`Binary64.text` writes a number positionally, with no exponent whatever its size.
`Binary64.concise` keeps a point or an exponent in sight, so that a number never looks like an
integer. `Binary64.read?` takes either form, and the names of the infinities and of NaN in any case.
-/

namespace ReactiveTree

namespace Decimal

/-- The digits of a decimal, most significant first. -/
def digitText (decimal : Decimal) : List Char :=
  Nat.toDigits 10 decimal.digits

/-- How many digits stand before the point; negative if zeros follow it. -/
def pointPlace (decimal : Decimal) : Int :=
  decimal.digitText.length + decimal.exponent

/-- All digits, with the zeros that bring them to their place. -/
def positional (decimal : Decimal) : List Char :=
  let digits := decimal.digitText
  let place := decimal.pointPlace
  if 0 ≤ decimal.exponent then digits ++ List.replicate decimal.exponent.toNat '0'
  else if 0 < place then digits.take place.toNat ++ '.' :: digits.drop place.toNat
  else '0' :: '.' :: (List.replicate (-place).toNat '0' ++ digits)

/-- A power of ten after its mark, always with a sign. -/
def powerText (power : Int) : List Char :=
  if power < 0 then ['e', '-'] ++ Nat.toDigits 10 (-power).toNat
  else ['e', '+'] ++ Nat.toDigits 10 power.toNat

/-- One digit, the others after a point, and the power of ten. -/
def scientific (decimal : Decimal) : List Char :=
  let power := powerText (decimal.pointPlace - 1)
  match decimal.digitText with
  | first :: second :: rest => first :: '.' :: second :: rest ++ power
  | digits => digits ++ power

/-- Positional from five zeros after the point up to sixteen digits before it, and always with a
point or an exponent. -/
def concise (decimal : Decimal) : List Char :=
  let place := decimal.pointPlace
  if -5 < place ∧ place ≤ 16 then
    if 0 ≤ decimal.exponent then decimal.positional ++ ['.', '0'] else decimal.positional
  else decimal.scientific

end Decimal

namespace Binary64

/-- A number's text, given which decimal stands for a number halfway and how decimals are written.
-/
def textBy (rule : HalfwayRule) (layout : Decimal → List Char) (number : Binary64) : String :=
  if number.isNaN then "NaN"
  else
    let sign := if number.isNegative then "-" else ""
    sign ++ if number.isInfinite then "inf" else String.ofList (layout (number.shortest rule))

/-- The shortest digits that read back, without an exponent. -/
def text (number : Binary64) : String :=
  number.textBy .up Decimal.positional

/-- The shortest digits that read back, with a point or an exponent. -/
def concise (number : Binary64) : String :=
  number.textBy .toEven Decimal.concise

/-- The value of a run of digits. -/
def digitsValue (digits : List Char) : Nat :=
  digits.foldl (fun value digit => 10 * value + (digit.toNat - '0'.toNat)) 0

/-- An optional sign: whether it was a minus, and the rest. -/
def readSign : List Char → Bool × List Char
  | '-' :: rest => (true, rest)
  | '+' :: rest => (false, rest)
  | rest => (false, rest)

/-- The exponent part of a number up to the end of the text. -/
def readExponent? : List Char → Option Int
  | [] => some 0
  | mark :: rest =>
    let (negative, digits) := readSign rest
    if (mark = 'e' ∨ mark = 'E') ∧ digits ≠ [] ∧ digits.all Char.isDigit then
      let value : Int := digitsValue digits
      some (if negative then -value else value)
    else none

/-- A magnitude: digits with an optional point, at least one digit in all, and an exponent. -/
def readMagnitude? (negative : Bool) (text : List Char) : Option Binary64 :=
  let whole := text.takeWhile Char.isDigit
  let rest := text.dropWhile Char.isDigit
  let (fraction, rest) :=
    match rest with
    | '.' :: rest => (rest.takeWhile Char.isDigit, rest.dropWhile Char.isDigit)
    | _ => ([], rest)
  if whole = [] ∧ fraction = [] then none
  else
    (readExponent? rest).map fun exponent =>
      ofDecimal negative (digitsValue (whole ++ fraction)) (exponent - fraction.length)

/-- Read a number: the nearest one to the decimal, or an infinity or NaN by name. -/
def read? (text : String) : Option Binary64 :=
  let (negative, rest) := readSign text.toList
  let name := String.ofList (rest.map Char.toLower)
  if name = "nan" then some (nan negative)
  else if name = "inf" ∨ name = "infinity" then some (ofMagnitude negative infinite)
  else readMagnitude? negative rest

end Binary64

end ReactiveTree
