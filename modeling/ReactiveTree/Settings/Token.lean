import ReactiveTree.Settings.Failure

/-! # Words, numbers and strings of a document

Each reader takes the text that is left and gives back a value with what remains. A text that ends
too early is told apart from one that goes wrong.
-/

namespace ReactiveTree

/-- What a reader makes of a text: mostly a value together with the text behind it. -/
abbrev Reading := Except SettingsFailure

namespace Settings

def isBlank (char : Char) : Bool :=
  char = ' ' ∨ char = '\n' ∨ char = '\t' ∨ char = '\r'

/-- Drop blanks. -/
def skipBlanks (text : List Char) : List Char :=
  text.dropWhile isBlank

/-- Read a word letter by letter. -/
def readWord : List Char → List Char → Reading (List Char)
  | [], text => .ok text
  | _ :: _, [] => .error .unfinished
  | letter :: word, char :: text =>
    if char = letter then readWord word text else .error .malformed

def hexDigit? (char : Char) : Option Nat :=
  if char.isDigit then some (char.toNat - '0'.toNat)
  else if 'a' ≤ char ∧ char ≤ 'f' then some (char.toNat - 'a'.toNat + 10)
  else if 'A' ≤ char ∧ char ≤ 'F' then some (char.toNat - 'A'.toNat + 10)
  else none

/-- How many bytes the characters take. -/
def byteCount (text : List Char) : Nat :=
  text.foldr (fun char bytes => char.utf8Size + bytes) 0

/-- Four hexadecimal digits. -/
def readHex (text : List Char) : Reading (Nat × List Char) :=
  if byteCount text < 4 then .error .unfinished
  else
    match text.take 4 |>.mapM hexDigit? with
    | some digits =>
      if digits.length = 4 then
        .ok (digits.foldl (fun value digit => 16 * value + digit) 0, text.drop 4)
      else .error .malformed
    | none => .error .malformed

/-- The second half of a character beyond the first plane. -/
def readTrail (lead : Nat) (text : List Char) : Reading (Char × List Char) := do
  match text with
  | [] => throw .unfinished
  | '\\' :: [] => throw .unfinished
  | '\\' :: 'u' :: text =>
    let (trail, text) ← readHex text
    if 0xDC00 ≤ trail ∧ trail ≤ 0xDFFF then
      return (.ofNat (0x10000 + (lead - 0xD800) * 0x400 + (trail - 0xDC00)), text)
    else throw .malformed
  | _ => throw .malformed

/-- A character given by its number, in two halves beyond the first plane. -/
def readNumbered (text : List Char) : Reading (Char × List Char) := do
  let (unit, text) ← readHex text
  if 0xDC00 ≤ unit ∧ unit ≤ 0xDFFF then throw .malformed
  else if 0xD800 ≤ unit ∧ unit ≤ 0xDBFF then readTrail unit text
  else return (.ofNat unit, text)

/-- A character given by a letter after a backslash. -/
def escaped? (char : Char) : Option Char :=
  match char with
  | '"' => some '"'
  | '\\' => some '\\'
  | '/' => some '/'
  | 'b' => some '\x08'
  | 'f' => some '\x0c'
  | 'n' => some '\n'
  | 'r' => some '\r'
  | 't' => some '\t'
  | _ => none

/-- One step through the inside of a string: nothing more, or a character. -/
def readChar? : List Char → Reading (Option Char × List Char)
  | [] => .error .unfinished
  | '"' :: text => .ok (none, text)
  | '\\' :: [] => .error .unfinished
  | '\\' :: 'u' :: text => (readNumbered text).map fun (char, text) => (some char, text)
  | '\\' :: char :: text =>
    match escaped? char with
    | some meant => .ok (some meant, text)
    | none => .error .malformed
  | char :: text => if char < ' ' then .error .malformed else .ok (some char, text)

/-- The same for a string whose content does not matter: halves of characters need not fit. -/
def skipChar? : List Char → Reading (Option Char × List Char)
  | '\\' :: 'u' :: text => (readHex text).map fun (_, text) => (some 'u', text)
  | text => readChar? text

/-- The inside of a string up to its closing quote, in at most so many steps. -/
def readInside (step : List Char → Reading (Option Char × List Char)) :
    Nat → List Char → Reading (List Char × List Char)
  | 0, _ => .error .unfinished
  | steps + 1, text => do
    match ← step text with
    | (none, text) => return ([], text)
    | (some char, text) =>
      let (more, text) ← readInside step steps text
      return (char :: more, text)

/-- A string after its opening quote. -/
def readString (text : List Char) : Reading (String × List Char) :=
  (readInside readChar? (text.length + 1) text).map fun (chars, text) => (.ofList chars, text)

/-- Skip a string after its opening quote. -/
def skipString (text : List Char) : Reading (List Char) :=
  (readInside skipChar? (text.length + 1) text).map Prod.snd

/-- Skip the exponent of a number after its mark. -/
def skipExponent (text : List Char) : Reading (List Char) :=
  let text := (Binary64.readSign text).2
  if (text.head?.map Char.isDigit).getD false then .ok (text.dropWhile Char.isDigit)
  else .error .malformed

/-- Skip what follows the whole part of a number, or its fraction. -/
def skipScale (text : List Char) : Reading (List Char) :=
  match text with
  | 'e' :: text => skipExponent text
  | 'E' :: text => skipExponent text
  | text => .ok text

/-- Skip a number after its sign. Here a number that ends too early is no number. -/
def skipNumber (text : List Char) : Reading (List Char) :=
  let whole := text.takeWhile Char.isDigit
  if whole = [] ∨ (whole.head? = some '0' ∧ whole.length > 1) then .error .malformed
  else
    match text.dropWhile Char.isDigit with
    | '.' :: text =>
      if (text.head?.map Char.isDigit).getD false then skipScale (text.dropWhile Char.isDigit)
      else .error .malformed
    | text => skipScale text

/-- The largest number of 64 bits. -/
def wordLimit : Nat :=
  powerOfTwo 64

/-- Read digits into a word as long as they fit; how many were read, and the rest. -/
def readDigits (value count : Nat) : List Char → Nat × Nat × List Char
  | [] => (value, count, [])
  | char :: text =>
    if char.isDigit then
      let next := 10 * value + (char.toNat - '0'.toNat)
      if next < wordLimit then readDigits next (count + 1) text else (value, count, char :: text)
    else (value, count, char :: text)

/-- A significand scaled by a power of ten. The significand is rounded, then the power, and then
their product or quotient; a power too small for one step takes two. -/
def scaled (negative : Bool) (significand : Nat) (exponent : Int) : Reading Binary64 :=
  let value := Binary64.ofInt significand
  let tenTo (power : Nat) : Binary64 := .ofDecimal false 1 power
  let places := exponent.natAbs
  let signed (magnitude : Binary64) : Binary64 :=
    if negative then magnitude.negate else magnitude
  if exponent < 0 then
    if places ≤ 308 then .ok (signed (value.dividedBy (tenTo places)))
    else .ok (signed ((value.dividedBy (tenTo 308)).dividedBy (tenTo (min (places - 308) 308))))
  else if significand = 0 then .ok (signed value)
  else
    let product := value.times (tenTo (min places 400))
    if product.isInfinite then .error .malformed else .ok (signed product)

/-- The exponent of a number after its mark. -/
def readScale (negative : Bool) (significand : Nat) (start : Int) (text : List Char) :
    Reading (Binary64 × List Char) := do
  let (down, text) := Binary64.readSign text
  match text with
  | [] => throw .unfinished
  | char :: _ =>
    if char.isDigit then
      let size : Int := Binary64.digitsValue (text.takeWhile Char.isDigit)
      let rest := text.dropWhile Char.isDigit
      if size ≥ powerOfTwo 31 then
        if significand ≠ 0 ∧ !down then throw .malformed
        else return (.ofMagnitude negative 0, rest)
      else
        return (← scaled negative significand (if down then start - size else start + size), rest)
    else throw .malformed

/-- What follows the digits of a number: an exponent or nothing. -/
def readEnd (negative : Bool) (significand : Nat) (exponent : Int) (text : List Char) :
    Reading (Binary64 × List Char) :=
  match text with
  | 'e' :: text => readScale negative significand exponent text
  | 'E' :: text => readScale negative significand exponent text
  | text => (scaled negative significand exponent).map fun value => (value, text)

/-- The digits after the point; those that do not fit into the significand are ignored. -/
def readFraction (negative : Bool) (significand : Nat) (exponent : Int) (text : List Char) :
    Reading (Binary64 × List Char) :=
  match text with
  | [] => .error .unfinished
  | char :: _ =>
    if char.isDigit then
      let (significand, count, text) := readDigits significand 0 text
      readEnd negative significand (exponent - count) (text.dropWhile Char.isDigit)
    else .error .malformed

/-- An integer or a number after its sign. -/
def readNumber (negative : Bool) (text : List Char) : Reading (Found × List Char) := do
  match text with
  | [] => throw .unfinished
  | first :: rest =>
    if !first.isDigit then throw .malformed
    else if first = '0' ∧ (rest.head?.map Char.isDigit).getD false then throw .malformed
    else
      let (significand, _, text) := readDigits 0 0 text
      let overflow := text.takeWhile Char.isDigit
      let text := text.dropWhile Char.isDigit
      let asNumber (reading : Reading (Binary64 × List Char)) : Reading (Found × List Char) :=
        reading.map fun (value, text) => (.number value, text)
      match text with
      | '.' :: text => asNumber (readFraction negative significand overflow.length text)
      | text =>
        if overflow ≠ [] ∨ text.head? = some 'e' ∨ text.head? = some 'E' then
          asNumber (readEnd negative significand overflow.length text)
        else if !negative then return (.integer significand, text)
        else if significand = 0 ∨ significand > powerOfTwo 63 then
          return (.number (Binary64.ofInt significand).negate, text)
        else return (.integer (-(significand : Int)), text)

end Settings

end ReactiveTree
