import ReactiveTree.Decimal.Text

/-! # Values of scripts

Scripts compute with integers of 64 bits, floating-point numbers, texts and lists. Values of
different kinds are never equal, and numbers are compared numerically, so that a NaN differs from
itself.
-/

namespace ReactiveTree.Script

inductive Value where
  | null
  | flag (on : Bool)
  | int (number : Int)
  | float (number : Binary64)
  | text (content : String)
  | list (members : List Value)
  deriving Repr, Inhabited

namespace Value

mutual

/-- Structural equality, with numeric equality of floating-point numbers. -/
def beq : Value → Value → Bool
  | .null, .null => true
  | .flag left, .flag right => left = right
  | .int left, .int right => left = right
  | .float left, .float right => left.equal right
  | .text left, .text right => left = right
  | .list lefts, .list rights => beqAll lefts rights
  | _, _ => false

/-- Equality member by member. -/
def beqAll : List Value → List Value → Bool
  | [], [] => true
  | left :: lefts, right :: rights => left.beq right && beqAll lefts rights
  | _, _ => false

end

instance : BEq Value :=
  ⟨beq⟩

mutual

/-- A value as text; texts stand for themselves. -/
def display : Value → String
  | .null => "null"
  | .flag on => if on then "true" else "false"
  | .int number => toString number
  | .float number => number.text
  | .text content => content
  | .list members => "[" ++ ", ".intercalate (displayAll members) ++ "]"

/-- The texts of several values. -/
def displayAll : List Value → List String
  | [] => []
  | value :: rest => value.display :: displayAll rest

end

/-- An integer brought into the range of 64 bits with a sign. -/
def wrap (number : Int) : Value :=
  .int (number.bmod (powerOfTwo 64))

end Value

end ReactiveTree.Script
