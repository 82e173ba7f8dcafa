import ReactiveTree.Script.Value
import ReactiveTree.Sequence.Entries

/-! # Forms

A script is written in forms: literals, lists, and objects with named fields. A list is an
expression that starts with its operator; objects occur in templates and as numbers.
-/

namespace ReactiveTree.Script

inductive Form where
  | null
  | flag (on : Bool)
  | int (number : Int)
  | text (content : String)
  | list (members : List Form)
  | object (fields : List (String × Form))
  deriving Repr, Inhabited

namespace Form

/-- A literal text; other forms count as empty. -/
def word : Form → String
  | .text content => content
  | _ => ""

def members : Form → List Form
  | .list members => members
  | _ => []

/-- A field of an object; missing ones are null. -/
def field : Form → String → Form
  | .object fields, name => (fields.lookup name).getD .null
  | _, _ => .null

/-- Whether an object has a field, even if that is null. -/
def hasField : Form → String → Bool
  | .object fields, name => hasEntry fields name
  | _, _ => false

def isNull : Form → Bool
  | .null => true
  | _ => false

/-- A literal integer that counts something. -/
def natural : Form → Nat
  | .int number => number.toNat
  | _ => 0

/-- A floating-point number written as text. -/
def number (form : Form) : Binary64 :=
  (Binary64.read? form.word).getD (.nan false)

end Form

end ReactiveTree.Script
