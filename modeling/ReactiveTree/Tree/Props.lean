import ReactiveTree.Decimal.Text
import ReactiveTree.Sequence.Entries

/-! # Element properties

Props map names to values in insertion order. Three names are reserved for the framework and never
reach a host. How another one reaches it depends on the value: texts and numbers are attributes, a
truth value is an empty attribute or none, and a handler is an event listener.
-/

namespace ReactiveTree

/-- A callback's identity. A named handler is the same wherever its name is used; one that was made
is known by the serial number it then got, and may also have a name to show. -/
inductive Handler where
  | named (name : String)
  | made (serial : Nat) (label : Option String)
  deriving DecidableEq, Repr

/-- The name that a handler shows, if any. -/
def Handler.label? : Handler → Option String
  | .named name => some name
  | .made _ label => label

/-- A prop's value. Numbers are equal when their bits are. -/
inductive PropValue where
  | text (content : String)
  | number (value : Binary64)
  | flag (on : Bool)
  | handler (callback : Handler)
  deriving DecidableEq, Repr

namespace PropValue

def isHandler : PropValue → Bool
  | .handler _ => true
  | _ => false

/-- The attribute that shows a value on a host, if any. -/
def attribute? : PropValue → Option String
  | .text content => some content
  | .number value => some value.text
  | .flag true => some ""
  | .flag false => none
  | .handler _ => none

end PropValue

/-- The names that never reach a host. -/
def reservedNames : List String :=
  ["children", "key", "ref"]

def isReserved (name : String) : Bool :=
  name ∈ reservedNames

/-- The event that a handler prop listens for: after a leading `on` and an ASCII capital the rest in
lower case, and otherwise the name itself. -/
def eventName (prop : String) : String :=
  match prop.toList with
  | 'o' :: 'n' :: first :: rest =>
    if first.isUpper then String.ofList ((first :: rest).map Char.toLower) else prop
  | _ => prop

/-- Properties in the order in which their names were first inserted, each name once. -/
structure Props where
  entries : List (String × PropValue)
  distinct : (entries.map Prod.fst).Nodup
  deriving Repr

namespace Props

def empty : Props :=
  ⟨[], List.nodup_nil⟩

def get? (props : Props) (name : String) : Option PropValue :=
  props.entries.lookup name

/-- Set a prop; a known name keeps its place. -/
def insert (props : Props) (name : String) (value : PropValue) : Props :=
  ⟨setEntry props.entries name value, distinct_setEntry props.distinct name value⟩

def remove (props : Props) (name : String) : Props :=
  ⟨removeEntry props.entries name, distinct_removeEntry props.distinct name⟩

/-- Insert pairs one after another. -/
def ofList (pairs : List (String × PropValue)) : Props :=
  pairs.foldl (fun props pair => props.insert pair.1 pair.2) empty

/-- The props that reach a host. -/
def onHost (props : Props) : List (String × PropValue) :=
  props.entries.filter fun entry => !isReserved entry.1

def size (props : Props) : Nat :=
  props.entries.length

/-- Equality of props does not depend on their order. -/
instance : BEq Props where
  beq left right :=
    left.size == right.size && left.entries.all fun entry => right.get? entry.1 = some entry.2

end Props

end ReactiveTree
