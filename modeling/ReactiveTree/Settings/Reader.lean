import ReactiveTree.Settings.Basic
import ReactiveTree.Settings.Token

/-! # Settings documents

Settings are read from a JSON object, or from a list that gives them in their order. Whatever is
missing takes its default, and fields of other names are skipped. A policy is given by its word, or
by an object that maps its word to nothing.
-/

namespace ReactiveTree

namespace Settings

inductive Bracket where
  | list
  | object
  deriving DecidableEq, Repr

def Bracket.closing : Bracket → Char
  | .list => ']'
  | .object => '}'

/-- Where in a skipped value the text is. -/
inductive Stage where
  | value
  /-- Just behind an opening bracket. -/
  | opened
  /-- Just behind a value. -/
  | closed
  /-- Before the next member of the innermost bracket. -/
  | member
  deriving DecidableEq, Repr

/-- The name of a member and the colon behind it, or nothing in a list. -/
def skipName (bracket : Bracket) (text : List Char) : Reading (List Char) := do
  match bracket with
  | .list => return text
  | .object =>
    match skipBlanks text with
    | [] => throw .unfinished
    | '"' :: text =>
      match skipBlanks (← skipString text) with
      | [] => throw .unfinished
      | ':' :: text => return text
      | _ => throw .malformed
    | _ => throw .malformed

/-- One step through a skipped value inside open brackets: what comes next, and the rest. -/
def skipStep (stage : Stage) (brackets : List Bracket) (text : List Char) :
    Reading (Stage × List Bracket × List Char) := do
  match stage, brackets with
  | .value, _ =>
    match skipBlanks text with
    | [] => throw .unfinished
    | 'n' :: text => return (.closed, brackets, ← readWord ['u', 'l', 'l'] text)
    | 't' :: text => return (.closed, brackets, ← readWord ['r', 'u', 'e'] text)
    | 'f' :: text => return (.closed, brackets, ← readWord ['a', 'l', 's', 'e'] text)
    | '"' :: text => return (.closed, brackets, ← skipString text)
    | '[' :: text => return (.opened, .list :: brackets, text)
    | '{' :: text => return (.opened, .object :: brackets, text)
    | '-' :: text => return (.closed, brackets, ← skipNumber text)
    | char :: text =>
      if char.isDigit then return (.closed, brackets, ← skipNumber (char :: text))
      else throw .malformed
  | .member, bracket :: _ => return (.value, brackets, ← skipName bracket text)
  | .opened, bracket :: outer =>
    match skipBlanks text with
    | [] => throw .unfinished
    | char :: text =>
      if char = bracket.closing then return (.closed, outer, text)
      else return (.member, brackets, char :: text)
  | .closed, bracket :: outer =>
    match skipBlanks text with
    | [] => throw .unfinished
    | char :: text =>
      if char = ',' then return (.member, brackets, text)
      else if char = bracket.closing then return (.closed, outer, text)
      else throw .malformed
  | stage, [] => return (stage, [], text)

/-- Skip to the end of a value, in at most so many steps. -/
def skipFrom (stage : Stage) (brackets : List Bracket) (text : List Char) :
    Nat → Reading (List Char)
  | 0 => .error .malformed
  | steps + 1 => do
    let (stage, brackets, text) ← skipStep stage brackets text
    if stage = .closed ∧ brackets = [] then return text
    else skipFrom stage brackets text steps

/-- Skip a value of any kind; no character takes more than three steps. -/
def skipValue (text : List Char) : Reading (List Char) :=
  skipFrom .value [] text (3 * text.length + 3)

/-- Fail on a value of the wrong kind. -/
def refuse (expected : Expected) (text : List Char) : SettingsFailure :=
  let wrong (found : Found) : SettingsFailure := .wrongType found expected
  let word (letters : List Char) (text : List Char) (found : Found) : SettingsFailure :=
    match readWord letters text with
    | .ok _ => wrong found
    | .error failure => failure
  let number (negative : Bool) (text : List Char) : SettingsFailure :=
    match readNumber negative text with
    | .ok (found, _) => wrong found
    | .error failure => failure
  match text with
  | [] => .malformed
  | 'n' :: text => word ['u', 'l', 'l'] text .null
  | 't' :: text => word ['r', 'u', 'e'] text (.flag true)
  | 'f' :: text => word ['a', 'l', 's', 'e'] text (.flag false)
  | '-' :: text => number true text
  | '[' :: _ => wrong .list
  | '{' :: _ => wrong .object
  | '"' :: text =>
    match readString text with
    | .ok (content, _) => wrong (.text content)
    | .error failure => failure
  | char :: text => if char.isDigit then number false (char :: text) else .malformed

def readFlag (text : List Char) : Reading (Bool × List Char) := do
  match skipBlanks text with
  | [] => throw .unfinished
  | 't' :: text => return (true, ← readWord ['r', 'u', 'e'] text)
  | 'f' :: text => return (false, ← readWord ['a', 'l', 's', 'e'] text)
  | text => throw (refuse .flag text)

/-- The word for a policy. -/
def readPolicyWord (text : List Char) : Reading (KeyPolicy × List Char) := do
  match skipBlanks text with
  | [] => throw .unfinished
  | '"' :: text =>
    let (word, text) ← readString text
    match KeyPolicy.ofWord? word with
    | some policy => return (policy, text)
    | none => throw (.unknownPolicy word)
  | _ => throw .malformed

/-- The colon behind a name. -/
def readColon (text : List Char) : Reading (List Char) :=
  match skipBlanks text with
  | [] => .error .unfinished
  | ':' :: text => .ok text
  | _ => .error .malformed

def readNothing (text : List Char) : Reading (List Char) :=
  match skipBlanks text with
  | [] => .error .unfinished
  | 'n' :: text => readWord ['u', 'l', 'l'] text
  | text => .error (refuse .nothing text)

def readPolicy (text : List Char) : Reading (KeyPolicy × List Char) := do
  match skipBlanks text with
  | [] => throw .unfinished
  | '"' :: text => readPolicyWord ('"' :: text)
  | '{' :: text =>
    let (policy, text) ← readPolicyWord text
    let text ← readNothing (← readColon text)
    match skipBlanks text with
    | [] => throw .unfinished
    | '}' :: text => return (policy, text)
    | _ => throw .malformed
  | _ => throw .malformed

/-- The fields met so far. -/
structure Fields where
  reportsFailures : Option Bool
  keyPolicy : Option KeyPolicy
  deriving DecidableEq, Repr

def Fields.none : Fields :=
  ⟨.none, .none⟩

/-- What is missing takes its default. -/
def Fields.toSettings (fields : Fields) : Settings :=
  let default : Settings := {}
  { reportsFailures := fields.reportsFailures.getD default.reportsFailures
    keyPolicy := fields.keyPolicy.getD default.keyPolicy }

/-- One field after its name. -/
def readField (fields : Fields) (name : String) (text : List Char) :
    Reading (Fields × List Char) := do
  if name = "log_subscriber_errors" then
    if fields.reportsFailures.isSome then throw (.repeatedField name)
    let (value, text) ← readFlag (← readColon text)
    return ({ fields with reportsFailures := some value }, text)
  else if name = "key_policy" then
    if fields.keyPolicy.isSome then throw (.repeatedField name)
    let (value, text) ← readPolicy (← readColon text)
    return ({ fields with keyPolicy := some value }, text)
  else return (fields, ← skipValue (← readColon text))

/-- The fields of an object up to its end; `first` before the first one. -/
def readFields (first : Bool) (fields : Fields) (text : List Char) :
    Nat → Reading (Fields × List Char)
  | 0 => .error .malformed
  | steps + 1 => do
    let named (text : List Char) : Reading (Fields × List Char) := do
      let (name, text) ← readString text
      let (fields, text) ← readField fields name text
      readFields false fields text steps
    match skipBlanks text with
    | [] => throw .unfinished
    | '}' :: text => return (fields, text)
    | '"' :: text => if first then named text else throw .malformed
    | ',' :: text =>
      if first then throw .malformed
      else
        match skipBlanks text with
        | [] => throw .unfinished
        | '"' :: text => named text
        | _ => throw .malformed
    | _ => throw .malformed

/-- Whether a list goes on, and the text of its next member. -/
def readMember (first : Bool) (text : List Char) : Reading (Bool × List Char) := do
  match skipBlanks text with
  | [] => throw .unfinished
  | ']' :: text => return (false, ']' :: text)
  | char :: text =>
    if first then return (true, char :: text)
    else if char = ',' then
      if (skipBlanks text).head? = some ']' then throw .malformed else return (true, text)
    else throw .malformed

/-- The end of a list. -/
def readListEnd (text : List Char) : Reading (List Char) :=
  match skipBlanks text with
  | [] => .error .unfinished
  | ']' :: text => .ok text
  | _ => .error .malformed

/-- The fields of a list in their order. -/
def readList (text : List Char) : Reading (Fields × List Char) := do
  let (goesOn, text) ← readMember true text
  if !goesOn then return (.none, ← readListEnd text)
  let (logging, text) ← readFlag text
  let fields : Fields := ⟨some logging, .none⟩
  let (goesOn, text) ← readMember false text
  if !goesOn then return (fields, ← readListEnd text)
  let (policy, text) ← readPolicy text
  return ({ fields with keyPolicy := some policy }, ← readListEnd text)

/-- A whole document, up to the blanks behind it. -/
def readDocument (text : List Char) : Reading Fields := do
  let (fields, rest) ←
    match skipBlanks text with
    | [] => throw .unfinished
    | '[' :: text => readList text
    | '{' :: text => readFields true .none text (text.length + 1)
    | text => throw (refuse .settings text)
  if skipBlanks rest = [] then return fields else throw .malformed

/-- Settings from a JSON text. -/
def read (text : String) : Reading Settings :=
  (readDocument text.toList).map Fields.toSettings

end Settings

end ReactiveTree
