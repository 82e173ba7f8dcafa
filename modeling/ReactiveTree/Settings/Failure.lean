import ReactiveTree.Decimal.Text
import ReactiveTree.Settings.Quoted

/-! # Why a settings document is not accepted

A document may be no JSON at all, or end too early, or be JSON of the wrong shape. Only for the last
kind the message says more.
-/

namespace ReactiveTree

/-- What a document holds where something else belongs. -/
inductive Found where
  | null
  | flag (on : Bool)
  | integer (value : Int)
  | number (value : Binary64)
  | text (content : String)
  | list
  | object
  deriving DecidableEq, Repr

def Found.message : Found → String
  | .null => "null"
  | .flag on => "boolean `" ++ (if on then "true" else "false") ++ "`"
  | .integer value => "integer `" ++ toString value ++ "`"
  | .number value => "floating point `" ++ value.concise ++ "`"
  | .text content => "string " ++ quoted content
  | .list => "sequence"
  | .object => "map"

/-- What belongs somewhere in a document. -/
inductive Expected where
  | settings
  | flag
  | nothing
  deriving DecidableEq, Repr

def Expected.message : Expected → String
  | .settings => "struct RuntimeConfig"
  | .flag => "a boolean"
  | .nothing => "unit"

inductive SettingsFailure where
  /-- The text is no JSON. -/
  | malformed
  /-- The text ends inside a value. -/
  | unfinished
  | wrongType (found : Found) (expected : Expected)
  | unknownPolicy (word : String)
  | repeatedField (name : String)
  deriving DecidableEq, Repr

/-- The message of a document of the wrong shape. -/
def SettingsFailure.message? : SettingsFailure → Option String
  | .malformed => none
  | .unfinished => none
  | .wrongType found expected =>
    some ("invalid configuration: invalid type: " ++ found.message ++ ", expected "
      ++ expected.message)
  | .unknownPolicy word =>
    some ("invalid configuration: unknown variant `" ++ word
      ++ "`, expected `strict` or `last_wins`")
  | .repeatedField name => some ("invalid configuration: duplicate field `" ++ name ++ "`")

end ReactiveTree
