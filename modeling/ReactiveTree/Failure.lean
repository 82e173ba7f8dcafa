import ReactiveTree.Graph.Node
import ReactiveTree.Tree.Basic

/-! # Failures

A failure is kept as its cause; the wording is in one function for each kind. Failing subscribers
are isolated from the writer that woke them, so most of these are only ever logged.
-/

namespace ReactiveTree

/-- What can go wrong in the reactive graph. -/
inductive ReactiveFailure where
  | circularWrite (node : NodeId)
  | failedComputed (node : NodeId) (message : String)
  | failedEffect (node : NodeId) (message : String)
  | destroyed (node : NodeId)
  deriving DecidableEq, Repr

def ReactiveFailure.message : ReactiveFailure → String
  | .circularWrite node =>
    "signal " ++ node.text ++ " written during its own notification; write ignored"
  | .failedComputed node message =>
    "computed " ++ node.text ++ " failed to evaluate: " ++ message
  | .failedEffect node message => "effect " ++ node.text ++ " failed: " ++ message
  | .destroyed node => "signal " ++ node.text ++ " used after destroy"

/-- Why a tree could not be brought onto a host. -/
inductive ReconcileFailure where
  | repeatedKey (key : Key)
  | emptyTag
  /-- The host does not have the children that the previous tree stands for. -/
  | outOfSync (expected found : Nat)
  deriving DecidableEq, Repr

def ReconcileFailure.message : ReconcileFailure → String
  | .repeatedKey key => "duplicate key `" ++ key.text ++ "` among siblings"
  | .emptyTag => "element descriptor has an empty tag"
  | .outOfSync expected found =>
    "host tree out of sync: previous tree expects " ++ toString expected ++ " children, host has "
      ++ toString found

/-- What a failing closure leaves behind. -/
inductive Panic where
  | text (message : String)
  /-- A payload that is not a text. -/
  | other
  deriving DecidableEq, Repr

def Panic.message : Panic → String
  | .text message => message
  | .other => "non-string panic payload"

/-- What counting beyond the largest index leaves behind. -/
def Panic.indexOverflow : Panic :=
  .text "attempt to add with overflow"

end ReactiveTree
