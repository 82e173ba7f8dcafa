/-! # Settings of a reactor

A reactor is told how to treat two siblings with one key and whether to report failing subscribers.
-/

namespace ReactiveTree

/-- What to do about two siblings with one key. -/
inductive KeyPolicy where
  /-- A repeated key is an error. -/
  | strict
  /-- The last sibling with a key takes it, and a warning is logged. -/
  | lastWins
  deriving DecidableEq, Repr

/-- The word for a policy in a settings document. -/
def KeyPolicy.word : KeyPolicy → String
  | .strict => "strict"
  | .lastWins => "last_wins"

/-- The policy that a settings document names. -/
def KeyPolicy.ofWord? (word : String) : Option KeyPolicy :=
  [KeyPolicy.strict, KeyPolicy.lastWins].find? fun policy => policy.word = word

structure Settings where
  reportsFailures : Bool := true
  keyPolicy : KeyPolicy := .strict
  deriving DecidableEq, Repr

/-- A policy is read back from its own word. -/
theorem KeyPolicy.ofWord?_word (policy : KeyPolicy) : ofWord? policy.word = some policy := by
  cases policy <;> decide

end ReactiveTree
