import ReactiveTree.Failure
import ReactiveTree.Settings.Basic

/-! # Which trees may be shown

A tree is refused if an element has an empty tag or, under the strict policy, two siblings share a
key. The check goes through the tree in document order and looks at a child's key before it looks
inside the child. Under the other policy every repeated key met on the way is noted.
-/

namespace ReactiveTree

/-- The outcome of a check. -/
structure Verdict where
  /-- Keys that an earlier sibling already has, in the order in which they were met. -/
  repeated : List Key
  /-- The first defect. -/
  defect : Option ReconcileFailure
  deriving DecidableEq, Repr

namespace Verdict

def sound : Verdict :=
  ⟨[], none⟩

def refuse (defect : ReconcileFailure) : Verdict :=
  ⟨[], some defect⟩

/-- Go on with a check unless it has met a defect. -/
def andThen (first second : Verdict) : Verdict :=
  match first.defect with
  | some _ => first
  | none => ⟨first.repeated ++ second.repeated, second.defect⟩

/-- Note a repeated key before a check. -/
def after (key : Key) (verdict : Verdict) : Verdict :=
  { verdict with repeated := key :: verdict.repeated }

end Verdict

namespace Tree

mutual

/-- Check a tree from its root down. -/
def check (policy : KeyPolicy) : Tree → Verdict
  | .text _ => .sound
  | .element tag _ children _ =>
    if tag = "" then .refuse .emptyTag else checkSiblings policy [] children
  | .fragment children _ => checkSiblings policy [] children

/-- Check siblings, given the keys of those before them. -/
def checkSiblings (policy : KeyPolicy) (seen : List Key) : List Tree → Verdict
  | [] => .sound
  | child :: rest =>
    match child.key? with
    | none => (child.check policy).andThen (checkSiblings policy seen rest)
    | some key =>
      if key ∈ seen then
        match policy with
        | .strict => .refuse (.repeatedKey key)
        | .lastWins => ((child.check policy).andThen (checkSiblings policy seen rest)).after key
      else (child.check policy).andThen (checkSiblings policy (key :: seen) rest)

end

end Tree

end ReactiveTree
