import ReactiveTree.Reconcile.Patch

/-! # Which old child a new one continues

A keyed child continues the old sibling with its key, wherever that was; of several with one key,
on either side, only the last counts. A child without a key continues the old child at the same
index, if that has no key either.
-/

namespace ReactiveTree

/-- The index of the last child with a key. -/
def lastWithKey (trees : List Tree) (key : Key) : Option Nat :=
  (trees.zipIdx.filter fun child => child.1.key? = some key).getLast?.map Prod.snd

/-- The index of the old child that the new child at an index continues. -/
def partner (old new : List Tree) (child : Tree) (index : Nat) : Option Nat :=
  match child.key? with
  | some key => if lastWithKey new key = some index then lastWithKey old key else none
  | none => (old[index]?.filter fun other => other.key?.isNone).map fun _ => index

/-- For each new child the index of the old child that it continues. -/
def partnersOf (old new : List Tree) : List (Option Nat) :=
  new.zipIdx.map fun (child, index) => partner old new child index

/-- What a prop needs, given the old props. A prop that turns from an attribute into a listener, or
back, is removed first. -/
def propChanges (old : Props) (name : String) (value : PropValue) : List Change :=
  match old.get? name with
  | none => [.set name value]
  | some previous =>
    if previous = value then []
    else if previous.isHandler ≠ value.isHandler then
      [.unset name previous, .set name value]
    else [.set name value]

/-- The changes from old to new props: what went away, then what is new or different. -/
def Props.changesTo (old new : Props) : List Change :=
  ((old.onHost.filter fun entry => (new.get? entry.1).isNone).map fun entry =>
      .unset entry.1 entry.2)
    ++ new.onHost.flatMap fun entry => propChanges old entry.1 entry.2

end ReactiveTree
