import ReactiveTree.Reconcile.Layout
import ReactiveTree.Reconcile.Matching
import ReactiveTree.Reconcile.Validation

/-! # From one tree to the next

A host shows an old tree; `diff` computes the patches after which it shows a new one. Siblings are
matched, matched pairs of one kind are updated in place and compared further down, and all else is
replaced. A fragment has no host node: its children are planned among those of its parent.
-/

namespace ReactiveTree

/-- The children of a host node with their places. -/
def places (nodes : List HostId) : List Place :=
  nodes.zipIdx.map fun (node, index) => ⟨index, node⟩

/-- Cut the children of a host node into the runs that successive trees stand for. -/
def cutRuns (run : List Place) : List Tree → List (List Place)
  | [] => []
  | tree :: rest => run.take tree.width :: cutRuns (run.drop tree.width) rest

/-- Two sibling lists, ready to be compared. -/
structure Siblings where
  /-- Each old sibling with its run of host children. -/
  old : List (Tree × List Place)
  /-- For each new sibling the index of the old one that it continues. -/
  partners : List (Option Nat)

namespace Siblings

def of (run : List Place) (old new : List Tree) : Siblings where
  old := old.zip (cutRuns run old)
  partners := partnersOf old new

/-- The host children of old siblings that no new one continues. -/
def leftOver (siblings : Siblings) : List Place :=
  (siblings.old.zipIdx.filter fun (_, index) => some index ∉ siblings.partners).flatMap
    fun ((_, run), _) => run

end Siblings

variable {H : Type} [Host H]

/-- Lay out the children of a host node, if it has as many as the old trees stand for. -/
def layoutChildren (host : H) (parent : HostId) (old new : List Tree)
    (plan : Siblings → Except ReconcileFailure Plan) : Except ReconcileFailure (List Patch) := do
  let nodes := Host.children host parent
  if Tree.widths old ≠ nodes.length then
    throw (.outOfSync (Tree.widths old) nodes.length)
  let siblings := Siblings.of (places nodes) old new
  let plan := (← plan siblings).without siblings.leftOver
  return plan.below ++ plan.layout parent

mutual

/-- Plan for a new tree that continues an old one, shown by a run of host children. -/
def planMatched (host : H) (run : List Place) (old : Tree) : Tree → Except ReconcileFailure Plan
  | .text after =>
    match old, run with
    | .text before, [place] =>
      .ok (.keep place (if before = after then [] else [.update place.node (.text after)]))
    | _, _ => .ok (.exchange run (.text after))
  | .element tag props children key =>
    match old, run with
    | .element oldTag oldProps oldChildren _, [place] =>
      if oldTag = tag then do
        let below ← layoutChildren host place.node oldChildren children fun siblings =>
          planSiblings host siblings.old siblings.partners children
        let updates := (oldProps.changesTo props).map (Patch.update place.node)
        return .keep place (updates ++ below)
      else .ok (.exchange run (.element tag props children key))
    | _, _ => .ok (.exchange run (.element tag props children key))
  | .fragment children key =>
    match old with
    | .fragment oldChildren _ => do
      let siblings := Siblings.of run oldChildren children
      let plan ← planSiblings host siblings.old siblings.partners children
      return plan.without siblings.leftOver
    | _ => .ok (.exchange run (.fragment children key))

/-- Plan for new siblings, each with the index of the old one that it continues. -/
def planSiblings (host : H) (old : List (Tree × List Place)) (partners : List (Option Nat)) :
    List Tree → Except ReconcileFailure Plan
  | [] => .ok .empty
  | child :: rest => do
    let first ← match partners.head?.join.bind (old[·]?) with
      | some (tree, run) => planMatched host run tree child
      | none => .ok (.create child)
    return first.append (← planSiblings host old partners.tail rest)

end

/-- The patches that take the children of a host node from old trees to new ones. -/
def childPatches (host : H) (parent : HostId) (old new : List Tree) :
    Except ReconcileFailure (List Patch) :=
  layoutChildren host parent old new fun siblings =>
    planSiblings host siblings.old siblings.partners new

/-- Check an optional tree; nothing is always sound. -/
def checkTree (policy : KeyPolicy) (tree : Option Tree) : Verdict :=
  (tree.map (Tree.check policy)).getD .sound

/-- The patches after which a container shows a new tree instead of an old one. -/
def diff (policy : KeyPolicy) (host : H) (container : HostId) (old new : Option Tree) :
    Except ReconcileFailure (List Patch) :=
  match (checkTree policy new).defect with
  | some defect => .error defect
  | none => childPatches host container old.toList new.toList

/-- Compute the patches and apply them; a failure leaves the host as it is. -/
def reconcile (policy : KeyPolicy) (host : H) (container : HostId) (old new : Option Tree) :
    Except ReconcileFailure (List Patch) × H :=
  match diff policy host container old new with
  | .ok patches => (.ok patches, Patch.carryOutAll host patches)
  | .error failure => (.error failure, host)

end ReactiveTree
