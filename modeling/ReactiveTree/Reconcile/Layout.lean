import ReactiveTree.Reconcile.Patch
import ReactiveTree.Sequence.LongestRun
import ReactiveTree.Sequence.LeadingSums

/-! # Bringing one parent's children into order

A plan says for each new child where its host nodes come from. The layout turns it into patches that
are exact one after another. Kept nodes on a longest run of increasing old places do not move, and a
swap happens in place only if its old node already lies between its neighbours that stay. Removals
come first, from the last child to the first; then the new children are filled in from the last to
the first, each just before its successor, against a simulated list of the children.
-/

namespace ReactiveTree

/-- A child of the parent, with its place before anything changed. -/
structure Place where
  index : Nat
  node : HostId
  deriving DecidableEq, Repr

/-- Where the host nodes of one new child come from. -/
inductive Placement where
  | keep (place : Place)
  | create (tree : Tree)
  /-- One old node gives way to a tree of another kind. -/
  | swap (place : Place) (tree : Tree)
  deriving Repr

/-- What is to become of the children of one parent. -/
structure Plan where
  placements : List Placement
  removed : List Place
  /-- Patches for what lies below the kept nodes. -/
  below : List Patch
  deriving Repr

namespace Plan

def empty : Plan :=
  ⟨[], [], []⟩

/-- One plan for the children of both. -/
def append (left right : Plan) : Plan where
  placements := left.placements ++ right.placements
  removed := left.removed ++ right.removed
  below := left.below ++ right.below

def keep (place : Place) (below : List Patch) : Plan :=
  ⟨[.keep place], [], below⟩

def create (tree : Tree) : Plan :=
  ⟨[.create tree], [], []⟩

/-- Let old nodes give way to a tree: one for some by a swap, and otherwise by removal. -/
def exchange (run : List Place) (tree : Tree) : Plan :=
  match run with
  | [place] =>
    if 0 < tree.width then ⟨[.swap place tree], [], []⟩ else ⟨[.create tree], run, []⟩
  | _ => ⟨[.create tree], run, []⟩

/-- Remove more old nodes. -/
def without (plan : Plan) (places : List Place) : Plan :=
  { plan with removed := plan.removed ++ places }

end Plan

/-- What is done for one new child. -/
inductive Target where
  | stay (place : Place)
  | move (place : Place)
  | insert (tree : Tree)
  /-- The old node is replaced where it is. -/
  | swap (place : Place) (tree : Tree)
  /-- The old node is removed and the tree inserted elsewhere. -/
  | remake (place : Place) (tree : Tree)
  deriving Repr

namespace Target

/-- The old place that a target which does not move occupies. -/
def fixed? : Target → Option Nat
  | .stay place => some place.index
  | .swap place _ => some place.index
  | _ => none

def isFixed (target : Target) : Bool :=
  target.fixed?.isSome

/-- The old node that a target removes. -/
def remade? : Target → Option Place
  | .remake place _ => some place
  | _ => none

end Target

/-- A placement, with a mark on kept nodes that stay. -/
abbrev MarkedPlacement := Placement × Bool

/-- The old place of the next kept node that stays. -/
def nextStay? : List MarkedPlacement → Option Nat
  | [] => none
  | (.keep place, true) :: _ => some place.index
  | _ :: rest => nextStay? rest

/-- Decide what is done for each placement; `last` is the old place of the fixed child before. -/
def settle (last : Option Nat) : List MarkedPlacement → List Target
  | [] => []
  | (.keep place, true) :: rest => .stay place :: settle (some place.index) rest
  | (.keep place, false) :: rest => .move place :: settle last rest
  | (.create tree, _) :: rest => .insert tree :: settle last rest
  | (.swap place tree, _) :: rest =>
    if last.all (· < place.index) ∧ (nextStay? rest).all (place.index < ·) then
      .swap place tree :: settle (some place.index) rest
    else .remake place tree :: settle last rest

/-- The positions of kept nodes with their old places. -/
def keptPlaces (placements : List Placement) : List (Nat × Nat) :=
  placements.zipIdx.filterMap fun (placement, position) =>
    match placement with
    | .keep place => some (position, place.index)
    | _ => none

/-- Mark the kept nodes that lie on a longest run. -/
def markStays (placements : List Placement) : List MarkedPlacement :=
  let kept := keptPlaces placements
  let run := (longestRun (kept.map Prod.snd)).map fun entry => (kept.map Prod.fst).getD entry 0
  placements.zipIdx.map fun (placement, position) => (placement, decide (position ∈ run))

def targetsOf (placements : List Placement) : List Target :=
  settle none (markStays placements)

/-- What an entry of the simulated child list stands for, in the order of entries at one anchor: a
node that waits to be moved, one put before the anchor, or the fixed child at the anchor itself. -/
inductive Rank where
  | waiting
  | placed
  | fixed
  deriving DecidableEq, Repr

def Rank.weight : Rank → Nat
  | .waiting => 0
  | .placed => 1
  | .fixed => 2

/-- An entry of the simulated child list. The anchor is the position of the fixed child that the
entry stands before. -/
structure Slot where
  anchor : Nat
  rank : Rank
  tie : Nat
  deriving DecidableEq, Repr

namespace Slot

/-- Entries go by anchor, then rank, then tie. -/
def before (left right : Slot) : Bool :=
  left.anchor < right.anchor
    ∨ left.anchor = right.anchor ∧
      (left.rank.weight < right.rank.weight
        ∨ left.rank.weight = right.rank.weight ∧ left.tie < right.tie)

/-- The fixed child at a position. -/
def fixed (position : Nat) : Slot :=
  ⟨position, .fixed, 0⟩

end Slot

section

variable (targets : List Target)

/-- The position of the next fixed child, or the number of children. -/
def anchorAfter (position : Nat) : Nat :=
  position + 1 + (targets.drop (position + 1)).findIdx Target.isFixed

/-- The position of the fixed child that followed an old place, or the number of children. -/
def anchorOfPlace (index : Nat) : Nat :=
  targets.findIdx fun target => target.fixed?.any (index < ·)

/-- Where a node waits until it is moved. -/
def waitingSlot (place : Place) : Slot :=
  ⟨anchorOfPlace targets place.index, .waiting, place.index⟩

/-- Where a new child that is not fixed ends up. -/
def placedSlot (position : Nat) : Slot :=
  ⟨anchorAfter targets position, .placed, position⟩

/-- The entries that a new child needs. -/
def slotsFor (target : Target) (position : Nat) : List Slot :=
  match target with
  | .stay _ => [.fixed position]
  | .swap _ _ => [.fixed position]
  | .move place => [waitingSlot targets place, placedSlot targets position]
  | .insert _ => [placedSlot targets position]
  | .remake _ _ => [placedSlot targets position]

/-- All entries in order. -/
def slots : List Slot :=
  (targets.zipIdx.flatMap fun (target, position) => slotsFor targets target position).mergeSort
    fun left right => !right.before left

/-- The entry that holds a child from the start, after the removals. -/
def initialSlot? (target : Target) (position : Nat) : Option Slot :=
  match target with
  | .stay _ => some (.fixed position)
  | .swap _ _ => some (.fixed position)
  | .move place => some (waitingSlot targets place)
  | .insert _ => none
  | .remake _ _ => none

end

/-- The simulated child list of one parent. -/
structure Board where
  parent : HostId
  targets : List Target
  /-- Every entry, in order. -/
  order : List Slot

namespace Board

def of (parent : HostId) (targets : List Target) : Board :=
  ⟨parent, targets, slots targets⟩

variable (board : Board)

/-- How many entries come before an entry. -/
def indexOf (slot : Slot) : Nat :=
  board.order.countP fun other => other.before slot

/-- How many children each entry holds after the removals. -/
def initialWidths : LeadingSums :=
  board.targets.zipIdx.foldl
    (fun widths (target, position) =>
      match initialSlot? board.targets target position with
      | some slot => widths.set (board.indexOf slot) 1
      | none => widths)
    (LeadingSums.ofLength board.order.length)

/-- Insert a tree at its position, unless it adds no child. -/
def insertTree (position : Nat) (tree : Tree) (widths : LeadingSums) : List Patch × LeadingSums :=
  if tree.width = 0 then ([], widths)
  else
    let slot := board.indexOf (placedSlot board.targets position)
    ([.insert board.parent (widths.sumBefore slot) tree], widths.set slot tree.width)

/-- Bring one new child to its position; all later ones are there already. -/
def placeTarget (position : Nat) (target : Target) (widths : LeadingSums) :
    List Patch × LeadingSums :=
  match target with
  | .stay _ => ([], widths)
  | .move place =>
    let waiting := board.indexOf (waitingSlot board.targets place)
    let placed := board.indexOf (placedSlot board.targets position)
    let before := widths.sumBefore waiting
    let widths := widths.set waiting 0
    let after := widths.sumBefore placed
    let widths := widths.set placed 1
    (if before = after then [] else [.move board.parent place.node before after], widths)
  | .swap place tree =>
    let slot := board.indexOf (.fixed position)
    ([.replace board.parent (widths.sumBefore slot) place.node tree],
      widths.set slot tree.width)
  | .insert tree => board.insertTree position tree widths
  | .remake _ tree => board.insertTree position tree widths

/-- Bring the new children to their positions, the last one first. -/
def placeAll : List (Target × Nat) → List Patch × LeadingSums
  | [] => ([], board.initialWidths)
  | (target, position) :: rest =>
    let (patches, widths) := placeAll rest
    let (more, widths) := board.placeTarget position target widths
    (patches ++ more, widths)

end Board

/-- The removals of a plan, the last child first. -/
def removals (parent : HostId) (places : List Place) : List Patch :=
  ((places.mergeSort fun left right => right.index ≤ left.index).eraseReps).map fun place =>
    .remove parent place.index place.node

/-- The patches that carry out a plan for one parent. -/
def Plan.layout (plan : Plan) (parent : HostId) : List Patch :=
  let targets := targetsOf plan.placements
  removals parent (plan.removed ++ targets.filterMap Target.remade?)
    ++ ((Board.of parent targets).placeAll targets.zipIdx).1

end ReactiveTree
