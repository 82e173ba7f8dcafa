import ReactiveTree.Proofs.Document.Frame
import ReactiveTree.Proofs.Document.Parts
import ReactiveTree.Reconcile.Diff

/-! # Which host nodes are taken over

A new tree continues an old part that it is matched with if both are of one kind. `Inherits` says
that along such parts the host nodes are the old ones, and that all others are new.
-/

namespace ReactiveTree

open Document

/-- The part that a tree continues, if the two are of one kind. -/
def Part.for? (part : Part) (tree : Tree) : Option Part :=
  if part.tree.sameKind tree then some part else none

/-- For each new sibling the old part that it continues, given the old siblings and the partners. -/
def originsAmong (old : Nat → Option Part) (partners : List (Option Nat)) :
    List Tree → List (Option Part)
  | [] => []
  | child :: rest =>
    (partners.head?.join.bind old).bind (·.for? child) :: originsAmong old partners.tail rest

/-- For each child of a tree the part that it continues, given the one that the tree continues. -/
def originsWithin (before : Document) (origin : Option Part) (children : List Tree) :
    List (Option Part) :=
  match origin with
  | some part =>
    originsAmong (before.child? part) (partnersOf part.tree.children children) children
  | none => children.map fun _ => none

/-- Whether nodes are those of an old part or, if there is none, new. -/
def TakesOver (before : Document) (nodes : List HostId) : Option Part → Prop
  | some part => nodes = part.nodes
  | none => ∀ node ∈ nodes, ¬ before.contains node

section

variable (before after : Document)

mutual

/-- Whether nodes that show a tree are those of the old part that it continues, at every depth. -/
def Inherits (nodes : List HostId) (origin : Option Part) : Tree → Prop
  | .text _ => TakesOver before nodes origin
  | .element _ _ children _ => TakesOver before nodes origin ∧
      InheritsAll (nodes.flatMap after.children) (originsWithin before origin children) children
  | .fragment children _ => InheritsAll nodes (originsWithin before origin children) children

/-- Whether this holds of several trees with the parts that they continue. -/
def InheritsAll (nodes : List HostId) (origins : List (Option Part)) : List Tree → Prop
  | [] => True
  | tree :: rest => Inherits (nodes.take tree.width) origins.head?.join tree ∧
      InheritsAll (nodes.drop tree.width) origins.tail rest

end

end

variable {before after changed : Document} {nodes : List HostId} {origin : Option Part}
  {origins : List (Option Part)} {partners : List (Option Nat)} {tree child : Tree}
  {trees old : List Tree} {index : Nat} {region : HostId → Prop}

theorem length_originsAmong (old : Nat → Option Part) (partners : List (Option Nat))
    (trees : List Tree) : (originsAmong old partners trees).length = trees.length := by
  induction trees generalizing partners with
  | nil => rfl
  | cons tree rest ih => rw [originsAmong, List.length_cons, List.length_cons, ih]

theorem length_originsWithin (before : Document) (origin : Option Part) (children : List Tree) :
    (originsWithin before origin children).length = children.length := by
  cases origin with
  | some part => exact length_originsAmong ..
  | none => exact List.length_map ..

theorem getElem?_originsAmong (old : Nat → Option Part) (partners : List (Option Nat))
    (found : trees[index]? = some child) :
    (originsAmong old partners trees)[index]? =
      some ((partners[index]?.join.bind old).bind (·.for? child)) := by
  induction trees generalizing partners index with
  | nil => cases found
  | cons tree rest ih =>
    rw [originsAmong]
    cases index with
    | zero =>
      cases found
      cases partners <;> rfl
    | succ index =>
      rw [List.getElem?_cons_succ, ih partners.tail found]
      cases partners <;> rfl

theorem getElem?_cutRuns (run : List Place) (old : List Tree) (index : Nat) :
    (old.zip (cutRuns run old))[index]? = old[index]?.map fun tree =>
      (tree, (run.drop (Tree.widths (old.take index))).take tree.width) := by
  induction old generalizing run index with
  | nil => rfl
  | cons tree rest ih =>
    rw [cutRuns, List.zip_cons_cons]
    cases index with
    | zero => rfl
    | succ index =>
      simp only [List.getElem?_cons_succ, ih, List.take_succ_cons, Tree.widths, List.drop_drop]

/-- An old sibling with its run, as a part. -/
def partOf (entry : Tree × List Place) : Part :=
  ⟨entry.1, entry.2.map Place.node⟩

/-- The old siblings that are compared are the children of the part that they make up. -/
theorem child?_of_run (before : Document) {part : Part} {run : List Place} (new : List Tree)
    (within : before.nodesWithin part = run.map Place.node) (index : Nat) :
    ((Siblings.of run part.tree.children new).old[index]?).map partOf = before.child? part index := by
  unfold Siblings.of Document.child?
  rw [getElem?_cutRuns, Option.map_map, within]
  congr 1
  funext tree
  simp [partOf, pieceAt, List.map_take, List.map_drop]

mutual

/-- Nodes with the same nodes below inherit the same. -/
theorem Inherits.of_agree (closed : after.Closed region) (agree : Agree region after changed)
    {nodes : List HostId} {origin : Option Part} (inside : ∀ node ∈ nodes, region node) :
    (tree : Tree) → Inherits before after nodes origin tree →
      Inherits before changed nodes origin tree
  | .text _, inherits => inherits
  | .element _ _ children _, inherits => by
    have same : nodes.flatMap changed.children = nodes.flatMap after.children :=
      List.flatMap_congr fun node member => children_of_node? (agree (inside node member))
    refine ⟨inherits.1, ?_⟩
    rw [same]
    refine InheritsAll.of_agree closed agree (fun node member => ?_) children inherits.2
    obtain ⟨parent, listed, here⟩ := List.mem_flatMap.mp member
    exact closed (inside parent listed) here
  | .fragment children _, inherits => InheritsAll.of_agree closed agree inside children inherits

theorem InheritsAll.of_agree (closed : after.Closed region) (agree : Agree region after changed)
    {nodes : List HostId} {origins : List (Option Part)} (inside : ∀ node ∈ nodes, region node) :
    (trees : List Tree) → InheritsAll before after nodes origins trees →
      InheritsAll before changed nodes origins trees
  | [], _ => trivial
  | tree :: rest, inherits =>
    ⟨Inherits.of_agree closed agree (fun node member => inside node (List.mem_of_mem_take member))
        tree inherits.1,
      InheritsAll.of_agree closed agree (fun node member => inside node (List.mem_of_mem_drop member))
        rest inherits.2⟩

end

mutual

/-- New nodes with only new nodes below continue nothing. -/
theorem Inherits.of_new (closed : after.Closed region) (new : ∀ {id}, region id → ¬ before.contains id)
    {nodes : List HostId} (inside : ∀ node ∈ nodes, region node) :
    (tree : Tree) → Inherits before after nodes none tree
  | .text _ => fun node member => new (inside node member)
  | .element _ _ children _ => by
    refine ⟨fun node member => new (inside node member), ?_⟩
    refine InheritsAll.of_new closed new (fun node member => ?_) children
    obtain ⟨parent, listed, here⟩ := List.mem_flatMap.mp member
    exact closed (inside parent listed) here
  | .fragment children _ => InheritsAll.of_new closed new inside children

theorem InheritsAll.of_new (closed : after.Closed region)
    (new : ∀ {id}, region id → ¬ before.contains id) {nodes : List HostId}
    (inside : ∀ node ∈ nodes, region node) :
    (trees : List Tree) → InheritsAll before after nodes (trees.map fun _ => none) trees
  | [] => trivial
  | tree :: rest =>
    ⟨Inherits.of_new closed new (fun node member => inside node (List.mem_of_mem_take member)) tree,
      InheritsAll.of_new closed new (fun node member => inside node (List.mem_of_mem_drop member))
        rest⟩

end

theorem InheritsAll.cons {piece : List HostId} (width : piece.length = tree.width)
    (inherits : Inherits before after piece origin tree)
    (others : InheritsAll before after nodes origins trees) :
    InheritsAll before after (piece ++ nodes) (origin :: origins) (tree :: trees) := by
  refine ⟨?_, ?_⟩
  · rwa [List.take_left' width]
  · rwa [List.drop_left' width]

/-- What siblings inherit, the first of them inherit and the others too. -/
theorem InheritsAll.append {first second : List Tree} {early late : List (Option Part)}
    (length : early.length = first.length)
    (inherits : InheritsAll before after nodes (early ++ late) (first ++ second)) :
    InheritsAll before after (nodes.take (Tree.widths first)) early first ∧
      InheritsAll before after (nodes.drop (Tree.widths first)) late second := by
  induction first generalizing nodes early with
  | nil =>
    cases early with
    | nil => exact ⟨trivial, inherits⟩
    | cons => cases length
  | cons tree rest ih =>
    cases early with
    | nil => cases length
    | cons origin others =>
      obtain ⟨here, later⟩ := inherits
      obtain ⟨inFirst, inSecond⟩ := ih (by simpa using length) later
      rw [Tree.widths]
      refine ⟨⟨?_, ?_⟩, ?_⟩
      · rwa [List.take_take, Nat.min_eq_left (Nat.le_add_right ..)]
      · rwa [List.drop_take, Nat.add_sub_cancel_left]
      · rwa [← List.drop_drop]

theorem InheritsAll.pieceAt (inherits : InheritsAll before after nodes origins trees)
    (found : trees[index]? = some tree) :
    Inherits before after (pieceAt nodes trees index tree) origins[index]?.join tree := by
  induction trees generalizing nodes origins index with
  | nil => cases found
  | cons first rest ih =>
    obtain ⟨here, later⟩ := inherits
    cases index with
    | zero =>
      cases found
      rw [← List.head?_eq_getElem?]
      exact here
    | succ index =>
      have below := ih later found
      rw [List.getElem?_tail] at below
      rw [ReactiveTree.pieceAt, List.take_succ_cons, Tree.widths, ← List.drop_drop]
      exact below

end ReactiveTree
