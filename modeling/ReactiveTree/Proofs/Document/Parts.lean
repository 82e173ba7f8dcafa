import Mathlib.Data.List.Perm.Lattice
import ReactiveTree.Proofs.Document.Showing

/-! # Parts of a tree and the nodes that show them

An address leads from a tree down to a part of it, by the index of a child at each step. Where nodes
show the tree, each part has its own run of them, and a text or an element has one host node. No two
addresses have the same host node, and each node that shows something has an address.
-/

namespace ReactiveTree

namespace Tree

/-- The part of a tree at an address. -/
def at? : Tree → List Nat → Option Tree
  | tree, [] => some tree
  | tree, index :: rest => tree.children[index]?.bind fun child => child.at? rest

end Tree

/-- A tree with the nodes that show it. -/
structure Part where
  tree : Tree
  nodes : List HostId

/-- What a container shows: its children, as those of a fragment that may hold a tree. -/
def shownPart (document : Document) (container : HostId) (tree : Option Tree) : Part :=
  ⟨.fragment tree.toList none, document.children container⟩

/-- The nodes among those for several trees that show the one at an index. -/
def pieceAt (nodes : List HostId) (trees : List Tree) (index : Nat) (tree : Tree) : List HostId :=
  (nodes.drop (Tree.widths (trees.take index))).take tree.width

section

variable {nodes left right : List HostId} {tree first : Tree} {trees : List Tree} {index : Nat}

theorem pieceAt_zero (width : left.length = first.width) :
    pieceAt (left ++ right) (first :: trees) 0 first = left := by
  rw [pieceAt, List.take_zero, Tree.widths, List.drop_zero, List.take_left' width]

theorem pieceAt_succ (width : left.length = first.width) (index : Nat) (tree : Tree) :
    pieceAt (left ++ right) (first :: trees) (index + 1) tree = pieceAt right trees index tree := by
  unfold pieceAt
  rw [List.take_succ_cons, Tree.widths, ← List.drop_drop, List.drop_left' width]

theorem pieceAt_sublist (nodes : List HostId) (trees : List Tree) (index : Nat) (tree : Tree) :
    (pieceAt nodes trees index tree).Sublist nodes :=
  (List.take_sublist ..).trans (List.drop_sublist ..)

/-- Nodes for trees are cut into pieces. -/
theorem exists_mem_pieceAt {node : HostId} (width : nodes.length = Tree.widths trees)
    (member : node ∈ nodes) :
    ∃ index tree, trees[index]? = some tree ∧ node ∈ pieceAt nodes trees index tree := by
  induction trees generalizing nodes with
  | nil =>
    rw [Tree.widths, List.length_eq_zero_iff] at width
    simp [width] at member
  | cons tree rest ih =>
    rw [Tree.widths] at width
    have here : (nodes.take tree.width).length = tree.width := by
      rw [List.length_take]
      omega
    have later : (nodes.drop tree.width).length = Tree.widths rest := by
      rw [List.length_drop]
      omega
    rw [← List.take_append_drop tree.width nodes] at member ⊢
    rcases List.mem_append.mp member with early | late
    · exact ⟨0, tree, rfl, by rwa [pieceAt_zero here]⟩
    · obtain ⟨index, found, listed, inside⟩ := ih later late
      exact ⟨index + 1, found, listed, by rwa [pieceAt_succ here]⟩

/-- The pieces of distinct nodes have nothing in common. -/
theorem pieceAt_disjoint {other : Nat} {later : Tree} (distinct : nodes.Nodup)
    (found : trees[index]? = some tree) (less : index < other) :
    (pieceAt nodes trees index tree).Disjoint (pieceAt nodes trees other later) := by
  have upTo : Tree.widths (trees.take index) + tree.width = Tree.widths (trees.take (index + 1)) := by
    rw [List.take_add_one, found, Tree.widths_append]
    rfl
  have earlier : Tree.widths (trees.take (index + 1)) ≤ Tree.widths (trees.take other) := by
    rw [← List.take_append_drop (index + 1) (trees.take other), Tree.widths_append, List.take_take,
      Nat.min_eq_left less]
    exact Nat.le_add_right ..
  have apart := List.disjoint_take_drop distinct earlier
  refine List.disjoint_of_subset_left ?_ (List.disjoint_of_subset_right ?_ apart)
  · rw [pieceAt, List.take_drop, upTo]
    exact List.drop_subset ..
  · exact List.take_subset ..

end

namespace Document

section

variable (document : Document)

/-- The nodes that show the children of a part: those of a fragment are its own. -/
def nodesWithin (part : Part) : List HostId :=
  if part.tree.hasNode then part.nodes.flatMap document.children else part.nodes

/-- The child of a part at an index. -/
def child? (part : Part) (index : Nat) : Option Part :=
  part.tree.children[index]?.map fun child =>
    ⟨child, pieceAt (document.nodesWithin part) part.tree.children index child⟩

/-- The part of a part at an address. -/
def part? : Part → List Nat → Option Part
  | part, [] => some part
  | part, index :: rest => (document.child? part index).bind fun child => part? child rest

/-- The host node of the text or element at an address. -/
def host? (part : Part) (address : List Nat) : Option HostId :=
  (document.part? part address).bind fun here =>
    if here.tree.hasNode then here.nodes.head? else none

end

variable {document : Document} {part child other : Part} {parent node : HostId} {index : Nat}
  {nodes : List HostId} {tree : Tree} {trees : List Tree} {address rest : List Nat}

theorem child?_eq_some_iff : document.child? part index = some child ↔
    part.tree.children[index]? = some child.tree ∧
      child.nodes = pieceAt (document.nodesWithin part) part.tree.children index child.tree := by
  unfold child?
  rw [Option.map_eq_some_iff]
  constructor
  · rintro ⟨tree, found, rfl⟩
    exact ⟨found, rfl⟩
  · rintro ⟨found, same⟩
    exact ⟨child.tree, found, by rw [← same]⟩

theorem part?_cons_eq_some_iff : document.part? part (index :: rest) = some other ↔
    ∃ child, document.child? part index = some child ∧ document.part? child rest = some other := by
  rw [part?, Option.bind_eq_some_iff]

theorem host?_cons (part : Part) (index : Nat) (rest : List Nat) :
    document.host? part (index :: rest) =
      (document.child? part index).bind fun child => document.host? child rest := by
  unfold host?
  rw [part?]
  cases document.child? part index <;> rfl

theorem host?_cons_eq_some_iff : document.host? part (index :: rest) = some node ↔
    ∃ child, document.child? part index = some child ∧ document.host? child rest = some node := by
  rw [host?_cons, Option.bind_eq_some_iff]

theorem part?_append (part : Part) (first second : List Nat) :
    document.part? part (first ++ second) =
      (document.part? part first).bind fun here => document.part? here second := by
  induction first generalizing part with
  | nil => rfl
  | cons index rest ih =>
    rw [List.cons_append, part?, part?]
    cases document.child? part index with
    | none => rfl
    | some child => exact ih child

/-- Every part of the tree has its nodes. -/
theorem map_tree_part? (document : Document) (part : Part) (address : List Nat) :
    (document.part? part address).map Part.tree = part.tree.at? address := by
  induction address generalizing part with
  | nil => rfl
  | cons index rest ih =>
    rw [part?, Tree.at?, child?]
    cases part.tree.children[index]? with
    | none => rfl
    | some child => exact ih _

/-- Whether the nodes of a part show its tree. -/
def ShowsPart (document : Document) (part : Part) : Prop :=
  document.Shows part.nodes part.tree

theorem ShowsAll.pieceAt (shown : document.ShowsAll nodes trees)
    (found : trees[index]? = some tree) :
    document.Shows (pieceAt nodes trees index tree) tree := by
  induction trees generalizing nodes index with
  | nil => simp at found
  | cons first others ih =>
    obtain ⟨left, right, rfl, here, later⟩ := shown
    cases index with
    | zero =>
      cases (Option.some.inj found : first = tree)
      rwa [pieceAt_zero here.length_eq]
    | succ index =>
      rw [pieceAt_succ here.length_eq]
      exact ih later found

theorem ShowsPart.within (shown : document.ShowsPart part) :
    document.ShowsAll (document.nodesWithin part) part.tree.children := by
  obtain ⟨tree, nodes⟩ := part
  cases tree with
  | text content =>
    obtain ⟨node, same, -, childless⟩ := shown
    have same : nodes = [node] := same
    simp [nodesWithin, Tree.hasNode, Tree.children, same, childless, ShowsAll]
  | element tag props children key =>
    obtain ⟨node, _, _, same, -, -, below⟩ := shown
    have same : nodes = [node] := same
    simpa [nodesWithin, Tree.hasNode, Tree.children, same] using below
  | fragment children key => exact shown

theorem ShowsPart.of_child (shown : document.ShowsPart part)
    (found : document.child? part index = some child) : document.ShowsPart child := by
  obtain ⟨here, nodes⟩ := child?_eq_some_iff.mp found
  unfold ShowsPart
  rw [nodes]
  exact shown.within.pieceAt here

theorem ShowsPart.of_part (shown : document.ShowsPart part)
    (found : document.part? part address = some other) : document.ShowsPart other := by
  induction address generalizing part with
  | nil => exact Option.some.inj found ▸ shown
  | cons index rest ih =>
    obtain ⟨child, here, below⟩ := part?_cons_eq_some_iff.mp found
    exact ih (shown.of_child here) below

/-- A text or an element has one node. -/
theorem ShowsPart.eq_singleton (shown : document.ShowsPart part) (hasNode : part.tree.hasNode) :
    ∃ node, part.nodes = [node] := by
  unfold ShowsPart at shown
  cases same : part.tree with
  | text content =>
    rw [same] at shown
    obtain ⟨node, single, -⟩ := shown
    exact ⟨node, single⟩
  | element tag props children key =>
    rw [same] at shown
    obtain ⟨node, _, _, single, -⟩ := shown
    exact ⟨node, single⟩
  | fragment => simp [same, Tree.hasNode] at hasNode

theorem ShowsPart.host?_nil (shown : document.ShowsPart part) :
    document.host? part [] = some node ↔ part.tree.hasNode ∧ part.nodes = [node] := by
  have here : document.host? part [] = if part.tree.hasNode then part.nodes.head? else none := rfl
  rw [here]
  by_cases hasNode : part.tree.hasNode
  · obtain ⟨single, same⟩ := shown.eq_singleton hasNode
    simp [hasNode, same]
  · simp [hasNode]

/-- Every text or element of a tree that is shown has a host node that shows it. -/
theorem ShowsPart.exists_host? (shown : document.ShowsPart part)
    (found : part.tree.at? address = some tree) (hasNode : tree.hasNode) :
    ∃ node, document.host? part address = some node ∧ document.Shows [node] tree := by
  rw [← map_tree_part? document] at found
  obtain ⟨here, isPart, rfl⟩ := Option.map_eq_some_iff.mp found
  have shownHere := shown.of_part isPart
  obtain ⟨node, same⟩ := shownHere.eq_singleton hasNode
  refine ⟨node, by simp [host?, isPart, hasNode, same], ?_⟩
  rw [← same]
  exact shownHere

theorem mem_nodesWithin_of_child (found : document.child? part index = some child)
    (member : node ∈ child.nodes) : node ∈ document.nodesWithin part := by
  rw [(child?_eq_some_iff.mp found).2] at member
  exact (pieceAt_sublist ..).subset member

theorem below_of_mem_nodesWithin (member : node ∈ document.nodesWithin part) :
    ∃ top ∈ part.nodes, document.Below top node := by
  unfold nodesWithin at member
  split at member
  · obtain ⟨top, listed, here⟩ := List.mem_flatMap.mp member
    exact ⟨top, listed, .single here⟩
  · exact ⟨node, member, .refl⟩

/-- A node with an address lies below one of the nodes of the part. -/
theorem ShowsPart.below_of_host? (shown : document.ShowsPart part)
    (found : document.host? part address = some node) :
    ∃ top ∈ part.nodes, document.Below top node := by
  induction address generalizing part with
  | nil =>
    obtain ⟨-, same⟩ := shown.host?_nil.mp found
    exact ⟨node, by simp [same], .refl⟩
  | cons index rest ih =>
    obtain ⟨child, here, below⟩ := host?_cons_eq_some_iff.mp found
    obtain ⟨top, listed, path⟩ := ih (shown.of_child here) below
    obtain ⟨above, inside, front⟩ := below_of_mem_nodesWithin (mem_nodesWithin_of_child here listed)
    exact ⟨above, inside, front.trans path⟩

/-- Distinct nodes side by side under one parent. -/
structure Under (document : Document) (parent : HostId) (nodes : List HostId) : Prop where
  distinct : nodes.Nodup
  attached : ∀ node ∈ nodes, node ∈ document.children parent

theorem ShowsPart.under_within (shown : document.ShowsPart part) (linked : document.Linked)
    (under : document.Under parent part.nodes) :
    ∃ above, document.Under above (document.nodesWithin part) := by
  unfold nodesWithin
  split
  next hasNode =>
    obtain ⟨node, same⟩ := shown.eq_singleton hasNode
    refine ⟨node, ?_⟩
    rw [same, List.flatMap_singleton]
    exact ⟨linked.distinct node, fun _ member => member⟩
  next => exact ⟨parent, under⟩

/-- An address below a text or an element never has its node. -/
private theorem ShowsPart.host?_cons_ne (shown : document.ShowsPart part)
    (here : document.host? part [] = some node) (index : Nat) (rest : List Nat) :
    document.host? part (index :: rest) ≠ some node := by
  intro found
  obtain ⟨hasNode, same⟩ := shown.host?_nil.mp here
  obtain ⟨child, isChild, below⟩ := host?_cons_eq_some_iff.mp found
  obtain ⟨top, listed, path⟩ := (shown.of_child isChild).below_of_host? below
  have member := mem_nodesWithin_of_child isChild listed
  rw [nodesWithin, if_pos hasNode, same, List.flatMap_singleton] at member
  have grounded : document.Grounded node :=
    (showsAll_singleton.mpr shown).grounded (by simp [same])
  exact grounded top member path

/-- No two addresses have one host node. -/
theorem ShowsPart.host?_injective (shown : document.ShowsPart part) (linked : document.Linked)
    (under : document.Under parent part.nodes) {first second : List Nat}
    (here : document.host? part first = some node) (there : document.host? part second = some node) :
    first = second := by
  induction first generalizing part parent second with
  | nil =>
    cases second with
    | nil => rfl
    | cons index rest => exact absurd there (shown.host?_cons_ne here index rest)
  | cons index rest ih =>
    cases second with
    | nil => exact absurd here (shown.host?_cons_ne there index rest)
    | cons position remainder =>
      obtain ⟨child, isChild, below⟩ := host?_cons_eq_some_iff.mp here
      obtain ⟨other, isOther, belowOther⟩ := host?_cons_eq_some_iff.mp there
      obtain ⟨above, side⟩ := shown.under_within linked under
      by_cases same : index = position
      · subst same
        rw [isChild] at isOther
        cases isOther
        have underChild : document.Under above child.nodes :=
          { distinct := by
              rw [(child?_eq_some_iff.mp isChild).2]
              exact side.distinct.sublist (pieceAt_sublist ..)
            attached := fun top member =>
              side.attached top (mem_nodesWithin_of_child isChild member) }
        rw [ih (shown.of_child isChild) underChild below belowOther]
      · -- The children show their trees with different siblings, and nothing is below two of them.
        obtain ⟨top, listed, path⟩ := (shown.of_child isChild).below_of_host? below
        obtain ⟨top', listed', path'⟩ := (shown.of_child isOther).below_of_host? belowOther
        have member := mem_nodesWithin_of_child isChild listed
        have member' := mem_nodesWithin_of_child isOther listed'
        have apart : top ≠ top' := by
          rintro rfl
          rw [(child?_eq_some_iff.mp isChild).2] at listed
          rw [(child?_eq_some_iff.mp isOther).2] at listed'
          rcases Nat.lt_or_gt_of_ne same with less | greater
          · exact pieceAt_disjoint side.distinct (child?_eq_some_iff.mp isChild).1 less listed listed'
          · exact pieceAt_disjoint side.distinct (child?_eq_some_iff.mp isOther).1 greater listed'
              listed
        exact absurd path' (linked.disjoint_below (shown.within.grounded member)
          (shown.within.grounded member') (side.attached top member) (side.attached top' member')
          apart path)

/-- Each node that shows children of a part is one of those of some child. -/
private theorem ShowsPart.exists_child (shown : document.ShowsPart part)
    (member : node ∈ document.nodesWithin part) :
    ∃ index child, document.child? part index = some child ∧ node ∈ child.nodes ∧
      sizeOf child.tree < sizeOf part.tree := by
  obtain ⟨index, tree, found, listed⟩ := exists_mem_pieceAt shown.within.length_eq member
  refine ⟨index, ⟨tree, _⟩, child?_eq_some_iff.mpr ⟨found, rfl⟩, listed, ?_⟩
  have smaller := List.sizeOf_lt_of_mem (List.mem_of_getElem? found)
  cases same : part.tree with
  | text => simp [same, Tree.children] at found
  | element tag props children key =>
    rw [same] at smaller
    simp only [Tree.children, Tree.element.sizeOf_spec] at smaller ⊢
    omega
  | fragment children key =>
    rw [same] at smaller
    simp only [Tree.children, Tree.fragment.sizeOf_spec] at smaller ⊢
    omega

/-- Each of the nodes that show a part has an address. -/
theorem ShowsPart.exists_address (shown : document.ShowsPart part) (member : node ∈ part.nodes) :
    ∃ address, document.host? part address = some node := by
  induction size : sizeOf part.tree using Nat.strongRecOn generalizing part with
  | ind size ih =>
    by_cases hasNode : part.tree.hasNode
    · obtain ⟨single, same⟩ := shown.eq_singleton hasNode
      rw [same, List.mem_singleton] at member
      exact ⟨[], shown.host?_nil.mpr ⟨hasNode, member ▸ same⟩⟩
    · have inside : node ∈ document.nodesWithin part := by
        rwa [nodesWithin, if_neg hasNode]
      obtain ⟨index, child, isChild, listed, smaller⟩ := shown.exists_child inside
      obtain ⟨address, below⟩ := ih _ (size ▸ smaller) (shown.of_child isChild) listed rfl
      exact ⟨index :: address, host?_cons_eq_some_iff.mpr ⟨child, isChild, below⟩⟩

/-- Each of the nodes that show the children of a part has an address. -/
theorem ShowsPart.exists_address_within (shown : document.ShowsPart part)
    (member : node ∈ document.nodesWithin part) :
    ∃ address, document.host? part address = some node := by
  obtain ⟨index, child, isChild, listed, -⟩ := shown.exists_child member
  obtain ⟨address, below⟩ := (shown.of_child isChild).exists_address listed
  exact ⟨index :: address, host?_cons_eq_some_iff.mpr ⟨child, isChild, below⟩⟩

/-- With a host node its children have addresses too. -/
theorem ShowsPart.exists_address_child (shown : document.ShowsPart part)
    (found : document.host? part address = some parent) (member : node ∈ document.children parent) :
    ∃ below, document.host? part below = some node := by
  obtain ⟨here, isPart, isHost⟩ := Option.bind_eq_some_iff.mp found
  have shownHere := shown.of_part isPart
  obtain ⟨hasNode, same⟩ := shownHere.host?_nil.mp isHost
  have inside : node ∈ document.nodesWithin here := by
    rwa [nodesWithin, if_pos hasNode, same, List.flatMap_singleton]
  obtain ⟨below, further⟩ := shownHere.exists_address_within inside
  refine ⟨address ++ below, ?_⟩
  rw [host?, part?_append, isPart]
  exact further

end Document

end ReactiveTree
