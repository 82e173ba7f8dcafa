import Mathlib.Logic.Relation
import ReactiveTree.Proofs.Document.Links

/-! # What a document shows

`Shows` says that host nodes, side by side, look like a tree: a fragment is shown by what shows its
children, a text and an element by one node each, the element with the attributes of its props and
with children that show its children. What is shown depends only on the nodes below, and siblings
have nothing below them in common.
-/

namespace ReactiveTree

/-- The attribute that a prop gives a host element; reserved names and handlers give none. -/
def Props.attribute? (props : Props) (name : String) : Option String :=
  if isReserved name then none else (props.get? name).bind PropValue.attribute?

/-- Whether a tree has a host node of its own. -/
def Tree.hasNode : Tree → Bool
  | .fragment .. => false
  | _ => true

namespace Document

section

variable (document : Document)

mutual

/-- Whether host nodes side by side show a tree. -/
def Shows (nodes : List HostId) : Tree → Prop
  | .text content => ∃ node, nodes = [node] ∧ document.content? node = some (.text content) ∧
      document.children node = []
  | .element tag props children _ => ∃ node attributes listeners, nodes = [node] ∧
      document.content? node = some (.element tag attributes listeners) ∧
      (∀ name, attributes.lookup name = props.attribute? name) ∧
      ShowsAll (document.children node) children
  | .fragment children _ => ShowsAll nodes children

/-- Whether host nodes side by side show several trees, one after the other. -/
def ShowsAll (nodes : List HostId) : List Tree → Prop
  | [] => nodes = []
  | tree :: rest => ∃ left right, nodes = left ++ right ∧ Shows left tree ∧ ShowsAll right rest

end

/-- The nodes from one on down. -/
def Below : HostId → HostId → Prop :=
  Relation.ReflTransGen fun parent child => child ∈ document.children parent

/-- A set of nodes that has all their children. -/
def Closed (region : HostId → Prop) : Prop :=
  ∀ {parent child}, region parent → child ∈ document.children parent → region child

end

variable {document changed : Document} {node parent child other : HostId} {nodes : List HostId}
  {tree : Tree} {trees : List Tree}

mutual

theorem Shows.length_eq {nodes : List HostId} :
    (tree : Tree) → document.Shows nodes tree → nodes.length = tree.width
  | .text _, shown => by
    obtain ⟨node, rfl, -⟩ := shown
    rfl
  | .element .., shown => by
    obtain ⟨node, _, _, rfl, -⟩ := shown
    rfl
  | .fragment children _, shown => ShowsAll.length_eq children shown

theorem ShowsAll.length_eq {nodes : List HostId} :
    (trees : List Tree) → document.ShowsAll nodes trees → nodes.length = Tree.widths trees
  | [], shown => by
    cases shown
    rfl
  | tree :: rest, shown => by
    obtain ⟨left, right, rfl, first, others⟩ := shown
    rw [List.length_append, Shows.length_eq tree first, ShowsAll.length_eq rest others, Tree.widths]

end

mutual

/-- A tree without width asks for no node. -/
theorem shows_nil : (tree : Tree) → tree.width = 0 → document.Shows [] tree
  | .text _, width => by cases width
  | .element .., width => by cases width
  | .fragment children _, width => showsAll_nil children width

theorem showsAll_nil : (trees : List Tree) → Tree.widths trees = 0 →
    document.ShowsAll [] trees
  | [], _ => rfl
  | tree :: rest, width => by
    rw [Tree.widths, Nat.add_eq_zero_iff] at width
    exact ⟨[], [], rfl, shows_nil tree width.1, showsAll_nil rest width.2⟩

end

theorem showsAll_append {first second : List Tree} :
    document.ShowsAll nodes (first ++ second) ↔
      ∃ left right, nodes = left ++ right ∧ document.ShowsAll left first ∧
        document.ShowsAll right second := by
  induction first generalizing nodes with
  | nil => simp [ShowsAll]
  | cons tree rest ih =>
    simp only [List.cons_append, ShowsAll, ih]
    constructor
    · rintro ⟨left, _, rfl, shown, middle, right, rfl, others, last⟩
      exact ⟨left ++ middle, right, by simp, ⟨left, middle, rfl, shown, others⟩, last⟩
    · rintro ⟨_, right, rfl, ⟨left, middle, rfl, shown, others⟩, last⟩
      exact ⟨left, middle ++ right, by simp, shown, middle, right, rfl, others, last⟩

/-- A fragment among siblings counts as its children. -/
theorem showsAll_fragment_cons {children rest : List Tree} {key : Option Key} :
    document.ShowsAll nodes (.fragment children key :: rest) ↔
      document.ShowsAll nodes (children ++ rest) := by
  rw [showsAll_append]
  rfl

theorem showsAll_singleton : document.ShowsAll nodes [tree] ↔ document.Shows nodes tree := by
  simp [ShowsAll]

mutual

/-- Nodes that look the same, with all that is below them, show the same tree. -/
theorem Shows.congr {region : HostId → Prop} (closed : document.Closed region)
    (same : ∀ id, region id → changed.content? id = document.content? id ∧
      changed.children id = document.children id) {nodes : List HostId}
    (inside : ∀ node ∈ nodes, region node) :
    (tree : Tree) → document.Shows nodes tree → changed.Shows nodes tree
  | .text _, shown => by
    obtain ⟨node, rfl, content, childless⟩ := shown
    obtain ⟨sameContent, sameChildren⟩ := same node (inside node (List.mem_singleton_self _))
    exact ⟨node, rfl, sameContent.trans content, sameChildren.trans childless⟩
  | .element _ _ children _, shown => by
    obtain ⟨node, attributes, listeners, rfl, content, looks, below⟩ := shown
    have here := inside node (List.mem_singleton_self _)
    obtain ⟨sameContent, sameChildren⟩ := same node here
    refine ⟨node, attributes, listeners, rfl, sameContent.trans content, looks, ?_⟩
    rw [sameChildren]
    exact ShowsAll.congr closed same (fun child member => closed here member) children below
  | .fragment children _, shown => ShowsAll.congr closed same inside children shown

theorem ShowsAll.congr {region : HostId → Prop} (closed : document.Closed region)
    (same : ∀ id, region id → changed.content? id = document.content? id ∧
      changed.children id = document.children id) {nodes : List HostId}
    (inside : ∀ node ∈ nodes, region node) :
    (trees : List Tree) → document.ShowsAll nodes trees → changed.ShowsAll nodes trees
  | [], shown => shown
  | tree :: rest, shown => by
    obtain ⟨left, right, rfl, first, others⟩ := shown
    exact ⟨left, right, rfl,
      Shows.congr closed same (fun node member => inside node (List.mem_append_left _ member))
        tree first,
      ShowsAll.congr closed same (fun node member => inside node (List.mem_append_right _ member))
        rest others⟩

end

mutual

/-- Each of the nodes that show a tree shows a part of it that has a node of its own. -/
theorem Shows.of_mem {nodes : List HostId} {node : HostId} (member : node ∈ nodes) :
    (tree : Tree) → document.Shows nodes tree →
      ∃ part, part.hasNode ∧ document.Shows [node] part ∧ sizeOf part ≤ sizeOf tree
  | .text content, shown => by
    obtain ⟨only, rfl, found⟩ := shown
    cases List.mem_singleton.mp member
    exact ⟨.text content, rfl, ⟨node, rfl, found⟩, Nat.le_refl _⟩
  | .element tag props children key, shown => by
    obtain ⟨only, attributes, listeners, rfl, found⟩ := shown
    cases List.mem_singleton.mp member
    exact ⟨.element tag props children key, rfl, ⟨node, attributes, listeners, rfl, found⟩,
      Nat.le_refl _⟩
  | .fragment children key, shown => by
    obtain ⟨part, hasNode, partShown, smaller⟩ := ShowsAll.of_mem member children shown
    refine ⟨part, hasNode, partShown, ?_⟩
    simp only [Tree.fragment.sizeOf_spec]
    omega

theorem ShowsAll.of_mem {nodes : List HostId} {node : HostId} (member : node ∈ nodes) :
    (trees : List Tree) → document.ShowsAll nodes trees →
      ∃ part, part.hasNode ∧ document.Shows [node] part ∧ sizeOf part ≤ sizeOf trees
  | [], shown => by
    cases shown
    cases member
  | tree :: rest, shown => by
    obtain ⟨left, right, rfl, first, others⟩ := shown
    simp only [List.cons.sizeOf_spec]
    rcases List.mem_append.mp member with early | late
    · obtain ⟨part, hasNode, partShown, smaller⟩ := Shows.of_mem early tree first
      exact ⟨part, hasNode, partShown, by omega⟩
    · obtain ⟨part, hasNode, partShown, smaller⟩ := ShowsAll.of_mem late rest others
      exact ⟨part, hasNode, partShown, by omega⟩

end

private theorem Shows.part_of_child (hasNode : tree.hasNode) (shown : document.Shows [node] tree)
    (member : child ∈ document.children node) :
    ∃ part, part.hasNode ∧ document.Shows [child] part ∧ sizeOf part < sizeOf tree := by
  cases tree with
  | text content =>
    obtain ⟨only, same, -, childless⟩ := shown
    cases List.singleton_inj.mp same
    simp [childless] at member
  | element tag props children key =>
    obtain ⟨only, _, _, same, -, -, below⟩ := shown
    cases List.singleton_inj.mp same
    obtain ⟨part, partNode, partShown, smaller⟩ := below.of_mem member
    refine ⟨part, partNode, partShown, ?_⟩
    simp only [Tree.element.sizeOf_spec]
    omega
  | fragment => cases hasNode

/-- The node does not lie below itself. -/
def Grounded (document : Document) (node : HostId) : Prop :=
  ∀ child ∈ document.children node, ¬ document.Below child node

private theorem Shows.grounded (hasNode : tree.hasNode) (shown : document.Shows [node] tree) :
    document.Grounded node := by
  induction size : sizeOf tree using Nat.strongRecOn generalizing tree node with
  | ind size ih =>
    intro child member path
    obtain ⟨part, partNode, partShown, smaller⟩ := shown.part_of_child hasNode member
    -- The path back up to the node leads on to the child again.
    rcases Relation.ReflTransGen.cases_head path with rfl | ⟨next, step, rest⟩
    · exact ih _ (by omega) partNode partShown rfl child member .refl
    · exact ih _ (by omega) partNode partShown rfl next step (rest.tail member)

theorem ShowsAll.grounded (shown : document.ShowsAll nodes trees) (member : node ∈ nodes) :
    document.Grounded node := by
  obtain ⟨part, hasNode, partShown, -⟩ := shown.of_mem member
  exact partShown.grounded hasNode

/-- A node whose children show trees does not lie below itself either. -/
theorem ShowsAll.grounded_parent (shown : document.ShowsAll (document.children parent) trees) :
    document.Grounded parent := by
  intro child member path
  rcases Relation.ReflTransGen.cases_head path with rfl | ⟨next, step, rest⟩
  · exact shown.grounded member child member .refl
  · exact shown.grounded member next step (rest.tail member)

theorem Linked.not_below (linked : document.Linked) (grounded : document.Grounded child)
    (first : child ∈ document.children parent) (second : other ∈ document.children parent)
    (apart : child ≠ other) : ¬ document.Below child other := by
  intro path
  rcases Relation.ReflTransGen.cases_tail path with same | ⟨above, front, last⟩
  · exact apart same.symm
  · -- The last node before the sibling is their common parent.
    have same : above = parent := by
      have here := linked.mem_children_iff.mp last
      rw [linked.mem_children_iff.mp second] at here
      exact (Option.some.inj here).symm
    subst same
    rcases Relation.ReflTransGen.cases_head front with rfl | ⟨next, step, rest⟩
    · exact grounded child first .refl
    · exact grounded next step (rest.tail first)

/-- Nodes below a known node are known. -/
theorem Linked.contains_of_below (linked : document.Linked) (known : document.contains parent)
    (path : document.Below parent node) : document.contains node := by
  rcases Relation.ReflTransGen.cases_tail path with rfl | ⟨above, -, last⟩
  · exact known
  · exact linked.contains_child last

/-- Of two nodes above a third, one is above the other. -/
theorem Linked.below_total (linked : document.Linked) (first : document.Below parent node)
    (second : document.Below other node) :
    document.Below parent other ∨ document.Below other parent := by
  have unique : Relator.RightUnique
      (Function.swap fun above below => below ∈ document.children above) := by
    intro below above above' edge edge'
    have here := linked.mem_children_iff.mp edge
    rw [linked.mem_children_iff.mp edge'] at here
    exact (Option.some.inj here).symm
  rcases Relation.ReflTransGen.total_of_right_unique unique first.swap second.swap with path | path
  · exact Or.inr path.swap
  · exact Or.inl path.swap

/-- What lies below a node that is not below itself is not below itself either. -/
theorem Linked.grounded_of_below (linked : document.Linked) (grounded : document.Grounded parent)
    (path : document.Below parent node) : document.Grounded node := by
  induction path with
  | refl => exact grounded
  | @tail above node _ edge ih =>
    intro child member back
    -- The way back to the node passes its parent, and closes there too.
    rcases Relation.ReflTransGen.cases_tail back with rfl | ⟨last, front, step⟩
    · have same : node = above := by
        have here := linked.mem_children_iff.mp member
        rw [linked.mem_children_iff.mp edge] at here
        exact (Option.some.inj here).symm
      exact ih node edge (same ▸ .refl)
    · have same : last = above := by
        have here := linked.mem_children_iff.mp step
        rw [linked.mem_children_iff.mp edge] at here
        exact (Option.some.inj here).symm
      exact ih node edge (same ▸ .head member front)

/-- Siblings of which neither lies below itself have no node below both. -/
theorem Linked.disjoint_below (linked : document.Linked) (grounded : document.Grounded child)
    (grounded' : document.Grounded other)
    (first : child ∈ document.children parent) (second : other ∈ document.children parent)
    (apart : child ≠ other) {id : HostId} (left : document.Below child id) :
    ¬ document.Below other id := by
  intro right
  rcases linked.below_total left right with path | path
  · exact linked.not_below grounded first second apart path
  · exact linked.not_below grounded' second first (Ne.symm apart) path

end Document

end ReactiveTree
