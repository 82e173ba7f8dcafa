import ReactiveTree.Graph.Node

/-! # The dependency graph

The graph holds the live nodes of one reactor. A read is an edge from the node that was read, which
lists the reader among its dependents, to the reader, which lists it among its dependencies. Writes
are recorded on both ends in the same way. An operation that names an unknown node leaves the graph
as it is, on that side.
-/

namespace ReactiveTree

/-- The live nodes, in the order in which they were added. -/
structure Graph where
  nodes : List Node
  deriving DecidableEq, Repr

namespace Graph

def empty : Graph :=
  ⟨[]⟩

/-- The live node of that name. -/
def node? (graph : Graph) (id : NodeId) : Option Node :=
  graph.nodes.find? fun node => node.id = id

def contains (graph : Graph) (id : NodeId) : Bool :=
  (graph.node? id).isSome

def kind? (graph : Graph) (id : NodeId) : Option NodeKind :=
  (graph.node? id).map Node.kind

def version? (graph : Graph) (id : NodeId) : Option Nat :=
  (graph.node? id).map Node.version

/-- What a node reads; nothing for an unknown one. -/
def dependenciesOf (graph : Graph) (id : NodeId) : List NodeId :=
  ((graph.node? id).map Node.dependencies).getD []

/-- Who reads a node; nobody for an unknown one. -/
def dependentsOf (graph : Graph) (id : NodeId) : List NodeId :=
  ((graph.node? id).map Node.dependents).getD []

/-- The effects that have written a node. -/
def writersOf (graph : Graph) (id : NodeId) : List NodeId :=
  ((graph.node? id).map Node.writers).getD []

/-- Those of the names that belong to live nodes of one kind. -/
def ofKind (graph : Graph) (kind : NodeKind) (ids : List NodeId) : List NodeId :=
  ids.filter fun id => graph.kind? id = some kind

/-- Change every node by a function that may look at its name. -/
def mapNodes (graph : Graph) (change : Node → Node) : Graph :=
  ⟨graph.nodes.map change⟩

/-- Change the node of that name, if it is live. -/
def modify (graph : Graph) (id : NodeId) (change : Node → Node) : Graph :=
  graph.mapNodes fun node => if node.id = id then change node else node

/-- Add a node; a live node of the same name is replaced. -/
def insert (graph : Graph) (node : Node) : Graph :=
  if graph.contains node.id then graph.modify node.id fun _ => node
  else ⟨graph.nodes ++ [node]⟩

/-- Remove a node, and its name from the sets of every node that its own sets mention. -/
def remove (graph : Graph) (id : NodeId) : Graph :=
  match graph.node? id with
  | none => graph
  | some gone =>
    { nodes := (graph.nodes.filter fun node => node.id ≠ id).map fun node =>
        { node with
          dependents :=
            if node.id ∈ gone.dependencies then node.dependents.erase id else node.dependents
          dependencies :=
            if node.id ∈ gone.dependents then node.dependencies.erase id else node.dependencies
          writes := if node.id ∈ gone.writers then node.writes.erase id else node.writes
          writers := if node.id ∈ gone.writes then node.writers.erase id else node.writers } }

/-- Record that `reader` reads `read`. A node never depends on itself. -/
def connect (graph : Graph) (read reader : NodeId) : Graph :=
  if read = reader ∨ ¬ graph.contains read ∨ ¬ graph.contains reader then graph
  else (graph.modify read (·.addDependent reader)).modify reader (·.addDependency read)

/-- Forget that `reader` reads `read`. -/
def disconnect (graph : Graph) (read reader : NodeId) : Graph :=
  (graph.modify read (·.removeDependent reader)).modify reader (·.removeDependency read)

/-- Forget everything that a node reads, on both sides, so that its next run records a new set. -/
def unsubscribe (graph : Graph) (id : NodeId) : Graph :=
  let read := graph.dependenciesOf id
  (graph.modify id Node.dropDependencies).mapNodes fun node =>
    if node.id ∈ read then node.removeDependent id else node

/-- List a node again among the dependents of everything that it still reads. -/
def resubscribe (graph : Graph) (id : NodeId) : Graph :=
  let read := graph.dependenciesOf id
  graph.mapNodes fun node => if node.id ∈ read then node.addDependent id else node

/-- Record that an effect writes a node. -/
def noteWrite (graph : Graph) (source effect : NodeId) : Graph :=
  if graph.kind? effect = some .effect ∧ graph.contains source then
    (graph.modify source (·.addWriter effect)).modify effect (·.addWrite source)
  else graph

/-- The derived nodes that a node reads, each with its present version. -/
def derivedInputs (graph : Graph) (id : NodeId) : List (NodeId × Nat) :=
  (graph.dependenciesOf id).filterMap fun dependency =>
    match graph.node? dependency with
    | some node => if node.kind = .derived then some (dependency, node.version) else none
    | none => none

/-- Sort names, oldest first. -/
def sortIds (ids : List NodeId) : List NodeId :=
  ids.mergeSort fun left right => left.index ≤ right.index

def effects (graph : Graph) : List NodeId :=
  sortIds ((graph.nodes.filter fun node => node.kind = .effect).map Node.id)

def size (graph : Graph) : Nat :=
  graph.nodes.length

theorem node?_id {graph : Graph} {id : NodeId} {node : Node} (found : graph.node? id = some node) :
    node.id = id := by
  have := List.find?_some found
  simpa using this

theorem node?_mem {graph : Graph} {id : NodeId} {node : Node} (found : graph.node? id = some node) :
    node ∈ graph.nodes :=
  List.mem_of_find?_eq_some found

theorem node?_mapNodes (graph : Graph) {change : Node → Node}
    (kept : ∀ node, (change node).id = node.id) (id : NodeId) :
    (graph.mapNodes change).node? id = (graph.node? id).map change := by
  unfold mapNodes node?
  rw [List.find?_map]
  congr 2
  funext node
  simp [kept]

theorem node?_modify (graph : Graph) {change : Node → Node}
    (kept : ∀ node, (change node).id = node.id) (id other : NodeId) :
    (graph.modify id change).node? other =
      if other = id then (graph.node? id).map change else graph.node? other := by
  unfold modify
  rw [node?_mapNodes graph (by intro node; split <;> simp [kept])]
  split
  next same =>
    subst same
    cases found : graph.node? other with
    | none => rfl
    | some node => simp [node?_id found]
  next apart =>
    cases found : graph.node? other with
    | none => rfl
    | some node => simp [node?_id found, apart]

theorem node?_insert (graph : Graph) (node : Node) (other : NodeId) :
    (graph.insert node).node? other = if other = node.id then some node else graph.node? other := by
  have keeps (old : Node) : (if old.id = node.id then node else old).id = old.id := by
    split
    next same => exact same.symm
    next => rfl
  unfold insert
  split
  next known =>
    unfold modify
    rw [node?_mapNodes graph keeps]
    obtain ⟨present, found⟩ := Option.isSome_iff_exists.mp known
    split
    next same => simp [same, found, node?_id found]
    next apart =>
      cases live : graph.node? other with
      | none => rfl
      | some old => simp [node?_id live, apart]
  next unknown =>
    unfold contains at unknown
    have absent := Option.not_isSome_iff_eq_none.mp unknown
    unfold node? at absent ⊢
    rw [List.find?_append]
    split
    next same => simp [same, absent]
    next apart => simp [Ne.symm apart]

end Graph

end ReactiveTree
