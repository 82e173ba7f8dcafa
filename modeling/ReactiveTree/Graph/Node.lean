import ReactiveTree.Sequence.Distinct

/-! # Nodes of the dependency graph

A node stands for a signal (a source), a computed value (derived) or an effect. It knows what it
reads and who reads it; an effect also knows which sources it has written, and a source by which
effects. All four sets keep the order of first addition.
-/

namespace ReactiveTree

/-- A node's name in the dependency graph; larger names were given later. -/
@[ext] structure NodeId where
  index : Nat
  deriving DecidableEq, Repr, Inhabited

/-- Nodes are shown by their number. -/
def NodeId.text (id : NodeId) : String :=
  "#" ++ toString id.index

/-- The three roles of a node. -/
inductive NodeKind where
  | source
  | derived
  | effect
  deriving DecidableEq, Repr

/-- How far a node's value can be trusted. -/
inductive Freshness where
  /-- The value is up to date. -/
  | clean
  /-- Something further up may have changed; a look at the inputs decides. -/
  | doubtful
  /-- A direct input changed, or nothing was ever evaluated. -/
  | dirty
  deriving DecidableEq, Repr

/-- Doubt is added to a clean node only; a dirty one stays dirty. -/
def Freshness.doubt : Freshness → Freshness
  | .clean => .doubtful
  | .doubtful => .doubtful
  | .dirty => .dirty

structure Node where
  id : NodeId
  kind : NodeKind
  freshness : Freshness
  /-- How many times the value has changed. -/
  version : Nat
  label : Option String
  /-- What this node read, in the order of first reading. -/
  dependencies : List NodeId
  /-- Who reads this node, in the order of subscription. -/
  dependents : List NodeId
  /-- The effects that have written this source. -/
  writers : List NodeId
  /-- The sources that this effect has written. -/
  writes : List NodeId
  deriving DecidableEq, Repr

namespace Node

/-- A new node has no edges; only a source starts clean. -/
def new (id : NodeId) (kind : NodeKind) : Node where
  id
  kind
  freshness := if kind = .source then .clean else .dirty
  version := 0
  label := none
  dependencies := []
  dependents := []
  writers := []
  writes := []

def isClean (node : Node) : Bool :=
  node.freshness = .clean

def markClean (node : Node) : Node :=
  { node with freshness := .clean }

def markDoubtful (node : Node) : Node :=
  { node with freshness := node.freshness.doubt }

def markDirty (node : Node) : Node :=
  { node with freshness := .dirty }

def bump (node : Node) : Node :=
  { node with version := node.version + 1 }

def withLabel (node : Node) (label : String) : Node :=
  { node with label := some label }

def addDependency (node : Node) (id : NodeId) : Node :=
  { node with dependencies := addLast node.dependencies id }

def removeDependency (node : Node) (id : NodeId) : Node :=
  { node with dependencies := node.dependencies.erase id }

def addDependent (node : Node) (id : NodeId) : Node :=
  { node with dependents := addLast node.dependents id }

def removeDependent (node : Node) (id : NodeId) : Node :=
  { node with dependents := node.dependents.erase id }

def addWriter (node : Node) (id : NodeId) : Node :=
  { node with writers := addLast node.writers id }

def removeWriter (node : Node) (id : NodeId) : Node :=
  { node with writers := node.writers.erase id }

def addWrite (node : Node) (id : NodeId) : Node :=
  { node with writes := addLast node.writes id }

def removeWrite (node : Node) (id : NodeId) : Node :=
  { node with writes := node.writes.erase id }

/-- Forget every dependent. -/
def dropDependents (node : Node) : Node :=
  { node with dependents := [] }

/-- Forget every dependency. -/
def dropDependencies (node : Node) : Node :=
  { node with dependencies := [] }

end Node

end ReactiveTree
