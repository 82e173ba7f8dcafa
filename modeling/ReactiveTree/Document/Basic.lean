import ReactiveTree.Tree.Basic

/-! # Documents

A document is a host that lives in memory: a list of nodes that are never freed, each with its
content, its parent and its children. A command that does not fit the document is refused and
changes nothing; the refusal says why. Every command carried out counts as one mutation, except that
removing an attribute or a listener that is not there goes uncounted, and so does creating a node.
-/

namespace ReactiveTree

/-- The place of a node in a document. -/
@[ext] structure HostId where
  index : Nat
  deriving DecidableEq, Repr, Inhabited

/-- Host nodes are shown by their number. -/
def HostId.text (id : HostId) : String :=
  "@" ++ toString id.index

/-- What a host node is, apart from its place in the tree. -/
inductive Content where
  | element (tag : String) (attributes : List (String × String))
      (listeners : List (String × Handler))
  | text (content : String)
  deriving DecidableEq, Repr

structure HostNode where
  content : Content
  parent : Option HostId
  children : List HostId
  deriving DecidableEq, Repr

structure Document where
  nodes : List HostNode
  /-- How many mutations were carried out. -/
  mutations : Nat
  deriving DecidableEq, Repr

/-- A change to the nodes that a document has. -/
inductive HostCommand where
  | setText (node : HostId) (content : String)
  | setAttribute (node : HostId) (name value : String)
  | removeAttribute (node : HostId) (name : String)
  | addListener (node : HostId) (event : String) (callback : Handler)
  | removeListener (node : HostId) (event : String)
  | insertChild (parent child : HostId) (index : Nat)
  | removeChild (parent child : HostId)
  | moveChild (parent child : HostId) (index : Nat)
  deriving DecidableEq, Repr

/-- Why a command does not fit. -/
inductive Refusal where
  | notText (node : HostId)
  | notElement (node : HostId)
  | unknownInsert (parent child : HostId)
  | strangerRemove (parent child : HostId)
  | strangerMove (parent child : HostId)
  deriving DecidableEq, Repr

namespace Document

/-- The container that every document starts with. -/
def root : HostId :=
  ⟨0⟩

/-- A document with nothing but an empty root. -/
def empty : Document :=
  ⟨[⟨.element "root" [] [], none, []⟩], 0⟩

def node? (document : Document) (id : HostId) : Option HostNode :=
  document.nodes[id.index]?

def contains (document : Document) (id : HostId) : Bool :=
  id.index < document.nodes.length

def parent? (document : Document) (id : HostId) : Option HostId :=
  (document.node? id).bind HostNode.parent

/-- The children of a node in order; none for an unknown one. -/
def children (document : Document) (id : HostId) : List HostId :=
  ((document.node? id).map HostNode.children).getD []

def content? (document : Document) (id : HostId) : Option Content :=
  (document.node? id).map HostNode.content

def tag? (document : Document) (id : HostId) : Option String :=
  match document.content? id with
  | some (.element tag _ _) => some tag
  | _ => none

def text? (document : Document) (id : HostId) : Option String :=
  match document.content? id with
  | some (.text content) => some content
  | _ => none

def attribute? (document : Document) (id : HostId) (name : String) : Option String :=
  match document.content? id with
  | some (.element _ attributes _) => attributes.lookup name
  | _ => none

/-- The listener for an event, which does not bubble. -/
def listener? (document : Document) (id : HostId) (event : String) : Option Handler :=
  match document.content? id with
  | some (.element _ _ listeners) => listeners.lookup event
  | _ => none

/-- Add a node with no parent and no children. -/
def create (document : Document) (content : Content) : HostId × Document :=
  (⟨document.nodes.length⟩, { document with nodes := document.nodes ++ [⟨content, none, []⟩] })

def createElement (document : Document) (tag : String) : HostId × Document :=
  document.create (.element tag [] [])

def createText (document : Document) (content : String) : HostId × Document :=
  document.create (.text content)

def modify (document : Document) (id : HostId) (change : HostNode → HostNode) : Document :=
  { document with nodes := document.nodes.modify id.index change }

theorem node?_modify (document : Document) (id other : HostId) (change : HostNode → HostNode) :
    (document.modify id change).node? other =
      if other = id then (document.node? id).map change else document.node? other := by
  unfold modify node?
  rw [List.getElem?_modify]
  by_cases same : other = id
  · simp [same]
  · have apart : id.index ≠ other.index := fun equal => same (HostId.ext equal.symm)
    simp [same, apart]

theorem node?_create (document : Document) (content : Content) (other : HostId) :
    (document.create content).2.node? other =
      if other = (document.create content).1 then some ⟨content, none, []⟩
      else document.node? other := by
  unfold create node?
  by_cases same : other = ⟨document.nodes.length⟩
  · simp [same]
  · have apart : other.index ≠ document.nodes.length := fun equal => same (HostId.ext equal)
    simp only [same, if_false]
    by_cases inside : other.index < document.nodes.length
    · rw [List.getElem?_append_left inside]
    · rw [List.getElem?_eq_none (by simp; omega), List.getElem?_eq_none (by omega)]

/-- Count one mutation. -/
def counted (document : Document) : Document :=
  { document with mutations := document.mutations + 1 }

def setContent (document : Document) (id : HostId) (content : Content) : Document :=
  document.modify id fun node => { node with content }

/-- Take a node away from its parent, if it has one. -/
def detach (document : Document) (child : HostId) : Document :=
  match document.parent? child with
  | none => document
  | some parent =>
    (document.modify parent fun node =>
      { node with children := node.children.filter fun other => other ≠ child }).modify child
      fun node => { node with parent := none }

/-- Put a node at a place among the children, or last if there are fewer. -/
def attach (document : Document) (parent child : HostId) (index : Nat) : Document :=
  (document.modify parent fun node =>
    { node with children := node.children.insertIdx (min index node.children.length) child }).modify
    child fun node => { node with parent := some parent }

/-- Change the order of one node among its siblings; the place counts without the node itself. -/
def reposition (document : Document) (parent child : HostId) (index : Nat) : Document :=
  document.modify parent fun node =>
    let others := node.children.filter fun other => other ≠ child
    { node with children := others.insertIdx (min index others.length) child }

/-- Carry out a command, or say why it does not fit. -/
def perform (document : Document) : HostCommand → Except Refusal Document
  | .setText node content =>
    match document.content? node with
    | some (.text _) => .ok (document.setContent node (.text content)).counted
    | _ => .error (.notText node)
  | .setAttribute node name value =>
    match document.content? node with
    | some (.element tag attributes listeners) =>
      .ok (document.setContent node
        (.element tag (setEntry attributes name value) listeners)).counted
    | _ => .error (.notElement node)
  | .removeAttribute node name =>
    match document.content? node with
    | some (.element tag attributes listeners) =>
      if hasEntry attributes name then
        .ok (document.setContent node
          (.element tag (removeEntry attributes name) listeners)).counted
      else .ok document
    | _ => .error (.notElement node)
  | .addListener node event callback =>
    match document.content? node with
    | some (.element tag attributes listeners) =>
      .ok (document.setContent node
        (.element tag attributes (setEntry listeners event callback))).counted
    | _ => .error (.notElement node)
  | .removeListener node event =>
    match document.content? node with
    | some (.element tag attributes listeners) =>
      if hasEntry listeners event then
        .ok (document.setContent node
          (.element tag attributes (removeEntry listeners event))).counted
      else .ok document
    | _ => .error (.notElement node)
  | .insertChild parent child index =>
    if document.contains parent ∧ document.contains child then
      .ok ((document.detach child).attach parent child index).counted
    else .error (.unknownInsert parent child)
  | .removeChild parent child =>
    if document.parent? child = some parent then .ok (document.detach child).counted
    else .error (.strangerRemove parent child)
  | .moveChild parent child index =>
    if document.parent? child = some parent then
      .ok (document.reposition parent child index).counted
    else .error (.strangerMove parent child)

/-- Carry out a command if it fits; otherwise nothing changes. -/
def attempt (document : Document) (command : HostCommand) : Document :=
  match document.perform command with
  | .ok changed => changed
  | .error _ => document

end Document

end ReactiveTree
