import ReactiveTree.Document.Host
import ReactiveTree.Proofs.Document.Links

/-! # Nodes that are looked up

A command that passes its checks goes on to look up the nodes it changes, and puts a child at an index
that has to be there. The document here comes to nothing as soon as a look-up misses. As long as parents
and children agree none does: a child that is to be moved has a parent that is known.
-/

namespace ReactiveTree

namespace Document

/-- Look a node up and change it. -/
def change? (document : Document) (id : HostId) (change : HostNode → Option HostNode) :
    Option Document := do
  let node ← document.nodes[id.index]?
  let changed ← change node
  return { document with nodes := document.nodes.set id.index changed }

/-- Give a node other children with one more among them, at an index that has to be there. -/
def putAt? (node : HostNode) (others : List HostId) (index : Nat) (child : HostId) :
    Option HostNode := do
  guard (index ≤ others.length)
  return { node with children := others.insertIdx index child }

/-- Put a node at a place among the children of another; both are looked up. -/
def attach? (document : Document) (parent child : HostId) (index : Nat) : Option Document := do
  let attached ← document.change? parent fun node =>
    putAt? node node.children (min index node.children.length) child
  attached.change? child fun node => return { node with parent := some parent }

/-- Change the order of one node among its siblings; the parent is looked up. -/
def reposition? (document : Document) (parent child : HostId) (index : Nat) : Option Document :=
  document.change? parent fun node =>
    let others := node.children.filter fun other => other ≠ child
    putAt? node others (min index others.length) child

/-- Carry out a command if it fits; the nodes whose children it changes are looked up. -/
def attempt? (document : Document) : HostCommand → Option Document
  | .insertChild parent child index =>
    if document.contains parent ∧ document.contains child then
      ((document.detach child).attach? parent child index).map counted
    else some document
  | .moveChild parent child index =>
    if document.parent? child = some parent then
      (document.reposition? parent child index).map counted
    else some document
  | command => some (document.attempt command)

variable {document : Document} {id parent child : HostId}

theorem change?_eq (known : document.contains id) {change : HostNode → Option HostNode}
    {make : HostNode → HostNode} (found : ∀ node, change node = some (make node)) :
    document.change? id change = some (document.modify id make) := by
  have inside : id.index < document.nodes.length := contains_iff_lt.mp known
  have here : document.nodes[id.index]? = some document.nodes[id.index] :=
    List.getElem?_eq_getElem inside
  have same : document.nodes.set id.index (make document.nodes[id.index]) =
      document.nodes.modify id.index make := by
    apply List.ext_getElem?
    intro index
    rw [List.getElem?_set, List.getElem?_modify]
    by_cases equal : id.index = index
    · subst equal
      simp [inside]
    · simp [equal]
  simp only [change?, here, Option.bind_eq_bind, Option.bind_some, found, same]
  rfl

theorem putAt?_min (node : HostNode) (others : List HostId) (index : Nat) (child : HostId) :
    putAt? node others (min index others.length) child =
      some { node with children := others.insertIdx (min index others.length) child } := by
  have inside : min index others.length ≤ others.length := Nat.min_le_right ..
  simp only [putAt?, guard, inside, if_true]
  rfl

theorem attach?_eq (knownParent : document.contains parent) (knownChild : document.contains child)
    (index : Nat) :
    document.attach? parent child index = some (document.attach parent child index) := by
  unfold attach? attach
  rw [change?_eq knownParent fun _ => putAt?_min ..]
  apply change?_eq
  · simpa [contains, modify] using knownChild
  · exact fun _ => rfl

theorem reposition?_eq (known : document.contains parent) (child : HostId) (index : Nat) :
    document.reposition? parent child index = some (document.reposition parent child index) :=
  change?_eq known fun _ => putAt?_min ..

/-- In a document with links that agree every look-up finds something. -/
theorem Linked.attempt?_eq (linked : document.Linked) (command : HostCommand) :
    document.attempt? command = some (document.attempt command) := by
  cases command with
  | insertChild parent child index =>
    by_cases known : document.contains parent ∧ document.contains child
    · have detached {id : HostId} (there : document.contains id) :
          (document.detach child).contains id := by
        obtain ⟨node, found⟩ := contains_iff.mp there
        exact contains_iff.mpr ⟨_, by rw [node?_detach, found]; rfl⟩
      simp [attempt?, Document.attempt, Document.perform, known,
        attach?_eq (detached known.1) (detached known.2)]
    · simp [attempt?, Document.attempt, Document.perform, known]
  | moveChild parent child index =>
    by_cases attached : document.parent? child = some parent
    · simp [attempt?, Document.attempt, Document.perform, attached,
        reposition?_eq (linked.contains_parent attached)]
    · simp [attempt?, Document.attempt, Document.perform, attached]
  | setText | setAttribute | removeAttribute | addListener | removeListener | removeChild => rfl

end Document

/-- A document of which nothing is left once a look-up has missed. -/
@[ext] structure CheckedDocument where
  document? : Option Document

namespace CheckedDocument

/-- A document from which every node is still to be looked up. -/
def of (document : Document) : CheckedDocument :=
  ⟨some document⟩

/-- Make a node, if there is a document to hold it. -/
def create (checked : CheckedDocument) (make : Document → HostId × Document) :
    HostId × CheckedDocument :=
  match checked.document? with
  | some document => ((make document).1, of (make document).2)
  | none => (default, checked)

instance : Host CheckedDocument where
  createElement checked tag := checked.create fun document => document.createElement tag
  createText checked content := checked.create fun document => document.createText content
  carryOut checked command := ⟨checked.document?.bind fun document => document.attempt? command⟩
  children checked id := (checked.document?.map fun document => document.children id).getD []

end CheckedDocument

end ReactiveTree
