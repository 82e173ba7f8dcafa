import ReactiveTree.Document.Host
import ReactiveTree.Failure

/-! # Patches

A patch is one change to a host. Patches are applied in order, and each index counts the children
of the parent as they are when its turn comes. Targets were read off the host before anything
changed, so they stay valid however siblings shift.

The patches between two trees hold places among children. A patch from elsewhere may hold any index
of 64 bits, and `Patch.attempt` stops where counting on from it would go beyond the last one; short
of that it does what `Patch.carryOut` does.
-/

namespace ReactiveTree

/-- A change to a host node that stays where it is. -/
inductive Change where
  | text (content : String)
  | set (name : String) (value : PropValue)
  /-- The old value tells an attribute from a listener. -/
  | unset (name : String) (value : PropValue)
  deriving DecidableEq, Repr

inductive Patch where
  | insert (parent : HostId) (index : Nat) (tree : Tree)
  | remove (parent : HostId) (index : Nat) (target : HostId)
  | replace (parent : HostId) (index : Nat) (target : HostId) (tree : Tree)
  /-- Places count before the move, and after it. -/
  | move (parent target : HostId) (before after : Nat)
  | update (target : HostId) (change : Change)
  deriving Repr

namespace Patch

def isMove : Patch → Bool
  | .move .. => true
  | _ => false

/-- Whether a patch changes which children a parent has, or their order. -/
def isStructural : Patch → Bool
  | .update .. => false
  | _ => true

end Patch

variable {H : Type} [Host H]

/-- Insert nodes side by side from an index on. -/
def insertFrom (host : H) (parent : HostId) (index : Nat) (nodes : List HostId) : H :=
  nodes.zipIdx.foldl
    (fun host (node, offset) => Host.carryOut host (.insertChild parent node (index + offset))) host

/-- Show a prop on a node: a listener, an attribute, or no attribute. -/
def showProp (host : H) (target : HostId) (name : String) (value : PropValue) : H :=
  match value with
  | .handler callback => Host.carryOut host (.addListener target (eventName name) callback)
  | value =>
    match value.attribute? with
    | some shown => Host.carryOut host (.setAttribute target name shown)
    | none => Host.carryOut host (.removeAttribute target name)

/-- Show the props of a new node; a false truth value needs nothing. -/
def showProps (host : H) (target : HostId) (props : Props) : H :=
  props.onHost.foldl
    (fun host (name, value) =>
      if value = .flag false then host else showProp host target name value)
    host

mutual

/-- Build host nodes without a parent for a tree, one for a text or an element, and those of its
children for a fragment. -/
def Tree.build (host : H) : Tree → List HostId × H
  | .text content =>
    let (node, host) := Host.createText host content
    ([node], host)
  | .element tag props children _ =>
    let (node, host) := Host.createElement host tag
    let (nodes, host) := Tree.buildAll (showProps host node props) children
    ([node], insertFrom host node 0 nodes)
  | .fragment children _ => Tree.buildAll host children

/-- Build the host nodes of several trees. -/
def Tree.buildAll (host : H) : List Tree → List HostId × H
  | [] => ([], host)
  | tree :: rest =>
    let (nodes, host) := Tree.build host tree
    let (more, host) := Tree.buildAll host rest
    (nodes ++ more, host)

end

/-- Make a change to a node. -/
def Change.carryOut (host : H) (target : HostId) : Change → H
  | .text content => Host.carryOut host (.setText target content)
  | .set name value => showProp host target name value
  | .unset name (.handler _) => Host.carryOut host (.removeListener target (eventName name))
  | .unset name _ => Host.carryOut host (.removeAttribute target name)

namespace Patch

/-- Apply a patch. -/
def carryOut (host : H) : Patch → H
  | .insert parent index tree =>
    let (nodes, host) := tree.build host
    insertFrom host parent index nodes
  | .remove parent _ target => Host.carryOut host (.removeChild parent target)
  | .replace parent index target tree =>
    let (nodes, host) := tree.build host
    insertFrom (Host.carryOut host (.removeChild parent target)) parent index nodes
  | .move parent target _ after => Host.carryOut host (.moveChild parent target after)
  | .update target change => change.carryOut host target

/-- Apply patches in order. -/
def carryOutAll (host : H) (patches : List Patch) : H :=
  patches.foldl carryOut host

theorem carryOutAll_append (host : H) (first second : List Patch) :
    carryOutAll host (first ++ second) = carryOutAll (carryOutAll host first) second :=
  List.foldl_append

end Patch

/-- How many indices there are. -/
def indexCount : Nat :=
  powerOfTwo 64

/-- Insert nodes side by side from an index on, as long as there are indices for them. -/
def insertWithin (host : H) (parent : HostId) (index : Nat) (nodes : List HostId) :
    Except Panic Unit × H :=
  (if index + nodes.length ≤ indexCount then .ok () else .error .indexOverflow,
    insertFrom host parent index (nodes.take (indexCount - index)))

theorem insertWithin_of_le (host : H) (parent : HostId) {index : Nat} {nodes : List HostId}
    (fits : index + nodes.length ≤ indexCount) :
    insertWithin host parent index nodes = (.ok (), insertFrom host parent index nodes) := by
  have enough : nodes.length ≤ indexCount - index := by omega
  simp [insertWithin, fits, List.take_of_length_le enough]

namespace Patch

/-- Apply a patch that may hold any index. -/
def attempt (host : H) : Patch → Except Panic Unit × H
  | .insert parent index tree =>
    let (nodes, host) := tree.build host
    insertWithin host parent index nodes
  | .replace parent index target tree =>
    let (nodes, host) := tree.build host
    insertWithin (Host.carryOut host (.removeChild parent target)) parent index nodes
  | patch => (.ok (), carryOut host patch)

/-- Apply patches in order up to the first that fails. -/
def attemptAll (host : H) : List Patch → Except Panic Unit × H
  | [] => (.ok (), host)
  | patch :: rest =>
    match attempt host patch with
    | (.ok (), host) => attemptAll host rest
    | (.error panic, host) => (.error panic, host)

end Patch

end ReactiveTree
