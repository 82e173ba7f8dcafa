import ReactiveTree.Document.Basic

/-! # Hosts

A host is a tree that can be read and changed only through a few operations; the reconciler works on
any host. A document is one. A journal is a document that also writes down what happens to it: the
refused commands, or every call. The second kind has no way of its own to move a child, and moves it
by removing it and inserting it again.
-/

namespace ReactiveTree

/-- A mutable tree, seen through its operations. -/
class Host (H : Type) where
  /-- Make a node that has no parent yet. -/
  createElement : H → String → HostId × H
  createText : H → String → HostId × H
  /-- Change the tree; a command that does not fit changes nothing. -/
  carryOut : H → HostCommand → H
  /-- The children of a node in order. -/
  children : H → HostId → List HostId

instance : Host Document where
  createElement := Document.createElement
  createText := Document.createText
  carryOut := Document.attempt
  children := Document.children

/-- Something that happened to a host. -/
inductive HostEvent where
  | createdElement (tag : String) (node : HostId)
  | createdText (content : String) (node : HostId)
  | called (command : HostCommand)
  | refused (refusal : Refusal)
  deriving DecidableEq, Repr

/-- What a journal writes down. -/
inductive Journal.Detail where
  | refusals
  | everything
  deriving DecidableEq, Repr

/-- A document and what has happened to it so far. -/
structure Journal (detail : Journal.Detail) where
  document : Document
  events : List HostEvent
  deriving DecidableEq, Repr

namespace Journal

variable {detail : Detail}

/-- A journal that starts with a document and nothing written. -/
def opened (document : Document) : Journal detail :=
  ⟨document, []⟩

def write (journal : Journal detail) (event : HostEvent) : Journal detail :=
  { journal with events := journal.events ++ [event] }

/-- Carry out a command on the document; write down a refusal. -/
def attempt (journal : Journal detail) (command : HostCommand) : Journal detail :=
  match journal.document.perform command with
  | .ok document => { journal with document }
  | .error refusal => journal.write (.refused refusal)

/-- A journal does to its document what the command does. -/
theorem document_attempt (journal : Journal detail) (command : HostCommand) :
    (journal.attempt command).document = journal.document.attempt command := by
  simp only [attempt, Document.attempt]
  cases journal.document.perform command <;> rfl

/-- The calls that carry out a command on a host that cannot move a child in place. -/
def callsFor : HostCommand → List HostCommand
  | .moveChild parent child index =>
    [.removeChild parent child, .insertChild parent child index]
  | command => [command]

/-- Write a call down, then carry it out. -/
def call (journal : Journal detail) (command : HostCommand) : Journal detail :=
  (journal.write (.called command)).attempt command

end Journal

instance : Host (Journal .refusals) where
  createElement journal tag :=
    let (node, document) := journal.document.createElement tag
    (node, { journal with document })
  createText journal content :=
    let (node, document) := journal.document.createText content
    (node, { journal with document })
  carryOut := Journal.attempt
  children journal := journal.document.children

instance : Host (Journal .everything) where
  createElement journal tag :=
    let (node, document) := journal.document.createElement tag
    (node, ({ journal with document } : Journal .everything).write (.createdElement tag node))
  createText journal content :=
    let (node, document) := journal.document.createText content
    (node, ({ journal with document } : Journal .everything).write (.createdText content node))
  carryOut journal command := (Journal.callsFor command).foldl Journal.call journal
  children journal := journal.document.children

end ReactiveTree
