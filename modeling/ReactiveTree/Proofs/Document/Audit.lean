import ReactiveTree.Document.Host
import ReactiveTree.Proofs.Document.Links

/-! # Commands that fit

A host that forgives may hide a wrong index: a document refuses what it cannot do and puts a child
last when its index is too large. An audit is a document that notes each command which it did not
carry out to the letter.
-/

namespace ReactiveTree

/-- Whether a document carries a command out to the letter: it does not refuse it, and a child that
is inserted or moved ends up at the index that the command names. -/
def HostCommand.fits (document : Document) (command : HostCommand) : Bool :=
  (document.perform command).isOk &&
    match command with
    | .insertChild parent child index =>
      index ≤ ((document.children parent).filter fun sibling => sibling ≠ child).length
    | .moveChild parent child index =>
      index ≤ ((document.children parent).filter fun sibling => sibling ≠ child).length
    | _ => true

/-- A document with the commands that did not fit, in order. -/
structure Audit where
  document : Document
  misfits : List HostCommand
  deriving Repr

namespace Audit

/-- An audit that starts with a document and nothing noted. -/
def opened (document : Document) : Audit :=
  ⟨document, []⟩

/-- Carry out a command, and note it if it does not fit. -/
def attempt (audit : Audit) (command : HostCommand) : Audit where
  document := audit.document.attempt command
  misfits := if command.fits audit.document then audit.misfits else audit.misfits ++ [command]

end Audit

instance : Host Audit where
  createElement audit tag :=
    let (node, document) := audit.document.createElement tag
    (node, { audit with document })
  createText audit content :=
    let (node, document) := audit.document.createText content
    (node, { audit with document })
  carryOut := Audit.attempt
  children audit := audit.document.children

theorem Audit.carryOut_opened {document : Document} {command : HostCommand}
    (fits : command.fits document) :
    Host.carryOut (Audit.opened document) command =
      Audit.opened (Host.carryOut document command) := by
  show Audit.attempt _ _ = Audit.opened (Document.attempt _ _)
  simp [Audit.attempt, Audit.opened, fits]

end ReactiveTree
