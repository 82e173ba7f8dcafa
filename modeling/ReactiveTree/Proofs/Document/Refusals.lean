import ReactiveTree.Document.Host
import ReactiveTree.Proofs.Document.Links

/-! # What a document refuses

A journal of refusals stands for a document with its warnings. Whatever operations are carried out on
it, on whatever nodes and at whatever indices, parents and children agree afterwards. A command is
refused exactly if the nodes that it names are not what it asks for, and then it leaves a warning and
nothing else.
-/

namespace ReactiveTree

/-- An operation that may change a host. -/
inductive HostOperation where
  | createElement (tag : String)
  | createText (content : String)
  | attempt (command : HostCommand)
  deriving DecidableEq, Repr

/-- Carry out an operation; the name of a new node is not needed here. -/
def HostOperation.carryOut {H : Type} [Host H] (host : H) : HostOperation → H
  | .createElement tag => (Host.createElement host tag).2
  | .createText content => (Host.createText host content).2
  | .attempt command => Host.carryOut host command

/-- What a command asks of the nodes that it names. -/
def HostCommand.Suits (document : Document) : HostCommand → Prop
  | .setText node _ => ∃ content, document.text? node = some content
  | .setAttribute node _ _ => ∃ tag, document.tag? node = some tag
  | .removeAttribute node _ => ∃ tag, document.tag? node = some tag
  | .addListener node _ _ => ∃ tag, document.tag? node = some tag
  | .removeListener node _ => ∃ tag, document.tag? node = some tag
  | .insertChild parent child _ => document.contains parent ∧ document.contains child
  | .removeChild parent child => child ∈ document.children parent
  | .moveChild parent child _ => child ∈ document.children parent

variable {document : Document} {journal : Journal .refusals} {command : HostCommand}

/-- Each operation keeps parents and children in agreement. -/
theorem HostOperation.linked_carryOut (linked : journal.document.Linked)
    (operation : HostOperation) : (operation.carryOut journal).document.Linked := by
  cases operation with
  | createElement tag => exact linked.create (.element tag [] [])
  | createText content => exact linked.create (.text content)
  | attempt command =>
    have attempted : (Host.carryOut journal command).document = journal.document.attempt command :=
      journal.document_attempt command
    simp only [carryOut, attempted]
    exact linked.attempt command

theorem linked_foldl_carryOut (linked : journal.document.Linked) (operations : List HostOperation) :
    (operations.foldl HostOperation.carryOut journal).document.Linked := by
  induction operations generalizing journal with
  | nil => exact linked
  | cons operation rest ih => exact ih (operation.linked_carryOut linked)

/-- A command is carried out exactly if it suits the document. -/
theorem Document.Linked.exists_perform_iff (linked : document.Linked) (command : HostCommand) :
    (∃ changed, document.perform command = .ok changed) ↔ command.Suits document := by
  cases command with
  | setText node content =>
    simp only [Document.perform, HostCommand.Suits, Document.text?]
    cases document.content? node with
    | none => simp
    | some shown => cases shown <;> simp
  | setAttribute node | addListener node =>
    simp only [Document.perform, HostCommand.Suits, Document.tag?]
    cases document.content? node with
    | none => simp
    | some shown => cases shown <;> simp
  | removeAttribute node name =>
    simp only [Document.perform, HostCommand.Suits, Document.tag?]
    cases document.content? node with
    | none => simp
    | some shown =>
      cases shown with
      | text => simp
      | element tag attributes listeners =>
        by_cases listed : hasEntry attributes name <;> simp [listed]
  | removeListener node event =>
    simp only [Document.perform, HostCommand.Suits, Document.tag?]
    cases document.content? node with
    | none => simp
    | some shown =>
      cases shown with
      | text => simp
      | element tag attributes listeners =>
        by_cases listed : hasEntry listeners event <;> simp [listed]
  | insertChild parent child =>
    simp only [Document.perform, HostCommand.Suits]
    by_cases known : document.contains parent ∧ document.contains child <;> simp [known]
  | removeChild parent child | moveChild parent child =>
    simp only [Document.perform, HostCommand.Suits, linked.mem_children_iff]
    by_cases attached : document.parent? child = some parent <;> simp [attached]

/-- What suits is carried out without a warning. -/
theorem Journal.events_attempt (linked : journal.document.Linked)
    (suits : command.Suits journal.document) :
    (journal.attempt command).events = journal.events := by
  obtain ⟨changed, performed⟩ := (linked.exists_perform_iff command).mpr suits
  simp only [Journal.attempt, performed]

/-- What does not suit leaves a warning and changes nothing. -/
theorem Journal.attempt_of_not_suits (linked : journal.document.Linked)
    (unsuited : ¬ command.Suits journal.document) :
    ∃ refusal, journal.attempt command =
      ⟨journal.document, journal.events ++ [.refused refusal]⟩ := by
  rw [← linked.exists_perform_iff] at unsuited
  cases performed : journal.document.perform command with
  | ok changed => exact absurd ⟨changed, performed⟩ unsuited
  | error refusal =>
    use refusal
    simp only [Journal.attempt, performed]
    rfl

/-- After any operations on a fresh document each node is a child of its parent and of no other node,
and of that one once; the two ends of a link are known. The next operation leaves a warning exactly if
it is a command that does not suit the document, and then everything else is as it was. -/
theorem links_agree_after (operations : List HostOperation) :
    let host : Journal .refusals := operations.foldl HostOperation.carryOut (Journal.opened .empty)
    (∀ parent child, child ∈ host.document.children parent ↔
      host.document.parent? child = some parent) ∧
    (∀ parent, (host.document.children parent).Nodup) ∧
    (∀ parent child, child ∈ host.document.children parent →
      host.document.contains parent ∧ host.document.contains child) ∧
    ∀ operation : HostOperation,
      ((operation.carryOut host).events ≠ host.events ↔
        ∃ command, operation = .attempt command ∧ ¬ command.Suits host.document) ∧
      ((operation.carryOut host).events ≠ host.events →
        ∃ refusal, operation.carryOut host = ⟨host.document, host.events ++ [.refused refusal]⟩) := by
  intro host
  have linked : host.document.Linked := linked_foldl_carryOut Document.linked_empty operations
  have warned {command : HostCommand} (unsuited : ¬ command.Suits host.document) :
      ∃ refusal, (HostOperation.attempt command).carryOut host =
        ⟨host.document, host.events ++ [.refused refusal]⟩ :=
    Journal.attempt_of_not_suits linked unsuited
  have unsuited (operation : HostOperation) (noted : (operation.carryOut host).events ≠ host.events) :
      ∃ command, operation = .attempt command ∧ ¬ command.Suits host.document := by
    cases operation with
    | createElement | createText => exact absurd rfl noted
    | attempt command => exact ⟨command, rfl, fun suits => noted (Journal.events_attempt linked suits)⟩
  constructor
  · exact fun _ _ => linked.mem_children_iff
  constructor
  · exact linked.distinct
  constructor
  · intro parent child member
    exact ⟨Document.contains_of_mem_children member, linked.contains_child member⟩
  · intro operation
    constructor
    · constructor
      · exact unsuited operation
      · rintro ⟨command, rfl, unsuited⟩
        obtain ⟨refusal, written⟩ := warned unsuited
        simp [written]
    · intro noted
      obtain ⟨command, rfl, unsuited⟩ := unsuited operation noted
      exact warned unsuited

end ReactiveTree
