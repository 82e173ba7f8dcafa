import ReactiveTree.Proofs.Document.Checked
import ReactiveTree.Proofs.Reconcile.Comparing
import ReactiveTree.Proofs.Reconcile.Delegating
import ReactiveTree.Proofs.Reconcile.Fitting
import ReactiveTree.Proofs.Reconcile.Resolving
import ReactiveTree.Proofs.Tree.Validity

/-! # Hosts that have drifted

A host may have changed since an old tree was shown on it, in any way, even so that a node lies below
itself. A diff then compares what it can: it looks up nothing that is not there, says at which node it
first found another number of children than expected, and if it found none its patches can be applied.
-/

namespace ReactiveTree

open Document

/-- A checked document from which nothing was missing is in step with the document. -/
theorem inStep_checked :
    InStep fun (checked : CheckedDocument) document => checked = .of document ∧ document.Linked where
  children := by
    rintro _ document ⟨rfl, -⟩ id
    rfl
  createElement := by
    rintro _ document ⟨rfl, linked⟩ tag
    exact ⟨rfl, rfl, linked.create (.element tag [] [])⟩
  createText := by
    rintro _ document ⟨rfl, linked⟩ content
    exact ⟨rfl, rfl, linked.create (.text content)⟩
  carryOut := by
    rintro _ document ⟨rfl, linked⟩ command -
    exact ⟨CheckedDocument.ext (linked.attempt?_eq command), linked.attempt command⟩

/-- Patches look up nothing that is missing. -/
theorem carryOutAll_checked {document : Document} (linked : document.Linked) (patches : List Patch) :
    Patch.carryOutAll (CheckedDocument.of document) patches =
      .of (Patch.carryOutAll document patches) := by
  induction patches generalizing document with
  | nil => rfl
  | cons patch rest ih =>
    have first : patch.carryOut (CheckedDocument.of document) = .of (patch.carryOut document) ∧
        (patch.carryOut document).Linked := by
      cases patch with
      | move parent target before after =>
        have moved := linked.attempt?_eq (.moveChild parent target after)
        exact ⟨CheckedDocument.ext moved, linked.attempt _⟩
      | insert | remove | replace | update => exact inStep_checked.patch ⟨rfl, linked⟩ rfl
    show Patch.carryOutAll (patch.carryOut (CheckedDocument.of document)) rest = _
    rw [first.1]
    exact ih first.2

/-- Whatever document is there, whatever node is the container, and whatever the old tree claims, a diff
for a valid new tree finds all that it looks up. It fails if and only if a node that it compares has
another number of children than the old trees stand for, and reports the numbers for the first such
node. Otherwise its patches can be applied: every node and every index that they need is there. No tree
has more host nodes than there are indices. -/
theorem diff_survives_drift {document : Document} (reachable : document.Reachable)
    {policy : KeyPolicy} {new : Option Tree} (valid : ValidTree policy new) (container : HostId)
    (old : Option Tree) :
    Lookup.diff policy document container old new =
        some (diff policy document container old new) ∧
      ((∃ expected found, diff policy document container old new =
          .error (.outOfSync expected found)) ↔
        ∃ comparison, Compared document container old.toList new.toList comparison ∧
          Tree.widths comparison.old ≠ (document.children comparison.parent).length) ∧
      (∀ failure, diff policy document container old new = .error failure ↔
        ∃ comparison, FirstMismatch document container old.toList new.toList comparison ∧
          failure = .outOfSync (Tree.widths comparison.old)
            (document.children comparison.parent).length) ∧
      ∀ patches, diff policy document container old new = .ok patches →
        Tree.sizes new.toList ≤ indexCount →
          Patch.attemptAll (CheckedDocument.of document) patches =
            (.ok (), .of (Patch.carryOutAll document patches)) := by
  have linked : document.Linked := reachable.linked
  have unchecked : diff policy document container old new =
      childPatches document container old.toList new.toList := by
    unfold diff
    rw [(checkTree_defect policy new).mpr valid]
  have failed (failure : ReconcileFailure) : diff policy document container old new = .error failure ↔
      ∃ comparison, FirstMismatch document container old.toList new.toList comparison ∧
        failure = .outOfSync (Tree.widths comparison.old)
          (document.children comparison.parent).length := by
    rw [unchecked, childPatches_eq_error_iff]
    exact exists_congr fun comparison => and_congr_right fun _ => eq_comm
  refine ⟨Lookup.diff_eq policy document container old new, ?_, failed, ?_⟩
  · refine Iff.trans ?_ exists_firstMismatch_iff
    constructor
    · rintro ⟨expected, found, reported⟩
      obtain ⟨comparison, first, -⟩ := (failed _).mp reported
      exact ⟨comparison, first⟩
    · rintro ⟨comparison, first⟩
      exact ⟨_, _, (failed _).mpr ⟨comparison, first, rfl⟩⟩
  · intro patches planned few
    rw [Patch.attemptAll_of_endsBy fun patch member => (endsBy_diff planned patch member).mono few,
      carryOutAll_checked linked]

/-- A list and an item that are children of each other. -/
def Document.loop : Document :=
  (((empty.createElement "ul").2.createElement "li").2.attempt (.insertChild ⟨1⟩ ⟨2⟩ 0)).attempt
    (.insertChild ⟨2⟩ ⟨1⟩ 0)

/-- An item with a list in it. -/
def Tree.itemWith (children : List Tree) : Tree :=
  .element "li" .empty [.element "ul" .empty children none] none

/-- The old trees lead around the loop and back to the list. Two texts are claimed to be in it, which is
one child too many; where one is claimed, the item gives way to the new text. -/
theorem diff_survives_drift_loop :
    Document.loop.Reachable ∧ ValidTree .strict (some (.itemWith [.text "c"])) ∧
      (∃ comparison, FirstMismatch Document.loop ⟨1⟩ [.itemWith [.text "a", .text "b"]]
          [.itemWith [.text "c"]] comparison ∧
        ReconcileFailure.outOfSync 2 1 = .outOfSync (Tree.widths comparison.old)
          (Document.loop.children comparison.parent).length) ∧
      ∃ patches, diff .strict Document.loop ⟨1⟩ (some (.itemWith [.fragment [.text "a"] none]))
          (some (.itemWith [.text "c"])) = .ok patches ∧ patches.length = 1 ∧
        Patch.attemptAll (CheckedDocument.of Document.loop) patches =
          (.ok (), .of (Patch.carryOutAll Document.loop patches)) := by
  have reachable : Document.loop.Reachable :=
    (((Reachable.empty.createElement "ul").createElement "li").attempt _).attempt _
  have valid : ValidTree .strict (some (.itemWith [.text "c"])) :=
    (checkTree_defect _ _).mp (by decide)
  obtain ⟨-, -, failed, -⟩ := diff_survives_drift reachable valid ⟨1⟩
    (some (.itemWith [.text "a", .text "b"]))
  obtain ⟨-, -, -, applied⟩ := diff_survives_drift reachable valid ⟨1⟩
    (some (.itemWith [.fragment [.text "a"] none]))
  have single : (diff .strict Document.loop ⟨1⟩ (some (.itemWith [.fragment [.text "a"] none]))
      (some (.itemWith [.text "c"]))).map List.length = .ok 1 := by
    cbv
  obtain ⟨patches, planned⟩ : ∃ patches, diff .strict Document.loop ⟨1⟩
      (some (.itemWith [.fragment [.text "a"] none])) (some (.itemWith [.text "c"])) = .ok patches :=
    ⟨_, rfl⟩
  rw [planned] at single
  exact ⟨reachable, valid, (failed _).mp (by rfl), patches, planned, Except.ok.inj single,
    applied patches planned (by decide)⟩

end ReactiveTree
