import Mathlib
import ReactiveTree.Proofs.Reconcile.Planning
import ReactiveTree.Proofs.Tree.Validity

/-! # Rendering one tree after another

Between two trees of which the first is shown, `diff` always finds patches if the second is valid;
they are exact, and after them the second is shown. A rendering is a document whose root shows the
tree last reconciled, and stays one whatever tree comes next.
-/

namespace ReactiveTree

open Document Patch

variable {document : Document} {container : HostId} {policy : KeyPolicy} {old new : Option Tree}

/-- A valid tree has patches that rework the container from the old tree to the new. -/
theorem diff_of_valid (linked : document.Linked) (known : document.contains container)
    (shown : document.ShowsAll (document.children container) old.toList)
    (valid : ValidTree policy new) :
    ∃ patches, diff policy document container old new = .ok patches ∧
      Reworks document container patches
        (originsWithin document (some (shownPart document container old)) new.toList)
        new.toList := by
  have within : document.nodesWithin (shownPart document container old) =
      document.children container := rfl
  obtain ⟨patches, planned, reworks⟩ :=
    (planSiblings_spec linked new.toList).layoutChildren linked known within shown rfl
  refine ⟨patches, ?_, reworks⟩
  unfold diff
  rw [(checkTree_defect policy new).mpr valid]
  exact planned

theorem diff_of_not_valid (document : Document) (container : HostId) (old : Option Tree)
    (invalid : ¬ ValidTree policy new) :
    ∃ defect, diff policy document container old new = .error defect ∧
      (checkTree policy new).defect = some defect := by
  rw [← checkTree_defect] at invalid
  obtain ⟨defect, found⟩ := Option.ne_none_iff_exists'.mp invalid
  refine ⟨defect, ?_, found⟩
  unfold diff
  rw [found]

/-- What patches do to the very document that they were planned for. -/
theorem Reworks.self {node : HostId} {patches : List Patch} {origins : List (Option Part)}
    {trees : List Tree} (reworks : Reworks document node patches origins trees)
    (linked : document.Linked) (known : document.contains node) :
    ExactAll document patches ∧
      ChangesWithin (document.Below node) document (carryOutAll document patches) ∧
      (carryOutAll document patches).ShowsAll ((carryOutAll document patches).children node)
        trees := by
  obtain ⟨exact, change, -, shown, -⟩ :=
    reworks.run linked (Nat.le_refl _) known rfl fun _ => rfl
  exact ⟨exact, change, shown⟩

/-- Patches between two trees are exact one after another, and removals come first. -/
theorem diff_exact (reached : document.Reachable) (known : document.contains container)
    (shown : document.ShowsAll (document.children container) old.toList)
    (valid : ValidTree policy new) :
    ∃ patches, diff policy document container old new = .ok patches ∧
      (∀ before patch after, patches = before ++ patch :: after →
        patch.Exact (carryOutAll document before)) ∧
      patches.Pairwise MayPrecede := by
  obtain ⟨patches, found, reworks⟩ := diff_of_valid reached.linked known shown valid
  obtain ⟨exact, -, -⟩ := reworks.self reached.linked known
  exact ⟨patches, found, fun before patch after split => exact.exact split, reworks.ordered⟩

/-- Texts in keyed fragments. -/
def Tree.notes (texts : List String) : Tree :=
  .fragment (texts.map fun text => .fragment [.text text] (some ⟨text⟩)) none

/-- A root with three texts. -/
def Document.threeNotes : Document :=
  (((((empty.createText "a").2.createText "b").2.createText "c").2.attempt
    (.insertChild root ⟨1⟩ 0)).attempt (.insertChild root ⟨2⟩ 1)).attempt (.insertChild root ⟨3⟩ 2)

/-- Under the root the second text is removed, a new one is inserted and the last one is moved. -/
theorem diff_exact_notes :
    Document.threeNotes.Reachable ∧ Document.threeNotes.contains root ∧
      Document.threeNotes.ShowsAll (Document.threeNotes.children root) [.notes ["a", "b", "c"]] ∧
      ValidTree .strict (some (.notes ["c", "x", "a"])) ∧
      ∃ patches, diff .strict Document.threeNotes root (some (.notes ["a", "b", "c"]))
          (some (.notes ["c", "x", "a"])) = .ok patches ∧
        patches = [.remove root 1 ⟨2⟩, .insert root 0 (.fragment [.text "x"] (some ⟨"x"⟩)),
          .move root ⟨3⟩ 2 0] ∧
        (∀ before patch after, patches = before ++ patch :: after →
          patch.Exact (carryOutAll Document.threeNotes before)) ∧
        patches.Pairwise MayPrecede := by
  have reached : Document.threeNotes.Reachable :=
    (((((Reachable.empty.createText "a").createText "b").createText "c").attempt _).attempt _).attempt _
  have shown : Document.threeNotes.ShowsAll (Document.threeNotes.children root)
      (some (Tree.notes ["a", "b", "c"])).toList :=
    showsAll_singleton.mpr ⟨[⟨1⟩], [⟨2⟩, ⟨3⟩], rfl, ⟨[⟨1⟩], [], rfl, ⟨⟨1⟩, rfl, rfl, rfl⟩, rfl⟩,
      [⟨2⟩], [⟨3⟩], rfl, ⟨[⟨2⟩], [], rfl, ⟨⟨2⟩, rfl, rfl, rfl⟩, rfl⟩,
        [⟨3⟩], [], rfl, ⟨[⟨3⟩], [], rfl, ⟨⟨3⟩, rfl, rfl, rfl⟩, rfl⟩, rfl⟩
  have valid : ValidTree .strict (some (.notes ["c", "x", "a"])) :=
    (checkTree_defect _ _).mp (by decide)
  obtain ⟨patches, planned, exact, ordered⟩ := diff_exact reached rfl shown valid
  refine ⟨reached, rfl, shown, valid, patches, planned, ?_, exact, ordered⟩
  have expected : diff .strict Document.threeNotes root (some (.notes ["a", "b", "c"]))
      (some (.notes ["c", "x", "a"])) =
        .ok [.remove root 1 ⟨2⟩, .insert root 0 (.fragment [.text "x"] (some ⟨"x"⟩)),
          .move root ⟨3⟩ 2 0] := by
    cbv
  exact Except.ok.inj (planned.symm.trans expected)

/-- A document, and the tree that was last reconciled into its root. -/
structure Rendering where
  document : Document
  shown : Option Tree

namespace Rendering

/-- An empty document shows nothing. -/
def start : Rendering :=
  ⟨.empty, none⟩

/-- Reconcile a tree into the root; a failure leaves the tree shown as it was. -/
def render (policy : KeyPolicy) (rendering : Rendering) (tree : Option Tree) :
    Except ReconcileFailure (List Patch) × Rendering :=
  match reconcile policy rendering.document root rendering.shown tree with
  | (.ok patches, document) => (.ok patches, ⟨document, tree⟩)
  | (.error failure, document) => (.error failure, ⟨document, rendering.shown⟩)

/-- Reconcile trees one after another. -/
def renderAll (policy : KeyPolicy) (rendering : Rendering) (trees : List (Option Tree)) :
    Rendering :=
  trees.foldl (fun rendering tree => (rendering.render policy tree).2) rendering

/-- The root is there and shows the tree. -/
structure Sound (rendering : Rendering) : Prop where
  linked : rendering.document.Linked
  known : rendering.document.contains root
  shows : rendering.document.ShowsAll (rendering.document.children root) rendering.shown.toList

variable {rendering : Rendering} {tree : Option Tree}

theorem sound_start : start.Sound :=
  ⟨linked_empty, rfl, rfl⟩

theorem render_of_valid (sound : rendering.Sound) (valid : ValidTree policy tree) :
    ∃ patches, (rendering.render policy tree).1 = .ok patches ∧
      (rendering.render policy tree).2.Sound ∧ (rendering.render policy tree).2.shown = tree := by
  obtain ⟨patches, found, reworks⟩ := diff_of_valid sound.linked sound.known sound.shows valid
  obtain ⟨-, change, shown⟩ := reworks.self sound.linked sound.known
  have result : rendering.render policy tree =
      (.ok patches, ⟨carryOutAll rendering.document patches, tree⟩) := by
    simp only [render, reconcile, found]
  rw [result]
  exact ⟨patches, rfl, ⟨change.linked, change.contains sound.known, shown⟩, rfl⟩

theorem render_of_not_valid (rendering : Rendering) (invalid : ¬ ValidTree policy tree) :
    ∃ defect, rendering.render policy tree = (.error defect, rendering) ∧
      (checkTree policy tree).defect = some defect := by
  obtain ⟨defect, found, isDefect⟩ := diff_of_not_valid rendering.document root rendering.shown
    invalid
  exact ⟨defect, by simp only [render, reconcile, found], isDefect⟩

/-- One step keeps the root showing the tree last reconciled. -/
theorem Sound.render (sound : rendering.Sound) (policy : KeyPolicy) (tree : Option Tree) :
    (rendering.render policy tree).2.Sound := by
  by_cases valid : ValidTree policy tree
  · obtain ⟨_, -, next, -⟩ := render_of_valid sound valid
    exact next
  · obtain ⟨_, result, -⟩ := render_of_not_valid rendering valid
    rw [result]
    exact sound

theorem Sound.renderAll (sound : rendering.Sound) (policy : KeyPolicy)
    (trees : List (Option Tree)) : (rendering.renderAll policy trees).Sound := by
  induction trees generalizing rendering with
  | nil => exact sound
  | cons tree rest ih => exact ih (sound.render policy tree)

/-- After any run into a fresh document, the next tree fails exactly if it is invalid, and never
because the host is out of step; a failure changes nothing, and otherwise the root shows the tree. -/
theorem render_after_run (policy : KeyPolicy) (trees : List (Option Tree)) (tree : Option Tree) :
    let rendering := start.renderAll policy trees
    let result := rendering.render policy tree
    ((∃ failure, result.1 = .error failure) ↔ ¬ ValidTree policy tree) ∧
      (∀ expected found, result.1 ≠ .error (.outOfSync expected found)) ∧
      (∀ failure, result.1 = .error failure → result.2 = rendering) ∧
      ∀ patches, result.1 = .ok patches →
        result.2.document.ShowsAll (result.2.document.children root) tree.toList := by
  intro rendering result
  have sound : rendering.Sound := sound_start.renderAll policy trees
  by_cases valid : ValidTree policy tree
  · obtain ⟨patches, succeeds, next, same⟩ := render_of_valid sound valid
    have shows := next.shows
    rw [same] at shows
    simp only [result, succeeds]
    exact ⟨by simp [valid], by simp, by simp, fun _ _ => shows⟩
  · obtain ⟨defect, fails, isDefect⟩ := render_of_not_valid rendering valid
    simp only [result, fails]
    refine ⟨by simp [valid], ?_, by simp, by simp⟩
    rintro expected found same
    cases same
    exact checkTree_defect_ne_outOfSync isDefect

end Rendering

end ReactiveTree
