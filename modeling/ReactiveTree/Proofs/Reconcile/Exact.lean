import ReactiveTree.Proofs.Document.Audit
import ReactiveTree.Reconcile.Patch

/-! # Exact patches

A patch is exact if everything is where it says: a child to be removed, replaced or moved is at the
index named, what is inserted or moved ends up at the index named, and the host neither refuses nor
clamps a command on the way. A list of patches is exact if each is when its turn comes.
-/

namespace ReactiveTree

namespace Patch

/-- Whether a patch finds and leaves children at the indices that it names. -/
def InPlace (document : Document) : Patch → Prop
  | .insert parent index tree =>
    index ≤ (document.children parent).length ∧
      (carryOut document (.insert parent index tree)).children parent =
        (document.children parent).take index ++ (tree.build document).1 ++
          (document.children parent).drop index
  | .remove parent index target => (document.children parent)[index]? = some target
  | .replace parent index target tree =>
    (document.children parent)[index]? = some target ∧
      (carryOut document (.replace parent index target tree)).children parent =
        (document.children parent).take index ++ (tree.build document).1 ++
          (document.children parent).drop (index + 1)
  | .move parent target before after =>
    (document.children parent)[before]? = some target ∧
      ((carryOut document (.move parent target before after)).children parent)[after]? = some target
  | .update _ _ => True

/-- Whether a patch does what it says to the letter. -/
structure Exact (document : Document) (patch : Patch) : Prop where
  quiet : patch.carryOut (Audit.opened document) = Audit.opened (patch.carryOut document)
  inPlace : patch.InPlace document

/-- Whether patches are exact one after another. -/
def ExactAll (document : Document) : List Patch → Prop
  | [] => True
  | patch :: rest => patch.Exact document ∧ ExactAll (patch.carryOut document) rest

/-- The node among whose children a patch does something. -/
def parent? : Patch → Option HostId
  | .insert parent _ _ => some parent
  | .remove parent _ _ => some parent
  | .replace parent _ _ _ => some parent
  | .move parent _ _ _ => some parent
  | .update _ _ => none

/-- Whether an earlier patch may stand before a later one: under one parent only a removal stands
before a removal, and of a later child. -/
def MayPrecede (earlier later : Patch) : Prop :=
  ∀ parent index target, later = .remove parent index target → earlier.parent? = some parent →
    ∃ above other, earlier = .remove parent above other ∧ index < above

variable {document : Document} {patch : Patch} {patches first second : List Patch}

@[simp] theorem carryOutAll_nil {H : Type} [Host H] (host : H) : carryOutAll host [] = host :=
  rfl

@[simp] theorem carryOutAll_cons {H : Type} [Host H] (host : H) (patch : Patch)
    (rest : List Patch) : carryOutAll host (patch :: rest) = carryOutAll (patch.carryOut host) rest :=
  rfl

theorem exactAll_append :
    ExactAll document (first ++ second) ↔
      ExactAll document first ∧ ExactAll (carryOutAll document first) second := by
  induction first generalizing document with
  | nil => simp [ExactAll]
  | cons patch rest ih => simp [ExactAll, ih, and_assoc]

/-- Exact patches are carried out without a note. -/
theorem ExactAll.quiet (exact : ExactAll document patches) :
    carryOutAll (Audit.opened document) patches =
      Audit.opened (carryOutAll document patches) := by
  induction patches generalizing document with
  | nil => rfl
  | cons patch rest ih =>
    obtain ⟨here, later⟩ := exact
    rw [carryOutAll_cons, here.quiet]
    exact ih later

/-- Each patch of an exact list is exact after those before it. -/
theorem ExactAll.exact (exact : ExactAll document patches)
    (split : patches = first ++ patch :: second) : patch.Exact (carryOutAll document first) := by
  subst split
  exact (exactAll_append.mp exact).2.1

/-- Patches for different parents may stand in any order. -/
theorem MayPrecede.of_apart {earlier later : Patch}
    (apart : ∀ parent, earlier.parent? = some parent → later.parent? ≠ some parent) :
    MayPrecede earlier later := by
  rintro parent index target rfl here
  exact absurd rfl (apart parent here)

end Patch

end ReactiveTree
