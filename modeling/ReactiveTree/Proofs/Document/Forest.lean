import ReactiveTree.Proofs.Document.Frame

/-! # Forests

A document is a forest if its links agree and no node lies below itself. New nodes, removals and moves
among siblings keep it one, and so does putting a node without a parent under a node that is not below
it. Commands that the document refuses change nothing.
-/

namespace ReactiveTree

/-- Whether a command puts a node under a parent. -/
def HostCommand.isInsert : HostCommand → Bool
  | .insertChild .. => true
  | _ => false

/-- The nodes that a command may change. -/
def HostCommand.touched : HostCommand → List HostId
  | .setText node _ => [node]
  | .setAttribute node _ _ => [node]
  | .removeAttribute node _ => [node]
  | .addListener node _ _ => [node]
  | .removeListener node _ => [node]
  | .insertChild parent child _ => [parent, child]
  | .removeChild parent child => [parent, child]
  | .moveChild parent _ _ => [parent]

namespace Document

/-- Links agree, and no node lies below itself. -/
structure Forest (document : Document) : Prop where
  linked : document.Linked
  grounded : ∀ node, document.Grounded node

variable {document before after : Document} {parent child node other id : HostId}
  {region : HostId → Prop}

theorem Below.mono (fewer : ∀ id, after.children id ⊆ before.children id)
    (path : after.Below node id) : before.Below node id := by
  induction path with
  | refl => exact .refl
  | tail _ member ih => exact ih.tail (fewer _ member)

/-- A region with all children of its members has all that is below them. -/
theorem Closed.of_below (closed : document.Closed region)
    (inside : region node) (path : document.Below node id) : region id := by
  induction path with
  | refl => exact inside
  | tail _ member ih => exact closed ih member

theorem closed_below (document : Document) (node : HostId) :
    document.Closed (document.Below node) :=
  fun path member => path.tail member

theorem Grounded.of_subset (grounded : before.Grounded node)
    (fewer : ∀ id, after.children id ⊆ before.children id) : after.Grounded node :=
  fun child member path => grounded child (fewer node member) (path.mono fewer)

namespace Forest

theorem of_subset (forest : before.Forest) (linked : after.Linked)
    (fewer : ∀ id, after.children id ⊆ before.children id) : after.Forest :=
  ⟨linked, fun node => (forest.grounded node).of_subset fewer⟩

theorem empty : Document.empty.Forest := by
  refine ⟨linked_empty, fun node child member => ?_⟩
  have attached := linked_empty.mem_children_iff.mp member
  rcases child with ⟨_ | below⟩ <;> simp [Document.empty, parent?, node?] at attached

theorem create (forest : document.Forest) (content : Content) :
    (document.create content).2.Forest := by
  refine forest.of_subset (forest.linked.create content) fun id other member => ?_
  rw [children_create] at member
  split at member
  next => cases member
  next => exact member

theorem counted (forest : document.Forest) : document.counted.Forest :=
  ⟨forest.linked.counted, forest.grounded⟩

theorem setContent (forest : document.Forest) (id : HostId) (content : Content) :
    (document.setContent id content).Forest := by
  refine forest.of_subset (forest.linked.setContent id content) fun other => ?_
  rw [children_setContent]
  exact List.Subset.refl _

theorem detach (forest : document.Forest) (child : HostId) : (document.detach child).Forest := by
  refine forest.of_subset (forest.linked.detach child) fun other => ?_
  rw [forest.linked.children_detach]
  exact fun _ member => (List.mem_filter.mp member).1

theorem reposition (forest : document.Forest) (attached : document.parent? child = some parent)
    (index : Nat) : (document.reposition parent child index).Forest := by
  have linked := forest.linked.reposition attached index
  refine forest.of_subset linked fun other member inside => ?_
  have here := linked.mem_children_iff.mp inside
  rw [parent?_reposition] at here
  exact forest.linked.mem_children_iff.mpr here

end Forest

/-- The one link that is new leads from the parent to the child. -/
def Adopts (parent child : HostId) (before after : Document) : Prop :=
  ∀ {above below}, below ∈ after.children above →
    below ∈ before.children above ∨ above = parent ∧ below = child

/-- What lies below a node afterwards lay below it before, or lies below the adopted child. -/
theorem Adopts.below (adopts : Adopts parent child before after)
    (apart : ¬ before.Below child parent) (path : after.Below node id) :
    before.Below node id ∨ before.Below node parent ∧ before.Below child id := by
  induction path with
  | refl => exact Or.inl .refl
  | @tail above below _ member ih =>
    rcases adopts member with old | ⟨rfl, rfl⟩
    · exact ih.imp (·.tail old) (And.imp_right (·.tail old))
    · rcases ih with up | ⟨_, round⟩
      · exact Or.inr ⟨up, .refl⟩
      · exact absurd round apart

/-- A child that the new parent is not below may be put there. -/
theorem Forest.adopt (forest : before.Forest) (linked : after.Linked)
    (adopts : Adopts parent child before after) (apart : ¬ before.Below child parent) :
    after.Forest := by
  refine ⟨linked, fun node below member path => ?_⟩
  rcases adopts member with old | ⟨rfl, rfl⟩
  · rcases adopts.below apart path with up | ⟨up, down⟩
    · exact forest.grounded node below old up
    · exact apart (down.trans (.head old up))
  · rcases adopts.below apart path with up | ⟨up, _⟩
    · exact apart up
    · exact apart up

/-- A node without a parent needs no detaching. -/
theorem attempt_insertChild (orphan : document.parent? child = none) (index : Nat) :
    document.attempt (.insertChild parent child index) =
      if document.contains parent ∧ document.contains child then
        (document.attach parent child index).counted
      else document := by
  have alone : document.detach child = document := by
    unfold Document.detach
    rw [orphan]
  have performed : document.perform (.insertChild parent child index) =
      if document.contains parent ∧ document.contains child then
        .ok (document.attach parent child index).counted
      else .error (.unknownInsert parent child) := by
    rw [← alone]
    simp only [Document.perform, alone]
  unfold Document.attempt
  rw [performed]
  by_cases known : document.contains parent ∧ document.contains child <;> simp [known]

theorem changesWithin_setContent (linked : document.Linked) (content : Content)
    (inside : region node) : ChangesWithin region document (document.setContent node content) where
  linked := linked.setContent node content
  grows := by simp [Document.setContent, Document.length_modify]
  outside := by
    intro id _ apart
    have other : id ≠ node := fun same => apart (same ▸ inside)
    rw [node?_setContent]
    simp [other]
  sheds _ := .inl (parent?_setContent ..)

theorem changesWithin_detach (linked : document.Linked)
    (attached : document.parent? child = some parent) (inside : region parent ∧ region child) :
    ChangesWithin region document (document.detach child) where
  linked := linked.detach child
  grows := by
    unfold Document.detach
    rw [attached]
    simp [Document.length_modify]
  outside := by
    intro id _ apart
    have other : id ≠ child := fun same => apart (same ▸ inside.2)
    have other' : parent ≠ id := fun same => apart (same ▸ inside.1)
    rw [node?_detach, attached]
    simp [other, other']
  sheds := by
    intro id _
    rw [parent?_detach]
    split
    next => exact .inr rfl
    next => exact .inl rfl

theorem changesWithin_reposition (linked : document.Linked)
    (attached : document.parent? child = some parent) (inside : region parent) (index : Nat) :
    ChangesWithin region document (document.reposition parent child index) where
  linked := linked.reposition attached index
  grows := by simp [Document.reposition, Document.length_modify]
  outside := by
    intro id _ apart
    have other : id ≠ parent := fun same => apart (same ▸ inside)
    rw [node?_reposition]
    simp [other]
  sheds _ := .inl (parent?_reposition ..)

theorem ChangesWithin.counted (change : ChangesWithin region before after) :
    ChangesWithin region before after.counted :=
  ⟨change.linked.counted, change.grows, change.outside, change.sheds⟩

/-- A command that inserts nothing changes only the nodes that it names. -/
theorem changesWithin_attempt (linked : document.Linked) {command : HostCommand}
    (kept : command.isInsert = false) (within : ∀ id ∈ command.touched, region id) :
    ChangesWithin region document (document.attempt command) := by
  unfold Document.attempt
  split
  next changed fits =>
    cases command with
    | setText node | setAttribute node | addListener node =>
      simp only [Document.perform] at fits
      split at fits <;> cases fits
      exact (changesWithin_setContent linked _ (within node (by simp [HostCommand.touched]))).counted
    | removeAttribute node | removeListener node =>
      simp only [Document.perform] at fits
      split at fits
      · split at fits <;> cases fits
        · exact (changesWithin_setContent linked _
            (within node (by simp [HostCommand.touched]))).counted
        · exact .refl linked
      · cases fits
    | insertChild => cases kept
    | removeChild parent child =>
      simp only [Document.perform] at fits
      split at fits <;> cases fits
      next attached =>
        exact (changesWithin_detach linked attached ⟨within parent (by simp [HostCommand.touched]),
          within child (by simp [HostCommand.touched])⟩).counted
    | moveChild parent child index =>
      simp only [Document.perform] at fits
      split at fits <;> cases fits
      next attached =>
        exact (changesWithin_reposition linked attached
          (within parent (by simp [HostCommand.touched])) index).counted
  next => exact .refl linked

theorem Forest.attempt (forest : document.Forest) {command : HostCommand}
    (kept : command.isInsert = false) : (document.attempt command).Forest := by
  unfold Document.attempt
  split
  next changed fits =>
    cases command with
    | setText | setAttribute | addListener =>
      simp only [Document.perform] at fits
      split at fits <;> cases fits
      exact (forest.setContent _ _).counted
    | removeAttribute | removeListener =>
      simp only [Document.perform] at fits
      split at fits
      · split at fits <;> cases fits
        · exact (forest.setContent _ _).counted
        · exact forest
      · cases fits
    | insertChild => cases kept
    | removeChild parent child =>
      simp only [Document.perform] at fits
      split at fits <;> cases fits
      exact (forest.detach child).counted
    | moveChild parent child index =>
      simp only [Document.perform] at fits
      split at fits <;> cases fits
      next attached => exact (forest.reposition attached index).counted
  next => exact forest

end Document

end ReactiveTree
