import Mathlib.Data.List.InsertIdx
import ReactiveTree.Document.Basic

/-! # Parent and child links

What each operation on a document does to every node is one equation about `node?`. From these
follows that parents and children always agree: `Linked` holds of the empty document and survives
every command, so it holds of each document that can be reached.
-/

namespace ReactiveTree

namespace Document

/-- A node is a child of its parent and of no other node, and of that one once. -/
structure Linked (document : Document) : Prop where
  mem_children_iff : ∀ {parent child : HostId},
    child ∈ document.children parent ↔ document.parent? child = some parent
  distinct : ∀ parent, (document.children parent).Nodup

/-- A document that comes about by creating nodes and carrying out commands. -/
inductive Reachable : Document → Prop
  | empty : Reachable empty
  | createElement {document : Document} (reached : Reachable document) (tag : String) :
      Reachable (document.createElement tag).2
  | createText {document : Document} (reached : Reachable document) (content : String) :
      Reachable (document.createText content).2
  | attempt {document : Document} (reached : Reachable document) (command : HostCommand) :
      Reachable (document.attempt command)
  /-- The count of mutations may be set back. -/
  | recount {document : Document} (reached : Reachable document) (mutations : Nat) :
      Reachable { document with mutations }

variable {document : Document} {parent child other id : HostId}

theorem contains_iff : document.contains id ↔ ∃ node, document.node? id = some node := by
  unfold contains node?
  rw [decide_eq_true_eq]
  constructor
  · intro inside
    exact ⟨_, List.getElem?_eq_getElem inside⟩
  · rintro ⟨node, found⟩
    exact (List.getElem?_eq_some_iff.mp found).1

theorem contains_iff_lt : document.contains id ↔ id.index < document.nodes.length := by
  simp [contains]

theorem contains_of_parent? (attached : document.parent? child = some parent) :
    document.contains child := by
  unfold parent? at attached
  obtain ⟨node, found, -⟩ := Option.bind_eq_some_iff.mp attached
  exact contains_iff.mpr ⟨node, found⟩

theorem contains_of_content? {content : Content} (found : document.content? id = some content) :
    document.contains id := by
  obtain ⟨node, present, -⟩ := Option.map_eq_some_iff.mp found
  exact contains_iff.mpr ⟨node, present⟩

theorem contains_of_mem_children (member : child ∈ document.children parent) :
    document.contains parent := by
  by_contra unknown
  rw [contains_iff, not_exists] at unknown
  have absent : document.node? parent = none := Option.eq_none_iff_forall_ne_some.mpr unknown
  simp [children, absent] at member

theorem Linked.contains_child (linked : document.Linked) (member : child ∈ document.children parent) :
    document.contains child :=
  contains_of_parent? (linked.mem_children_iff.mp member)

theorem Linked.contains_parent (linked : document.Linked)
    (attached : document.parent? child = some parent) : document.contains parent :=
  contains_of_mem_children (linked.mem_children_iff.mpr attached)

theorem node?_setContent (document : Document) (id other : HostId) (content : Content) :
    (document.setContent id content).node? other =
      (document.node? other).map fun node =>
        { node with content := if other = id then content else node.content } := by
  unfold setContent
  rw [node?_modify]
  split
  next same => subst same; rfl
  next => simp

theorem node?_detach (document : Document) (child other : HostId) :
    (document.detach child).node? other =
      (document.node? other).map fun node =>
        { node with
          children := if document.parent? child = some other then
            node.children.filter fun sibling => sibling ≠ child else node.children
          parent := if other = child then none else node.parent } := by
  unfold detach
  split
  next alone =>
    rw [alone]
    cases found : document.node? other with
    | none => rfl
    | some node =>
      have orphan : other = child → node.parent = none := by
        rintro rfl
        simpa [parent?, found] using alone
      by_cases same : other = child
      · obtain ⟨content, above, siblings⟩ := node
        cases orphan same
        simp [same]
      · simp [same]
  next parent attached =>
    rw [node?_modify, node?_modify, node?_modify, attached]
    cases found : document.node? other with
    | none => aesop
    | some node =>
      by_cases here : other = child
      · subst here
        by_cases above : parent = other
        · simp [above, found]
        · simp [found, above, Ne.symm above]
      · by_cases above : other = parent
        · subst above
          simp [here, found]
        · simp [here, above, Ne.symm above]

theorem node?_attach (document : Document) (parent child : HostId) (index : Nat) (other : HostId) :
    (document.attach parent child index).node? other =
      (document.node? other).map fun node =>
        { node with
          children := if other = parent then
            node.children.insertIdx (min index node.children.length) child else node.children
          parent := if other = child then some parent else node.parent } := by
  unfold attach
  rw [node?_modify, node?_modify, node?_modify]
  cases found : document.node? other with
  | none => aesop
  | some node =>
    by_cases here : other = child
    · subst here
      by_cases above : other = parent
      · subst above
        simp [found]
      · simp [above, found]
    · by_cases above : other = parent
      · subst above
        simp [here, found]
      · simp [here, above]

theorem node?_reposition (document : Document) (parent child : HostId) (index : Nat)
    (other : HostId) :
    (document.reposition parent child index).node? other =
      (document.node? other).map fun node =>
        { node with
          children := if other = parent then
            (node.children.filter fun sibling => sibling ≠ child).insertIdx
              (min index (node.children.filter fun sibling => sibling ≠ child).length) child
            else node.children } := by
  unfold reposition
  rw [node?_modify]
  by_cases above : other = parent
  · subst above
    simp
  · simp [above]

@[simp] theorem node?_counted (document : Document) (id : HostId) :
    document.counted.node? id = document.node? id :=
  rfl

@[simp] theorem content?_detach (document : Document) (child other : HostId) :
    (document.detach child).content? other = document.content? other := by
  simp [content?, node?_detach, Function.comp_def]

@[simp] theorem content?_attach (document : Document) (parent child : HostId) (index : Nat)
    (other : HostId) :
    (document.attach parent child index).content? other = document.content? other := by
  simp [content?, node?_attach, Function.comp_def]

@[simp] theorem content?_reposition (document : Document) (parent child : HostId) (index : Nat)
    (other : HostId) :
    (document.reposition parent child index).content? other = document.content? other := by
  simp [content?, node?_reposition, Function.comp_def]

theorem parent?_detach (document : Document) (child other : HostId) :
    (document.detach child).parent? other =
      if other = child then none else document.parent? other := by
  unfold parent?
  rw [node?_detach]
  cases document.node? other <;> simp

theorem parent?_attach (document : Document) (parent child : HostId) (index : Nat) (other : HostId)
    (known : document.contains child) :
    (document.attach parent child index).parent? other =
      if other = child then some parent else document.parent? other := by
  obtain ⟨node, found⟩ := contains_iff.mp known
  unfold parent?
  rw [node?_attach]
  by_cases same : other = child
  · simp [same, found]
  · cases document.node? other <;> simp [same]

@[simp] theorem parent?_reposition (document : Document) (parent child : HostId) (index : Nat)
    (other : HostId) :
    (document.reposition parent child index).parent? other = document.parent? other := by
  unfold parent?
  rw [node?_reposition]
  cases document.node? other <;> rfl

@[simp] theorem parent?_setContent (document : Document) (id other : HostId) (content : Content) :
    (document.setContent id content).parent? other = document.parent? other := by
  unfold parent?
  rw [node?_setContent]
  cases document.node? other <;> rfl

@[simp] theorem children_setContent (document : Document) (id other : HostId) (content : Content) :
    (document.setContent id content).children other = document.children other := by
  unfold children
  rw [node?_setContent]
  cases document.node? other <;> rfl

/-- A node that leaves is filtered out of every list of children; it was in one at most. -/
theorem Linked.children_detach (linked : document.Linked) (child other : HostId) :
    (document.detach child).children other =
      (document.children other).filter fun sibling => sibling ≠ child := by
  have unchanged : document.parent? child ≠ some other →
      (document.children other).filter (fun sibling => sibling ≠ child) =
        document.children other := by
    intro elsewhere
    rw [List.filter_eq_self]
    intro sibling member
    rw [decide_eq_true_eq]
    rintro rfl
    exact elsewhere (linked.mem_children_iff.mp member)
  by_cases here : document.parent? child = some other
  · unfold children
    rw [node?_detach]
    cases document.node? other <;> simp [here]
  · rw [unchanged here]
    unfold children
    rw [node?_detach]
    cases document.node? other <;> simp [here]

theorem children_attach (document : Document) (parent child : HostId) (index : Nat)
    (other : HostId) (known : document.contains parent) :
    (document.attach parent child index).children other =
      if other = parent then
        (document.children parent).insertIdx (min index (document.children parent).length) child
      else document.children other := by
  obtain ⟨node, found⟩ := contains_iff.mp known
  unfold children
  rw [node?_attach]
  by_cases same : other = parent
  · simp [same, found]
  · cases document.node? other <;> simp [same]

theorem children_reposition (document : Document) (parent child : HostId) (index : Nat)
    (other : HostId) (known : document.contains parent) :
    (document.reposition parent child index).children other =
      if other = parent then
        ((document.children parent).filter fun sibling => sibling ≠ child).insertIdx
          (min index ((document.children parent).filter fun sibling => sibling ≠ child).length)
          child
      else document.children other := by
  obtain ⟨node, found⟩ := contains_iff.mp known
  unfold children
  rw [node?_reposition]
  by_cases same : other = parent
  · simp [same, found]
  · cases document.node? other <;> simp [same]

theorem length_modify (document : Document) (id : HostId) (change : HostNode → HostNode) :
    (document.modify id change).nodes.length = document.nodes.length := by
  simp [modify]

theorem linked_empty : empty.Linked where
  mem_children_iff := by
    intro parent child
    rcases parent with ⟨_ | above⟩ <;> rcases child with ⟨_ | below⟩ <;>
      simp [empty, children, parent?, node?]
  distinct parent := by
    rcases parent with ⟨_ | above⟩ <;> simp [empty, children, node?]

theorem Linked.setContent (linked : document.Linked) (id : HostId) (content : Content) :
    (document.setContent id content).Linked where
  mem_children_iff := by
    intro parent child
    simpa using linked.mem_children_iff
  distinct := by simpa using linked.distinct

theorem Linked.detach (linked : document.Linked) (child : HostId) :
    (document.detach child).Linked where
  mem_children_iff := by
    intro parent other
    rw [linked.children_detach, List.mem_filter, parent?_detach, linked.mem_children_iff]
    by_cases same : other = child <;> simp [same]
  distinct parent := by
    rw [linked.children_detach]
    exact (linked.distinct parent).filter _

theorem Linked.attach (linked : document.Linked) (orphan : document.parent? child = none)
    (knownParent : document.contains parent) (knownChild : document.contains child) (index : Nat) :
    (document.attach parent child index).Linked where
  mem_children_iff := by
    intro above below
    rw [children_attach _ _ _ _ _ knownParent, parent?_attach _ _ _ _ _ knownChild]
    by_cases here : above = parent
    · subst here
      rw [if_pos rfl, List.mem_insertIdx (Nat.min_le_right _ _), linked.mem_children_iff]
      by_cases same : below = child <;> simp [same]
    · rw [if_neg here, linked.mem_children_iff]
      by_cases same : below = child
      · simp [same, orphan, Ne.symm here]
      · simp [same]
  distinct above := by
    rw [children_attach _ _ _ _ _ knownParent]
    by_cases here : above = parent
    · rw [if_pos here]
      have absent : child ∉ document.children parent := by
        rw [linked.mem_children_iff, orphan]
        simp
      have order := List.perm_insertIdx child (document.children parent)
        (Nat.min_le_right index (document.children parent).length)
      rw [order.nodup_iff, List.nodup_cons]
      exact ⟨absent, linked.distinct parent⟩
    · rw [if_neg here]
      exact linked.distinct above

theorem Linked.reposition (linked : document.Linked)
    (attached : document.parent? child = some parent) (index : Nat) :
    (document.reposition parent child index).Linked where
  mem_children_iff := by
    intro above below
    have known := linked.contains_parent attached
    rw [children_reposition _ _ _ _ _ known, parent?_reposition]
    by_cases here : above = parent
    · subst here
      rw [if_pos rfl, List.mem_insertIdx (Nat.min_le_right _ _), List.mem_filter,
        linked.mem_children_iff]
      by_cases same : below = child <;> simp [same, attached]
    · rw [if_neg here, linked.mem_children_iff]
  distinct above := by
    have known := linked.contains_parent attached
    rw [children_reposition _ _ _ _ _ known]
    by_cases here : above = parent
    · rw [if_pos here]
      have order := List.perm_insertIdx child
        ((document.children parent).filter fun sibling => sibling ≠ child)
        (Nat.min_le_right index _)
      rw [order.nodup_iff, List.nodup_cons]
      exact ⟨by simp, (linked.distinct parent).filter _⟩
    · rw [if_neg here]
      exact linked.distinct above

theorem Linked.counted (linked : document.Linked) : document.counted.Linked where
  mem_children_iff := linked.mem_children_iff
  distinct := linked.distinct

theorem children_create (document : Document) (content : Content) (other : HostId) :
    (document.create content).2.children other =
      if other = (document.create content).1 then [] else document.children other := by
  unfold children
  rw [node?_create]
  split <;> rfl

theorem parent?_create (document : Document) (content : Content) (other : HostId) :
    (document.create content).2.parent? other =
      if other = (document.create content).1 then none else document.parent? other := by
  unfold parent?
  rw [node?_create]
  split <;> rfl

theorem not_contains_create (document : Document) (content : Content) :
    ¬ document.contains (document.create content).1 := by
  simp [contains, create]

theorem Linked.create (linked : document.Linked) (content : Content) :
    (document.create content).2.Linked where
  mem_children_iff := by
    intro above below
    rw [children_create, parent?_create]
    have fresh := document.not_contains_create content
    by_cases here : above = (document.create content).1
    · subst here
      have childless : document.parent? below ≠ some (document.create content).1 :=
        fun attached => fresh (linked.contains_parent attached)
      by_cases same : below = (document.create content).1 <;> simp [same, childless]
    · rw [if_neg here]
      by_cases same : below = (document.create content).1
      · subst same
        have orphan : (document.create content).1 ∉ document.children above :=
          fun member => fresh (linked.contains_child member)
        simp [orphan]
      · rw [if_neg same, linked.mem_children_iff]
  distinct above := by
    rw [children_create]
    split
    · exact List.nodup_nil
    · exact linked.distinct above

theorem Linked.perform (linked : document.Linked) {command : HostCommand} {changed : Document}
    (fits : document.perform command = .ok changed) : changed.Linked := by
  cases command with
  | setText | setAttribute | addListener =>
    simp only [Document.perform] at fits
    split at fits <;> cases fits
    exact (linked.setContent _ _).counted
  | removeAttribute | removeListener =>
    simp only [Document.perform] at fits
    split at fits
    · split at fits <;> cases fits
      · exact (linked.setContent _ _).counted
      · exact linked
    · cases fits
  | insertChild parent child index =>
    simp only [Document.perform] at fits
    split at fits <;> cases fits
    next known =>
      have keeps : ∀ id, document.contains id → (document.detach child).contains id := by
        intro id present
        obtain ⟨node, found⟩ := contains_iff.mp present
        exact contains_iff.mpr ⟨_, by rw [node?_detach, found]; rfl⟩
      have orphan : (document.detach child).parent? child = none := by simp [parent?_detach]
      exact ((linked.detach child).attach orphan (keeps _ known.1) (keeps _ known.2) index).counted
  | removeChild parent child =>
    simp only [Document.perform] at fits
    split at fits <;> cases fits
    exact (linked.detach child).counted
  | moveChild parent child index =>
    simp only [Document.perform] at fits
    split at fits <;> cases fits
    next attached => exact (linked.reposition attached index).counted

theorem Linked.attempt (linked : document.Linked) (command : HostCommand) :
    (document.attempt command).Linked := by
  unfold Document.attempt
  split
  next fits => exact linked.perform fits
  next => exact linked

theorem Reachable.linked (reached : document.Reachable) : document.Linked := by
  induction reached with
  | empty => exact linked_empty
  | createElement _ _ ih => exact ih.create _
  | createText _ _ ih => exact ih.create _
  | attempt _ command ih => exact ih.attempt command
  | recount _ _ ih => exact ⟨ih.mem_children_iff, ih.distinct⟩

end Document

end ReactiveTree
