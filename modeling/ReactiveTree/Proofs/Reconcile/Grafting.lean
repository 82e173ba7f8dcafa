import ReactiveTree.Proofs.Document.Forest
import ReactiveTree.Proofs.Reconcile.Building

/-! # What a patch leaves alone

A patch changes the nodes that it names and nothing else that was there before; what it builds is new.
A forest stays one, since new nodes have only new nodes below them and so never hold their parent.
None of this asks for the patch to fit the document.
-/

namespace ReactiveTree

open Document

variable {document before after : Document} {parent node target id : HostId} {nodes : List HostId}
  {region : HostId → Prop}

/-- Nodes have been put under a parent, or as many of them as the document knows. -/
structure Grafted (parent : HostId) (nodes : List HostId) (before after : Document) : Prop where
  linked : after.Linked
  length : after.nodes.length = before.nodes.length
  elsewhere : ∀ {id}, id ≠ parent → id ∉ nodes → after.node? id = before.node? id
  parents : ∀ {id}, id ∉ nodes → after.parent? id = before.parent? id
  given : ∀ {id}, id ∈ nodes →
    after.parent? id = before.parent? id ∨ after.parent? id = some parent

/-- Only the parent has new children. -/
theorem Grafted.mem_children {child above : HostId} (graft : Grafted parent nodes before after)
    (linked : before.Linked) (member : child ∈ after.children above) :
    child ∈ before.children above ∨ above = parent ∧ child ∈ nodes := by
  have attached := graft.linked.mem_children_iff.mp member
  by_cases grafted : child ∈ nodes
  · rcases graft.given grafted with same | new
    · exact Or.inl (linked.mem_children_iff.mpr (same.symm.trans attached))
    · rw [new] at attached
      exact Or.inr ⟨(Option.some.inj attached).symm, grafted⟩
  · exact Or.inl (linked.mem_children_iff.mpr ((graft.parents grafted).symm.trans attached))

theorem Grafted.trans {middle : Document} {first second : List HostId}
    (start : Grafted parent first before middle) (next : Grafted parent second middle after) :
    Grafted parent (first ++ second) before after where
  linked := next.linked
  length := next.length.trans start.length
  elsewhere apart absent := by
    rw [List.mem_append, not_or] at absent
    exact (next.elsewhere apart absent.2).trans (start.elsewhere apart absent.1)
  parents absent := by
    rw [List.mem_append, not_or] at absent
    exact (next.parents absent.2).trans (start.parents absent.1)
  given := by
    intro id member
    by_cases late : id ∈ second
    · rcases next.given late with same | new
      · by_cases early : id ∈ first
        · exact (start.given early).imp same.trans same.trans
        · exact Or.inl (same.trans (start.parents early))
      · exact Or.inr new
    · have early := (List.mem_append.mp member).resolve_right late
      exact (start.given early).imp (next.parents late).trans (next.parents late).trans

theorem grafted_insertChild (linked : document.Linked) (parent : HostId)
    (orphan : document.parent? node = none) (index : Nat) :
    Grafted parent [node] document (Host.carryOut document (.insertChild parent node index)) := by
  show Grafted parent [node] document (document.attempt (.insertChild parent node index))
  rw [attempt_insertChild orphan]
  split
  next known =>
    refine ⟨(linked.attach orphan known.1 known.2 index).counted, ?_, fun apart absent => ?_,
      fun absent => ?_, fun member => Or.inr ?_⟩
    · simp [Document.attach, Document.counted, Document.length_modify]
    · rw [node?_counted, node?_attach]
      simp [apart, List.mem_singleton.not.mp absent]
    · show (document.attach parent node index).parent? _ = _
      rw [parent?_attach _ _ _ _ _ known.2, if_neg (List.mem_singleton.not.mp absent)]
    · show (document.attach parent node index).parent? _ = _
      rw [parent?_attach _ _ _ _ _ known.2, if_pos (List.mem_singleton.mp member)]
  next => exact ⟨linked, rfl, fun _ _ => rfl, fun _ => rfl, fun _ => Or.inl rfl⟩

/-- Whatever the index, the nodes and their parent alone are changed. -/
theorem grafted_insertFrom (linked : document.Linked) (parent : HostId)
    (orphans : ∀ node ∈ nodes, document.parent? node = none) (distinct : nodes.Nodup) (index : Nat) :
    Grafted parent nodes document (insertFrom document parent index nodes) := by
  induction nodes generalizing document index with
  | nil => exact ⟨linked, rfl, fun _ _ => rfl, fun _ => rfl, fun _ => Or.inl rfl⟩
  | cons node rest ih =>
    obtain ⟨absent, distinct⟩ := List.nodup_cons.mp distinct
    rw [insertFrom_cons]
    have first := grafted_insertChild linked parent (orphans node List.mem_cons_self) index
    refine first.trans (ih first.linked (fun other member => ?_) distinct (index + 1))
    have apart : other ∉ [node] := by
      rw [List.mem_singleton]
      rintro rfl
      exact absent member
    rw [first.parents apart]
    exact orphans other (List.mem_cons_of_mem _ member)

/-- Nodes of a region that holds all its children may be put under a node outside. -/
theorem forest_insertFrom (forest : document.Forest)
    (orphans : ∀ node ∈ nodes, document.parent? node = none) (distinct : nodes.Nodup)
    (closed : document.Closed region) (inside : ∀ node ∈ nodes, region node)
    (apart : ¬ region parent) (index : Nat) :
    (insertFrom document parent index nodes).Forest := by
  induction nodes generalizing document index with
  | nil => exact forest
  | cons node rest ih =>
    obtain ⟨absent, distinct⟩ := List.nodup_cons.mp distinct
    rw [insertFrom_cons]
    have graft := grafted_insertChild forest.linked parent (orphans node List.mem_cons_self) index
    have adopts : Adopts parent node document
        (Host.carryOut document (.insertChild parent node index)) :=
      fun member => (graft.mem_children forest.linked member).imp_right
        (And.imp_right List.mem_singleton.mp)
    have next : (Host.carryOut document (.insertChild parent node index)).Forest :=
      forest.adopt graft.linked adopts fun path =>
        apart (closed.of_below (inside node List.mem_cons_self) path)
    refine ih next (fun other member => ?_) distinct (fun {above below} here member => ?_)
      (fun other member => inside other (List.mem_cons_of_mem _ member)) (index + 1)
    · have other_ne : other ∉ [node] := by
        rw [List.mem_singleton]
        rintro rfl
        exact absent member
      rw [graft.parents other_ne]
      exact orphans other (List.mem_cons_of_mem _ member)
    · rcases adopts member with old | ⟨rfl, _⟩
      · exact closed here old
      · exact absurd here apart

mutual

/-- What is built stands beside the forest that was there. -/
theorem Tree.build_forest {document : Document} (forest : document.Forest) : (tree : Tree) →
    (tree.build document).2.Forest
  | .text content => forest.create (.text content)
  | .fragment children key => by
    simp only [Tree.build]
    exact Tree.buildAll_forest forest children
  | .element tag props children key => by
    have created : (document.create (.element tag [] [])).2.content?
        (document.create (.element tag [] [])).1 = some (.element tag [] []) := by
      simp [Document.content?, node?_create]
    have started := forest.create (.element tag [] [])
    obtain ⟨-, attributes, listeners, rewritten, -⟩ := showProps_spec started.linked created props
    have dressed := started.of_subset rewritten.linked fun id =>
      (rewritten.children id) ▸ List.Subset.refl _
    obtain ⟨-, built⟩ := Tree.buildAll_spec rewritten.linked children
    have known := rewritten.changesWithin.contains (contains_of_content? created)
    simp only [Tree.build]
    exact forest_insertFrom (Tree.buildAll_forest dressed children) built.orphans built.distinct
      (built.change.closed_new rewritten.linked)
      (fun node member => ⟨built.fresh node member, built.known node member⟩)
      (fun new => new.1 known) 0

theorem Tree.buildAll_forest {document : Document} (forest : document.Forest) :
    (trees : List Tree) → (Tree.buildAll document trees).2.Forest
  | [] => by
    simp only [Tree.buildAll]
    exact forest
  | tree :: rest => by
    simp only [Tree.buildAll]
    exact Tree.buildAll_forest (Tree.build_forest forest tree) rest

end

/-- The nodes that a patch names. -/
def Patch.named : Patch → List HostId
  | .insert parent _ _ => [parent]
  | .remove parent _ target => [parent, target]
  | .replace parent _ target _ => [parent, target]
  | .move parent target _ _ => [parent, target]
  | .update target _ => [target]

/-- A change to a node is one command that inserts nothing. -/
theorem Change.exists_command (target : HostId) (change : Change) :
    ∃ command : HostCommand, command.isInsert = false ∧ command.touched = [target] ∧
      ∀ document : Document, change.carryOut document target = document.attempt command := by
  have shown (name : String) (value : PropValue) :
      ∃ command : HostCommand, command.isInsert = false ∧ command.touched = [target] ∧
        ∀ document : Document, showProp document target name value = document.attempt command := by
    unfold showProp
    split
    next callback => exact ⟨.addListener target (eventName name) callback, rfl, rfl, fun _ => rfl⟩
    next =>
      split
      next text _ => exact ⟨.setAttribute target name text, rfl, rfl, fun _ => rfl⟩
      next => exact ⟨.removeAttribute target name, rfl, rfl, fun _ => rfl⟩
  cases change with
  | text content => exact ⟨.setText target content, rfl, rfl, fun _ => rfl⟩
  | set name value => exact shown name value
  | unset name value =>
    cases value with
    | handler callback => exact ⟨.removeListener target (eventName name), rfl, rfl, fun _ => rfl⟩
    | _ => exact ⟨.removeAttribute target name, rfl, rfl, fun _ => rfl⟩

/-- Built nodes are put under a parent; of what was there before, only the parent changes. -/
theorem Built.changesWithin_insertFrom {middle : Document} {trees : List Tree}
    (built : Built document nodes before trees)
    (change : ChangesWithin region document middle)
    (orphans : ∀ node ∈ nodes, middle.parent? node = none) (inside : region parent) (index : Nat) :
    ChangesWithin region document (insertFrom middle parent index nodes) := by
  have graft := grafted_insertFrom change.linked parent orphans built.distinct index
  have old {id : HostId} (known : document.contains id) : id ∉ nodes :=
    fun member => built.fresh id member known
  refine ⟨graft.linked, ?_, fun {id} known apart => ?_, fun known => ?_⟩
  · rw [graft.length]
    exact change.grows
  · have other : id ≠ parent := by
      rintro rfl
      exact apart inside
    exact (graft.elsewhere other (old known)).trans (change.outside known apart)
  · rw [graft.parents (old known)]
    exact change.sheds known

/-- The nodes that are built keep no parent while others change. -/
theorem Built.orphans_of_changesWithin {middle : Document} {trees : List Tree}
    (built : Built document nodes before trees) (change : ChangesWithin region before middle) :
    ∀ node ∈ nodes, middle.parent? node = none := by
  intro node member
  rcases change.sheds (built.known node member) with same | alone
  · exact same.trans (built.orphans node member)
  · exact alone

namespace Patch

variable {patch : Patch}

/-- A patch changes only the nodes that it names. -/
theorem changesWithin_carryOut (linked : document.Linked) (within : ∀ id ∈ patch.named, region id) :
    ChangesWithin region document (patch.carryOut document) := by
  cases patch with
  | insert parent index tree =>
    obtain ⟨-, built⟩ := tree.build_spec linked
    have change : ChangesWithin region document (tree.build document).2 :=
      built.change.mono fun _ never => never.elim
    exact built.changesWithin_insertFrom change built.orphans
      (within parent List.mem_cons_self) index
  | remove parent index target =>
    have kept : (HostCommand.removeChild parent target).isInsert = false := rfl
    exact changesWithin_attempt linked kept within
  | replace parent index target tree =>
    obtain ⟨-, built⟩ := tree.build_spec linked
    have change : ChangesWithin region document (tree.build document).2 :=
      built.change.mono fun _ never => never.elim
    have removed : ChangesWithin region (tree.build document).2
        (Host.carryOut (tree.build document).2 (.removeChild parent target)) :=
      changesWithin_attempt change.linked rfl within
    exact built.changesWithin_insertFrom (change.trans removed)
      (built.orphans_of_changesWithin removed) (within parent List.mem_cons_self) index
  | move =>
    refine changesWithin_attempt linked rfl fun id member => within id ?_
    rw [List.mem_singleton.mp member]
    exact List.mem_cons_self
  | update target change =>
    obtain ⟨command, kept, touched, same⟩ := change.exists_command target
    show ChangesWithin region document (change.carryOut document target)
    rw [same]
    exact changesWithin_attempt linked kept (touched ▸ within)

/-- A patch for a parent that is there leaves a forest. -/
theorem forest_carryOut (forest : document.Forest)
    (known : ∀ parent, patch.parent? = some parent → document.contains parent) :
    (patch.carryOut document).Forest := by
  cases patch with
  | insert parent index tree =>
    obtain ⟨-, built⟩ := tree.build_spec forest.linked
    exact forest_insertFrom (Tree.build_forest forest tree) built.orphans built.distinct
      (built.change.closed_new forest.linked)
      (fun node member => ⟨built.fresh node member, built.known node member⟩)
      (fun new => new.1 (known parent rfl)) index
  | remove parent index target => exact forest.attempt rfl
  | replace parent index target tree =>
    obtain ⟨-, built⟩ := tree.build_spec forest.linked
    have removed : ChangesWithin (fun id => id = parent ∨ id = target) (tree.build document).2
        (Host.carryOut (tree.build document).2 (.removeChild parent target)) :=
      changesWithin_attempt built.change.linked rfl (by simp [HostCommand.touched])
    have change := (built.change.mono fun _ never => never.elim).trans removed
    exact forest_insertFrom ((Tree.build_forest forest tree).attempt rfl)
      (built.orphans_of_changesWithin removed) built.distinct (change.closed_new forest.linked)
      (fun node member => ⟨built.fresh node member, removed.contains (built.known node member)⟩)
      (fun new => new.1 (known parent rfl)) index
  | move => exact forest.attempt rfl
  | update target change =>
    obtain ⟨command, kept, -, same⟩ := change.exists_command target
    show (change.carryOut document target).Forest
    rw [same]
    exact forest.attempt kept

/-- Patches change only the nodes that they name. -/
theorem changesWithin_carryOutAll (linked : document.Linked) {patches : List Patch}
    (within : ∀ patch ∈ patches, ∀ id ∈ patch.named, region id) :
    ChangesWithin region document (carryOutAll document patches) := by
  induction patches generalizing document with
  | nil => exact .refl linked
  | cons patch rest ih =>
    have first := changesWithin_carryOut linked (within patch List.mem_cons_self)
    exact first.trans (ih first.linked fun later member => within later (List.mem_cons_of_mem _ member))

theorem forest_carryOutAll (forest : document.Forest) {patches : List Patch}
    (known : ∀ patch ∈ patches, ∀ parent, patch.parent? = some parent → document.contains parent) :
    (carryOutAll document patches).Forest := by
  induction patches generalizing document with
  | nil => exact forest
  | cons patch rest ih =>
    have first : ChangesWithin (fun _ => True) document (patch.carryOut document) :=
      changesWithin_carryOut forest.linked fun _ _ => trivial
    refine ih (forest_carryOut forest (known patch List.mem_cons_self)) fun later member parent is => ?_
    exact first.contains (known later (List.mem_cons_of_mem _ member) parent is)

end Patch

end ReactiveTree
