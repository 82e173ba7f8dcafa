import Mathlib.Data.List.Perm.Subperm
import ReactiveTree.Proofs.Reconcile.Moving
import ReactiveTree.Proofs.Reconcile.Staying

/-! # What a new order costs

Patches that neither take a child away nor move it under its parent leave it in its place among the
others that they spare, whatever they insert, remove or replace next to them. So children that come
into a new order without being moved had increasing places before, and no way to reach the order moves
fewer of them than all but a longest run.
-/

namespace ReactiveTree

open Document

variable {document : Document} {parent id : HostId} {keep : HostId → Bool} {patch : Patch}
  {patches : List Patch}

/-- The patches that do something among the children of a parent. -/
def patchesFor (parent : HostId) (patches : List Patch) : List Patch :=
  patches.filter fun patch => patch.parent? = some parent

/-- The children that patches move under a parent, one for each move. -/
def movedUnder (parent : HostId) (patches : List Patch) : List HostId :=
  (patchesFor parent patches).filterMap Patch.moved?

theorem mem_movedUnder : id ∈ movedUnder parent patches ↔
    ∃ patch ∈ patches, patch.parent? = some parent ∧ patch.moved? = some id := by
  unfold movedUnder patchesFor
  simp only [List.mem_filterMap, List.mem_filter, decide_eq_true_eq, and_assoc]

theorem length_movedUnder (parent : HostId) (patches : List Patch) :
    (movedUnder parent patches).length = (patchesFor parent patches).countP Patch.isMove := by
  unfold movedUnder
  rw [List.length_filterMap_eq_countP]
  congr 1
  funext patch
  cases patch <;> rfl

/-- A node that patches move under one parent alone is moved as often in all. -/
theorem count_moved (own : ∀ patch ∈ patches, patch.moved? = some id → patch.parent? = some parent) :
    (patches.filterMap Patch.moved?).count id = (movedUnder parent patches).count id := by
  unfold movedUnder patchesFor
  rw [List.count_eq_countP, List.count_eq_countP, List.countP_filterMap, List.countP_filterMap,
    List.countP_filter]
  apply List.countP_congr
  intro patch member
  rw [Bool.and_eq_true, decide_eq_true_eq]
  constructor
  · intro moves
    refine ⟨moves, own patch member ?_⟩
    cases here : patch.moved? with
    | none => simp [here] at moves
    | some target => simpa [here] using moves
  · exact And.left

theorem filter_filter_ne {child : HostId} (apart : ¬ keep child) (children : List HostId) :
    (children.filter fun sibling => sibling ≠ child).filter keep = children.filter keep := by
  rw [List.filter_filter]
  apply List.filter_congr
  intro sibling _
  by_cases same : sibling = child
  · simp [same, apart]
  · simp [same]

theorem filter_insertIdx_of_not {child : HostId} (apart : ¬ keep child) (children : List HostId)
    (index : Nat) : (children.insertIdx index child).filter keep = children.filter keep := by
  induction children generalizing index with
  | nil => cases index <;> simp [apart]
  | cons first rest ih =>
    cases index with
    | zero => simp [apart]
    | succ index => simp [List.filter_cons, ih]

/-- The child that a command takes out of the order under a parent. -/
def HostCommand.displaced? (parent : HostId) : HostCommand → Option HostId
  | .insertChild _ child _ => some child
  | .removeChild _ child => some child
  | .moveChild above child _ => if above = parent then some child else none
  | _ => none

theorem Document.Linked.filter_children_detach (linked : document.Linked) {child : HostId}
    (apart : ¬ keep child) (parent : HostId) :
    ((document.detach child).children parent).filter keep = (document.children parent).filter keep := by
  rw [linked.children_detach, filter_filter_ne apart]

/-- A command keeps all children in order but the one that it takes out. -/
theorem Document.Linked.filter_children_attempt (linked : document.Linked) (command : HostCommand)
    (spares : ∀ child, command.displaced? parent = some child → ¬ keep child) :
    ((document.attempt command).children parent).filter keep =
      (document.children parent).filter keep := by
  unfold Document.attempt
  split
  next changed fits =>
    cases command with
    | setText | setAttribute | addListener =>
      simp only [Document.perform] at fits
      split at fits <;> cases fits
      exact congrArg _ (children_setContent ..)
    | removeAttribute | removeListener =>
      simp only [Document.perform] at fits
      split at fits
      · split at fits <;> cases fits
        · exact congrArg _ (children_setContent ..)
        · rfl
      · cases fits
    | insertChild above child index =>
      simp only [Document.perform] at fits
      split at fits <;> cases fits
      next known =>
        have apart := spares child rfl
        have knownAbove : (document.detach child).contains above := by
          obtain ⟨node, found⟩ := contains_iff.mp known.1
          exact contains_iff.mpr ⟨_, by rw [node?_detach, found]; rfl⟩
        rw [← linked.filter_children_detach apart]
        show (((document.detach child).attach above child index).children parent).filter keep = _
        rw [children_attach _ _ _ _ _ knownAbove]
        split
        next same => rw [same, filter_insertIdx_of_not apart]
        next => rfl
    | removeChild above child =>
      simp only [Document.perform] at fits
      split at fits <;> cases fits
      exact linked.filter_children_detach (spares child rfl) parent
    | moveChild above child index =>
      simp only [Document.perform] at fits
      split at fits <;> cases fits
      next attached =>
        show ((document.reposition above child index).children parent).filter keep = _
        rw [children_reposition _ _ _ _ _ (linked.contains_parent attached)]
        split
        next same =>
          subst same
          have apart := spares child (if_pos rfl)
          rw [filter_insertIdx_of_not apart, filter_filter_ne apart]
        next => rfl
  next => rfl

theorem Document.Linked.filter_children_insertFrom (linked : document.Linked) {nodes : List HostId}
    (apart : ∀ node ∈ nodes, ¬ keep node) (above : HostId) (index : Nat) :
    ((insertFrom document above index nodes).children parent).filter keep =
      (document.children parent).filter keep := by
  induction nodes generalizing document index with
  | nil => rfl
  | cons node rest ih =>
    have inserted : ∀ child, (HostCommand.insertChild above node index).displaced? parent =
        some child → ¬ keep child := by
      rintro _ ⟨⟩
      exact apart node List.mem_cons_self
    have later := ih (linked.attempt (.insertChild above node index))
      (fun other member => apart other (List.mem_cons_of_mem _ member)) (index + 1)
    rw [insertFrom_cons]
    exact later.trans (linked.filter_children_attempt _ inserted)

theorem Document.Linked.filter_children_change (linked : document.Linked) (target : HostId)
    (change : Change) :
    ((change.carryOut document target).children parent).filter keep =
      (document.children parent).filter keep := by
  have shown (name : String) (value : PropValue) :
      ((showProp document target name value).children parent).filter keep =
        (document.children parent).filter keep := by
    unfold showProp
    split
    · exact linked.filter_children_attempt _ nofun
    · split <;> exact linked.filter_children_attempt _ nofun
  cases change with
  | text content => exact linked.filter_children_attempt _ nofun
  | set name value => exact shown name value
  | unset name value => cases value <;> exact linked.filter_children_attempt _ nofun

/-- A patch neither takes the nodes to keep away nor moves them under a parent. -/
structure Patch.Spares (patch : Patch) (parent : HostId) (keep : HostId → Bool) : Prop where
  taken : ∀ id, patch.taken? = some id → ¬ keep id
  moved : patch.parent? = some parent → ∀ id, patch.moved? = some id → ¬ keep id

/-- A patch leaves the children that it spares in order; what it builds is new. -/
theorem Patch.Spares.filter_children (spares : patch.Spares parent keep) (linked : document.Linked)
    (known : document.contains parent) (present : ∀ id, keep id → document.contains id) :
    ((patch.carryOut document).children parent).filter keep =
      (document.children parent).filter keep := by
  have built (tree : Tree) : (tree.build document).2.Linked ∧
      (∀ node ∈ (tree.build document).1, ¬ keep node) ∧
      (tree.build document).2.children parent = document.children parent := by
    obtain ⟨-, built⟩ := tree.build_spec linked
    exact ⟨built.change.linked, fun node member kept => built.fresh node member (present node kept),
      children_of_node? (built.node?_eq known)⟩
  cases patch with
  | insert above index tree =>
    obtain ⟨later, fresh, same⟩ := built tree
    rw [← same]
    exact later.filter_children_insertFrom fresh above index
  | remove above index target =>
    apply linked.filter_children_attempt
    intro child removed
    exact spares.taken child removed
  | replace above index target tree =>
    obtain ⟨later, fresh, same⟩ := built tree
    have removed : (((tree.build document).2.attempt (.removeChild above target)).children
        parent).filter keep = ((tree.build document).2.children parent).filter keep :=
      later.filter_children_attempt _ fun child gone => spares.taken child gone
    rw [← same]
    exact ((later.attempt _).filter_children_insertFrom fresh above index).trans removed
  | move above target before after =>
    apply linked.filter_children_attempt
    intro child moved
    obtain ⟨same, moved⟩ := Option.ite_none_right_eq_some.mp moved
    exact spares.moved (congrArg some same) child moved
  | update target change => exact linked.filter_children_change target change

/-- Patches leave the children that they all spare in order. -/
theorem filter_children_carryOutAll (linked : document.Linked) (known : document.contains parent)
    (present : ∀ id, keep id → document.contains id)
    (spares : ∀ patch ∈ patches, patch.Spares parent keep) :
    ((Patch.carryOutAll document patches).children parent).filter keep =
      (document.children parent).filter keep := by
  induction patches generalizing document with
  | nil => rfl
  | cons patch rest ih =>
    have first : ChangesWithin (fun _ => True) document (patch.carryOut document) :=
      Patch.changesWithin_carryOut linked fun _ _ => trivial
    have later := ih first.linked (first.contains known) (fun id kept => first.contains (present id kept))
      fun other member => spares other (List.mem_cons_of_mem _ member)
    exact later.trans ((spares patch List.mem_cons_self).filter_children linked known present)

variable {children : List HostId} {reused : List Place} {longest : Nat}

/-- Nodes that come in the order of distinct children have increasing places among them. -/
theorem pairwise_index_of_sublist (distinct : children.Nodup)
    (listed : ∀ place ∈ reused, children[place.index]? = some place.node)
    (ordered : (reused.map Place.node).Sublist children) :
    (reused.map Place.index).Pairwise (· < ·) := by
  have rising : children.Pairwise fun left right => children.idxOf left < children.idxOf right := by
    apply List.pairwise_iff_getElem.mpr
    intro left right inLeft inRight less
    rwa [distinct.idxOf_getElem, distinct.idxOf_getElem]
  have position : ∀ place ∈ reused, children.idxOf place.node = place.index := by
    intro place member
    obtain ⟨inside, same⟩ := List.getElem?_eq_some_iff.mp (listed place member)
    rw [← same, distinct.idxOf_getElem]
  have places := List.pairwise_map.mp (rising.sublist ordered)
  refine List.pairwise_map.mpr (places.imp_of_mem fun left right less => ?_)
  rwa [position _ left, position _ right] at less

/-- Children that patches bring into an order, taking none of them away, and that are not moved are in
the order that they had. -/
theorem unmoved_sublist (linked : document.Linked) {nodes : List HostId}
    (inside : ∀ node ∈ nodes, node ∈ document.children parent)
    (untaken : ∀ patch ∈ patches, ∀ node ∈ nodes, patch.taken? ≠ some node)
    (reached : ((Patch.carryOutAll document patches).children parent).filter (fun id => id ∈ nodes) =
      nodes) :
    (nodes.filter fun id => id ∉ movedUnder parent patches).Sublist (document.children parent) := by
  by_cases none : nodes = []
  · simp [none]
  · obtain ⟨first, member⟩ := List.exists_mem_of_ne_nil nodes none
    have known := contains_of_mem_children (inside first member)
    have spares : ∀ patch ∈ patches, patch.Spares parent fun id =>
        id ∉ movedUnder parent patches ∧ id ∈ nodes := by
      intro patch inPatches
      constructor
      · intro id taken kept
        exact untaken patch inPatches id (of_decide_eq_true kept).2 taken
      · intro under id moved kept
        apply (of_decide_eq_true kept).1
        exact mem_movedUnder.mpr ⟨patch, inPatches, under, moved⟩
    have same := filter_children_carryOutAll linked known
      (fun id kept => linked.contains_child (inside id (of_decide_eq_true kept).2)) spares
    rw [← reached, List.filter_filter]
    simp only [← Bool.decide_and]
    rw [same]
    exact List.filter_sublist

/-- Whatever else patches do that take no reused node away, to bring these into a new order they move
all of them but as many as a longest run of increasing places has. -/
theorem length_le_movedUnder_add (linked : document.Linked)
    (listed : ∀ place ∈ reused, (document.children parent)[place.index]? = some place.node)
    (distinct : (reused.map Place.node).Nodup)
    (untaken : ∀ patch ∈ patches, ∀ place ∈ reused, patch.taken? ≠ some place.node)
    (reached : ((Patch.carryOutAll document patches).children parent).filter
      (fun id => id ∈ reused.map Place.node) = reused.map Place.node)
    (isLongest : IsLongestAscent (reused.map Place.index) longest) :
    reused.length ≤ (movedUnder parent patches).length + longest := by
  have unmoved := unmoved_sublist linked
    (List.forall_mem_map.mpr fun place member => List.mem_of_getElem? (listed place member))
    (fun patch inPatches => List.forall_mem_map.mpr (untaken patch inPatches)) reached
  have stay : (reused.filter fun place => place.node ∉ movedUnder parent patches).length ≤ longest := by
    rw [List.filter_map] at unmoved
    have rising := pairwise_index_of_sublist (linked.distinct parent)
      (fun place member => listed place (List.mem_filter.mp member).1) unmoved
    exact isLongest.2 ⟨_, List.filter_sublist.map _, rising, List.length_map _⟩
  have move : (reused.filter fun place => place.node ∈ movedUnder parent patches).length ≤
      (movedUnder parent patches).length := by
    rw [← List.length_map Place.node]
    apply List.Subperm.length_le
    apply List.Nodup.subperm (distinct.sublist (List.filter_sublist.map _))
    intro id member
    obtain ⟨place, inFilter, rfl⟩ := List.mem_map.mp member
    exact of_decide_eq_true (List.mem_filter.mp inFilter).2
  have parts := List.length_eq_length_filter_add
    (l := reused) fun place => decide (place.node ∈ movedUnder parent patches)
  simp only [← decide_not] at parts
  omega

end ReactiveTree
