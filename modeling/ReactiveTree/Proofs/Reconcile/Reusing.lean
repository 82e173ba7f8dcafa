import ReactiveTree.Proofs.Reconcile.Reordering

/-! # What is reused, parent by parent

A diff lays out the children of the container and of each element that is kept under such a parent.
The nodes that are reused under one parent come from the matched old trees of the same kind. The plan
for the parent keeps exactly these, and the patches below it are the diffs of the elements among them.
Unless the container lies below itself each of these diffs is about nodes of its own, so the patches
for a parent are those of its layout.
-/

namespace ReactiveTree

open Document

/-- An old node that goes on to show a new tree. -/
structure Reuse where
  place : Place
  before : Tree
  after : Tree

mutual

/-- The nodes that a new tree reuses of the run of the old one that it is matched with: those of a tree
of the same kind, where a fragment leaves its run to the children that are matched. -/
def reuses (run : List Place) (old : Tree) : Tree → List Reuse
  | .text content =>
    if old.sameKind (.text content) then run.map fun place => ⟨place, old, .text content⟩ else []
  | .element tag props children key =>
    if old.sameKind (.element tag props children key) then
      run.map fun place => ⟨place, old, .element tag props children key⟩
    else []
  | .fragment children key =>
    if old.sameKind (.fragment children key) then
      let siblings := Siblings.of run old.children children
      reusesAll siblings.old siblings.partners children
    else []

/-- The nodes that new siblings reuse, in their order. -/
def reusesAll (old : List (Tree × List Place)) (partners : List (Option Nat)) :
    List Tree → List Reuse
  | [] => []
  | child :: rest =>
    (match partners.head?.join.bind (old[·]?) with
      | some (tree, run) => reuses run tree child
      | none => []) ++ reusesAll old partners.tail rest

end

section

variable {H : Type} [Host H] (host : H)

/-- The children of a parent that are reused, in the order of the new trees. -/
def childReuses (parent : HostId) (old new : List Tree) : List Reuse :=
  let siblings := Siblings.of (places (Host.children host parent)) old new
  reusesAll siblings.old siblings.partners new

/-- The parents whose children are laid out, with their old and new child trees. -/
inductive LaidOut (container : HostId) (old new : List Tree) : HostId → List Tree → List Tree → Prop
  | container : LaidOut container old new container old new
  | kept {parent : HostId} {before after : List Tree} {reuse : Reuse} {tag : String} {props : Props}
      {children : List Tree} {key : Option Key} (above : LaidOut container old new parent before after)
      (reused : reuse ∈ childReuses host parent before after)
      (element : reuse.after = .element tag props children key) :
      LaidOut container old new reuse.place.node reuse.before.children children

end

variable {H : Type} [Host H] {host : H} {document : Document} {parent : HostId} {place : Place}
  {run : List Place} {plan first second : Plan} {patches updates : List Patch} {old new : List Tree}
  {reused more : List Reuse} {reuse : Reuse}

/-- The patches below a reused node: none of them lays out its children if it is a text, and those of
an element come from the diff of its children. -/
inductive Reuse.Carries (host : H) : Reuse → List Patch → Prop
  | text {place : Place} {before after : String} {updates : List Patch}
      (quiet : ∀ patch ∈ updates, patch.isStructural = false) :
      Carries host ⟨place, .text before, .text after⟩ updates
  | element {place : Place} {oldTag tag : String} {oldProps props : Props}
      {oldChildren children : List Tree} {oldKey key : Option Key} {updates patches : List Patch}
      (quiet : ∀ patch ∈ updates, patch.isStructural = false)
      (laid : childPatches host place.node oldChildren children = .ok patches) :
      Carries host ⟨place, .element oldTag oldProps oldChildren oldKey,
        .element tag props children key⟩ (updates ++ patches)

/-- A plan reuses what it should, fills each place that it takes, and carries the patches below. -/
structure Plan.Follows (plan : Plan) (host : H) (reused : List Reuse) : Prop where
  nodes : plan.reused = reused.map Reuse.place
  fills : plan.Fills
  below : ∃ blocks : List (List Patch), plan.below = blocks.flatten ∧
    List.Forall₂ (Reuse.Carries host) reused blocks

namespace Plan.Follows

theorem empty : Plan.empty.Follows host [] :=
  ⟨rfl, nofun, [], rfl, .nil⟩

theorem create (tree : Tree) : (Plan.create tree).Follows host [] where
  nodes := rfl
  fills swaps := by simp [Plan.create] at swaps
  below := ⟨[], rfl, .nil⟩

theorem exchange (run : List Place) (tree : Tree) : (Plan.exchange run tree).Follows host [] := by
  unfold Plan.exchange
  split
  · split
    next wide =>
      refine ⟨rfl, fun swaps => ?_, [], rfl, .nil⟩
      cases List.mem_singleton.mp swaps
      exact wide
    next => exact ⟨rfl, fun swaps => (by simp at swaps), [], rfl, .nil⟩
  · exact ⟨rfl, fun swaps => (by simp at swaps), [], rfl, .nil⟩

theorem keep {before after : Tree} (carries : Reuse.Carries host ⟨place, before, after⟩ patches) :
    (Plan.keep place patches).Follows host [⟨place, before, after⟩] where
  nodes := rfl
  fills swaps := by simp [Plan.keep] at swaps
  below := ⟨[patches], by simp [Plan.keep], .cons carries .nil⟩

theorem append (follows : first.Follows host reused) (next : second.Follows host more) :
    (first.append second).Follows host (reused ++ more) where
  nodes := by
    rw [List.map_append, ← follows.nodes, ← next.nodes]
    exact List.filterMap_append
  fills swaps := (List.mem_append.mp swaps).elim follows.fills next.fills
  below := by
    obtain ⟨blocks, same, carries⟩ := follows.below
    obtain ⟨others, same', carries'⟩ := next.below
    refine ⟨blocks ++ others, ?_, List.rel_append carries carries'⟩
    rw [List.flatten_append, ← same, ← same']
    rfl

theorem without (follows : plan.Follows host reused) (places : List Place) :
    (plan.without places).Follows host reused :=
  ⟨follows.nodes, follows.fills, follows.below⟩

end Plan.Follows

mutual

/-- A plan for a new tree reuses the nodes of the matched old tree of one kind. -/
theorem planMatched_follows (host : H) : (tree : Tree) → ∀ (run : List Place) (old : Tree) (plan : Plan),
    run.length = old.width → planMatched host run old tree = .ok plan →
    plan.Follows host (reuses run old tree)
  | .text content => by
    intro run old plan width planned
    cases derives_of_planMatched width planned with
    | text place before =>
      refine .keep (.text fun patch member => ?_)
      split at member
      next => cases member
      next => rw [List.mem_singleton.mp member]; rfl
    | exchange other =>
      rw [reuses, if_neg other]
      exact .exchange run _
  | .element tag props children key => by
    intro run old plan width planned
    cases derives_of_planMatched width planned with
    | @element place _ oldProps _ oldChildren _ oldKey _ _ laid =>
      have kind : (Tree.element tag oldProps oldChildren oldKey).sameKind
          (.element tag props children key) := decide_eq_true rfl
      rw [reuses, if_pos kind]
      refine .keep (.element (fun patch member => ?_) laid)
      obtain ⟨change, -, rfl⟩ := List.mem_map.mp member
      rfl
    | exchange other =>
      rw [reuses, if_neg other]
      exact .exchange run _
  | .fragment children key => by
    intro run old plan width planned
    cases derives_of_planMatched width planned with
    | fragment enough siblings =>
      have inner := planSiblings_follows host children _ _ _ (length_of_mem_cutRuns enough) siblings
      exact inner.without _
    | exchange other =>
      rw [reuses, if_neg other]
      exact .exchange run _

/-- A plan for siblings reuses what each of them reuses of the old sibling that it continues. -/
theorem planSiblings_follows (host : H) : (trees : List Tree) →
    ∀ (old : List (Tree × List Place)) (partners : List (Option Nat)) (plan : Plan),
      (∀ entry ∈ old, entry.2.length = entry.1.width) →
      planSiblings host old partners trees = .ok plan → plan.Follows host (reusesAll old partners trees)
  | [] => by
    intro old partners plan fit planned
    cases planned
    exact .empty
  | child :: rest => by
    intro old partners plan fit planned
    obtain ⟨head, tail, plannedTail, rfl, first⟩ := exists_of_planSiblings_cons planned
    have others := planSiblings_follows host rest old partners.tail tail fit plannedTail
    unfold reusesAll
    rcases first with ⟨unmatched, rfl⟩ | ⟨entry, member, matched, plannedHead⟩
    · rw [unmatched]
      exact .append (.create child) others
    · rw [matched]
      exact .append (planMatched_follows host child entry.2 entry.1 head (fit entry member) plannedHead)
        others

end

/-- The children are laid out by a plan that accounts for them once and reuses what it should. -/
theorem exists_plan_of_childPatches (linked : document.Linked) (grounded : document.Grounded parent)
    (laid : childPatches document parent old new = .ok patches) :
    ∃ plan : Plan, plan.Covers (places (document.children parent)) ∧
      plan.Follows document (childReuses document parent old new) ∧
      plan.below ++ plan.layout parent = patches := by
  obtain ⟨enough, plan, siblings, same⟩ := exists_plan_of_layoutChildren laid
  have distinct : ((places (document.children parent)).map Place.node).Nodup := by
    rw [map_node_places]
    exact linked.distinct parent
  have follows := planSiblings_follows document new _ _ plan (length_of_mem_cutRuns enough) siblings
  obtain ⟨covers, -⟩ := (planSiblings_calmly linked new).siblings grounded enough
    (fun _ => node_mem_of_mem_places) distinct siblings
  exact ⟨_, covers, follows.without _, same⟩

/-- What a diff of the children of a node is about lies at the node or below it. -/
theorem below_of_mem_childPatches (laid : childPatches document parent old new = .ok patches) :
    ∀ patch ∈ patches, ∀ above, patch.parent? = some above → document.Below parent above := by
  have closed : document.Closed (document.Below parent) := closed_below document parent
  have same : ∀ id, document.Below parent id → document.children id = document.children id :=
    fun _ _ => rfl
  have concur := concur_layoutChildren closed same .refl
    (fun siblings runs => concur_planSiblings closed same new siblings.old siblings.partners runs)
    old new
  intro patch member above here
  apply concur.holds patches laid patch member above
  cases patch <;> cases here <;> exact List.mem_cons_self

theorem patchesFor_append (parent : HostId) (first second : List Patch) :
    patchesFor parent (first ++ second) = patchesFor parent first ++ patchesFor parent second :=
  List.filter_append ..

theorem patchesFor_eq_nil (apart : ∀ patch ∈ patches, patch.parent? ≠ some parent) :
    patchesFor parent patches = [] := by
  apply List.filter_eq_nil_iff.mpr
  intro patch member
  rw [decide_eq_true_eq]
  exact apart patch member

theorem patchesFor_eq_self (own : ∀ patch ∈ patches, patch.parent? = some parent) :
    patchesFor parent patches = patches := by
  apply List.filter_eq_self.mpr
  intro patch member
  rw [decide_eq_true_eq]
  exact own patch member

/-- A patch that is not structural is about no children. -/
theorem parent?_ne_of_quiet (quiet : ∀ patch ∈ updates, patch.isStructural = false) :
    ∀ patch ∈ updates, patch.parent? ≠ some parent := by
  intro patch member here
  have none := quiet patch member
  cases patch with
  | update => cases here
  | _ => cases none

/-- The patches below a reused node are about children of nodes that lie at it or below. -/
theorem Reuse.Carries.below (carries : reuse.Carries document patches) :
    ∀ patch ∈ patches, ∀ above, patch.parent? = some above →
      document.Below reuse.place.node above := by
  intro patch member above here
  cases carries with
  | text quiet => exact (parent?_ne_of_quiet quiet patch member here).elim
  | element quiet laid =>
    rcases List.mem_append.mp member with early | late
    · exact (parent?_ne_of_quiet quiet patch early here).elim
    · exact below_of_mem_childPatches laid patch late above here

section

variable {above : HostId} {blocks : List (List Patch)}

/-- Nothing below a reused node is about a node elsewhere. -/
theorem Reuse.Carries.patchesFor_eq_nil (carries : reuse.Carries document patches)
    (elsewhere : ¬ document.Below reuse.place.node above) : patchesFor above patches = [] := by
  apply ReactiveTree.patchesFor_eq_nil
  intro patch member here
  exact elsewhere (carries.below patch member above here)

theorem patchesFor_flatten_eq_nil (carry : List.Forall₂ (Reuse.Carries document) reused blocks)
    (elsewhere : ∀ reuse ∈ reused, ¬ document.Below reuse.place.node above) :
    patchesFor above blocks.flatten = [] := by
  induction carry with
  | nil => rfl
  | @cons reuse block rest later carries _ ih =>
    have own := carries.patchesFor_eq_nil (elsewhere reuse List.mem_cons_self)
    have others := ih fun other listed => elsewhere other (List.mem_cons_of_mem _ listed)
    rw [List.flatten_cons, patchesFor_append, own, others, List.nil_append]

/-- Among the patches below reused siblings, those about a node below one of them are its own. -/
theorem exists_block_of_mem (linked : document.Linked) (grounded : document.Grounded parent)
    (carry : List.Forall₂ (Reuse.Carries document) reused blocks)
    (inside : ∀ reuse ∈ reused, reuse.place.node ∈ document.children parent)
    (distinct : (reused.map fun reuse => reuse.place.node).Nodup) (member : reuse ∈ reused) :
    ∃ block, reuse.Carries document block ∧ ∀ above, document.Below reuse.place.node above →
      patchesFor above blocks.flatten = patchesFor above block := by
  have elsewhere {other : Reuse} (there : other.place.node ∈ document.children parent)
      (apart : other.place.node ≠ reuse.place.node) {above : HostId}
      (below : document.Below reuse.place.node above) :
      ¬ document.Below other.place.node above := by
    have here := inside reuse member
    exact fun path => linked.disjoint_below (linked.grounded_of_below grounded (.single there))
      (linked.grounded_of_below grounded (.single here)) there here apart path below
  induction carry with
  | nil => cases member
  | @cons first block rest later carries carry ih =>
    rw [List.map_cons, List.nodup_cons] at distinct
    have insideRest : ∀ other ∈ rest, other.place.node ∈ document.children parent :=
      fun other listed => inside other (List.mem_cons_of_mem _ listed)
    rcases List.mem_cons.mp member with rfl | listed
    · refine ⟨block, carries, fun above below => ?_⟩
      have others := patchesFor_flatten_eq_nil carry fun other listed =>
        elsewhere (insideRest other listed)
          (fun equal => distinct.1 (equal ▸ List.mem_map_of_mem listed)) below
      rw [List.flatten_cons, patchesFor_append, others, List.append_nil]
    · obtain ⟨own, carriesOwn, same⟩ := ih insideRest distinct.2 listed
      have apart : first.place.node ≠ reuse.place.node := fun equal =>
        distinct.1 (equal ▸ List.mem_map_of_mem listed)
      refine ⟨own, carriesOwn, fun above below => ?_⟩
      have others := carries.patchesFor_eq_nil (elsewhere (inside first List.mem_cons_self) apart below)
      rw [List.flatten_cons, patchesFor_append, others, List.nil_append, same above below]

end

theorem Plan.reused_sublist (plan : Plan) :
    plan.reused.Sublist (plan.placements.filterMap Placement.place?) := by
  unfold Plan.reused
  induction plan.placements with
  | nil => exact .slnil
  | cons placement rest ih =>
    cases placement with
    | keep place => exact ih.cons_cons place
    | create tree => exact ih
    | swap place tree => exact ih.cons place

theorem Plan.Covers.mem_of_reused (covers : plan.Covers run) (member : place ∈ plan.reused) :
    place ∈ run :=
  covers.mem_iff.mp (List.mem_append_left _ (plan.reused_sublist.subset member))

theorem Plan.Covers.nodup_reused (covers : plan.Covers (places (document.children parent)))
    (linked : document.Linked) : (plan.reused.map Place.node).Nodup := by
  have distinct : ((places (document.children parent)).map Place.node).Nodup := by
    rw [map_node_places]
    exact linked.distinct parent
  rw [← (covers.map Place.node).nodup_iff, List.map_append, List.nodup_append] at distinct
  exact distinct.1.sublist (plan.reused_sublist.map _)

theorem Plan.Covers.node_mem_of_reused (covers : plan.Covers (places (document.children parent)))
    (same : plan.reused = reused.map Reuse.place) (member : reuse ∈ reused) :
    reuse.place.node ∈ document.children parent := by
  apply node_mem_of_mem_places
  apply covers.mem_of_reused
  rw [same]
  exact List.mem_map_of_mem member

/-- The patches for a parent are those of its layout; what is below is about other nodes. -/
theorem exists_layout_of_childPatches (linked : document.Linked) (grounded : document.Grounded parent)
    (laid : childPatches document parent old new = .ok patches) :
    ∃ plan : Plan, plan.Covers (places (document.children parent)) ∧ plan.Fills ∧
      plan.reused = (childReuses document parent old new).map Reuse.place ∧
      patchesFor parent patches = plan.layout parent ∧
      ∀ reuse ∈ childReuses document parent old new, ∃ block, reuse.Carries document block ∧
        ∀ above, document.Below reuse.place.node above →
          patchesFor above patches = patchesFor above block := by
  obtain ⟨plan, covers, follows, rfl⟩ := exists_plan_of_childPatches linked grounded laid
  obtain ⟨blocks, same, carry⟩ := follows.below
  have inside : ∀ reuse ∈ childReuses document parent old new,
      reuse.place.node ∈ document.children parent :=
    fun _ => covers.node_mem_of_reused follows.nodes
  have distinct := covers.nodup_reused linked
  rw [follows.nodes, List.map_map] at distinct
  have own : patchesFor parent (plan.layout parent) = plan.layout parent :=
    patchesFor_eq_self fun _ member => parent?_of_mem_layout member
  refine ⟨plan, covers, follows.fills, follows.nodes, ?_, fun reuse member => ?_⟩
  · -- No patch below a reused child is about the parent itself.
    have nothing : patchesFor parent plan.below = [] := by
      rw [same]
      exact patchesFor_flatten_eq_nil carry fun reuse member =>
        grounded reuse.place.node (inside reuse member)
    rw [patchesFor_append, nothing, own, List.nil_append]
  · obtain ⟨block, carries, rest⟩ := exists_block_of_mem linked grounded carry inside distinct member
    refine ⟨block, carries, fun above below => ?_⟩
    have nothing : patchesFor above (plan.layout parent) = [] := by
      apply patchesFor_eq_nil
      intro patch listed here
      rw [parent?_of_mem_layout listed] at here
      cases here
      exact grounded reuse.place.node (inside reuse member) below
    rw [patchesFor_append, nothing, List.append_nil, same, rest above below]

/-- Each parent that is laid out has a diff of its children, and its patches are in the whole. -/
theorem LaidOut.exists_patches {container : HostId} {before after : List Tree}
    (laidOut : LaidOut document container old new parent before after) (linked : document.Linked)
    (grounded : document.Grounded container)
    (laid : childPatches document container old new = .ok patches) :
    document.Grounded parent ∧ ∃ nested, childPatches document parent before after = .ok nested ∧
      ∀ above, document.Below parent above → patchesFor above patches = patchesFor above nested := by
  induction laidOut with
  | container => exact ⟨grounded, patches, laid, fun _ _ => rfl⟩
  | @kept parent before after reuse tag props children key _ reused element ih =>
    obtain ⟨lower, nested, here, same⟩ := ih
    obtain ⟨plan, covers, -, nodes, -, below⟩ := exists_layout_of_childPatches linked lower here
    obtain ⟨block, carries, own⟩ := below reuse reused
    have inside := covers.node_mem_of_reused nodes reused
    cases carries with
    | text => cases element
    | @element place _ _ _ _ oldChildren _ _ _ updates inner quiet laidInner =>
      cases element
      refine ⟨linked.grounded_of_below lower (.single inside), inner, laidInner, fun above path => ?_⟩
      have nothing : patchesFor above updates = [] := patchesFor_eq_nil (parent?_ne_of_quiet quiet)
      rw [same above (.head inside path), own above path, patchesFor_append, nothing, List.nil_append]

mutual

/-- What is reused for a tree shows a part of it. -/
theorem sizeOf_after_le : (tree : Tree) → ∀ (run : List Place) (old : Tree),
    ∀ reuse ∈ reuses run old tree, sizeOf reuse.after ≤ sizeOf tree
  | .text content => by
    intro run old reuse member
    unfold reuses at member
    split at member
    next =>
      obtain ⟨place, -, rfl⟩ := List.mem_map.mp member
      exact Nat.le_refl _
    next => cases member
  | .element tag props children key => by
    intro run old reuse member
    unfold reuses at member
    split at member
    next =>
      obtain ⟨place, -, rfl⟩ := List.mem_map.mp member
      exact Nat.le_refl _
    next => cases member
  | .fragment children key => by
    intro run old reuse member
    unfold reuses at member
    split at member
    next =>
      have smaller := sizeOf_after_lt children _ _ reuse member
      rw [Tree.fragment.sizeOf_spec]
      omega
    next => cases member

theorem sizeOf_after_lt : (trees : List Tree) →
    ∀ (old : List (Tree × List Place)) (partners : List (Option Nat)),
      ∀ reuse ∈ reusesAll old partners trees, sizeOf reuse.after < sizeOf trees
  | [] => by
    intro old partners reuse member
    cases member
  | child :: rest => by
    intro old partners reuse member
    unfold reusesAll at member
    rw [List.cons.sizeOf_spec]
    rcases List.mem_append.mp member with first | later
    · split at first
      next =>
        have smaller := sizeOf_after_le child _ _ reuse first
        omega
      next => cases first
    · have smaller := sizeOf_after_lt rest _ _ reuse later
      omega

end

theorem LaidOut.trans {H : Type} [Host H] {host : H} {container parent lower : HostId}
    {old new before after inner latter : List Tree}
    (above : LaidOut host container old new parent before after)
    (below : LaidOut host parent before after lower inner latter) :
    LaidOut host container old new lower inner latter := by
  induction below with
  | container => exact above
  | kept _ reused element ih => exact ih.kept reused element

theorem exists_mem_of_forall₂ {α β : Type} {relation : α → β → Prop} {left : List α} {right : List β}
    (related : List.Forall₂ relation left right) {value : β} (member : value ∈ right) :
    ∃ other ∈ left, relation other value := by
  induction related with
  | nil => cases member
  | cons here _ ih =>
    rcases List.mem_cons.mp member with rfl | later
    · exact ⟨_, List.mem_cons_self, here⟩
    · obtain ⟨other, inRest, holds⟩ := ih later
      exact ⟨other, List.mem_cons_of_mem _ inRest, holds⟩

/-- No patch of a diff is about the children of another node. -/
theorem exists_laidOut_of_mem (linked : document.Linked) (grounded : document.Grounded parent)
    (laid : childPatches document parent old new = .ok patches) :
    ∀ patch ∈ patches, ∀ above, patch.parent? = some above →
      ∃ before after, LaidOut document parent old new above before after := by
  induction size : sizeOf new using Nat.strongRecOn generalizing parent old new patches with
  | ind size ih =>
    intro patch member above here
    obtain ⟨plan, covers, follows, rfl⟩ := exists_plan_of_childPatches linked grounded laid
    obtain ⟨blocks, same, carry⟩ := follows.below
    rcases List.mem_append.mp member with below | own
    · rw [same] at below
      obtain ⟨block, inBlocks, inBlock⟩ := List.mem_flatten.mp below
      obtain ⟨reuse, reused, carries⟩ := exists_mem_of_forall₂ carry inBlocks
      have inside := covers.node_mem_of_reused follows.nodes reused
      have smaller := sizeOf_after_lt new _ _ reuse reused
      cases carries with
      | text quiet => exact (parent?_ne_of_quiet quiet patch inBlock here).elim
      | element quiet laidInner =>
        rcases List.mem_append.mp inBlock with early | late
        · exact (parent?_ne_of_quiet quiet patch early here).elim
        · rw [Tree.element.sizeOf_spec] at smaller
          obtain ⟨before, after, inner⟩ := ih _ (by omega)
            (linked.grounded_of_below grounded (.single inside)) laidInner rfl patch late above here
          exact ⟨before, after, (LaidOut.container.kept reused rfl).trans inner⟩
    · rw [parent?_of_mem_layout own] at here
      cases here
      exact ⟨old, new, .container⟩

end ReactiveTree
