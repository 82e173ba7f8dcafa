import ReactiveTree.Proofs.Reconcile.Confining
import ReactiveTree.Proofs.Reconcile.Deriving
import ReactiveTree.Proofs.Reconcile.Planning

/-! # What moves is never taken away

Whatever an old tree claims, the patches that a diff computes move only children that the host has
under the parent that the patch names, and no other patch takes such a child away. Under one parent a
plan accounts for each child once, so that what is kept is apart from what leaves; and what lies
beneath two kept siblings is apart if the container does not lie below itself. So a child is still
there when its turn to move comes.
-/

namespace ReactiveTree

open Document

variable {document : Document} {parent id : HostId} {place : Place} {run : List Place}
  {plan : Plan} {patch : Patch} {patches first second : List Patch} {old new : List Tree}

/-- The child that a patch removes, replaces or moves. -/
def Patch.child? : Patch → Option HostId
  | .remove _ _ target => some target
  | .replace _ _ target _ => some target
  | .move _ target _ _ => some target
  | _ => none

/-- The child that a patch takes away from its parent. -/
def Patch.taken? : Patch → Option HostId
  | .remove _ _ target => some target
  | .replace _ _ target _ => some target
  | _ => none

theorem Patch.child?_of_taken? (taken : patch.taken? = some id) : patch.child? = some id := by
  cases patch with
  | remove | replace => exact taken
  | insert | move | update => cases taken

/-- Patches that move only children of the parents that they name, and take none of these away. -/
def Steady (document : Document) (patches : List Patch) : Prop :=
  ∀ parent target before after, .move parent target before after ∈ patches →
    document.parent? target = some parent ∧ ∀ patch ∈ patches, patch.taken? ≠ some target

/-- Patches that are about no child are steady. -/
theorem Steady.of_child?_eq_none (none : ∀ patch ∈ patches, patch.child? = none) :
    Steady document patches := by
  intro parent target before after member
  cases none _ member

theorem Steady.append (early : Steady document first) (late : Steady document second)
    (apart : ∀ patch ∈ first, ∀ other ∈ second, ∀ id, patch.child? = some id →
      other.child? ≠ some id) : Steady document (first ++ second) := by
  intro parent target before after member
  rcases List.mem_append.mp member with here | here
  · obtain ⟨attached, stays⟩ := early parent target before after here
    refine ⟨attached, fun patch listed => ?_⟩
    rcases List.mem_append.mp listed with inFirst | inSecond
    · exact stays patch inFirst
    · intro taken
      exact apart _ here patch inSecond target rfl (Patch.child?_of_taken? taken)
  · obtain ⟨attached, stays⟩ := late parent target before after here
    refine ⟨attached, fun patch listed => ?_⟩
    rcases List.mem_append.mp listed with inFirst | inSecond
    · intro taken
      exact apart patch inFirst _ here target (Patch.child?_of_taken? taken) rfl
    · exact stays patch inSecond

theorem Board.exists_target_of_mem_placeAll (board : Board) (entries : List (Target × Nat)) :
    ∀ patch ∈ (board.placeAll entries).1, ∃ entry ∈ entries, ∃ widths,
      patch ∈ (board.placeTarget entry.2 entry.1 widths).1 := by
  induction entries with
  | nil => exact fun _ none => (List.not_mem_nil none).elim
  | cons entry rest ih =>
    obtain ⟨target, position⟩ := entry
    intro patch member
    unfold Board.placeAll at member
    rcases List.mem_append.mp member with early | late
    · obtain ⟨entry, listed, widths, here⟩ := ih patch early
      exact ⟨entry, List.mem_cons_of_mem _ listed, widths, here⟩
    · exact ⟨_, List.mem_cons_self, _, late⟩

theorem keep_of_move {placements : List Placement} {targets : List Target}
    (settled : List.Forall₂ Target.Settles placements targets) (member : .move place ∈ targets) :
    .keep place ∈ placements := by
  induction settled with
  | nil => cases member
  | cons here _ ih =>
    rcases List.mem_cons.mp member with rfl | later
    · cases here
      exact List.mem_cons_self
    · exact List.mem_cons_of_mem _ (ih later)

/-- What a patch of a layout is about: a kept node that moves under the parent, or one that leaves. -/
theorem Plan.mem_layout (member : patch ∈ plan.layout parent) :
    (∃ place before after, .keep place ∈ plan.placements ∧
      patch = .move parent place.node before after) ∨
    (∃ id, plan.Leaves id ∧ patch.taken? = some id) ∨ patch.child? = none := by
  have settled := targetsOf_settles plan.placements
  rcases List.mem_append.mp member with removal | placing
  · obtain ⟨place, listed, rfl⟩ := List.mem_map.mp removal
    have gone := (List.mergeSort_perm _ _).mem_iff.mp (mem_of_mem_eraseReps listed)
    refine .inr (.inl ⟨place.node, ?_, rfl⟩)
    rcases List.mem_append.mp gone with removed | remade
    · exact .inl ⟨place, removed, rfl⟩
    · obtain ⟨target, listed, isRemade⟩ := List.mem_filterMap.mp remade
      cases target <;> cases isRemade
      exact .inr ⟨place, _, leaves_of_target settled (.inr listed), rfl⟩
  · obtain ⟨⟨target, position⟩, listed, widths, here⟩ :=
      Board.exists_target_of_mem_placeAll _ _ patch placing
    have wanted := List.fst_mem_of_mem_zipIdx listed
    cases target with
    | stay => cases here
    | move place =>
      simp only [Board.placeTarget] at here
      split at here
      next => cases here
      next =>
        cases List.mem_singleton.mp here
        exact .inl ⟨place, _, _, keep_of_move settled wanted, rfl⟩
    | swap place tree =>
      cases List.mem_singleton.mp here
      exact .inr (.inl ⟨place.node, .inr ⟨place, tree,
        leaves_of_target settled (.inl wanted), rfl⟩, rfl⟩)
    | insert tree | remake _ tree =>
      simp only [Board.placeTarget, Board.insertTree] at here
      split at here
      next => cases here
      next =>
        cases List.mem_singleton.mp here
        exact .inr (.inr rfl)

/-- The patches below the kept nodes of a plan are steady, and about what lies beneath these. -/
structure Plan.Calm (plan : Plan) (document : Document) : Prop where
  beneath : ∀ patch ∈ plan.below, ∀ id, patch.child? = some id →
    ∃ place, .keep place ∈ plan.placements ∧ document.Beneath place.node id
  steady : Steady document plan.below

/-- Steady patches about what lies beneath a node. -/
structure SteadyBeneath (document : Document) (node : HostId) (patches : List Patch) : Prop where
  beneath : ∀ patch ∈ patches, ∀ id, patch.child? = some id → document.Beneath node id
  steady : Steady document patches

/-- A child of a node does not lie beneath another child, nor beneath itself. -/
theorem Document.Linked.not_beneath (linked : document.Linked) (grounded : document.Grounded parent)
    {child other : HostId}
    (first : child ∈ document.children parent) (second : other ∈ document.children parent) :
    ¬ document.Beneath child other := by
  have away := linked.grounded_of_below grounded (.single first)
  rintro ⟨below, member, path⟩
  by_cases same : child = other
  · subst same
    exact away below member path
  · exact linked.not_below away first second same (.head member path)

/-- The layout of a plan that accounts for the children of a node once is steady, after what is
below. -/
theorem Plan.Calm.layout (calm : plan.Calm document) (linked : document.Linked)
    (grounded : document.Grounded parent) (covers : plan.Covers (places (document.children parent))) :
    SteadyBeneath document parent (plan.below ++ plan.layout parent) := by
  have distinct : ((places (document.children parent)).map Place.node).Nodup := by
    rw [map_node_places]
    exact linked.distinct parent
  have kept {place : Place} (keeps : .keep place ∈ plan.placements) :
      place.node ∈ document.children parent := node_mem_of_mem_places (covers.mem_of_keep keeps)
  have leaving {id : HostId} (leaves : plan.Leaves id) : id ∈ document.children parent := by
    obtain ⟨place, listed, rfl⟩ := covers.mem_of_leaves leaves
    exact node_mem_of_mem_places listed
  have layoutChild : ∀ patch ∈ plan.layout parent, ∀ id, patch.child? = some id →
      id ∈ document.children parent := by
    intro patch member id here
    rcases Plan.mem_layout member with ⟨place, _, _, keeps, rfl⟩ | ⟨gone, leaves, taken⟩ | none
    · cases here
      exact kept keeps
    · rw [Patch.child?_of_taken? taken] at here
      cases here
      exact leaving leaves
    · rw [none] at here
      cases here
  have layoutSteady : Steady document (plan.layout parent) := by
    intro above target before after member
    rcases Plan.mem_layout member with ⟨place, _, _, keeps, same⟩ | ⟨_, _, taken⟩ | none
    · cases same
      refine ⟨linked.mem_children_iff.mp (kept keeps), fun patch listed taken => ?_⟩
      rcases Plan.mem_layout listed with ⟨_, _, _, _, rfl⟩ | ⟨gone, leaves, taken'⟩ | none
      · cases taken
      · rw [taken] at taken'
        cases taken'
        exact covers.ne_of_leaves distinct keeps leaves rfl
      · rw [Patch.child?_of_taken? taken] at none
        cases none
    · cases taken
    · cases none
  refine ⟨fun patch member id here => ?_, calm.steady.append layoutSteady ?_⟩
  · rcases List.mem_append.mp member with early | late
    · obtain ⟨place, keeps, beneath⟩ := calm.beneath patch early id here
      exact ⟨place.node, kept keeps, beneath.below⟩
    · exact ⟨id, layoutChild patch late id here, .refl⟩
  · intro patch early other late id here there
    obtain ⟨place, keeps, beneath⟩ := calm.beneath patch early id here
    exact linked.not_beneath grounded (kept keeps) (layoutChild other late id there) beneath

/-- A plan with nothing to do below is calm. -/
theorem Plan.Calm.of_below_eq_nil (nothing : plan.below = []) : plan.Calm document := by
  constructor
  · simp [nothing]
  · simp [nothing, Steady]

theorem calm_exchange (run : List Place) (tree : Tree) : (Plan.exchange run tree).Calm document := by
  refine .of_below_eq_nil ?_
  unfold Plan.exchange
  split
  · split <;> rfl
  · rfl

/-- A kept node with updates and patches for what lies beneath it. -/
theorem calm_keep {updates : List Patch} (harmless : ∀ patch ∈ updates, patch.child? = none)
    (inside : SteadyBeneath document place.node patches) :
    (Plan.keep place (updates ++ patches)).Calm document where
  beneath patch member id here := by
    rcases List.mem_append.mp member with early | late
    · rw [harmless patch early] at here
      cases here
    · exact ⟨place, List.mem_singleton_self _, inside.beneath patch late id here⟩
  steady := by
    refine (Steady.of_child?_eq_none harmless).append inside.steady ?_
    intro patch early other _ id here
    rw [harmless patch early] at here
    cases here

theorem Plan.Calm.append {first second : Plan} {left right : List Place}
    (linked : document.Linked) (grounded : document.Grounded parent)
    (calm : first.Calm document) (next : second.Calm document) (covers : first.Covers left)
    (coversNext : second.Covers right)
    (siblings : ∀ place ∈ left ++ right, place.node ∈ document.children parent)
    (distinct : ((left ++ right).map Place.node).Nodup) : (first.append second).Calm document where
  beneath patch member id here := by
    rcases List.mem_append.mp member with early | late
    · obtain ⟨place, keeps, beneath⟩ := calm.beneath patch early id here
      exact ⟨place, List.mem_append_left _ keeps, beneath⟩
    · obtain ⟨place, keeps, beneath⟩ := next.beneath patch late id here
      exact ⟨place, List.mem_append_right _ keeps, beneath⟩
  steady := by
    rw [List.map_append, List.nodup_append] at distinct
    refine calm.steady.append next.steady fun patch early other late id here there => ?_
    obtain ⟨place, keeps, beneath⟩ := calm.beneath patch early id here
    obtain ⟨place', keeps', beneath'⟩ := next.beneath other late id there
    have inLeft := covers.mem_of_keep keeps
    have inRight := coversNext.mem_of_keep keeps'
    have apart := distinct.2.2 _ (List.mem_map_of_mem inLeft) _ (List.mem_map_of_mem inRight)
    have here := siblings place (List.mem_append_left _ inLeft)
    have here' := siblings place' (List.mem_append_right _ inRight)
    exact linked.disjoint_below (linked.grounded_of_below grounded (.single here))
      (linked.grounded_of_below grounded (.single here')) here here' apart beneath.below beneath'.below

/-- Runs of children of a parent, each as long as its old tree claims. -/
def RunsFit (document : Document) (parent : HostId) (entries : List (Tree × List Place)) : Prop :=
  ∀ entry ∈ entries, (∀ place ∈ entry.2, place.node ∈ document.children parent) ∧
    entry.2.length = entry.1.width

theorem length_of_mem_cutRuns (enough : run.length = Tree.widths old) :
    ∀ entry ∈ old.zip (cutRuns run old), entry.2.length = entry.1.width := by
  induction old generalizing run with
  | nil => simp
  | cons tree rest ih =>
    rw [Tree.widths] at enough
    rw [cutRuns, List.zip_cons_cons]
    intro entry member
    rcases List.mem_cons.mp member with rfl | later
    · show (run.take tree.width).length = tree.width
      rw [List.length_take]
      omega
    · refine ih ?_ entry later
      rw [List.length_drop]
      omega

/-- Whatever old siblings new ones continue under a node that is not below itself, their plan accounts
for the continued runs once, and is calm. -/
def PlansCalmly (document : Document) (new : List Tree) : Prop :=
  ∀ (old : List (Tree × List Place)) (partners : List (Option Nat)) (parent : HostId) (plan : Plan),
    document.Grounded parent → partners.length = new.length → RunsFit document parent old →
    (((Siblings.chosen old partners).flatMap Prod.snd).map Place.node).Nodup →
    planSiblings document old partners new = .ok plan →
    plan.Covers ((Siblings.chosen old partners).flatMap Prod.snd) ∧ plan.Calm document

/-- With what is left over such a plan accounts for the whole run. -/
theorem PlansCalmly.siblings (calmly : PlansCalmly document new) (grounded : document.Grounded parent)
    (enough : run.length = Tree.widths old)
    (inside : ∀ place ∈ run, place.node ∈ document.children parent)
    (distinct : (run.map Place.node).Nodup)
    (planned : planSiblings document (Siblings.of run old new).old (Siblings.of run old new).partners
      new = .ok plan) :
    (plan.without (Siblings.of run old new).leftOver).Covers run ∧
      (plan.without (Siblings.of run old new).leftOver).Calm document := by
  have whole := Siblings.chosen_perm new enough
  have fit : RunsFit document parent (Siblings.of run old new).old := by
    intro entry member
    refine ⟨fun place listed => inside place ?_, length_of_mem_cutRuns enough entry member⟩
    rw [← flatMap_cutRuns enough]
    exact List.mem_flatMap.mpr ⟨entry, member, listed⟩
  have apart := (whole.map Place.node).nodup_iff.mpr distinct
  rw [List.map_append, List.nodup_append] at apart
  have length : (partnersOf old new).length = new.length := by simp [partnersOf]
  obtain ⟨covers, calm⟩ := calmly _ _ parent plan grounded length fit apart.1 planned
  refine ⟨?_, calm.beneath, calm.steady⟩
  unfold Plan.Covers Plan.without
  rw [← List.append_assoc]
  exact (covers.append_right _).trans whole

/-- The children of a node are laid out steadily. -/
theorem PlansCalmly.layoutChildren (calmly : PlansCalmly document new) (linked : document.Linked)
    (grounded : document.Grounded parent)
    (planned : layoutChildren document parent old new (fun siblings =>
      planSiblings document siblings.old siblings.partners new) = .ok patches) :
    SteadyBeneath document parent patches := by
  obtain ⟨enough, plan, siblings, rfl⟩ := exists_plan_of_layoutChildren planned
  have distinct : ((places (document.children parent)).map Place.node).Nodup := by
    rw [map_node_places]
    exact linked.distinct parent
  obtain ⟨covers, calm⟩ :=
    calmly.siblings grounded enough (fun _ => node_mem_of_mem_places) distinct siblings
  exact calm.layout linked grounded covers

mutual

/-- The plan for a new tree accounts for the run of the old one once, and is calm. -/
theorem planMatched_calmly (linked : document.Linked) : (tree : Tree) →
    ∀ (run : List Place) (old : Tree) (parent : HostId) (plan : Plan), document.Grounded parent →
      (∀ place ∈ run, place.node ∈ document.children parent) → (run.map Place.node).Nodup →
      run.length = old.width → planMatched document run old tree = .ok plan →
      plan.Covers run ∧ plan.Calm document
  | .text content => by
    intro run old parent plan grounded inside distinct width planned
    cases derives_of_planMatched width planned with
    | text place before =>
      refine ⟨covers_keep place _, ?_⟩
      rw [← List.append_nil (if before = content then _ else _)]
      refine calm_keep (fun patch member => ?_) ⟨by simp, by simp [Steady]⟩
      split at member
      next => cases member
      next =>
        cases List.mem_singleton.mp member
        rfl
    | exchange => exact ⟨covers_exchange run _, calm_exchange run _⟩
  | .element tag props children key => by
    intro run old parent plan grounded inside distinct width planned
    cases derives_of_planMatched width planned with
    | element laid =>
      have kept := inside _ (List.mem_singleton_self _)
      refine ⟨covers_keep _ _, calm_keep (fun patch member => ?_)
        ((planSiblings_calmly linked children).layoutChildren linked
          (linked.grounded_of_below grounded (.single kept)) laid)⟩
      obtain ⟨change, -, rfl⟩ := List.mem_map.mp member
      rfl
    | exchange => exact ⟨covers_exchange run _, calm_exchange run _⟩
  | .fragment children key => by
    intro run old parent plan grounded inside distinct width planned
    cases derives_of_planMatched width planned with
    | fragment enough siblings =>
      exact (planSiblings_calmly linked children).siblings grounded enough inside distinct siblings
    | exchange => exact ⟨covers_exchange run _, calm_exchange run _⟩

theorem planSiblings_calmly (linked : document.Linked) :
    (trees : List Tree) → PlansCalmly document trees
  | [] => by
    intro old partners parent plan grounded length fit distinct planned
    cases planned
    cases partners with
    | cons => cases length
    | nil => exact ⟨.nil, .of_below_eq_nil rfl⟩
  | child :: rest => by
    intro old partners parent plan grounded length fit distinct planned
    cases partners with
    | nil => cases length
    | cons partner others =>
      have length : others.length = rest.length := by simpa using length
      have chosen := Siblings.chosen_cons old partner others
      have siblings : ∀ place ∈ (Siblings.chosen old (partner :: others)).flatMap Prod.snd,
          place.node ∈ document.children parent := by
        intro place listed
        obtain ⟨entry, picked, inside⟩ := List.mem_flatMap.mp listed
        obtain ⟨index, -, found⟩ := List.mem_filterMap.mp picked
        obtain ⟨position, -, here⟩ := Option.bind_eq_some_iff.mp found
        exact (fit entry (List.mem_of_getElem? here)).1 place inside
      -- The plan for the first child, which may continue an old sibling, and that for the others.
      obtain ⟨head, tail, plannedTail, rfl, first⟩ : ∃ head tail : Plan,
          planSiblings document old others rest = .ok tail ∧ head.append tail = plan ∧
            ((((partner.bind fun index => old[index]?).toList.flatMap Prod.snd).map
                Place.node).Nodup →
              head.Covers ((partner.bind fun index => old[index]?).toList.flatMap Prod.snd) ∧
                head.Calm document) := by
        obtain ⟨head, tail, plannedTail, same, first⟩ := exists_of_planSiblings_cons planned
        simp only [List.head?_cons, Option.join_some, List.tail_cons] at first plannedTail
        refine ⟨head, tail, plannedTail, same, fun distinct => ?_⟩
        rcases first with ⟨unmatched, rfl⟩ | ⟨entry, member, matched, plannedHead⟩
        · rw [unmatched]
          exact ⟨covers_create child, .of_below_eq_nil rfl⟩
        · rw [matched, Option.toList_some, List.flatMap_singleton] at distinct ⊢
          obtain ⟨inside, width⟩ := fit entry member
          exact planMatched_calmly linked child entry.2 entry.1 parent head grounded inside distinct
            width plannedHead
      rw [chosen, List.flatMap_append] at distinct siblings ⊢
      have parts := distinct
      rw [List.map_append, List.nodup_append] at parts
      obtain ⟨covers, calm⟩ :=
        planSiblings_calmly linked rest old others parent tail grounded length fit parts.2.1 plannedTail
      obtain ⟨coversHead, calmHead⟩ := first parts.1
      exact ⟨coversHead.append covers,
        calmHead.append linked grounded calm coversHead covers siblings distinct⟩

end

/-- What a diff in a container that is not below itself moves are children of the parents that it names,
and it takes none of them away. -/
theorem steady_diff (linked : document.Linked) {policy : KeyPolicy} {container : HostId}
    (grounded : document.Grounded container) {old new : Option Tree}
    (planned : diff policy document container old new = .ok patches) :
    Steady document patches := by
  unfold diff at planned
  split at planned
  next => cases planned
  next => exact ((planSiblings_calmly linked _).layoutChildren linked grounded planned).steady

/-- A list that is its own first child, with two items after it. -/
def Document.knot : Document :=
  ((((((empty.createElement "ul").2.createElement "li").2.createElement "li").2.attempt
    (.insertChild ⟨1⟩ ⟨1⟩ 0)).attempt (.insertChild ⟨1⟩ ⟨2⟩ 1)).attempt (.insertChild ⟨1⟩ ⟨3⟩ 2))

theorem Document.reachable_knot : Document.knot.Reachable :=
  ((((((Reachable.empty.createElement "ul").createElement "li").createElement "li").attempt _).attempt
    _).attempt _)

/-- A list of a text and of items by their keys, with more items after it. -/
def Tree.listThen (inside after : List String) : Tree :=
  let items : List String → List Tree := List.map fun key => .element "li" .empty [] (some ⟨key⟩)
  .fragment (.element "ul" .empty (.text "t" :: items inside) (some ⟨"k"⟩) :: items after) none

end ReactiveTree
