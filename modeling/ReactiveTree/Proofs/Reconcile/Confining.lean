import ReactiveTree.Proofs.Reconcile.Grafting
import ReactiveTree.Proofs.Reconcile.Layout

/-! # Reconciling stays inside the container

Every node that a patch names was read off the host, as a child of the container or of a node further
down. So whatever the old tree claims to be there, patches name nodes of the subtree only, and they are
the same in every document that agrees on it. Containers of which neither lies below the other do not
disturb one another.
-/

namespace ReactiveTree

open Document

variable {document after : Document} {region : HostId → Prop} {parent id : HostId} {place : Place}
  {run : List Place} {old new : List Tree} {plan : Plan} {patches : List Patch}

/-- What a plan keeps, removes and changes lies in a region. -/
structure Plan.Within (region : HostId → Prop) (plan : Plan) : Prop where
  placed : ∀ placement ∈ plan.placements, ∀ place, placement.place? = some place →
    region place.node
  removed : ∀ place ∈ plan.removed, region place.node
  below : ∀ patch ∈ plan.below, ∀ id ∈ patch.named, region id

namespace Plan.Within

theorem empty : Plan.empty.Within region :=
  ⟨fun _ none => (List.not_mem_nil none).elim, fun _ none => (List.not_mem_nil none).elim,
    fun _ none => (List.not_mem_nil none).elim⟩

theorem append {first second : Plan} (within : first.Within region) (next : second.Within region) :
    (first.append second).Within region where
  placed placement member := by
    rcases List.mem_append.mp member with early | late
    · exact within.placed placement early
    · exact next.placed placement late
  removed place member := by
    rcases List.mem_append.mp member with early | late
    · exact within.removed place early
    · exact next.removed place late
  below patch member := by
    rcases List.mem_append.mp member with early | late
    · exact within.below patch early
    · exact next.below patch late

theorem without (within : plan.Within region) (inside : ∀ place ∈ run, region place.node) :
    (plan.without run).Within region where
  placed := within.placed
  removed place member := by
    rcases List.mem_append.mp member with early | late
    · exact within.removed place early
    · exact inside place late
  below := within.below

theorem keep (inside : region place.node)
    (below : ∀ patch ∈ patches, ∀ id ∈ patch.named, region id) :
    (Plan.keep place patches).Within region where
  placed placement member other here := by
    rw [List.mem_singleton.mp member] at here
    cases here
    exact inside
  removed _ none := (List.not_mem_nil none).elim
  below := below

/-- A new tree needs no old node; what gives way to it was in the run. -/
theorem create (inside : ∀ place ∈ run, region place.node) (tree : Tree) :
    (⟨[.create tree], run, []⟩ : Plan).Within region where
  placed placement member other here := by
    rw [List.mem_singleton.mp member] at here
    cases here
  removed := inside
  below _ none := (List.not_mem_nil none).elim

theorem exchange (inside : ∀ place ∈ run, region place.node) (tree : Tree) :
    (Plan.exchange run tree).Within region := by
  unfold Plan.exchange
  split
  next place =>
    split
    next =>
      refine ⟨fun placement member other here => ?_, fun _ none => (List.not_mem_nil none).elim,
        fun _ none => (List.not_mem_nil none).elim⟩
      rw [List.mem_singleton.mp member] at here
      cases here
      exact inside place List.mem_cons_self
    next => exact create inside tree
  next => exact create inside tree

end Plan.Within

/-- The old node that a target is about. -/
def Target.node? : Target → Option HostId
  | .stay place => some place.node
  | .move place => some place.node
  | .insert _ => none
  | .swap place _ => some place.node
  | .remake place _ => some place.node

/-- Bringing one child to its position names the child and the parent. -/
theorem Board.named_placeTarget (board : Board) (position : Nat) (target : Target)
    (widths : LeadingSums) :
    ∀ patch ∈ (board.placeTarget position target widths).1, ∀ id ∈ patch.named,
      id = board.parent ∨ target.node? = some id := by
  intro patch member id named
  cases target with
  | stay => cases member
  | move place =>
    simp only [Board.placeTarget] at member
    split at member
    next => cases member
    next =>
      cases List.mem_singleton.mp member
      simpa [Patch.named, Target.node?, eq_comm] using named
  | swap place tree =>
    cases List.mem_singleton.mp member
    simpa [Patch.named, Target.node?, eq_comm] using named
  | insert tree | remake place tree =>
    simp only [Board.placeTarget, Board.insertTree] at member
    split at member
    next => cases member
    next =>
      cases List.mem_singleton.mp member
      exact Or.inl (List.mem_singleton.mp named)

theorem Board.named_placeAll (board : Board) (entries : List (Target × Nat)) :
    ∀ patch ∈ (board.placeAll entries).1, ∀ id ∈ patch.named,
      id = board.parent ∨ ∃ entry ∈ entries, entry.1.node? = some id := by
  induction entries with
  | nil => exact fun _ none => (List.not_mem_nil none).elim
  | cons entry rest ih =>
    obtain ⟨target, position⟩ := entry
    intro patch member id named
    unfold Board.placeAll at member
    rcases List.mem_append.mp member with early | late
    · rcases ih patch early id named with here | ⟨entry, listed, here⟩
      · exact Or.inl here
      · exact Or.inr ⟨entry, List.mem_cons_of_mem _ listed, here⟩
    · exact (board.named_placeTarget position target _ patch late id named).imp_right fun here =>
        ⟨_, List.mem_cons_self, here⟩

/-- A target is about a node of a placement. -/
theorem exists_placement_of_target {placements : List Placement} {targets : List Target}
    (settled : List.Forall₂ Target.Settles placements targets) {target : Target}
    (member : target ∈ targets) (here : target.node? = some id) :
    ∃ placement ∈ placements, ∃ place, placement.place? = some place ∧ place.node = id := by
  induction settled with
  | nil => cases member
  | cons settles _ ih =>
    rcases List.mem_cons.mp member with rfl | later
    · refine ⟨_, List.mem_cons_self, ?_⟩
      cases settles with
      | insert => cases here
      | stay place | move place | swap place | remake place =>
        exact ⟨place, rfl, Option.some.inj here⟩
    · obtain ⟨placement, listed, found⟩ := ih later
      exact ⟨placement, List.mem_cons_of_mem _ listed, found⟩

theorem mem_of_mem_eraseReps {members : List Place} {member : Place}
    (kept : member ∈ members.eraseReps) : member ∈ members := by
  have loop : ∀ (rest : List Place) (last : Place) (done : List Place),
      member ∈ List.eraseRepsBy.loop (· == ·) last rest done →
        member ∈ done ∨ member ∈ last :: rest := by
    intro rest
    induction rest with
    | nil =>
      intro last done found
      rw [List.eraseRepsBy.loop, List.mem_reverse, List.mem_cons] at found
      exact found.symm.imp_right List.mem_singleton.mpr
    | cons next rest ih =>
      intro last done found
      rw [List.eraseRepsBy.loop] at found
      split at found
      next =>
        refine (ih last done found).imp_right fun here => ?_
        rcases List.mem_cons.mp here with rfl | later
        · exact List.mem_cons_self
        · exact List.mem_cons_of_mem _ (List.mem_cons_of_mem _ later)
      next =>
        rcases ih next (last :: done) found with early | late
        · rcases List.mem_cons.mp early with rfl | early
          · exact Or.inr List.mem_cons_self
          · exact Or.inl early
        · exact Or.inr (List.mem_cons_of_mem _ late)
  cases members with
  | nil => cases kept
  | cons first rest => exact (loop rest first [] kept).resolve_left List.not_mem_nil

theorem named_removals {removed : List Place} :
    ∀ patch ∈ removals parent removed, ∀ id ∈ patch.named,
      id = parent ∨ ∃ place ∈ removed, place.node = id := by
  intro patch member id named
  obtain ⟨place, listed, rfl⟩ := List.mem_map.mp member
  have gone := (List.mergeSort_perm removed _).mem_iff.mp (mem_of_mem_eraseReps listed)
  rcases List.mem_cons.mp named with here | here
  · exact Or.inl here
  · exact Or.inr ⟨place, gone, (List.mem_singleton.mp here).symm⟩

/-- The layout of a plan for a parent names the parent and what the plan keeps or removes. -/
theorem Plan.Within.layout (within : plan.Within region) (inside : region parent) :
    ∀ patch ∈ plan.layout parent, ∀ id ∈ patch.named, region id := by
  have settled := targetsOf_settles plan.placements
  have placed {target : Target} {id : HostId} (member : target ∈ targetsOf plan.placements)
      (here : target.node? = some id) : region id := by
    obtain ⟨placement, listed, place, found, rfl⟩ := exists_placement_of_target settled member here
    exact within.placed placement listed place found
  intro patch member id named
  rcases List.mem_append.mp member with removal | placing
  · rcases named_removals patch removal id named with rfl | ⟨place, gone, rfl⟩
    · exact inside
    · rcases List.mem_append.mp gone with early | remade
      · exact within.removed place early
      · obtain ⟨target, listed, here⟩ := List.mem_filterMap.mp remade
        refine placed listed ?_
        cases target <;> cases here
        rfl
  · rcases Board.named_placeAll _ _ patch placing id named with rfl | ⟨entry, listed, here⟩
    · exact inside
    · exact placed (List.fst_mem_of_mem_zipIdx listed) here

/-- Two computations have one outcome, and what they return has a property. -/
structure Concur {α : Type} (property : α → Prop) (first second : Except ReconcileFailure α) :
    Prop where
  same : second = first
  holds : ∀ value, first = .ok value → property value

namespace Concur

variable {α β : Type} {property : α → Prop} {further : β → Prop}

theorem ok {value : α} (holds : property value) : Concur property (.ok value) (.ok value) := by
  refine ⟨rfl, fun other same => ?_⟩
  cases same
  exact holds

theorem error (failure : ReconcileFailure) : Concur property (.error failure) (.error failure) :=
  ⟨rfl, fun _ same => nomatch same⟩

theorem bind {first second : Except ReconcileFailure α} {next next' : α → Except ReconcileFailure β}
    (concur : Concur property first second)
    (later : ∀ value, property value → Concur further (next value) (next' value)) :
    Concur further (first >>= next) (second >>= next') := by
  obtain ⟨rfl, holds⟩ := concur
  cases result : second with
  | error failure => exact .error failure
  | ok value => exact later value (holds value result)

end Concur

/-- Each run of old siblings lies in a region. -/
def RunsWithin (region : HostId → Prop) (entries : List (Tree × List Place)) : Prop :=
  ∀ entry ∈ entries, ∀ place ∈ entry.2, region place.node

theorem mem_of_mem_cutRuns {piece : List Place} (member : piece ∈ cutRuns run old) :
    piece ⊆ run := by
  induction old generalizing run with
  | nil => cases member
  | cons tree rest ih =>
    rcases List.mem_cons.mp member with rfl | later
    · exact List.take_subset _ _
    · exact fun place inside => List.drop_subset _ _ (ih later inside)

theorem RunsWithin.of_run (inside : ∀ place ∈ run, region place.node) (old new : List Tree) :
    RunsWithin region (Siblings.of run old new).old :=
  fun _ member place listed =>
    inside place (mem_of_mem_cutRuns (List.of_mem_zip member).2 listed)

theorem RunsWithin.leftOver {siblings : Siblings} (runs : RunsWithin region siblings.old) :
    ∀ place ∈ siblings.leftOver, region place.node := by
  intro place member
  obtain ⟨entry, listed, here⟩ := List.mem_flatMap.mp member
  exact runs entry.1 (List.fst_mem_of_mem_zipIdx (List.mem_filter.mp listed).1) place here

/-- The children of a node in the region are laid out inside it. -/
theorem concur_layoutChildren (closed : document.Closed region)
    (same : ∀ id, region id → after.children id = document.children id) (inside : region parent)
    {first second : Siblings → Except ReconcileFailure Plan}
    (plans : ∀ siblings : Siblings, RunsWithin region siblings.old →
      Concur (Plan.Within region) (first siblings) (second siblings)) (old new : List Tree) :
    Concur (fun patches => ∀ patch ∈ patches, ∀ id ∈ patch.named, region id)
      (layoutChildren document parent old new first)
      (layoutChildren after parent old new second) := by
  have nodes : Host.children after parent = Host.children document parent := same parent inside
  have listed : ∀ place ∈ places (Host.children document parent), region place.node := by
    intro place member
    exact closed inside (List.mem_of_getElem? (mem_places.mp member))
  have runs := RunsWithin.of_run listed old new
  unfold layoutChildren
  rw [nodes]
  by_cases width : Tree.widths old = (Host.children document parent).length
  · simp only [width, ne_eq, not_true_eq_false, if_false]
    refine Concur.bind (plans _ runs) fun plan within => .ok fun patch member id named => ?_
    have whole := within.without runs.leftOver
    rcases List.mem_append.mp member with early | late
    · exact whole.below patch early id named
    · exact whole.layout inside patch late id named
  · simp only [width, ne_eq, not_false_eq_true, if_true]
    exact .error _

mutual

/-- Documents that agree on a region have the same plan for a run in it, and the plan stays inside. -/
theorem concur_planMatched (closed : document.Closed region)
    (same : ∀ id, region id → after.children id = document.children id) : (tree : Tree) →
    ∀ (run : List Place) (old : Tree), (∀ place ∈ run, region place.node) →
      Concur (Plan.Within region) (planMatched document run old tree)
        (planMatched after run old tree)
  | .text content => by
    intro run old inside
    unfold planMatched
    split
    next before place =>
      refine .ok (.keep (inside place List.mem_cons_self) fun patch member id named => ?_)
      split at member
      next => cases member
      next =>
        rw [List.mem_singleton.mp member] at named
        rw [List.mem_singleton.mp named]
        exact inside place List.mem_cons_self
    next => exact .ok (.exchange inside _)
  | .element tag props children key => by
    intro run old inside
    unfold planMatched
    split
    next oldTag oldProps oldChildren oldKey place =>
      have here := inside place List.mem_cons_self
      split
      next =>
        refine Concur.bind (concur_layoutChildren closed same here
          (fun siblings runs => concur_planSiblings closed same children _ _ runs) _ _)
            fun patches within => .ok (.keep here fun patch member id named => ?_)
        rcases List.mem_append.mp member with early | late
        · obtain ⟨change, -, rfl⟩ := List.mem_map.mp early
          rw [List.mem_singleton.mp named]
          exact here
        · exact within patch late id named
      next => exact .ok (.exchange inside _)
    next => exact .ok (.exchange inside _)
  | .fragment children key => by
    intro run old inside
    unfold planMatched
    split
    next oldChildren oldKey =>
      have runs := RunsWithin.of_run inside oldChildren children
      exact Concur.bind (concur_planSiblings closed same children _ _ runs)
        fun plan within => .ok (within.without runs.leftOver)
    next => exact .ok (.exchange inside _)

theorem concur_planSiblings (closed : document.Closed region)
    (same : ∀ id, region id → after.children id = document.children id) : (trees : List Tree) →
    ∀ (old : List (Tree × List Place)) (partners : List (Option Nat)), RunsWithin region old →
      Concur (Plan.Within region) (planSiblings document old partners trees)
        (planSiblings after old partners trees)
  | [] => fun _ _ _ => .ok .empty
  | child :: rest => by
    intro old partners runs
    have later := concur_planSiblings closed same rest old partners.tail runs
    have join {first second : Except ReconcileFailure Plan}
        (chosen : Concur (Plan.Within region) first second) :
        Concur (Plan.Within region)
          (first >>= fun plan => planSiblings document old partners.tail rest >>= fun others =>
            pure (plan.append others))
          (second >>= fun plan => planSiblings after old partners.tail rest >>= fun others =>
            pure (plan.append others)) :=
      chosen.bind fun _ within => later.bind fun _ within' => .ok (within.append within')
    unfold planSiblings
    split
    next tree run continued =>
      refine join (concur_planMatched closed same child run tree fun place listed => ?_)
      obtain ⟨index, -, found⟩ := Option.bind_eq_some_iff.mp continued
      exact runs (tree, run) (List.mem_of_getElem? found) place listed
    next =>
      have nothing : ∀ place ∈ ([] : List Place), region place.node :=
        fun _ none => (List.not_mem_nil none).elim
      exact join (.ok (.create nothing child))

end

/-- A diff names nodes of the subtree only, and depends on nothing else of the document. -/
theorem concur_diff {container : HostId}
    (same : ∀ id, document.Below container id → after.children id = document.children id)
    (policy : KeyPolicy) (old new : Option Tree) :
    Concur (fun patches => ∀ patch ∈ patches, ∀ id ∈ patch.named, document.Below container id)
      (diff policy document container old new) (diff policy after container old new) := by
  have closed : document.Closed (document.Below container) := document.closed_below container
  unfold diff
  split
  next => exact .error _
  next =>
    exact concur_layoutChildren closed same .refl
      (fun siblings runs => concur_planSiblings closed same _ _ _ runs) _ _

section

variable {container other : HostId} {policy : KeyPolicy} {old new : Option Tree}

theorem fst_reconcile {H : Type} [Host H] (host : H) :
    (reconcile policy host container old new).1 = diff policy host container old new := by
  unfold reconcile
  split
  next result => exact result.symm
  next result => exact result.symm

theorem changesWithin_reconcile (linked : document.Linked) :
    ChangesWithin (document.Below container) document
      (reconcile policy document container old new).2 := by
  unfold reconcile
  split
  next patches planned =>
    exact Patch.changesWithin_carryOutAll linked
      ((concur_diff (fun _ _ => rfl) policy old new).holds patches planned)
  next => exact .refl linked

/-- A container that is there is left with a forest. -/
theorem forest_reconcile (forest : document.Forest) (known : document.contains container) :
    (reconcile policy document container old new).2.Forest := by
  unfold reconcile
  split
  next patches planned =>
    refine Patch.forest_carryOutAll forest fun patch member parent is => ?_
    have named : parent ∈ patch.named := by
      cases patch <;> cases is <;> exact List.mem_cons_self
    exact forest.linked.contains_of_below known
      ((concur_diff (fun _ _ => rfl) policy old new).holds patches planned patch member parent named)
  next => exact forest

/-- Neither of two nodes lies in the subtree of the other. -/
def Document.Independent (document : Document) (first second : HostId) : Prop :=
  ¬ document.Below first second ∧ ¬ document.Below second first

theorem Document.Independent.not_below (apart : document.Independent container other)
    (linked : document.Linked) (path : document.Below other id) : ¬ document.Below container id :=
  fun here => (linked.below_total here path).elim apart.1 apart.2

/-- What a change inside a subtree leaves outside stays outside. -/
theorem Document.ChangesWithin.not_below
    (change : ChangesWithin (document.Below container) document after) (linked : document.Linked)
    (known : document.contains id) (outside : ¬ document.Below container id) :
    ¬ after.Below container id := by
  intro path
  induction path with
  | refl => exact outside .refl
  | tail _ member ih =>
    have attached := change.linked.mem_children_iff.mp member
    rw [parent?_of_node? (change.outside known outside)] at attached
    refine ih (linked.contains_parent attached) fun above => ?_
    exact outside (above.tail (linked.mem_children_iff.mpr attached))

/-- Of a document whose nodes form a forest, reconciling in a container changes the nodes of its
subtree and no other, and it leaves a forest. What is planned for a container elsewhere is not changed
by it, and carrying that out leaves the first one alone. A handle of no node contains nothing. -/
theorem reconcile_confined (forest : document.Forest) (policy : KeyPolicy) (container : HostId)
    (old new : Option Tree) :
    let after := (reconcile policy document container old new).2
    (∀ id, document.contains id → ¬ document.Below container id →
      after.node? id = document.node? id) ∧
    (document.contains container → after.Forest ∧
      ∀ other, document.contains other → document.Independent container other →
        (∀ id, document.Below other id → after.node? id = document.node? id) ∧
        ∀ policy' old' new',
          (reconcile policy' after other old' new').1 =
            (reconcile policy' document other old' new').1 ∧
          ∀ id, after.Below container id →
            (reconcile policy' after other old' new').2.node? id = after.node? id) := by
  intro after
  have change : ChangesWithin (document.Below container) document after :=
    changesWithin_reconcile forest.linked
  refine ⟨fun id => change.outside, fun known => ⟨forest_reconcile forest known, ?_⟩⟩
  intro other known' apart
  have unchanged : ∀ id, document.Below other id → after.node? id = document.node? id := by
    intro id path
    exact change.outside (forest.linked.contains_of_below known' path)
      (apart.not_below forest.linked path)
  have children : ∀ id, document.Below other id → after.children id = document.children id :=
    fun id path => children_of_node? (unchanged id path)
  -- The subtree of the other container is what it was, so it still has nothing to do with this one.
  have subtree : ∀ id, after.Below other id → document.Below other id := by
    intro id path
    have closed : after.Closed (document.Below other) := by
      intro parent child inside member
      rw [children parent inside] at member
      exact inside.tail member
    exact closed.of_below .refl path
  have apart' : after.Independent other container :=
    ⟨fun path => apart.2 (subtree container path), change.not_below forest.linked known' apart.1⟩
  refine ⟨unchanged, fun policy' old' new' => ⟨?_, fun id path => ?_⟩⟩
  · rw [fst_reconcile, fst_reconcile]
    exact (concur_diff children policy' old' new').same
  · have next : ChangesWithin (after.Below other) after
        (reconcile policy' after other old' new').2 := changesWithin_reconcile change.linked
    exact next.outside (change.linked.contains_of_below (change.contains known) path)
      (apart'.not_below change.linked path)

/-- A root with two empty boxes. -/
def Document.twoBoxes : Document :=
  (reconcile .strict Document.empty root none
    (some (.fragment [.element "p" .empty [] none, .element "p" .empty [] none] none))).2

theorem reconcile_confined_twoBoxes :
    Document.twoBoxes.Forest ∧ Document.twoBoxes.Independent ⟨1⟩ ⟨2⟩ ∧
      (reconcile .strict Document.twoBoxes ⟨1⟩ none (some (.text "a"))).2.Forest ∧
      (reconcile .strict Document.twoBoxes ⟨1⟩ none (some (.text "a"))).2.node? ⟨2⟩ =
        Document.twoBoxes.node? ⟨2⟩ := by
  have forest : Document.twoBoxes.Forest :=
    ((reconcile_confined Forest.empty .strict root none _).2 (by decide)).1
  have alone : ∀ {box id : HostId}, Document.twoBoxes.children box = [] →
      Document.twoBoxes.Below box id → box = id := by
    intro box id childless path
    rcases Relation.ReflTransGen.cases_head path with same | ⟨child, member, _⟩
    · exact same
    · rw [childless] at member
      cases member
  have apart : Document.twoBoxes.Independent ⟨1⟩ ⟨2⟩ :=
    ⟨fun path => absurd (alone (by decide +kernel) path) (by decide),
      fun path => absurd (alone (by decide +kernel) path) (by decide)⟩
  obtain ⟨-, within⟩ := reconcile_confined forest .strict ⟨1⟩ none (some (.text "a"))
  obtain ⟨after, others⟩ := within (by decide +kernel)
  exact ⟨forest, apart, after, (others ⟨2⟩ (by decide +kernel) apart).1 ⟨2⟩ .refl⟩

end

end ReactiveTree
