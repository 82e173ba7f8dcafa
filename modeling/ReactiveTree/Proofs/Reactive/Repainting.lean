import ReactiveTree.Proofs.Reactive.Displays
import ReactiveTree.Proofs.Reconcile.Delegating
import ReactiveTree.Proofs.Reconcile.Rendering

/-! # Mounts and the documents that they show

A mount shows its tree if its container, in its document, shows it. Presenting a valid tree to such a
mount succeeds, and the mount goes on to show the new tree; an invalid tree is refused, and mounts and
documents stay as they are; taking the tree off succeeds and leaves the container without children.
What other mounts do to the document outside the container does not matter.
-/

namespace ReactiveTree

open Document

variable {κ ν σ : Type}

/-- A mount without the tree that it keeps. -/
def Mount.bare (mount : Mount κ) : Mount κ :=
  { mount with tree := none }

theorem Mount.effect_of_bare {mount kept : Mount κ} (same : kept.bare = mount.bare) :
    kept.effect = mount.effect :=
  (Mount.mk.inj same).1

theorem Mount.code_of_bare {mount kept : Mount κ} (same : kept.bare = mount.bare) :
    kept.code = mount.code := by
  obtain ⟨-, -, -, -, code, -⟩ := Mount.mk.inj same
  exact code

namespace World

variable {world after : World κ ν σ} {id other : MountId} {mount : Mount κ} {page : Document}
  {old new tree : Option Tree}

theorem mount?_modifyMount (world : World κ ν σ) (id other : MountId)
    (change : Mount κ → Mount κ) :
    (world.modifyMount id change).mount? other =
      if other = id then (world.mount? id).map change else world.mount? other := by
  unfold modifyMount mount?
  rw [List.getElem?_modify]
  by_cases same : other = id
  · simp [same]
  · have apart : id.index ≠ other.index := fun equal => same (MountId.ext equal.symm)
    simp [same, apart]

private theorem view_foldl {α β γ : Type} (view : β → γ) {step : β → α → β}
    (same : ∀ state member, view (step state member) = view state) (members : List α) (state : β) :
    view (members.foldl step state) = view state := by
  induction members generalizing state with
  | nil => rfl
  | cons member rest ih => exact (ih _).trans (same state member)

/-- The world without the events that reconciling records. -/
def unrecorded (world : World κ ν σ) : World κ ν σ :=
  { world with past := [] }

theorem reconcile_of_unknown (unknown : world.document? mount.document = none)
    (old new : Option Tree) : world.reconcile mount old new = (.ok (), world) := by
  unfold World.reconcile
  rw [unknown]

/-- Reconciling a world reconciles the document of the mount, and changes nothing else but the past. -/
theorem reconcile_of_known (known : world.document? mount.document = some page)
    (old new : Option Tree) :
    (world.reconcile mount old new).1 =
        (ReactiveTree.reconcile mount.policy page mount.container old new).1.map (fun _ => ()) ∧
      (world.reconcile mount old new).2.unrecorded =
        { world with
          documents := world.documents.modify mount.document.index fun _ =>
            (ReactiveTree.reconcile mount.policy page mount.container old new).2
          past := [] } := by
  obtain ⟨outcome, document⟩ := Journal.reconcile_document (Journal.opened page) mount.policy
    mount.container old new
  unfold World.reconcile
  rw [known]
  dsimp only
  constructor
  · rw [outcome]
    rfl
  · refine (view_foldl unrecorded (fun state event => ?_) _ _).trans ?_
    · cases event <;> rfl
    · have recorded := view_foldl unrecorded (fun (state : World κ ν σ) (key : Key) =>
        (rfl : (state.record (.repeatedKey key)).unrecorded = state.unrecorded))
        (checkTree mount.policy new).repeated world
      rw [document]
      generalize List.foldl (fun (world : World κ ν σ) key => world.record (.repeatedKey key)) world
        (checkTree mount.policy new).repeated = told at recorded ⊢
      cases told
      cases world
      cases recorded
      rfl

theorem document?_reconcile (known : world.document? mount.document = some page)
    (old new : Option Tree) (id : DocumentId) :
    (world.reconcile mount old new).2.document? id =
      if id = mount.document then
        some (ReactiveTree.reconcile mount.policy page mount.container old new).2
      else world.document? id := by
  have documents := congrArg World.documents (reconcile_of_known known old new).2
  unfold document? at known ⊢
  rw [show (world.reconcile mount old new).2.documents = _ from documents, List.getElem?_modify]
  by_cases same : id = mount.document
  · subst same
    simp [known]
  · have apart : mount.document.index ≠ id.index := fun equal => same (DocumentId.ext equal.symm)
    simp [same, apart]

/-- What reconciling leaves alone. -/
theorem reconcile_kept (world : World κ ν σ) (mount : Mount κ) (old new : Option Tree) :
    (world.reconcile mount old new).2.mounts = world.mounts ∧
      (world.reconcile mount old new).2.cells = world.cells ∧
        (world.reconcile mount old new).2.reactors = world.reactors := by
  cases known : world.document? mount.document with
  | none =>
    rw [reconcile_of_unknown known]
    exact ⟨rfl, rfl, rfl⟩
  | some page =>
    have same := (reconcile_of_known known old new).2
    have mounts := congrArg World.mounts same
    have cells := congrArg World.cells same
    have reactors := congrArg World.reactors same
    exact ⟨mounts, cells, reactors⟩

private theorem past_foldl {α : Type} {known : List (Event κ ν)} {step : World κ ν σ → α → World κ ν σ}
    (grows : ∀ state member, state.past ⊆ (step state member).past) (members : List α)
    {world : World κ ν σ} (base : known ⊆ world.past) : known ⊆ (members.foldl step world).past := by
  induction members generalizing world with
  | nil => exact base
  | cons member rest ih => exact ih (List.Subset.trans base (grows world member))

/-- Reconciling forgets nothing. -/
theorem past_reconcile (world : World κ ν σ) (mount : Mount κ) (old new : Option Tree) :
    world.past ⊆ (world.reconcile mount old new).2.past := by
  unfold World.reconcile
  split
  next => exact List.Subset.refl _
  next page _ =>
    refine past_foldl (fun state event => ?_) _ ?_
    · cases event with
      | refused refusal => exact List.subset_cons_self _ _
      | _ => exact List.Subset.refl _
    · refine past_foldl (fun state key => ?_) (checkTree mount.policy new).repeated
        (List.Subset.refl world.past)
      exact List.subset_cons_self (.repeatedKey key) state.past

theorem mount?_reconcile (world : World κ ν σ) (mount : Mount κ) (old new : Option Tree)
    (id : MountId) : (world.reconcile mount old new).2.mount? id = world.mount? id := by
  unfold mount?
  rw [(world.reconcile_kept mount old new).1]

theorem documents_reconcile_of_error {failure : ReconcileFailure}
    (failed : (world.reconcile mount old new).1 = .error failure) :
    (world.reconcile mount old new).2.documents = world.documents := by
  cases known : world.document? mount.document with
  | none => rw [reconcile_of_unknown known]
  | some page =>
    obtain ⟨outcome, same⟩ := reconcile_of_known known old new
    rw [outcome] at failed
    have documents := congrArg World.documents same
    refine Eq.trans documents ?_
    dsimp only
    unfold ReactiveTree.reconcile at failed ⊢
    split at failed
    next => cases failed
    next =>
      refine List.ext_getElem? fun index => ?_
      rw [List.getElem?_modify]
      by_cases here : mount.document.index = index
      · subst here
        unfold document? at known
        simp [known]
      · simp [here]

/-- In every document parents and children agree. -/
def Linked (world : World κ ν σ) : Prop :=
  ∀ id page, world.document? id = some page → page.Linked

/-- A mount is there, and its container shows its tree. -/
structure Mounted (world : World κ ν σ) (id : MountId) (mount : Mount κ) : Prop where
  kept : world.mount? id = some mount
  shown : ∃ page, world.document? mount.document = some page ∧ page.Linked ∧
    page.contains mount.container ∧
      page.ShowsAll (page.children mount.container) mount.tree.toList

theorem Linked.reconcile (linked : world.Linked) (mount : Mount κ) (old new : Option Tree) :
    (world.reconcile mount old new).2.Linked := by
  cases known : world.document? mount.document with
  | none =>
    rw [reconcile_of_unknown known]
    exact linked
  | some page =>
    intro id page' found
    rw [document?_reconcile known] at found
    split at found
    next =>
      cases found
      exact (changesWithin_reconcile (linked _ _ known)).linked
    next => exact linked id page' found

/-- A document that agrees on what is below the container shows the same there. -/
theorem Mounted.of_agree (mounted : world.Mounted id mount) (kept : after.mount? id = some mount)
    (spared : ∀ page, world.document? mount.document = some page →
      ∃ page', after.document? mount.document = some page' ∧ page'.Linked ∧
        ∀ node, page.Below mount.container node → page'.node? node = page.node? node) :
    after.Mounted id mount := by
  obtain ⟨page, known, linked, there, shown⟩ := mounted.shown
  obtain ⟨page', known', linked', same⟩ := spared page known
  have agree : Agree (page.Below mount.container) page page' := fun inside => same _ inside
  refine ⟨kept, page', known', linked', ?_, ?_⟩
  · exact agree.contains .refl there
  · rw [children_of_node? (same _ .refl)]
    exact shown.of_agree (page.closed_below _) agree fun _ member => .tail .refl member

/-- From a tree that is shown to one that is valid. -/
theorem Mounted.reconcile (mounted : world.Mounted id mount) (valid : ValidTree mount.policy new) :
    (world.reconcile mount mount.tree new).1 = .ok () ∧
      ∃ page', (world.reconcile mount mount.tree new).2.document? mount.document = some page' ∧
        page'.Linked ∧ page'.contains mount.container ∧
          page'.ShowsAll (page'.children mount.container) new.toList := by
  obtain ⟨page, known, linked, there, shown⟩ := mounted.shown
  obtain ⟨patches, planned, reworks⟩ := diff_of_valid linked there shown valid
  obtain ⟨-, change, shown'⟩ := reworks.self linked there
  have result : ReactiveTree.reconcile mount.policy page mount.container mount.tree new =
      (.ok patches, Patch.carryOutAll page patches) := by
    simp only [ReactiveTree.reconcile, planned]
  refine ⟨?_, Patch.carryOutAll page patches, ?_, change.linked, change.contains there, shown'⟩
  · rw [(reconcile_of_known known _ _).1, result]
    rfl
  · rw [document?_reconcile known, if_pos rfl, result]

theorem present_eq (found : world.mount? id = some mount) (next : Option Tree) :
    world.present id next =
      match (world.reconcile mount mount.tree next).1 with
      | .ok _ => (.ok (), (world.reconcile mount mount.tree next).2.modifyMount id
          ({ · with tree := next }))
      | .error failure => (.error failure, (world.reconcile mount mount.tree next).2) := by
  unfold World.present
  split
  next absent => cases found.symm.trans absent
  next mount' found' =>
    cases found.symm.trans found'
    rfl

theorem withdraw_eq (found : world.mount? id = some mount) :
    world.withdraw id =
      match mount.tree with
      | none => (.ok (), world)
      | some tree => (world.modifyMount id ({ · with tree := none })).reconcile mount (some tree)
          none := by
  unfold World.withdraw
  split
  next absent => cases found.symm.trans absent
  next mount' found' =>
    cases found.symm.trans found'
    rfl

theorem bare_modifyMount (world : World κ ν σ) (id : MountId) (tree : Option Tree)
    (other : MountId) :
    ((world.modifyMount id ({ · with tree })).mount? other).map Mount.bare =
      (world.mount? other).map Mount.bare := by
  rw [mount?_modifyMount]
  split
  next same =>
    subst same
    cases world.mount? other <;> rfl
  next => rfl

theorem bare_reconcile (world : World κ ν σ) (mount : Mount κ) (old new : Option Tree)
    (other : MountId) : ((world.reconcile mount old new).2.mount? other).map Mount.bare =
      (world.mount? other).map Mount.bare := by
  rw [mount?_reconcile]

/-- What changes a world at most in its documents, the trees kept for them and the past. -/
structure Repaints (world after : World κ ν σ) : Prop where
  cells : after.cells = world.cells
  reactors : after.reactors = world.reactors
  past : world.past ⊆ after.past
  mounts : ∀ id, (after.mount? id).map Mount.bare = (world.mount? id).map Mount.bare
  linked : world.Linked → after.Linked

theorem Repaints.refl (world : World κ ν σ) : world.Repaints world :=
  ⟨rfl, rfl, List.Subset.refl _, fun _ => rfl, id⟩

theorem Repaints.trans {middle : World κ ν σ} (start : world.Repaints middle)
    (finish : middle.Repaints after) : world.Repaints after :=
  ⟨finish.cells.trans start.cells, finish.reactors.trans start.reactors,
    List.Subset.trans start.past finish.past,
    fun id => (finish.mounts id).trans (start.mounts id), fun linked => finish.linked (start.linked linked)⟩

theorem Repaints.reconcile (world : World κ ν σ) (mount : Mount κ) (old new : Option Tree) :
    world.Repaints (world.reconcile mount old new).2 := by
  obtain ⟨_, cells, reactors⟩ := world.reconcile_kept mount old new
  exact ⟨cells, reactors, world.past_reconcile mount old new, world.bare_reconcile mount old new,
    fun linked => linked.reconcile mount old new⟩

theorem Repaints.modifyMount (world : World κ ν σ) (id : MountId) (tree : Option Tree) :
    world.Repaints (world.modifyMount id ({ · with tree })) :=
  ⟨rfl, rfl, List.Subset.refl _, world.bare_modifyMount id tree, fun linked => linked⟩

theorem repaints_present (world : World κ ν σ) (id : MountId) (next : Option Tree) :
    world.Repaints (world.present id next).2 := by
  cases found : world.mount? id with
  | none =>
    unfold World.present
    rw [found]
    exact .refl world
  | some mount =>
    rw [present_eq found]
    split
    next => exact (Repaints.reconcile world mount mount.tree next).trans (.modifyMount _ id next)
    next => exact .reconcile world mount mount.tree next

theorem repaints_withdraw (world : World κ ν σ) (id : MountId) :
    world.Repaints (world.withdraw id).2 := by
  cases found : world.mount? id with
  | none =>
    unfold World.withdraw
    rw [found]
    exact .refl world
  | some mount =>
    rw [withdraw_eq found]
    split
    next => exact .refl world
    next => exact (Repaints.modifyMount world id none).trans (.reconcile _ mount _ none)

/-- A mount keeps its tree while another one presents. -/
theorem mount?_present_of_ne (apart : other ≠ id) (next : Option Tree) :
    (world.present id next).2.mount? other = world.mount? other := by
  cases found : world.mount? id with
  | none =>
    unfold World.present
    rw [found]
  | some mount =>
    rw [present_eq found]
    split
    next => rw [mount?_modifyMount, if_neg apart, mount?_reconcile]
    next => exact world.mount?_reconcile mount mount.tree next other

theorem mount?_withdraw_of_ne (apart : other ≠ id) :
    (world.withdraw id).2.mount? other = world.mount? other := by
  cases found : world.mount? id with
  | none =>
    unfold World.withdraw
    rw [found]
  | some mount =>
    rw [withdraw_eq found]
    split
    next => rfl
    next => rw [mount?_reconcile, mount?_modifyMount, if_neg apart]

/-- A valid tree is shown. -/
theorem Mounted.present (mounted : world.Mounted id mount) {next : Option Tree}
    (valid : ValidTree mount.policy next) :
    (world.present id next).1 = .ok () ∧
      (world.present id next).2.Mounted id { mount with tree := next } := by
  obtain ⟨succeeds, shown⟩ := mounted.reconcile valid
  rw [present_eq mounted.kept, succeeds]
  refine ⟨rfl, ?_, shown⟩
  rw [mount?_modifyMount, if_pos rfl, mount?_reconcile, mounted.kept]
  rfl

/-- What is refused leaves mounts and documents alone. -/
theorem present_of_error {next : Option Tree} {failure : ReconcileFailure}
    (refused : (world.present id next).1 = .error failure) :
    (world.present id next).2.mounts = world.mounts ∧
      (world.present id next).2.documents = world.documents := by
  cases found : world.mount? id with
  | none =>
    unfold World.present at refused
    rw [found] at refused
    cases refused
  | some mount =>
    rw [present_eq found] at refused ⊢
    split at refused
    next => cases refused
    next failure' failed =>
      exact ⟨(world.reconcile_kept mount _ next).1, documents_reconcile_of_error failed⟩

/-- An invalid tree is refused for its first defect. -/
theorem Mounted.refuse (mounted : world.Mounted id mount) {next : Option Tree}
    (invalid : ¬ ValidTree mount.policy next) :
    ∃ defect, (world.present id next).1 = .error defect ∧
      (checkTree mount.policy next).defect = some defect := by
  obtain ⟨page, known, -⟩ := mounted.shown
  obtain ⟨defect, planned, isDefect⟩ := diff_of_not_valid page mount.container mount.tree invalid
  have failed : (world.reconcile mount mount.tree next).1 = .error defect := by
    rw [(reconcile_of_known known _ _).1]
    simp only [ReactiveTree.reconcile, planned]
    rfl
  refine ⟨defect, ?_, isDefect⟩
  rw [present_eq mounted.kept, failed]

/-- No tree at all is valid. -/
theorem validTree_none (policy : KeyPolicy) : ValidTree policy none :=
  (checkTree_defect policy none).mp rfl

theorem Mounted.withdraw (mounted : world.Mounted id mount) :
    (world.withdraw id).1 = .ok () ∧ (world.withdraw id).2.Mounted id { mount with tree := none } := by
  rw [withdraw_eq mounted.kept]
  cases bare : mount.tree with
  | none =>
    refine ⟨rfl, ?_⟩
    have same : { mount with tree := none } = mount := by
      cases mount
      cases bare
      rfl
    rw [same]
    exact mounted
  | some tree =>
    have dropped : (world.modifyMount id ({ · with tree := none })).mount? id =
        some { mount with tree := none } := by
      rw [mount?_modifyMount, if_pos rfl, mounted.kept]
      rfl
    obtain ⟨page, known, linked, there, shown⟩ := mounted.shown
    rw [bare] at shown
    obtain ⟨patches, planned, reworks⟩ := diff_of_valid linked there shown
      (validTree_none mount.policy)
    obtain ⟨-, change, shown'⟩ := reworks.self linked there
    have known' : (world.modifyMount id ({ · with tree := none })).document? mount.document =
        some page := known
    have result : ReactiveTree.reconcile mount.policy page mount.container (some tree) none =
        (.ok patches, Patch.carryOutAll page patches) := by
      simp only [ReactiveTree.reconcile, planned]
    refine ⟨?_, ?_, Patch.carryOutAll page patches, ?_, change.linked, change.contains there, shown'⟩
    · dsimp only
      rw [(reconcile_of_known known' _ _).1, result]
      rfl
    · exact (mount?_reconcile _ mount _ none id).trans dropped
    · exact (document?_reconcile known' _ none mount.document).trans (by rw [if_pos rfl, result])

end World

end ReactiveTree
