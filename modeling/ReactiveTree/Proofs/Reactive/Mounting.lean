import ReactiveTree.Proofs.Reactive.Moments

/-! # What a mount shows along a run

A mount that is made into an empty container shows, at every moment, the tree that its last successful
render gave, as long as other mounts spare the nodes below the container. This is shown for single
repaints first, and then for runs, by induction on the way from moment to moment. A mount that was
unmounted while its effect did not run shows nothing from then on.
-/

namespace ReactiveTree

open Document

variable {κ ν σ : Type}

namespace Repaint

/-- What a mount shows from a repaint on, if the repaint makes a difference to it. -/
def shows (repaint : Repaint κ ν σ) (id : MountId) : Option (Option Tree) :=
  if repaint.mount = id then
    match repaint.outcome with
    | .shown tree => some tree
    | .withdrawn _ => some none
    | .refused _ _ | .panicked _ => none
  else none

/-- A mount was unmounted. -/
def Withdraws (repaint : Repaint κ ν σ) : Prop :=
  ∃ result, repaint.outcome = .withdrawn result

/-- A repaint leaves alone whatever is below a container. -/
def Spares (repaint : Repaint κ ν σ) (document : DocumentId) (container : HostId) : Prop :=
  ∀ page, repaint.before.document? document = some page →
    ∃ page', repaint.after.document? document = some page' ∧
      ∀ node, page.Below container node → page'.node? node = page.node? node

end Repaint

/-- The tree that the last successful render of a mount gave, or none if it was unmounted since; if
there was neither, the tree in the beginning. The latest repaint comes first. -/
def lastShown (id : MountId) (tree : Option Tree) (repaints : List (Repaint κ ν σ)) : Option Tree :=
  (repaints.findSome? (·.shows id)).getD tree

variable {id : MountId} {mount : Mount κ} {tree : Option Tree}

theorem lastShown_cons (repaint : Repaint κ ν σ) (repaints : List (Repaint κ ν σ)) :
    lastShown id tree (repaint :: repaints) =
      (repaint.shows id).getD (lastShown id tree repaints) := by
  unfold lastShown
  rw [List.findSome?_cons]
  cases repaint.shows id <;> rfl

theorem lastShown_append (later repaints : List (Repaint κ ν σ)) :
    lastShown id tree (later ++ repaints) = lastShown id (lastShown id tree repaints) later := by
  induction later with
  | nil => rfl
  | cons repaint later ih => rw [List.cons_append, lastShown_cons, ih, lastShown_cons]

/-- Where no repaint makes a difference, the tree stays. -/
theorem lastShown_of_forall {repaints : List (Repaint κ ν σ)}
    (idle : ∀ repaint ∈ repaints, repaint.shows id = none) : lastShown id tree repaints = tree := by
  unfold lastShown
  rw [List.findSome?_eq_none_iff.mpr idle]
  rfl

/-- Where a mount is unmounted at most, it goes on to show nothing. -/
theorem lastShown_none {repaints : List (Repaint κ ν σ)}
    (gone : ∀ repaint ∈ repaints, repaint.mount = id → repaint.Withdraws) :
    lastShown id none repaints = none := by
  induction repaints with
  | nil => rfl
  | cons repaint rest ih =>
    have shown : repaint.shows id = none ∨ repaint.shows id = some none := by
      unfold Repaint.shows
      by_cases own : repaint.mount = id
      · obtain ⟨result, outcome⟩ := gone repaint List.mem_cons_self own
        rw [if_pos own, outcome]
        exact Or.inr rfl
      · exact Or.inl (if_neg own)
    rw [lastShown_cons]
    rcases shown with same | same
    · rw [same]
      exact ih fun other member => gone other (List.mem_cons_of_mem _ member)
    · rw [same]
      rfl

namespace World

variable {world after : World κ ν σ}

/-- In documents parents and children agree, every mount has an effect that renders it, which keeps no
cleanup, and every effect that renders is that of a mount. -/
structure Arranged (world : World κ ν σ) : Prop where
  linked : world.Linked
  renders : ∀ id mount, world.mount? id = some mount → ∃ renderer,
    world.renderer? mount.effect = some renderer ∧ renderer.mount = id ∧ renderer.cleanup = none
  mounted : ∀ id renderer, world.renderer? id = some renderer → ∃ mount,
    world.mount? renderer.mount = some mount ∧ mount.effect = id

theorem arranged_initial (user : σ) : (World.initial user : World κ ν σ).Arranged :=
  ⟨fun _ _ => nofun, fun _ _ => nofun, fun _ _ => nofun⟩

theorem Arranged.of_display (arranged : world.Arranged) (same : after.display = world.display) :
    after.Arranged where
  linked id page known := arranged.linked id page ((document?_of_display same id).symm.trans known)
  renders id mount found := by
    rw [renderer?_of_display same]
    exact arranged.renders id mount ((mount?_of_display same id).symm.trans found)
  mounted id renderer found := by
    rw [mount?_of_display same]
    exact arranged.mounted id renderer ((renderer?_of_display same id).symm.trans found)

/-- A change of what an effect is doing. -/
theorem Arranged.mark (arranged : world.Arranged) {other : NodeId} {seen : Renderer κ → Renderer κ}
    (mounts : after.mounts = world.mounts) (documents : after.documents = world.documents)
    (marked : ∀ id, after.renderer? id =
      if id = other then (world.renderer? other).map seen else world.renderer? id)
    (kept : ∀ renderer, (seen renderer).mount = renderer.mount ∧
      (renderer.cleanup = none → (seen renderer).cleanup = none)) : after.Arranged where
  linked id page known := by
    unfold document? at known
    rw [documents] at known
    exact arranged.linked id page known
  renders id mount found := by
    unfold mount? at found
    rw [mounts] at found
    obtain ⟨renderer, here, own, bare⟩ := arranged.renders id mount found
    rw [marked]
    split
    next same =>
      refine ⟨seen renderer, by rw [← same, here]; rfl, (kept renderer).1.trans own,
        (kept renderer).2 bare⟩
    next => exact ⟨renderer, here, own, bare⟩
  mounted id renderer found := by
    unfold mount?
    rw [mounts]
    rw [marked] at found
    split at found
    next same =>
      obtain ⟨was, here, rfl⟩ := Option.map_eq_some_iff.mp found
      rw [(kept was).1, same]
      exact arranged.mounted other was here
    next => exact arranged.mounted id renderer found

theorem Arranged.repaint (arranged : world.Arranged) (repaints : world.Repaints after) :
    after.Arranged where
  linked := repaints.linked arranged.linked
  renders id mount found := by
    have same := repaints.mounts id
    rw [found] at same
    obtain ⟨was, found', bare⟩ := Option.map_eq_some_iff.mp same.symm
    rw [renderer?_of_cells repaints.cells, ← Mount.effect_of_bare bare]
    exact arranged.renders id was found'
  mounted id renderer found := by
    rw [renderer?_of_cells repaints.cells] at found
    obtain ⟨mount, known, own⟩ := arranged.mounted id renderer found
    have same := repaints.mounts renderer.mount
    rw [known] at same
    obtain ⟨kept, found', bare⟩ := Option.map_eq_some_iff.mp same
    exact ⟨kept, found', (Mount.effect_of_bare bare).trans own⟩

/-- The effect of a mount is the only one that renders it. -/
theorem Arranged.unique (arranged : world.Arranged) (found : world.mount? id = some mount)
    {effect : NodeId} {renderer : Renderer κ} (here : world.renderer? effect = some renderer)
    (own : renderer.mount = id) : effect = mount.effect := by
  obtain ⟨mount', found', same⟩ := arranged.mounted effect renderer here
  rw [own, found] at found'
  cases found'
  exact same.symm

theorem Arranged.addCell (arranged : world.Arranged) {cell : Cell κ ν} (plain : cell.renderer? = none)
    (kind : NodeKind) : (world.addCell cell kind).2.Arranged where
  linked := arranged.linked
  renders id mount found := by
    obtain ⟨renderer, here, rest⟩ := arranged.renders id mount found
    refine ⟨renderer, ?_, rest⟩
    rw [renderer?_addCell, if_neg, here]
    intro same
    exact absurd (index_lt_of_renderer? here) (same ▸ Nat.lt_irrefl _)
  mounted id renderer found := by
    rw [renderer?_addCell] at found
    split at found
    next =>
      rw [plain] at found
      cases found
    next => exact arranged.mounted id renderer found

theorem mount?_addMount (world : World κ ν σ) (owner : ReactorId) (document : DocumentId)
    (container : HostId) (code : κ) (id : MountId) :
    (world.addMount owner document container code).mount? id =
      if id = ⟨world.mounts.length⟩ then
        some ⟨⟨world.cells.length⟩, document, container,
          ((world.reactor? owner).map (·.settings.keyPolicy)).getD .strict, code, none⟩
      else world.mount? id := by
  show (world.mounts ++ [_])[id.index]? = _
  split
  next last =>
    rw [last]
    exact List.getElem?_concat_length
  next other =>
    have apart : id.index ≠ world.mounts.length := fun same => other (MountId.ext same)
    unfold mount?
    by_cases inside : id.index < world.mounts.length
    · exact List.getElem?_append_left inside
    · rw [List.getElem?_eq_none (by rw [List.length_append, List.length_singleton]; omega),
        List.getElem?_eq_none (by omega)]

theorem Arranged.addMount (arranged : world.Arranged) (owner : ReactorId) (document : DocumentId)
    (container : HostId) (code : κ) :
    (world.addMount owner document container code).Arranged where
  linked := arranged.linked
  renders id mount found := by
    rw [mount?_addMount] at found
    rw [renderer?_addMount]
    split at found
    next last =>
      cases found
      exact ⟨_, if_pos rfl, last.symm, rfl⟩
    next =>
      obtain ⟨renderer, here, rest⟩ := arranged.renders id mount found
      refine ⟨renderer, Eq.trans (if_neg fun same => ?_) here, rest⟩
      exact absurd (index_lt_of_renderer? here) (same ▸ Nat.lt_irrefl _)
  mounted id renderer found := by
    rw [renderer?_addMount] at found
    rw [mount?_addMount]
    split at found
    next last =>
      cases found
      exact ⟨_, if_pos rfl, last.symm⟩
    next =>
      obtain ⟨mount, known, own⟩ := arranged.mounted id renderer found
      refine ⟨mount, Eq.trans (if_neg fun same => ?_) known, own⟩
      have inside := (List.getElem?_eq_some_iff.mp known).1
      rw [same] at inside
      exact Nat.lt_irrefl _ inside

theorem document?_newDocument {page : Document} {id : DocumentId}
    (known : world.document? id = some page) :
    ({ world with documents := world.documents ++ [.empty] } : World κ ν σ).document? id = some page :=
  (List.getElem?_append_left (List.getElem?_eq_some_iff.mp known).1).trans known

theorem Arranged.newDocument (arranged : world.Arranged) :
    ({ world with documents := world.documents ++ [.empty] } : World κ ν σ).Arranged where
  linked id page known := by
    cases known' : world.document? id with
    | some page' =>
      rw [document?_newDocument known'] at known
      exact arranged.linked id page (known ▸ known')
    | none =>
      have member : page ∈ [Document.empty] := by
        change (world.documents ++ [Document.empty])[id.index]? = some page at known
        rw [List.getElem?_append_right (List.getElem?_eq_none_iff.mp known')] at known
        exact List.mem_of_getElem? known
      rw [List.mem_singleton.mp member]
      exact linked_empty
  renders := arranged.renders
  mounted := arranged.mounted

end World

section

variable [BEq ν] {program : Program κ ν σ} {busy : NodeId → Prop} {start world after : World κ ν σ}
  {repaints : List (Repaint κ ν σ)}

theorem Program.Moment.arranged (moment : program.Moment busy start repaints world)
    (arranged : start.Arranged) : world.Arranged := by
  induction moment with
  | start => exact arranged
  | aside _ same ih => exact ih.of_display same.display
  | newCell _ plain ih => exact ih.addCell plain _
  | newDocument _ ih => exact ih.newDocument
  | newMount _ owner document container code ih => exact ih.addMount owner document container code
  | begin _ _ ih | finish _ _ ih =>
    exact ih.mark rfl rfl (World.renderer?_executing _ _ _) fun _ => ⟨rfl, fun bare => bare⟩
  | stop _ _ ih =>
    exact ih.mark rfl rfl (World.renderer?_active _ _ _) fun _ => ⟨rfl, fun bare => bare⟩
  | takeCleanup _ _ ih =>
    exact ih.mark rfl rfl (World.renderer?_takeCleanup _ _) fun _ => ⟨rfl, fun _ => rfl⟩
  | rendered _ _ _ _ _ _ _ _ _ ih => exact ih.repaint (World.repaints_receive _ _ _)
  | withdrawn _ _ ih => exact ih.repaint (World.repaints_withdraw _ _)

/-- What a repaint of a mount can be. A render gives a tree, which is shown if it is valid and refused
for its first defect if it is not; or it panics. Neither a refused tree nor a panic touches a document
or what a mount keeps. -/
inductive Program.Repainted (program : Program κ ν σ) (id : MountId) (code : κ) (policy : KeyPolicy) :
    Repaint κ ν σ → Prop
  | shown {depth opened before after tree}
      (ran : (program.render code).run (activate program depth) opened = some (.ok tree, before))
      (valid : ValidTree policy tree) : Repainted program id code policy ⟨id, .shown tree, before, after⟩
  | refused {depth opened before after tree failure}
      (ran : (program.render code).run (activate program depth) opened = some (.ok tree, before))
      (defect : (checkTree policy tree).defect = some failure)
      (mounts : after.mounts = before.mounts) (documents : after.documents = before.documents) :
      Repainted program id code policy ⟨id, .refused tree failure, before, after⟩
  | panicked {depth opened before panic}
      (ran : (program.render code).run (activate program depth) opened = some (.error panic, before)) :
      Repainted program id code policy ⟨id, .panicked panic, before, before⟩
  | withdrawn {before after} :
      Repainted program id code policy ⟨id, .withdrawn (.ok ()), before, after⟩

/-- No render finds the document in another state than the last one has left. -/
theorem Program.Repainted.inSync {code : κ} {policy : KeyPolicy} {repaint : Repaint κ ν σ}
    (repainted : program.Repainted id code policy repaint) (tree : Option Tree)
    (expected found : Nat) : repaint.outcome ≠ .refused tree (.outOfSync expected found) := by
  cases repainted with
  | refused _ defect =>
    rintro ⟨⟩
    exact checkTree_defect_ne_outOfSync defect
  | _ => exact nofun

namespace World

omit [BEq ν] in
theorem receive_of_valid (mounted : world.Mounted id mount) (valid : ValidTree mount.policy tree) :
    world.receive id (.ok tree) = (.shown tree, (world.present id tree).2) ∧
      (world.present id tree).2.Mounted id { mount with tree } := by
  obtain ⟨succeeds, shown⟩ := mounted.present valid
  refine ⟨?_, shown⟩
  rw [receive_ok, succeeds]

omit [BEq ν] in
theorem receive_of_not_valid (mounted : world.Mounted id mount)
    (invalid : ¬ ValidTree mount.policy tree) : ∃ failure,
      world.receive id (.ok tree) = (.refused tree failure, (world.present id tree).2) ∧
        (checkTree mount.policy tree).defect = some failure ∧
          (world.present id tree).2.mounts = world.mounts ∧
            (world.present id tree).2.documents = world.documents := by
  obtain ⟨failure, refused, defect⟩ := mounted.refuse invalid
  obtain ⟨mounts, documents⟩ := present_of_error refused
  refine ⟨failure, ?_, defect, mounts, documents⟩
  rw [receive_ok, refused]

omit [BEq ν] in
/-- A mount goes on to show what it keeps, whatever its render closure gives. -/
theorem Mounted.receive (mounted : world.Mounted id mount) (given : Except Panic (Option Tree)) :
    (world.receive id given).2.Mounted id
      { mount with tree := ((world.repaint id given).shows id).getD mount.tree } := by
  unfold World.repaint Repaint.shows
  rw [if_pos rfl]
  cases given with
  | error panic => exact mounted
  | ok tree =>
    by_cases valid : ValidTree mount.policy tree
    · obtain ⟨received, shown⟩ := receive_of_valid mounted valid
      rw [received]
      exact shown
    · obtain ⟨failure, received, _, mounts, documents⟩ := receive_of_not_valid mounted valid
      rw [received]
      refine ⟨?_, ?_⟩
      · unfold mount?
        rw [mounts]
        exact mounted.kept
      · unfold document?
        rw [documents]
        exact mounted.shown

/-- What a render of a mount comes to. -/
theorem Mounted.repainted (mounted : world.Mounted id mount) {depth : Nat} {opened : World κ ν σ}
    {given : Except Panic (Option Tree)}
    (ran : (program.render mount.code).run (activate program depth) opened = some (given, world)) :
    program.Repainted id mount.code mount.policy (world.repaint id given) := by
  unfold World.repaint
  cases given with
  | error panic => exact .panicked ran
  | ok tree =>
    by_cases valid : ValidTree mount.policy tree
    · rw [(receive_of_valid mounted valid).1]
      exact .shown ran valid
    · obtain ⟨failure, received, defect, mounts, documents⟩ := receive_of_not_valid mounted valid
      rw [received]
      exact .refused ran defect mounts documents

omit [BEq ν] in
theorem Mounted.of_display (mounted : world.Mounted id mount) (same : after.display = world.display) :
    after.Mounted id mount := by
  refine ⟨(mount?_of_display same id).trans mounted.kept, ?_⟩
  rw [document?_of_display same]
  exact mounted.shown

omit [BEq ν] in
/-- A mount goes on to show its tree when another one is repainted that spares it. -/
theorem Mounted.of_spares (mounted : world.Mounted id mount) {repaint : Repaint κ ν σ}
    (before : repaint.before = world) (kept : repaint.after.mount? id = world.mount? id)
    (linked : repaint.after.Linked) (spares : repaint.Spares mount.document mount.container) :
    repaint.after.Mounted id mount := by
  refine mounted.of_agree (kept.trans mounted.kept) fun page known => ?_
  obtain ⟨page', known', same⟩ := spares page (before ▸ known)
  exact ⟨page', known', linked _ _ known', same⟩

omit [BEq ν] in
theorem mount?_receive_of_ne {other : MountId} (apart : other ≠ id)
    (given : Except Panic (Option Tree)) : (world.receive id given).2.mount? other = world.mount? other := by
  cases given with
  | error panic => rfl
  | ok tree =>
    rw [receive_ok]
    split <;> exact mount?_present_of_ne apart tree

omit [BEq ν] in
/-- The end of a render is no unmount. -/
theorem not_withdraws_repaint (world : World κ ν σ) (id : MountId)
    (given : Except Panic (Option Tree)) : ¬ (world.repaint id given).Withdraws := by
  rintro ⟨result, outcome⟩
  cases given with
  | error panic => cases outcome
  | ok tree =>
    change (world.receive id (.ok tree)).1 = _ at outcome
    rw [receive_ok] at outcome
    split at outcome <;> cases outcome

end World

namespace Program.Moment

/-- At every moment a mount shows the tree of its last successful render, and each of its repaints is
of the expected kind. -/
theorem mounted (moment : program.Moment busy start repaints world) (arranged : start.Arranged)
    (begun : start.Mounted id mount)
    (others : ∀ repaint ∈ repaints, repaint.mount ≠ id →
      repaint.Spares mount.document mount.container) :
    world.Mounted id { mount with tree := lastShown id mount.tree repaints } ∧
      ∀ repaint ∈ repaints, repaint.mount = id →
        program.Repainted id mount.code mount.policy repaint := by
  induction moment with
  | start => exact ⟨begun, nofun⟩
  | aside _ same ih => exact ⟨(ih others).1.of_display same.display, (ih others).2⟩
  | newCell _ _ ih | begin _ _ ih | finish _ _ ih | stop _ _ ih | takeCleanup _ _ ih =>
    exact ⟨⟨(ih others).1.kept, (ih others).1.shown⟩, (ih others).2⟩
  | newDocument _ ih =>
    obtain ⟨⟨kept, page, known, rest⟩, sound⟩ := ih others
    exact ⟨⟨kept, page, World.document?_newDocument known, rest⟩, sound⟩
  | newMount _ _ _ _ _ ih =>
    obtain ⟨⟨kept, shown⟩, sound⟩ := ih others
    exact ⟨⟨(List.getElem?_append_left (List.getElem?_eq_some_iff.mp kept).1).trans kept, shown⟩, sound⟩
  | @rendered earlier repaints opened world other effect renderer mount' depth given entered found ran
      before running here executing free _ ih =>
    obtain ⟨mounted, sound⟩ := ih fun repaint member => others repaint (List.mem_cons_of_mem _ member)
    rw [lastShown_cons]
    by_cases own : other = id
    · subst own
      obtain ⟨kept, found', same⟩ := entered.keeps_mount begun.kept
      cases found.symm.trans found'
      rw [Mount.code_of_bare same] at ran
      refine ⟨mounted.receive given, List.forall_mem_cons.mpr ⟨fun _ => mounted.repainted ran, sound⟩⟩
    · have apart : (world.repaint other given).mount ≠ id := own
      have spared : (world.repaint other given).after.Mounted id _ := mounted.of_spares rfl
        (World.mount?_receive_of_ne (Ne.symm own) given)
        ((World.repaints_receive world other given).linked (before.arranged arranged).linked)
        (others _ List.mem_cons_self apart)
      refine ⟨?_, List.forall_mem_cons.mpr ⟨fun same => absurd same apart, sound⟩⟩
      rw [Repaint.shows, if_neg apart]
      exact spared
  | @withdrawn repaints world other before stopped ih =>
    obtain ⟨mounted, sound⟩ := ih fun repaint member => others repaint (List.mem_cons_of_mem _ member)
    rw [lastShown_cons]
    by_cases own : other = id
    · subst own
      obtain ⟨succeeds, bare⟩ := mounted.withdraw
      unfold World.withdrawal Repaint.shows
      rw [if_pos rfl, succeeds]
      exact ⟨bare, List.forall_mem_cons.mpr ⟨fun _ => .withdrawn, sound⟩⟩
    · have apart : (world.withdrawal other).mount ≠ id := own
      have spared : (world.withdrawal other).after.Mounted id _ := mounted.of_spares rfl
        (World.mount?_withdraw_of_ne (Ne.symm own))
        ((World.repaints_withdraw world other).linked (before.arranged arranged).linked)
        (others _ List.mem_cons_self apart)
      refine ⟨?_, List.forall_mem_cons.mpr ⟨fun same => absurd same apart, sound⟩⟩
      rw [Repaint.shows, if_neg apart]
      exact spared

/-- A document stays as it is as long as no repaint changes it. -/
theorem document?_kept {document : DocumentId} {page : Document}
    (moment : program.Moment busy start repaints world) (known : start.document? document = some page)
    (kept : ∀ repaint ∈ repaints,
      repaint.after.document? document = repaint.before.document? document) :
    world.document? document = some page := by
  induction moment with
  | start => exact known
  | aside _ same ih => exact (World.document?_of_display same.display document).trans (ih kept)
  | newCell _ _ ih | newMount _ _ _ _ _ ih | begin _ _ ih | finish _ _ ih | stop _ _ ih
  | takeCleanup _ _ ih => exact ih kept
  | newDocument _ ih => exact World.document?_newDocument (ih kept)
  | rendered _ _ _ _ _ _ _ _ _ ih | withdrawn _ _ ih =>
    exact (kept _ List.mem_cons_self).trans
      (ih fun repaint member => kept repaint (List.mem_cons_of_mem _ member))

/-- Only a mount that is there changes documents. -/
theorem mount_known (moment : program.Moment busy start repaints world) (arranged : start.Arranged) :
    ∀ repaint ∈ repaints,
      (∃ mount, world.mount? repaint.mount = some mount) ∨ repaint.after = repaint.before := by
  have repainted : ∀ {world after : World κ ν σ} {id : MountId}, world.Repaints after →
      (∃ mount, world.mount? id = some mount) → ∃ mount, after.mount? id = some mount := by
    rintro world after id repaints ⟨mount, found⟩
    have same := repaints.mounts id
    rw [found] at same
    obtain ⟨kept, here, _⟩ := Option.map_eq_some_iff.mp same
    exact ⟨kept, here⟩
  induction moment using Program.Moment.recount with
  | begun => exact nofun
  | between _ step ih =>
    refine fun repaint member => (ih repaint member).imp_left fun ⟨mount, found⟩ => ?_
    obtain ⟨kept, here, _⟩ := step.keeps_mount found
    exact ⟨kept, here⟩
  | @rendered _ _ _ world id _ renderer _ _ given _ _ _ before running here _ _ ih =>
    have repaints := world.repaints_receive id given
    refine List.forall_mem_cons.mpr ⟨Or.inl (repainted repaints ?_),
      fun repaint member => (ih repaint member).imp_left (repainted repaints)⟩
    obtain ⟨mount, found, _⟩ := (before.arranged arranged).mounted _ renderer running
    exact ⟨mount, here ▸ found⟩
  | @withdrawn _ world id _ _ ih =>
    have repaints := world.repaints_withdraw id
    refine List.forall_mem_cons.mpr ⟨?_,
      fun repaint member => (ih repaint member).imp_left (repainted repaints)⟩
    show (∃ mount, (world.withdraw id).2.mount? id = some mount) ∨ (world.withdraw id).2 = world
    cases found : world.mount? id with
    | none =>
      refine Or.inr ?_
      unfold World.withdraw
      rw [found]
    | some mount => exact Or.inl (repainted repaints ⟨mount, found⟩)

/-- An active effect stays enlisted. -/
theorem enlisted {effect : NodeId} (moment : program.Moment busy start repaints world)
    (known : effect.index < start.cells.length) (enlisted : start.Enlisted effect) :
    world.Enlisted effect := by
  have repainted : ∀ {world after : World κ ν σ}, world.Repaints after → world.Enlisted effect →
      after.Enlisted effect := by
    intro world after repaints enlisted
    refine enlisted.of_kept (fun state found active => ⟨state, ?_, active, rfl⟩)
      (fun owner live => Or.inl ?_) fun _ died => repaints.past died
    · unfold World.effect? World.cell? at found ⊢
      rwa [← repaints.cells]
    · rwa [World.graph_of_reactors repaints.reactors]
  induction moment with
  | start => exact enlisted
  | aside _ same ih => exact same.enlisted effect ih
  | newCell before _ ih => exact ih.addCell (Nat.lt_of_lt_of_le known before.size) _
  | @newMount _ world before owner _ _ _ ih =>
    have same : ∀ mounts, ({ world with mounts } : World κ ν σ).Enlisted effect := fun _ => ih
    exact (same _).addCell (Nat.lt_of_lt_of_le known before.size)
      (.effect ⟨owner, .render ⟨world.mounts.length⟩, false, none, true, false, 0, 2⟩)
  | newDocument _ ih => exact ih
  | begin _ _ ih | finish _ _ ih => exact ih.modifyEffect _ fun _ => ⟨rfl, fun active => active⟩
  | stop _ _ ih => exact ih.modifyEffect _ fun _ => ⟨rfl, nofun⟩
  | takeCleanup _ _ ih => exact ih.modifyEffect _ fun _ => ⟨rfl, fun active => active⟩
  | rendered _ _ _ _ _ _ _ _ _ ih => exact repainted (World.repaints_receive _ _ _) ih
  | withdrawn _ _ ih => exact repainted (World.repaints_withdraw _ _) ih

/-- The effect of a mount stays the only one that renders it. -/
theorem renders_alone {effect : NodeId} {renderer : Renderer κ}
    (moment : program.Moment busy start repaints world) (arranged : start.Arranged)
    (found : start.mount? id = some mount) (here : world.renderer? effect = some renderer)
    (own : renderer.mount = id) : effect = mount.effect := by
  obtain ⟨kept, found', bare⟩ := moment.keeps_mount found
  exact ((moment.arranged arranged).unique found' here own).trans (Mount.effect_of_bare bare)

/-- Once a mount was unmounted, its effect is stopped for good; and if the effect did not run then, the
mount is not rendered again. -/
theorem spent {gone : Repaint κ ν σ} {later earlier : List (Repaint κ ν σ)}
    (moment : program.Moment busy start repaints world) (arranged : start.Arranged)
    (found : start.mount? id = some mount) (own : gone.mount = id) (withdraws : gone.Withdraws)
    (split : repaints = later ++ gone :: earlier) :
    ∃ renderer, world.renderer? mount.effect = some renderer ∧ renderer.active = false ∧
      ((∀ renderer, gone.before.renderer? mount.effect = some renderer → renderer.executing = false) →
        renderer.executing = false ∧ ∀ repaint ∈ later, repaint.mount = id → repaint.Withdraws) := by
  induction moment using Program.Moment.recount generalizing later with
  | begun => exact absurd split.symm (List.append_ne_nil_of_right_ne_nil _ (List.cons_ne_nil _ _))
  | between _ step ih =>
    obtain ⟨renderer, here, ended, rest⟩ := ih split
    obtain ⟨renderer', here', ended', still⟩ := step.rests here ended
    exact ⟨renderer', here', ended', fun idle => ⟨still (rest idle).1, (rest idle).2⟩⟩
  | @rendered _ _ _ world other effect renderer _ _ given _ _ _ before running here executing _ ih =>
    cases later with
    | nil =>
      cases split
      exact absurd withdraws (World.not_withdraws_repaint world other given)
    | cons first later =>
      obtain ⟨rfl, split'⟩ := List.cons.inj split
      obtain ⟨stopped, there, ended, rest⟩ := ih split'
      refine ⟨stopped, ?_, ended, fun holds => ⟨(rest holds).1,
        List.forall_mem_cons.mpr ⟨fun same => ?_, (rest holds).2⟩⟩⟩
      · exact (World.renderer?_of_cells (World.repaints_receive _ _ _).cells _).trans there
      · -- The effect that runs is the one of the mount, which does not run.
        rw [before.renders_alone arranged found running (here.trans same), there] at running
        cases running
        exact absurd (executing.symm.trans (rest holds).1) Bool.noConfusion
  | @withdrawn _ world other before stopped ih =>
    cases later with
    | nil =>
      obtain ⟨rfl, -⟩ := List.cons.inj split
      change other = id at own
      subst own
      obtain ⟨kept, found', bare⟩ := before.keeps_mount found
      have effect := Mount.effect_of_bare bare
      obtain ⟨renderer, there, _⟩ := (before.arranged arranged).renders other kept found'
      rw [effect] at there
      have ended := stopped kept found' renderer (by rw [effect]; exact there)
      refine ⟨renderer, ?_, ended, fun idle => ⟨idle renderer there, nofun⟩⟩
      exact (World.renderer?_of_cells (World.repaints_withdraw _ _).cells _).trans there
    | cons first later =>
      obtain ⟨rfl, split'⟩ := List.cons.inj split
      obtain ⟨renderer, there, ended, rest⟩ := ih split'
      refine ⟨renderer, ?_, ended, fun holds => ⟨(rest holds).1,
        List.forall_mem_cons.mpr ⟨fun _ => ⟨_, rfl⟩, (rest holds).2⟩⟩⟩
      exact (World.renderer?_of_cells (World.repaints_withdraw _ _).cells _).trans there

end Program.Moment

end

end ReactiveTree
