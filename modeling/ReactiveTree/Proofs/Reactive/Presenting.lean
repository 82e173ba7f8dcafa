import ReactiveTree.Proofs.Reactive.Rerendering

/-! # A mount shows its last good render

A mount that was made into an empty container of a document that only it changes shows the tree of its
last successful render, at every moment of every run: whatever is written, batched or run, and whatever
the render closure gives. A run of its effect that nobody stops brings the document to the tree that the
closure gives, or leaves everything as it was; and an unmount while the effect is idle empties the
container for good.
-/

namespace ReactiveTree

open Document

variable {κ ν σ α : Type}

/-- Every repaint of another mount leaves a document as it is. -/
def Undisturbed (id : MountId) (document : DocumentId) (repaints : List (Repaint κ ν σ)) : Prop :=
  ∀ repaint ∈ repaints, repaint.mount ≠ id →
    repaint.after.document? document = repaint.before.document? document

namespace World

variable {world after : World κ ν σ} {id : MountId} {mount : Mount κ}

/-- The mount that is made next. -/
def freshMount (world : World κ ν σ) (owner : ReactorId) (document : DocumentId) (container : HostId)
    (code : κ) : Mount κ :=
  ⟨⟨world.cells.length⟩, document, container,
    ((world.reactor? owner).map (·.settings.keyPolicy)).getD .strict, code, none⟩

theorem only_mount (one : world.mounts.length = 1) (other : MountId) (mount : Mount κ)
    (found : world.mount? other = some mount) : other = ⟨0⟩ := by
  have bound : other.index < world.mounts.length := (List.getElem?_eq_some_iff.mp found).1
  exact MountId.ext (Nat.lt_one_iff.mp (one ▸ bound))

theorem document?_of_only {page : Document} (only : world.documents = [page]) :
    world.document? ⟨0⟩ = some page := by
  unfold document?
  rw [only]
  rfl

/-- A mount has just been made: it shows nothing, and its effect has a node. -/
structure Fresh (world : World κ ν σ) (id : MountId) (mount : Mount κ) : Prop where
  arranged : world.Arranged
  mounted : world.Mounted id mount
  bare : mount.tree = none
  known : mount.effect.index < world.cells.length
  enlisted : world.Enlisted mount.effect

theorem fresh_addMount (arranged : world.Arranged) {owner : ReactorId} {document : DocumentId}
    {container : HostId} {page : Document} (there : (world.reactor? owner).isSome)
    (known : world.document? document = some page) (inside : page.contains container = true)
    (bare : page.children container = []) (code : κ) :
    (world.addMount owner document container code).Fresh ⟨world.mounts.length⟩
      (world.freshMount owner document container code) where
  arranged := arranged.addMount owner document container code
  mounted := by
    refine ⟨(world.mount?_addMount owner document container code _).trans (if_pos rfl), page, known,
      arranged.linked document page known, inside, ?_⟩
    exact bare
  bare := rfl
  known := by
    show world.cells.length < (world.cells ++ [_]).length
    rw [List.length_append]
    exact Nat.lt_succ_self _
  enlisted := ({ world with
    mounts := world.mounts ++ [world.freshMount owner document container code] }).enlisted_addCell
      ⟨owner, .render ⟨world.mounts.length⟩, false, none, true, false, 0, 2⟩ there

/-- A repaint with a valid tree shows it. -/
theorem Mounted.shows_repaint (mounted : world.Mounted id mount) {tree : Option Tree}
    (valid : ValidTree mount.policy tree) : (world.repaint id (.ok tree)).shows id = some tree := by
  unfold World.repaint Repaint.shows
  rw [if_pos rfl, (receive_of_valid mounted valid).1]

/-- A render that panics or gives an invalid tree changes no document and no mount. -/
theorem Mounted.spares_repaint (mounted : world.Mounted id mount)
    {given : Except Panic (Option Tree)}
    (fails : ∀ tree, given = .ok tree → ¬ ValidTree mount.policy tree) :
    (world.repaint id given).shows id = none ∧
      (world.receive id given).2.mounts = world.mounts ∧
        (world.receive id given).2.documents = world.documents := by
  unfold World.repaint Repaint.shows
  rw [if_pos rfl]
  cases given with
  | error panic => exact ⟨rfl, rfl, rfl⟩
  | ok tree =>
    obtain ⟨failure, received, _, mounts, documents⟩ := receive_of_not_valid mounted (fails tree rfl)
    rw [received]
    exact ⟨rfl, mounts, documents⟩

end World

section

variable [BEq ν] {program : Program κ ν σ} {start world opened left after : World κ ν σ} {id : MountId}
  {mount : Mount κ} {repaints during later : List (Repaint κ ν σ)} {depth : Nat}
  {given : Except Panic (Option Tree)}

/-- Where there is no other mount, nothing else changes a document. -/
theorem Program.Account.undisturbed (account : program.Account start repaints world)
    (arranged : start.Arranged) (only : ∀ other mount, world.mount? other = some mount → other = id)
    (document : DocumentId) : Undisturbed id document repaints := by
  intro repaint member apart
  rcases account.mount_known arranged repaint member with ⟨mount, found⟩ | same
  · exact absurd (only _ mount found) apart
  · rw [same]

omit [BEq ν] in
theorem Undisturbed.spares (undisturbed : Undisturbed id mount.document repaints) :
    ∀ repaint ∈ repaints, repaint.mount ≠ id → repaint.Spares mount.document mount.container :=
  fun repaint member apart page known =>
    ⟨page, (undisturbed repaint member apart).trans known, fun _ _ => rfl⟩

omit [BEq ν] in
theorem Undisturbed.append {document : DocumentId} (latter : Undisturbed id document later)
    (former : Undisturbed id document repaints) : Undisturbed id document (later ++ repaints) :=
  List.forall_mem_append.mpr ⟨latter, former⟩

omit [BEq ν] in
theorem Undisturbed.cons {document : DocumentId} {repaint : Repaint κ ν σ} (own : repaint.mount = id)
    (undisturbed : Undisturbed id document repaints) : Undisturbed id document (repaint :: repaints) :=
  List.forall_mem_cons.mpr ⟨fun apart => absurd own apart, undisturbed⟩

/-- Making a mount begins with the mount in place, and its effect not run yet. -/
theorem mount_account (origin : World κ ν σ) (owner : ReactorId) (document : DocumentId)
    (container : HostId) (code : κ) (depth : Nat) :
    (program.run depth (.call (.mount owner document container code))).Ends origin fun _ after =>
      ∃ repaints, program.Account (origin.addMount owner document container code) repaints after := by
  intro result after ran
  change newMount _ owner document container code origin = some (result, after) at ran
  rw [newMount_eq] at ran
  have carries : program.Carries (activate program depth) := activate_carries program depth
  exact Run.Keeps.bind (carries (fun _ => False.elim) (.execute _)) (fun _ => .pure _) _
    ⟨[], .start⟩ _ _ ran

/-- Every run of an act has an account. -/
theorem Program.run_account (program : Program κ ν σ) {world : World κ ν σ} (depth : Nat)
    (act : Act κ ν σ α) : (program.run depth act).Ends world fun _ after =>
      ∃ later, program.Account world later after :=
  Act.run_comes (activate_carries program depth) (fun _ => False.elim) act world ⟨[], .start⟩

namespace Program.Account

/-- Acts lead from moments to moments. -/
theorem run (account : program.Account start repaints world) (depth : Nat) (act : Act κ ν σ α) :
    (program.run depth act).Ends world fun _ after =>
      ∃ later, program.Account start (later ++ repaints) after := by
  intro result after ran
  obtain ⟨later, onward⟩ := program.run_account depth act result after ran
  exact ⟨later, account.trans onward⟩

/-- Whatever the library sets off leads from moments to moments. -/
theorem activated (account : program.Account start repaints world) (depth : Nat)
    (activation : Activation κ) : (activate program depth activation).Ends world fun _ after =>
      ∃ later, program.Account start (later ++ repaints) after := by
  intro result after ran
  have carries : program.Carries (activate program depth) := activate_carries program depth
  obtain ⟨later, onward⟩ := carries (fun _ => False.elim) activation world ⟨[], .start⟩ result after ran
  exact ⟨later, account.trans onward⟩

/-- The closure of an effect is called at a moment and returns at one. -/
theorem within {name : NodeId} {effect : Effect κ} {result : Except Panic Unit}
    (account : program.Account start repaints world) (found : world.effect? name = some effect)
    (active : effect.active = true) (idle : effect.executing = false)
    (alive : world.isAlive effect.reactor = true)
    (ran : activate program (depth + 1) (.execute name) world = some (result, after)) :
    ∃ opened left given earlier during,
      effectAct program (activate program depth) name effect opened = some (given, left) ∧
        program.Account start (earlier ++ repaints) opened ∧
          program.Account start (during ++ (earlier ++ repaints)) left := by
  obtain ⟨-, middle, told, ended, last, parts, -⟩ := of_activate_execute found active idle alive ran
  obtain ⟨given, inner, -, inside, -⟩ := of_runBody parts.ran
  have carries : program.Carries (activate program depth) := activate_carries program depth
  have free : ∀ world : World κ ν σ, world.Works fun _ => False := fun _ _ => False.elim
  have held : (world.hold (.reactor effect.reactor)).effect? name = some effect := found
  obtain ⟨earlier, cleared⟩ := clearEffect_comes carries (free _) ⟨[], .start⟩ held active idle _ _
    parts.cleared
  have entered : middle.Offstage (middle.enterBody name effect.reactor) :=
    (World.Offstage.record middle _).trans (.pushFrame _ _ _)
  have engaged : (middle.enterBody name effect.reactor).isEngaged name = true :=
    (isEngaged_of_cleared held parts.cleared : middle.isEngaged name = true)
  have opens : program.Comes (fun _ => False) (world.hold (.reactor effect.reactor))
      (middle.enterBody name effect.reactor) := ⟨earlier, cleared.aside entered⟩
  obtain ⟨during, returned⟩ := effectAct_comes carries (free _) ⟨[], .start⟩ not_false
    (fun mount body => opens.renders held body engaged) _ _ inside
  have begun : program.Account start (earlier ++ repaints) (middle.enterBody name effect.reactor) :=
    (account.aside (.hold world (.reactor effect.reactor))).trans (cleared.aside entered)
  exact ⟨_, _, given, earlier, during, inside, begun, begun.trans returned⟩

section

variable (account : program.Account start repaints world) (fresh : start.Fresh id mount)

include account fresh

theorem presents (undisturbed : Undisturbed id mount.document repaints) :
    world.Mounted id { mount with tree := lastShown id none repaints } ∧
      ∀ repaint ∈ repaints, repaint.mount = id →
        program.Repainted id mount.code mount.policy repaint := by
  have mounted := account.mounted fresh.arranged fresh.mounted undisturbed.spares
  rwa [fresh.bare] at mounted

variable (renders : program.Renders depth id mount world opened left after given during)

include renders

omit fresh in
theorem closing : program.Account start (during ++ repaints) left := by
  have closing := account.trans (renders.opens.trans renders.within.account)
  rwa [List.append_nil] at closing

/-- While the closure runs, the mount is unmounted at most. -/
theorem passive : ∀ repaint ∈ during, repaint.mount = id → repaint.Withdraws := by
  have begun := account.trans renders.opens
  obtain ⟨kept, found, bare⟩ := begun.keeps_mount fresh.mounted.kept
  exact renders.within.withdraws (begun.arranged fresh.arranged) found
    fun _ _ _ => Mount.effect_of_bare bare

/-- If the mount is unmounted while the closure runs, the effect rests after the run. -/
theorem ended {gone : Repaint κ ν σ} (member : gone ∈ during) (own : gone.mount = id) :
    ∃ renderer, after.renderer? mount.effect = some renderer ∧ renderer.active = false ∧
      renderer.executing = false := by
  obtain ⟨newer, older, rfl⟩ := List.append_of_mem member
  have split : left.repaint id given :: (newer ++ gone :: older) ++ repaints =
      (left.repaint id given :: newer) ++ gone :: (older ++ repaints) := by
    simp
  obtain ⟨renderer, here, ended, _⟩ := (account.trans renders.closes).spent fresh.arranged
    fresh.mounted.kept own (account.passive fresh renders gone member own) split
  exact ⟨renderer, here, ended, renders.rests renderer here⟩

/-- If the effect is not stopped, the mount is left alone while the closure runs. -/
theorem aloof {effect : Effect κ} (found : after.effect? mount.effect = some effect)
    (active : effect.active = true) : ∀ repaint ∈ during, repaint.mount ≠ id := by
  intro repaint member own
  obtain ⟨renderer, here, ended, _⟩ := account.ended fresh renders member own
  obtain ⟨_, found', _, same, _⟩ := World.effect_of_renderer? here
  cases found.symm.trans found'
  exact Bool.noConfusion (active.symm.trans (same.trans ended))

end

end Program.Account

/-- What a run of the effect of a mount comes to that nobody stops. A valid tree is shown; whatever else
the closure gives leaves mount and document as they were. The effect can run again, and unless its
reactor is dead, it is subscribed to each live node of the reactor that it has read. -/
structure World.Rerendered (id : MountId) (mount : Mount κ) (owner : ReactorId)
    (given : Except Panic (Option Tree)) (told : List (Event κ ν)) (world after : World κ ν σ) :
    Prop where
  ready : ∃ effect, after.effect? mount.effect = some effect ∧ effect.active = true ∧
    effect.executing = false
  shown : ∀ tree, given = .ok tree → ValidTree mount.policy tree → after.Mounted id { mount with tree }
  kept : (∀ tree, given = .ok tree → ¬ ValidTree mount.policy tree) →
    after.mount? id = world.mount? id ∧
      after.document? mount.document = world.document? mount.document
  subscribed : .died owner ∉ after.past → ∃ running rest,
    told = running ++ .started mount.effect :: rest ∧ .started mount.effect ∉ running ∧
      ∀ read cell, .read read (some mount.effect) ∈ running → after.cell? read = some cell →
        cell.reactor = owner → (after.graph owner).contains read = true →
          after.Subscribed owner mount.effect read

namespace Program.Account

section

variable (account : program.Account start repaints world) (fresh : start.Fresh id mount)
  (undisturbed : Undisturbed id mount.document repaints)

include account fresh undisturbed

variable (renders : program.Renders depth id mount world opened left after given during)
  (calm : Undisturbed id mount.document during)

include renders calm

theorem mounted_left :
    left.Mounted id { mount with tree := lastShown id none (during ++ repaints) } :=
  ((account.closing renders).presents fresh (calm.append undisturbed)).1

theorem mounted_after : after.Mounted id
    { mount with tree := lastShown id none (left.repaint id given :: (during ++ repaints)) } := by
  have whole : program.Account start (left.repaint id given :: (during ++ repaints)) after :=
    account.trans renders.closes
  exact (whole.presents fresh ((calm.append undisturbed).cons rfl)).1

/-- A run that fails leaves mount and document as they were, if nobody stops the effect. -/
theorem unchanged {effect : Effect κ} (found : after.effect? mount.effect = some effect)
    (active : effect.active = true)
    (fails : ∀ tree, given = .ok tree → ¬ ValidTree mount.policy tree) :
    after.mount? id = world.mount? id ∧
      after.document? mount.document = world.document? mount.document := by
  have aloof := account.aloof fresh renders found active
  obtain ⟨hidden, _, documents⟩ :=
    (account.mounted_left fresh undisturbed renders calm).spares_repaint fails
  obtain ⟨kept, _, known, _⟩ := (account.presents fresh undisturbed).1
  constructor
  · have idle : lastShown id none (during ++ repaints) = lastShown id none repaints := by
      rw [lastShown_append]
      exact lastShown_of_forall fun repaint member => if_neg (aloof repaint member)
    have after := (account.mounted_after fresh undisturbed renders calm).kept
    rw [lastShown_cons, hidden, Option.getD_none, idle] at after
    exact after.trans kept.symm
  · refine (renders.closes.document?_kept known ?_).trans known.symm
    refine List.forall_mem_cons.mpr ⟨?_, fun repaint member => calm repaint member (aloof repaint member)⟩
    unfold World.repaint World.document?
    rw [documents]

end

section

variable {effect : Effect κ} {result : Except Panic Unit}
  (account : program.Account start repaints world) (fresh : start.Fresh id mount)
  (undisturbed : Undisturbed id mount.document repaints)
  (found : world.effect? mount.effect = some effect) (active : effect.active = true)
  (idle : effect.executing = false) (alive : world.isAlive effect.reactor = true)
  (ran : activate program (depth + 1) (.execute mount.effect) world = some (result, after))

include account fresh undisturbed found active idle alive ran

theorem renders : ∃ opened given left during,
    program.Renders depth id mount world opened left after given during := by
  obtain ⟨kept, _⟩ := (account.presents fresh undisturbed).1
  obtain ⟨opened, given, left, during, opens, rendered, within, closes, rests⟩ :=
    execute_renders (account.arranged fresh.arranged) kept found active idle alive ran
  exact ⟨opened, given, left, during, opens, rendered, within, closes, rests⟩

/-- A run of the effect of a mount, from any moment at which it can run. -/
theorem rerendered : ∃ opened given left during told,
    program.Renders depth id mount world opened left after given during ∧
      after.past = told ++ world.past ∧ (.stopped mount.effect ∉ told →
        Undisturbed id mount.document during →
          World.Rerendered id mount effect.reactor given told world after) := by
  obtain ⟨opened, given, left, during, renders⟩ :=
    account.renders fresh undisturbed found active idle alive ran
  obtain ⟨told, past, subscribes⟩ := execute_subscribes found active idle alive ran
  refine ⟨opened, given, left, during, told, renders, past, fun unstopped calm => ?_⟩
  obtain ⟨⟨present, found', home, active', idle'⟩, subscribed⟩ := subscribes unstopped
  refine ⟨⟨present, found', active', idle'⟩, fun tree gives valid => ?_,
    account.unchanged fresh undisturbed renders calm found' active', fun living => ?_⟩
  · subst gives
    have shown := account.mounted_after fresh undisturbed renders calm
    rwa [lastShown_cons, (account.mounted_left fresh undisturbed renders calm).shows_repaint valid]
      at shown
  · refine subscribed ?_
    have enlisted := (account.trans renders.closes).enlisted fresh.known fresh.enlisted present found'
      active'
    rw [home] at enlisted
    exact enlisted.resolve_right living

end

end Program.Account

/-- Nothing is shown below a container. -/
def World.Vacant (world : World κ ν σ) (document : DocumentId) (container : HostId) : Prop :=
  ∃ page, world.document? document = some page ∧ page.children container = []

omit [BEq ν] in
theorem World.Mounted.vacant (mounted : world.Mounted id { mount with tree := none }) :
    world.Vacant mount.document mount.container := by
  obtain ⟨_, page, known, _, _, shown⟩ := mounted
  exact ⟨page, known, shown⟩

namespace Program.Account

section

variable (account : program.Account start repaints world) (fresh : start.Fresh id mount)
  (undisturbed : Undisturbed id mount.document repaints)

include account fresh undisturbed

/-- An unmount returns at any depth, whatever is going on, and leaves the container empty. -/
theorem unmounts (busy : NodeId → Prop) (depth : Nat) : ∃ ended : World κ ν σ,
    program.run depth (.call (.unmount id)) world = some (.ok (.ok ()), (ended.withdraw id).2) ∧
      program.Moment busy world [ended.withdrawal id] (ended.withdraw id).2 ∧
      ((∀ effect, world.effect? mount.effect = some effect → effect.executing = false) →
        ∀ renderer, ended.renderer? mount.effect = some renderer → renderer.executing = false) := by
  obtain ⟨kept, _⟩ := (account.presents fresh undisturbed).1
  obtain ⟨ended, ran, moment, gone, idle⟩ := unmount_bare program busy (activate program depth)
    (account.arranged fresh.arranged) kept
  have still : program.Account start repaints ended := account.trans moment.account
  rw [(still.presents fresh undisturbed).1.withdraw.1] at ran
  refine ⟨ended, ran, gone, fun rests => idle fun renderer here => ?_⟩
  obtain ⟨effect, found, _, _, same, _⟩ := World.effect_of_renderer? here
  exact same.symm.trans (rests effect found)

variable {ended final : World κ ν σ}
  (gone : program.Account world [ended.withdrawal id] (ended.withdraw id).2)
  (onward : program.Account (ended.withdraw id).2 later final)
  (calm : Undisturbed id mount.document later)

include gone onward calm

/-- From an unmount on, a mount shows what is rendered later. -/
theorem mounted_since : final.Mounted id { mount with tree := lastShown id none later } := by
  have whole : program.Account start (later ++ ended.withdrawal id :: repaints) final :=
    (account.trans gone).trans onward
  have mounted := (whole.presents fresh (calm.append (undisturbed.cons rfl))).1
  have bare : (ended.withdrawal id).shows id = some none := if_pos rfl
  rwa [lastShown_append, lastShown_cons, bare, Option.getD_some] at mounted

/-- After an unmount while the effect is idle nothing is rendered. -/
theorem mounted_none
    (idle : ∀ renderer, ended.renderer? mount.effect = some renderer → renderer.executing = false) :
    final.Mounted id { mount with tree := none } := by
  have whole : program.Account start (later ++ ended.withdrawal id :: repaints) final :=
    (account.trans gone).trans onward
  obtain ⟨_, _, _, rest⟩ := whole.spent fresh.arranged fresh.mounted.kept rfl ⟨_, rfl⟩ rfl
  have since := account.mounted_since fresh undisturbed gone onward calm
  rwa [lastShown_none (rest idle).2] at since

end

end Program.Account

/-- What a mount does at a moment of a run, given what mounts have done to documents since it was
made. -/
structure Program.Presents (program : Program κ ν σ) (id : MountId) (mount : Mount κ)
    (repaints : List (Repaint κ ν σ)) (world : World κ ν σ) : Prop where
  /-- The container shows the tree that the mount keeps, and this is the tree that its last successful
  render gave, or none if it was unmounted since. -/
  shows : world.Mounted id { mount with tree := lastShown id none repaints }
  /-- A render is refused for a defect of its tree only; and whatever fails touches no document. -/
  repainted : ∀ repaint ∈ repaints, repaint.mount = id →
    program.Repainted id mount.code mount.policy repaint
  inSync : ∀ repaint ∈ repaints, repaint.mount = id → ∀ tree expected found,
    repaint.outcome ≠ .refused tree (.outOfSync expected found)
  /-- The effect can run at this moment, and it does. -/
  rerenders : ∀ depth effect result after, world.effect? mount.effect = some effect →
    effect.active = true → effect.executing = false → world.isAlive effect.reactor = true →
    activate program (depth + 1) (.execute mount.effect) world = some (result, after) →
    ∃ opened given left during told,
      program.Renders depth id mount world opened left after given during ∧
        after.past = told ++ world.past ∧ (.stopped mount.effect ∉ told →
          Undisturbed id mount.document during →
            World.Rerendered id mount effect.reactor given told world after)
  /-- The mount is unmounted at this moment, and the effect does not run. -/
  unmounts : ∀ depth,
    (∀ effect, world.effect? mount.effect = some effect → effect.executing = false) →
    ∃ gone ended, program.run depth (.call (.unmount id)) world = some (.ok (.ok ()), ended) ∧
      gone.mount = id ∧ gone.Withdraws ∧ program.Account world [gone] ended ∧
        ∀ later final, program.Account ended later final → Undisturbed id mount.document later →
          final.Vacant mount.document mount.container

/-- In every run, from the making of a mount in an empty container on, the container shows the tree of
the last successful render, as long as nothing else changes the document. The moments of which this is
said are those that a run comes to after the mount was made: acts and activations lead from moments to
moments, and the closure of every effect is called at one, so that they are also found inside of
closures. -/
theorem mount_shows_last_render {user : σ} {history : List (Repaint κ ν σ)} {origin : World κ ν σ}
    {owner : ReactorId} {document : DocumentId} {container : HostId} {page : Document}
    (reached : program.Account (World.initial user) history origin)
    (there : (origin.reactor? owner).isSome) (known : origin.document? document = some page)
    (inside : page.contains container = true) (bare : page.children container = []) (code : κ) :
    (∀ depth, (program.run depth (.call (.mount owner document container code))).Ends origin
      fun _ after => ∃ repaints,
        program.Account (origin.addMount owner document container code) repaints after) ∧
    (∀ {α : Type} depth (act : Act κ ν σ α) repaints world,
      program.Account (origin.addMount owner document container code) repaints world →
      (program.run depth act).Ends world fun _ after => ∃ later,
        program.Account (origin.addMount owner document container code) (later ++ repaints) after) ∧
    (∀ depth activation repaints world,
      program.Account (origin.addMount owner document container code) repaints world →
      (activate program depth activation).Ends world fun _ after => ∃ later,
        program.Account (origin.addMount owner document container code) (later ++ repaints) after) ∧
    (∀ depth name effect repaints world result after,
      program.Account (origin.addMount owner document container code) repaints world →
      world.effect? name = some effect → effect.active = true → effect.executing = false →
      world.isAlive effect.reactor = true →
      activate program (depth + 1) (.execute name) world = some (result, after) →
      ∃ opened left given earlier during,
        effectAct program (activate program depth) name effect opened = some (given, left) ∧
          program.Account (origin.addMount owner document container code) (earlier ++ repaints) opened ∧
            program.Account (origin.addMount owner document container code)
              (during ++ (earlier ++ repaints)) left) ∧
    ∀ repaints world, program.Account (origin.addMount owner document container code) repaints world →
      Undisturbed ⟨origin.mounts.length⟩ document repaints →
        program.Presents ⟨origin.mounts.length⟩ (origin.freshMount owner document container code)
          repaints world := by
  have fresh := World.fresh_addMount (reached.arranged (World.arranged_initial user)) there known
    inside bare code
  refine ⟨mount_account origin owner document container code,
    fun depth act repaints world account => account.run depth act,
    fun depth activation repaints world account => account.activated depth activation,
    fun depth name effect repaints world result after account found active idle alive ran =>
      account.within found active idle alive ran,
    fun repaints world account undisturbed => ?_⟩
  obtain ⟨shows, repainted⟩ := account.presents fresh undisturbed
  refine ⟨shows, repainted, fun repaint member own => (repainted repaint member own).inSync,
    fun depth effect result after found active idle alive ran =>
      account.rerendered fresh undisturbed found active idle alive ran, fun depth idle => ?_⟩
  obtain ⟨ended, ran, gone, still⟩ := account.unmounts fresh undisturbed (fun _ => False) depth
  exact ⟨ended.withdrawal ⟨origin.mounts.length⟩, _, ran, rfl, ⟨_, rfl⟩, gone,
    fun later final onward calm =>
      (account.mounted_none fresh undisturbed gone onward calm (still idle)).vacant⟩

end

/-- A mount that shows a text at first, then gives a tree with a defect, and then panics. -/
def Program.flickering : Program Unit Nat Unit where
  compute _ := .pure 0
  effect _ := .pure (.ok none)
  cleanup _ := .pure ()
  callback _ _ := .pure ()
  render _ := .bind (.call (.get ⟨0⟩)) fun value =>
    match value with
    | 1 => .pure (some (.text "on"))
    | 2 => .pure (some (.element "" .empty [] none))
    | _ => .raise (.text "no tree")
  handler _ := .pure ()

/-- Make the signal and the document. -/
def Act.flickering : Act Unit Nat Unit Unit :=
  .bind (.call (.newReactor {})) fun _ => .bind (.call (.newSignal ⟨0⟩ 1)) fun _ =>
    .bind (.call .newDocument) fun _ => .pure ()

def Act.flicker : Act Unit Nat Unit Unit :=
  .bind (.call (.set ⟨0⟩ 2)) fun _ => .call (.set ⟨0⟩ 3)

/-- A mount shows this text. -/
def Mount.showsText (words : String) (mount : Mount κ) : Bool :=
  match mount.tree with
  | some (.text text) => text == words
  | _ => false

theorem Mount.tree_of_showsText {words : String} {mount : Mount κ} (reads : mount.showsText words = true) :
    mount.tree = some (.text words) := by
  unfold Mount.showsText at reads
  split at reads
  next text shown => rw [shown, eq_of_beq reads]
  next => cases reads

/-- After two failures the text is shown still, and an unmount takes it off. -/
theorem mount_shows_last_render_flickering : ∃ origin made after : World Unit Nat Unit,
    Program.flickering.run 3 Act.flickering (World.initial ()) = some (.ok (), origin) ∧
    Program.flickering.run 3 (.call (.mount ⟨0⟩ ⟨0⟩ root ())) origin = some (.ok ⟨0⟩, made) ∧
    Program.flickering.run 3 Act.flicker made = some (.ok (), after) ∧
    .failed (.failedEffect ⟨1⟩ ReconcileFailure.emptyTag.message) ∈ after.past ∧
    .failed (.failedEffect ⟨1⟩ "no tree") ∈ after.past ∧
    after.Mounted ⟨0⟩ ⟨⟨1⟩, ⟨0⟩, root, .strict, (), some (.text "on")⟩ ∧
    ∀ depth, ∃ ended, Program.flickering.run depth (.call (.unmount ⟨0⟩)) after =
      some (.ok (.ok ()), ended) ∧ ended.Vacant ⟨0⟩ root := by
  have runs : ((Program.flickering.run 3 Act.flickering (World.initial ())).bind fun origin =>
      (Program.flickering.run 3 (.call (.mount ⟨0⟩ ⟨0⟩ root ())) origin.2).bind fun made =>
        (Program.flickering.run 3 Act.flicker made.2).map fun after =>
          decide (origin.1 = .ok () ∧ made.1 = .ok ⟨0⟩ ∧ after.1 = .ok () ∧
            origin.2.documents = [.empty] ∧
            origin.2.mounts.length = 0 ∧ origin.2.cells.length = 1 ∧
            (origin.2.reactor? ⟨0⟩).map (·.settings.keyPolicy) = some .strict ∧
            .failed (.failedEffect ⟨1⟩ ReconcileFailure.emptyTag.message) ∈ after.2.past ∧
            .failed (.failedEffect ⟨1⟩ "no tree") ∈ after.2.past ∧
            (after.2.effect? ⟨1⟩).map Effect.executing = some false ∧
            after.2.mounts.length = 1 ∧
            (after.2.mount? ⟨0⟩).map (Mount.showsText "on") = some true)) = some true := by
    decide +kernel
  obtain ⟨⟨_, origin⟩, ran, runs⟩ := Option.bind_eq_some_iff.mp runs
  obtain ⟨⟨_, made⟩, mounts, runs⟩ := Option.bind_eq_some_iff.mp runs
  obtain ⟨⟨_, after⟩, acts, runs⟩ := Option.map_eq_some_iff.mp runs
  obtain ⟨rfl, rfl, rfl, documents, unmounted, cells, policy, empty, panicked, idle, one, text⟩ :=
    of_decide_eq_true runs
  dsimp only at documents unmounted cells policy empty panicked idle one text
  obtain ⟨history, reached⟩ := Program.flickering.run_account 3 Act.flickering _ _ ran
  have there : (origin.reactor? ⟨0⟩).isSome := by
    obtain ⟨state, found, _⟩ := Option.map_eq_some_iff.mp policy
    rw [found]
    rfl
  have known := World.document?_of_only documents
  obtain ⟨makes, goOn, -, -, presents⟩ := mount_shows_last_render reached there known
    (rfl : Document.empty.contains root = true) (rfl : Document.empty.children root = []) ()
  have fresh : origin.freshMount ⟨0⟩ ⟨0⟩ root () = ⟨⟨1⟩, ⟨0⟩, root, .strict, (), none⟩ := by
    unfold World.freshMount
    rw [cells, policy]
    rfl
  rw [fresh, unmounted] at presents
  obtain ⟨_, account⟩ := makes 3 _ _ mounts
  obtain ⟨later, account'⟩ := goOn 3 Act.flicker _ _ account _ _ acts
  have arranged := (reached.arranged (World.arranged_initial ())).addMount ⟨0⟩ ⟨0⟩ root ()
  have presented := presents _ after account' (account'.undisturbed arranged (World.only_mount one) ⟨0⟩)
  obtain ⟨shown, shows⟩ : ∃ shown, after.Mounted ⟨0⟩ ⟨⟨1⟩, ⟨0⟩, root, .strict, (), shown⟩ :=
    ⟨_, presented.shows⟩
  rw [shows.kept] at text
  obtain rfl : shown = some (.text "on") := Mount.tree_of_showsText (Option.some.inj text)
  refine ⟨origin, made, after, ran, mounts, acts, empty, panicked, shows, fun depth => ?_⟩
  have rests : ∀ effect, after.effect? ⟨1⟩ = some effect → effect.executing = false := by
    intro effect found
    rw [found] at idle
    exact Option.some.inj idle
  obtain ⟨_, ended, unmounts, _, _, _, empties⟩ := presented.unmounts depth rests
  exact ⟨ended, unmounts, empties [] ended .start nofun⟩

end ReactiveTree
