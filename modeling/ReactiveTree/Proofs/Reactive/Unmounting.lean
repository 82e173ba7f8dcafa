import ReactiveTree.Proofs.Reactive.Presenting

/-! # Unmounting

An unmount stops the effect of a mount and takes the tree off its container, wherever it is called
from. If the effect does not run then, the container stays empty for good. If it does, the render
closure is still to end: until then the container is empty, and what the closure gives is brought onto
the document although the mount is gone, and stays there.
-/

namespace ReactiveTree

open Document

variable {κ ν σ : Type}

/-- What a mount shows after a render, if it has shown nothing before. -/
def Mount.soleRender (mount : Mount κ) : Except Panic (Option Tree) → Option Tree
  | .ok tree => if (checkTree mount.policy tree).defect = none then tree else none
  | .error _ => none

variable {id : MountId} {mount : Mount κ} {tree : Option Tree} {repaints : List (Repaint κ ν σ)}

/-- A mount that has been unmounted, and was not rendered since, shows nothing. -/
theorem lastShown_of_withdrawn {gone : Repaint κ ν σ} (member : gone ∈ repaints) (own : gone.mount = id)
    (withdraws : ∀ repaint ∈ repaints, repaint.mount = id → repaint.Withdraws) :
    lastShown id tree repaints = none := by
  obtain ⟨newer, older, rfl⟩ := List.append_of_mem member
  obtain ⟨result, outcome⟩ := withdraws gone member own
  have shows : gone.shows id = some none := by
    unfold Repaint.shows
    rw [if_pos own, outcome]
  rw [lastShown_append, lastShown_cons, shows]
  exact lastShown_none fun repaint newly => withdraws repaint (List.mem_append_left _ newly)

/-- What a render comes to on a mount does not depend on what it shows. -/
theorem World.Mounted.soleRender {world : World κ ν σ} (mounted : world.Mounted id { mount with tree })
    (given : Except Panic (Option Tree)) :
    ((world.repaint id given).shows id).getD none = mount.soleRender given := by
  cases given with
  | error panic =>
    have fails : ∀ tree, Except.error panic = .ok tree → ¬ ValidTree mount.policy tree :=
      fun _ same => nomatch same
    rw [(mounted.spares_repaint fails).1]
    rfl
  | ok next =>
    show _ = if (checkTree mount.policy next).defect = none then next else none
    split
    next sound =>
      rw [mounted.shows_repaint ((checkTree_defect _ _).mp sound)]
      rfl
    next defect =>
      have invalid : ¬ ValidTree mount.policy next := fun valid =>
        defect ((checkTree_defect _ _).mpr valid)
      rw [(mounted.spares_repaint fun other same => Except.ok.inj same ▸ invalid).1]
      rfl

section

variable [BEq ν]

/-- What an unmount leads to, which was called in one world and returned in another. -/
structure Program.Vacates (program : Program κ ν σ) (id : MountId) (mount : Mount κ)
    (called returned : World κ ν σ) : Prop where
  /-- The container is empty, and stays empty as long as no run of the effect ends. -/
  pending : ∀ later final, program.Moment (· = mount.effect) returned later final →
    Undisturbed id mount.document later → final.Vacant mount.document mount.container
  /-- If the effect runs, this holds of every act that is run before the render closure ends. -/
  within : ∀ effect, called.effect? mount.effect = some effect → effect.executing = true →
    ∀ {α : Type} depth (act : Act κ ν σ α), (program.run depth act).Ends returned fun _ final =>
      ∃ later, program.Moment (· = mount.effect) returned later final
  /-- If the effect does not run, the container stays empty for good. -/
  final : (∀ effect, called.effect? mount.effect = some effect → effect.executing = false) →
    ∀ later final, program.Account returned later final →
      Undisturbed id mount.document later → final.Vacant mount.document mount.container

/-- What an unmount leads to that was called while the render closure ran: the closure ends in the
world `left`, and the run of the effect in the world `after`. -/
structure Program.Outlasts (program : Program κ ν σ) (id : MountId) (mount : Mount κ)
    (given : Except Panic (Option Tree)) (left after : World κ ν σ) : Prop where
  vacant : left.Vacant mount.document mount.container
  /-- What the closure gives is shown from then on, until the mount is unmounted again. -/
  shows : ∀ later final, program.Account after later final → Undisturbed id mount.document later →
    (∀ repaint ∈ later, repaint.mount = id → repaint.Withdraws) ∧
      final.Mounted id { mount with tree := lastShown id (mount.soleRender given) later }

variable {program : Program κ ν σ} {start world opened left after : World κ ν σ}
  {during : List (Repaint κ ν σ)} {depth : Nat} {given : Except Panic (Option Tree)}

namespace Program.Account

variable (account : program.Account start repaints world) (fresh : start.Fresh id mount)
  (undisturbed : Undisturbed id mount.document repaints)

include account fresh undisturbed

theorem vacates (depth : Nat) : ∃ returned,
    program.run depth (.call (.unmount id)) world = some (.ok (.ok ()), returned) ∧
      program.Vacates id mount world returned := by
  obtain ⟨ended, ran, gone, idle⟩ := account.unmounts fresh undisturbed (· = mount.effect) depth
  have whole := account.trans gone.account
  refine ⟨(ended.withdraw id).2, ran, fun later final onward calm => ?_,
    fun effect found executing _ depth act => ?_, fun rests later final onward calm => ?_⟩
  · obtain ⟨kept, found, bare⟩ := whole.keeps_mount fresh.mounted.kept
    have withdraws := onward.withdraws (whole.arranged fresh.arranged) found
      fun _ _ _ => Mount.effect_of_bare bare
    have since := account.mounted_since fresh undisturbed gone.account onward.account calm
    rw [lastShown_none withdraws] at since
    exact since.vacant
  · -- The suspended run of the effect is still going on.
    obtain ⟨kept, found', bare⟩ := account.keeps_mount fresh.mounted.kept
    obtain ⟨renderer, here, _⟩ := (account.arranged fresh.arranged).renders id kept found'
    rw [Mount.effect_of_bare bare] at here
    obtain ⟨_, found', _, _, same, _⟩ := World.effect_of_renderer? here
    cases found.symm.trans found'
    have works : (ended.withdraw id).2.Works (· = mount.effect) := by
      rintro _ rfl
      exact gone.keeps_renderer here (same.symm.trans executing) (fun _ _ _ _ => rfl)
        (fun free => absurd rfl free) (fun _ held => held) fun _ held => held
    intro result final acts
    exact Act.run_comes (activate_carries program depth) works act _ ⟨[], .start⟩ result final acts
  · exact (account.mounted_none fresh undisturbed gone.account onward calm (idle rests)).vacant

theorem outlasts (renders : program.Renders depth id mount world opened left after given during)
    (calm : Undisturbed id mount.document during) {gone : Repaint κ ν σ} (member : gone ∈ during)
    (own : gone.mount = id) : program.Outlasts id mount given left after := by
  have withdraws := account.passive fresh renders
  have bare : lastShown id none (during ++ repaints) = none := by
    rw [lastShown_append]
    exact lastShown_of_withdrawn member own withdraws
  have closing := account.mounted_left fresh undisturbed renders calm
  have ended : program.Account start (left.repaint id given :: (during ++ repaints)) after :=
    account.trans renders.closes
  refine ⟨?_, fun later final onward calm' => ⟨?_, ?_⟩⟩
  · rw [bare] at closing
    exact closing.vacant
  · -- The effect was stopped, and its run is over.
    obtain ⟨kept, found, same⟩ := ended.keeps_mount fresh.mounted.kept
    obtain ⟨stopped, there, inactive, idle⟩ := account.ended fresh renders member own
    refine onward.withdraws (ended.arranged fresh.arranged) found fun moment here executing => ?_
    obtain ⟨_, here', _, still⟩ := moment.rests there inactive
    rw [Mount.effect_of_bare same, here'] at here
    cases here
    exact Bool.noConfusion ((still idle).symm.trans executing)
  · have whole : program.Account start (later ++ left.repaint id given :: (during ++ repaints)) final :=
      ended.trans onward
    have shown := (whole.presents fresh (calm'.append ((calm.append undisturbed).cons rfl))).1
    rwa [lastShown_append, lastShown_cons, bare, closing.soleRender given] at shown

end Program.Account

/-- In every run in which only the mount changes its container, an unmount returns wherever it is called
from, and leaves the container empty: for good if the effect of the mount does not run, and otherwise
until its render closure ends. What the closure gives then is shown, although the mount is gone, and
nothing is rendered after it. -/
theorem unmount_vacates {user : σ} {history : List (Repaint κ ν σ)} {origin : World κ ν σ}
    {owner : ReactorId} {document : DocumentId} {container : HostId} {page : Document}
    (reached : program.Account (World.initial user) history origin)
    (there : (origin.reactor? owner).isSome) (known : origin.document? document = some page)
    (inside : page.contains container = true) (bare : page.children container = []) (code : κ) :
    (∀ depth, (program.run depth (.call (.mount owner document container code))).Ends origin
      fun _ after => ∃ repaints,
        program.Account (origin.addMount owner document container code) repaints after) ∧
    (∀ {α : Type} depth (act : Act κ ν σ α) repaints world,
      program.Account (origin.addMount owner document container code) repaints world →
      (program.run depth act).Ends world fun _ after => ∃ later,
        program.Account (origin.addMount owner document container code) (later ++ repaints) after) ∧
    ∀ repaints world, program.Account (origin.addMount owner document container code) repaints world →
      Undisturbed ⟨origin.mounts.length⟩ document repaints →
        let mount := origin.freshMount owner document container code
        (∀ depth, ∃ returned,
          program.run depth (.call (.unmount ⟨origin.mounts.length⟩)) world =
            some (.ok (.ok ()), returned) ∧
          program.Vacates ⟨origin.mounts.length⟩ mount world returned) ∧
        ∀ depth effect result after, world.effect? mount.effect = some effect →
          effect.active = true → effect.executing = false → world.isAlive effect.reactor = true →
          activate program (depth + 1) (.execute mount.effect) world = some (result, after) →
          ∃ opened given left during,
            program.Renders depth ⟨origin.mounts.length⟩ mount world opened left after given during ∧
              ∀ gone ∈ during, gone.mount = ⟨origin.mounts.length⟩ →
                Undisturbed ⟨origin.mounts.length⟩ document during →
                  program.Outlasts ⟨origin.mounts.length⟩ mount given left after := by
  have fresh := World.fresh_addMount (reached.arranged (World.arranged_initial user)) there known
    inside bare code
  refine ⟨mount_account origin owner document container code,
    fun depth act repaints world account => account.run depth act,
    fun repaints world account undisturbed => ⟨account.vacates fresh undisturbed,
      fun depth effect result after found active idle alive ran => ?_⟩⟩
  obtain ⟨opened, given, left, during, renders⟩ :=
    account.renders fresh undisturbed found active idle alive ran
  exact ⟨opened, given, left, during, renders, fun gone member own calm =>
    account.outlasts fresh undisturbed renders calm member own⟩

end

/-- A mount that shows a text, and unmounts itself as soon as the signal it reads is two. -/
def Program.vanishing : Program Unit Nat Unit where
  compute _ := .pure 0
  effect _ := .pure (.ok none)
  cleanup _ := .pure ()
  callback _ _ := .pure ()
  render _ := .bind (.call (.get ⟨0⟩)) fun value =>
    if value = 2 then
      .bind (.call (.unmount ⟨0⟩)) fun result => .bind (.call (.note (if result.isOk then 1 else 0)))
        fun _ => .pure (some (.text "on"))
    else .pure (some (.text "on"))
  handler _ := .pure ()

/-- Make a signal of one and the document. -/
def Act.vanishing : Act Unit Nat Unit Unit :=
  .bind (.call (.newReactor {})) fun _ => .bind (.call (.newSignal ⟨0⟩ 1)) fun _ =>
    .bind (.call .newDocument) fun _ => .pure ()

/-- Make a mount, and let it unmount itself. -/
def Act.vanish : Act Unit Nat Unit Unit :=
  .bind .vanishing fun _ => .bind (.call (.mount ⟨0⟩ ⟨0⟩ root ())) fun _ => .call (.set ⟨0⟩ 2)

/-- The unmount has returned, the effect is stopped, and the text is there all the same. -/
theorem shown_after_unmount : ∃ world page,
    Program.vanishing.run 3 .vanish (World.initial ()) = some (.ok (), world) ∧
    world.mounts.length = 1 ∧ .note 1 ∈ world.past ∧
    (world.effect? ⟨1⟩).map (fun effect => (effect.active, effect.executing)) = some (false, false) ∧
    world.document? ⟨0⟩ = some page ∧ page.children root ≠ [] := by
  have runs : (Program.vanishing.run 3 .vanish (World.initial ())).map (fun reached =>
      decide (reached.1 = .ok () ∧ reached.2.mounts.length = 1 ∧ .note 1 ∈ reached.2.past ∧
        (reached.2.effect? ⟨1⟩).map (fun effect => (effect.active, effect.executing)) =
          some (false, false) ∧
        (reached.2.document? ⟨0⟩).isSome ∧
        (reached.2.document? ⟨0⟩).map (·.children root) ≠ some [])) = some true := by
    decide +kernel
  obtain ⟨⟨_, world⟩, ran, holds⟩ := Option.map_eq_some_iff.mp runs
  obtain ⟨rfl, only, returned, stopped, there, shown⟩ := of_decide_eq_true holds
  obtain ⟨page, known⟩ := Option.isSome_iff_exists.mp there
  refine ⟨world, page, ran, only, returned, stopped, known, fun bare => shown ?_⟩
  rw [known]
  exact congrArg some bare

/-- An unmount from outside is final: the signal may turn to two, and nothing is shown. -/
theorem unmount_vacates_vanishing : ∃ origin made gone after : World Unit Nat Unit,
    Program.vanishing.run 3 Act.vanishing (World.initial ()) = some (.ok (), origin) ∧
    Program.vanishing.run 3 (.call (.mount ⟨0⟩ ⟨0⟩ root ())) origin = some (.ok ⟨0⟩, made) ∧
    (made.document? ⟨0⟩).map (·.children root) ≠ some [] ∧
    Program.vanishing.run 3 (.call (.unmount ⟨0⟩)) made = some (.ok (.ok ()), gone) ∧
    Program.vanishing.run 3 (.call (.set ⟨0⟩ 2)) gone = some (.ok (), after) ∧
    after.Vacant ⟨0⟩ root := by
  have runs : ((Program.vanishing.run 3 Act.vanishing (World.initial ())).bind fun origin =>
      (Program.vanishing.run 3 (.call (.mount ⟨0⟩ ⟨0⟩ root ())) origin.2).bind fun made =>
        (Program.vanishing.run 3 (.call (.unmount ⟨0⟩)) made.2).bind fun gone =>
          (Program.vanishing.run 3 (.call (.set ⟨0⟩ 2)) gone.2).map fun after =>
            decide (origin.1 = .ok () ∧ made.1 = .ok ⟨0⟩ ∧ after.1 = .ok () ∧
              origin.2.documents = [.empty] ∧ origin.2.mounts.length = 0 ∧
              origin.2.cells.length = 1 ∧ (origin.2.reactor? ⟨0⟩).isSome ∧
              made.2.mounts.length = 1 ∧
              (made.2.document? ⟨0⟩).map (·.children root) ≠ some [] ∧
              (made.2.effect? ⟨1⟩).map Effect.executing = some false ∧
              after.2.mounts.length = 1)) = some true := by
    decide +kernel
  obtain ⟨⟨_, origin⟩, ran, runs⟩ := Option.bind_eq_some_iff.mp runs
  obtain ⟨⟨_, made⟩, mounts, runs⟩ := Option.bind_eq_some_iff.mp runs
  obtain ⟨⟨_, gone⟩, unmounts, runs⟩ := Option.bind_eq_some_iff.mp runs
  obtain ⟨⟨_, after⟩, sets, runs⟩ := Option.map_eq_some_iff.mp runs
  obtain ⟨rfl, rfl, rfl, documents, unmounted, cells, there, one, shown, idle, still⟩ :=
    of_decide_eq_true runs
  dsimp only at documents unmounted cells there one shown idle still
  obtain ⟨history, reached⟩ := Program.vanishing.run_account 3 Act.vanishing _ _ ran
  have known := World.document?_of_only documents
  obtain ⟨makes, goOn, vacates⟩ := unmount_vacates reached there known
    (rfl : Document.empty.contains root = true) (rfl : Document.empty.children root = []) ()
  have arranged := (reached.arranged (World.arranged_initial ())).addMount ⟨0⟩ ⟨0⟩ root ()
  obtain ⟨repaints, account⟩ := makes 3 _ _ mounts
  have undisturbed := account.undisturbed arranged (World.only_mount one) ⟨0⟩
  rw [unmounted] at vacates
  obtain ⟨returned, ran', empties⟩ := (vacates repaints made account undisturbed).1 3
  obtain ⟨⟩ := ran'.symm.trans unmounts
  have rests : ∀ effect, made.effect? ⟨origin.cells.length⟩ = some effect →
      effect.executing = false := by
    intro effect found
    rw [cells] at found
    rw [found] at idle
    exact Option.some.inj idle
  -- The signal is set after the unmount.
  obtain ⟨since, departed⟩ := goOn 3 (.call (.unmount ⟨0⟩)) _ _ account _ _ unmounts
  obtain ⟨later, onward⟩ := Program.vanishing.run_account 3 (.call (.set ⟨0⟩ 2)) _ _ sets
  have calm := onward.undisturbed (departed.arranged arranged) (World.only_mount still) ⟨0⟩
  exact ⟨origin, made, gone, after, ran, mounts, shown, unmounts, sets,
    empties.final rests _ after onward calm⟩

end ReactiveTree
