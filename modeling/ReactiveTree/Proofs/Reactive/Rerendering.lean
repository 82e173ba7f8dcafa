import ReactiveTree.Proofs.Reactive.Carrying
import ReactiveTree.Proofs.Reactive.Mounting
import ReactiveTree.Proofs.Reactive.Subscribing

/-! # One run of the effect of a mount, and one unmount

An effect that renders keeps no cleanup. So a run of it goes straight to the render closure, and ends
with what comes of the tree that the closure gives: while the closure runs nothing renders the mount,
and it can be unmounted at most. For the same reason nothing but the library runs in an unmount, which
returns at any depth of nesting.
-/

namespace ReactiveTree

variable {κ ν σ : Type}

variable [BEq ν]

/-- A run that set out from `start` may come to `world`, and this is what mounts have done to documents
on the way, the latest first. -/
abbrev Program.Account (program : Program κ ν σ) (start : World κ ν σ) (repaints : List (Repaint κ ν σ))
    (world : World κ ν σ) : Prop :=
  program.Moment (fun _ => False) start repaints world

variable {program : Program κ ν σ} {busy : NodeId → Prop} {start world after : World κ ν σ}
  {repaints : List (Repaint κ ν σ)} {id : MountId} {mount : Mount κ}

namespace Program.Moment

theorem account (moment : program.Moment busy start repaints world) :
    program.Account start repaints world := by
  induction moment with
  | start => exact .start
  | aside _ same ih => exact ih.aside same
  | newCell _ plain ih => exact ih.newCell plain
  | newDocument _ ih => exact ih.newDocument
  | newMount _ owner document container code ih => exact ih.newMount owner document container code
  | begin _ ready ih => exact ih.begin ready
  | finish _ _ ih => exact ih.finish not_false
  | stop _ id ih => exact ih.stop id
  | takeCleanup _ id ih => exact ih.takeCleanup id
  | rendered _ found ran _ running here executing _ entered ih =>
    exact entered.rendered found ran ih running here executing not_false
  | withdrawn _ stopped ih => exact ih.withdrawn stopped

/-- As long as its effect does not run, or no run of it ends, a mount is unmounted at most. -/
theorem withdraws (moment : program.Moment busy start repaints world) (arranged : start.Arranged)
    (found : start.mount? id = some mount)
    (busily : ∀ {repaints world renderer}, program.Moment busy start repaints world →
      world.renderer? mount.effect = some renderer → renderer.executing = true → busy mount.effect) :
    ∀ repaint ∈ repaints, repaint.mount = id → repaint.Withdraws := by
  induction moment using Program.Moment.recount with
  | begun => exact nofun
  | between _ _ ih => exact ih
  | rendered _ _ _ before running here executing free ih =>
    refine List.forall_mem_cons.mpr ⟨fun own => ?_, ih⟩
    obtain rfl := before.renders_alone arranged found running (here.trans own)
    exact absurd (busily before running executing) free
  | withdrawn _ _ ih => exact List.forall_mem_cons.mpr ⟨fun _ => ⟨_, rfl⟩, ih⟩

/-- An effect that renders goes on to keep no cleanup. -/
theorem bare {effect : NodeId} {renderer : Renderer κ}
    (moment : program.Moment busy start repaints world) (found : start.renderer? effect = some renderer)
    (bare : renderer.cleanup = none) :
    ∃ renderer', world.renderer? effect = some renderer' ∧ renderer'.cleanup = none :=
  moment.keeps_renderer found bare (fun _ held _ _ => held) (fun _ _ held => held)
    (fun _ held => held) fun _ _ => rfl

end Program.Moment

section

variable {effect : NodeId} {renderer : Renderer κ}

omit [BEq ν] in
theorem takeCleanup_of_bare (here : world.renderer? effect = some renderer)
    (bare : renderer.cleanup = none) : (world.takeCleanup effect).1 = none := by
  obtain ⟨state, found, _, _, _, cleanup⟩ := World.effect_of_renderer? here
  unfold World.takeCleanup
  rw [found]
  exact cleanup.trans bare

/-- Where no cleanup is left, the rest of a stop runs no closure. -/
theorem finishStop_bare (program : Program κ ν σ) (busy : NodeId → Prop) (engine : Engine κ ν σ)
    (here : world.renderer? effect = some renderer) (bare : renderer.cleanup = none)
    (ended : ∀ state, world.effect? effect = some state → state.active = false) (owner : ReactorId) :
    ∃ after, finishStop engine effect owner world = some (.ok (), after) ∧
      program.Moment busy world [] after := by
  unfold finishStop
  rw [Run.world_bind]
  split
  next =>
    have retired : program.Moment busy world [] ((world.hold (.reactor owner)).retire effect) :=
      (Program.Moment.start.aside (.hold _ _)).aside (.retire _ effect ended)
    obtain ⟨_, here', bare'⟩ := retired.bare here bare
    have none := takeCleanup_of_bare here' bare'
    refine ⟨_, Run.bind_of_ok (show _ = some (Except.ok (), _) from Run.holding_of ?_) _,
      ((retired.takeCleanup effect).aside (.drop _ (.reactor owner))).aside
        (.record _ (.stopped effect))⟩
    rw [Run.modify_bind, Run.update_bind, none]
    rfl
  next =>
    exact ⟨_, rfl, (Program.Moment.start.takeCleanup effect).aside (.record _ (.stopped effect))⟩

/-- Stopping an effect without a cleanup runs no closure. -/
theorem stopEffect_bare (program : Program κ ν σ) (busy : NodeId → Prop) (engine : Engine κ ν σ)
    (here : world.renderer? effect = some renderer) (bare : renderer.cleanup = none) :
    ∃ ended, stopEffect engine effect world = some (.ok (), ended) ∧
      program.Moment busy world [] ended ∧ ∃ stopped, ended.renderer? effect = some stopped ∧
        stopped.active = false ∧ (renderer.executing = false → stopped.executing = false) := by
  obtain ⟨state, found, _, active, _⟩ := World.effect_of_renderer? here
  cases live : state.active with
  | true =>
    have stopped : (world.modifyEffect effect ({ · with active := false })).renderer? effect =
        some { renderer with active := false } := by
      rw [World.renderer?_active, if_pos rfl, here]
      rfl
    obtain ⟨after, ran, moment⟩ := finishStop_bare program busy engine stopped bare
      (fun _ => World.inactive_deactivate found) state.reactor
    have rests := moment.rests stopped rfl
    exact ⟨after, (stopEffect_of_active engine found live).trans ran,
      (Program.Moment.start.stop effect).trans moment, rests⟩
  | false =>
    exact ⟨world, stopEffect_of_inactive engine found live, .start, renderer, here,
      active.symm.trans live, fun idle => idle⟩

/-- An unmount returns what comes of taking the tree off, and leaves the effect stopped. -/
theorem unmount_bare (program : Program κ ν σ) (busy : NodeId → Prop) (engine : Engine κ ν σ)
    (arranged : world.Arranged) (found : world.mount? id = some mount) :
    ∃ ended, unmount engine id world = some (.ok (ended.withdraw id).1, (ended.withdraw id).2) ∧
      program.Moment busy world [] ended ∧
      program.Moment busy world [ended.withdrawal id] (ended.withdraw id).2 ∧
      ((∀ renderer, world.renderer? mount.effect = some renderer → renderer.executing = false) →
        ∀ renderer, ended.renderer? mount.effect = some renderer → renderer.executing = false) := by
  obtain ⟨renderer, here, _, bare⟩ := arranged.renders id mount found
  obtain ⟨ended, stops, moment, stopped, here', inactive, idle⟩ :=
    stopEffect_bare program busy engine here bare
  refine ⟨ended, ?_, moment, moment.withdrawn fun mount' found' renderer' known => ?_,
    fun rests renderer' known => ?_⟩
  · unfold unmount
    rw [Run.world_bind, found]
    dsimp only
    rw [Run.bind_of_ok stops]
    rfl
  · obtain ⟨kept, known', same⟩ := moment.keeps_mount found
    cases found'.symm.trans known'
    rw [Mount.effect_of_bare same, here'] at known
    cases known
    exact inactive
  · cases here'.symm.trans known
    exact idle (rests renderer here)

end

/-- One run of the effect of a mount: the closure is called in the world `opened` and ends in the world
`left`, and then nothing is left to be done but to receive what it has given. -/
structure Program.Renders (program : Program κ ν σ) (depth : Nat) (id : MountId) (mount : Mount κ)
    (world opened left after : World κ ν σ) (given : Except Panic (Option Tree))
    (during : List (Repaint κ ν σ)) : Prop where
  opens : program.Account world [] opened
  ran : (program.render mount.code).run (activate program depth) opened = some (given, left)
  within : program.Moment (· = mount.effect) opened during left
  closes : program.Account world (left.repaint id given :: during) after
  rests : ∀ renderer, after.renderer? mount.effect = some renderer → renderer.executing = false

omit [BEq ν] in
/-- Without a cleanup nothing is called before the body of an effect. -/
theorem clearEffect_bare {effect : Effect κ} {name : NodeId} (engine : Engine κ ν σ)
    (found : world.effect? name = some effect) (bare : effect.cleanup = none) :
    clearEffect engine name effect world = some (.ok (), world.engage name effect.reactor) := by
  have none : (((world.modifyEffect name ({ · with executing := true })).mapGraph effect.reactor
      (·.unsubscribe name)).takeCleanup name).1 = none := by
    have marked : (world.modifyEffect name ({ · with executing := true })).effect? name =
      some { effect with executing := true } := World.effect?_modifyEffect found _
    show ((World.effect? (World.modifyEffect world name _) name).bind Effect.cleanup) = none
    rw [marked]
    exact bare
  unfold clearEffect
  rw [Run.modify_bind, Run.modify_bind, Run.update_bind, none]
  rfl

/-- A run of an effect up to its body, if no cleanup is due: the reactor is held, and the effect is
marked as running, forgets what it has read and enters its frame. -/
def World.openRun (world : World κ ν σ) (name : NodeId) (owner : ReactorId) : World κ ν σ :=
  ((world.hold (.reactor owner)).engage name owner).enterBody name owner

omit [BEq ν] in
theorem World.renderer?_openRun {name : NodeId} {renderer : Renderer κ}
    (here : world.renderer? name = some renderer) (owner : ReactorId) :
    (world.openRun name owner).renderer? name =
      some { renderer with executing := true, cleanup := none } := by
  obtain ⟨effect, found, body, active, _⟩ := World.effect_of_renderer? here
  have held : (world.hold (.reactor owner)).effect? name = some effect := found
  rw [← active]
  exact World.renderer?_of_render (World.effect?_eq_some_iff.mpr (World.cell?_engage held)) body

theorem openRun_account {name : NodeId} {renderer : Renderer κ}
    (here : world.renderer? name = some renderer) (active : renderer.active = true)
    (idle : renderer.executing = false) (owner : ReactorId) :
    program.Account world [] (world.openRun name owner) := by
  have begun : program.Account world [] ((world.hold (.reactor owner)).modifyEffect name
      ({ · with executing := true })) :=
    (Program.Moment.start.aside (.hold world _)).begin fun renderer' here' => by
      cases here.symm.trans here'
      exact ⟨active, idle⟩
  exact (((begun.aside (.unsubscribe _ owner name)).takeCleanup name).aside
    (.record _ (.started name))).aside (.pushFrame _ owner (.tracked name))

omit [BEq ν] in
/-- A failure of a render is reported, and no closure is called for it. -/
theorem settleRun_offstage (engine : Engine κ ν σ) (name : NodeId) (effect : Effect κ)
    (outcome : Repaint.Outcome) (world : World κ ν σ) :
    (settleRun engine name effect outcome.result).Ends world fun _ after => world.Offstage after := by
  cases outcome with
  | shown | withdrawn =>
    rintro _ _ ⟨⟩
    exact .refl world
  | refused | panicked =>
    rintro _ _ ⟨⟩
    exact .report world effect.reactor _

/-- A run of the effect of a mount calls its render closure once. -/
theorem execute_renders {depth : Nat} {effect : Effect κ} {result : Except Panic Unit}
    (arranged : world.Arranged) (found : world.mount? id = some mount)
    (known : world.effect? mount.effect = some effect) (active : effect.active = true)
    (idle : effect.executing = false) (alive : world.isAlive effect.reactor = true)
    (ran : activate program (depth + 1) (.execute mount.effect) world = some (result, after)) :
    ∃ opened given left during,
      program.Renders depth id mount world opened left after given during := by
  obtain ⟨-, middle, told, ended, last, parts, rfl⟩ := of_activate_execute known active idle alive ran
  obtain ⟨renderer, here, own, bare⟩ := arranged.renders id mount found
  obtain ⟨effect', known', body, active', executing', cleanup'⟩ := World.effect_of_renderer? here
  cases known.symm.trans known'
  rw [own] at body
  -- Before the closure nothing is called.
  have held : (world.hold (.reactor effect.reactor)).effect? mount.effect = some effect := known
  obtain ⟨⟩ := (clearEffect_bare (activate program depth) held (cleanup'.trans bare)).symm.trans
    parts.cleared
  obtain ⟨_, inner, same, inside, rfl⟩ := of_runBody parts.ran
  cases same
  have opens : program.Account world [] (world.openRun mount.effect effect.reactor) :=
    openRun_account here (active'.symm.trans active) (executing'.symm.trans idle) effect.reactor
  have found' : (world.openRun mount.effect effect.reactor).mount? id = some mount := found
  obtain ⟨given, left, rendered, rfl, rfl⟩ := of_effectAct_render body found' inside
  -- The effect is marked as running until the closure ends.
  have works : (world.openRun mount.effect effect.reactor).Works (· = mount.effect) := by
    rintro _ rfl
    exact ⟨_, World.renderer?_openRun here effect.reactor, rfl⟩
  have carries : program.Carries (activate program depth) := activate_carries program depth
  obtain ⟨during, within⟩ := Act.run_comes carries works (program.render mount.code) _ ⟨[], .start⟩
    _ _ rendered
  obtain ⟨renderer', here', own', executing'⟩ : ∃ renderer', left.renderer? mount.effect =
      some renderer' ∧ renderer'.mount = id ∧ renderer'.executing = true :=
    within.keeps_renderer (World.renderer?_openRun here effect.reactor) ⟨own, rfl⟩
      (fun _ held _ _ => ⟨held.1, rfl⟩) (fun free => absurd rfl free) (fun _ held => held)
      fun _ held => held
  have received : program.Account world (left.repaint id given :: during) (left.receive id given).2 := by
    have before := opens.trans within.account
    rw [List.append_nil] at before
    exact opens.rendered found' rendered before here' own' executing' not_false
  -- What follows changes no document and calls nothing.
  have settled := settleRun_offstage _ _ _ _ _ _ _ parts.settled
  refine ⟨_, given, left, during, opens, rendered, within,
    (((received.aside (.leaveRun _ mount.effect effect.reactor _)).aside settled).finish not_false).aside
      (.drop _ (.reactor effect.reactor)), fun renderer'' known'' => ?_⟩
  rw [World.renderer?_of_display (World.Offstage.drop _ (.reactor effect.reactor)).display,
    World.endRun, World.renderer?_executing, if_pos rfl] at known''
  obtain ⟨_, _, rfl⟩ := Option.map_eq_some_iff.mp known''
  rfl

end ReactiveTree
