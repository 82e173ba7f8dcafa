import ReactiveTree.Proofs.Reactive.Moments
import ReactiveTree.Proofs.Reactive.Releasing
import ReactiveTree.Proofs.Reactive.Tracking

/-! # Acts lead from moments to moments

Whatever acts are run, at whatever depth, in closures or outside: from a moment of a run they lead to
later moments of it. This goes by the operations of the library, one by one, as long as nested
activations do the same, and then by induction on the depth. An effect that renders is the one case
that takes other steps than the display leaves unseen: its run begins, its closure ends, and its run
ends, unless it is one of those that go on running throughout.
-/

namespace ReactiveTree

variable {κ ν σ α β : Type}

theorem World.isEngaged_of_renderer? {world : World κ ν σ} {id : NodeId} {renderer : Renderer κ}
    (found : world.renderer? id = some renderer) : world.isEngaged id = renderer.executing := by
  obtain ⟨effect, present, _, _, same, _⟩ := World.effect_of_renderer? found
  unfold World.isEngaged
  rw [World.effect?_eq_some_iff.mp present]
  exact same

/-- What stopping does once an effect is marked as stopped. -/
def finishStop (engine : Engine κ ν σ) (id : NodeId) (owner : ReactorId) : Run κ ν σ Unit := do
  let world ← Run.world
  if world.isAlive owner then
    Run.holding (.reactor owner) do
      Run.modify (·.retire id)
      match ← Run.update (·.takeCleanup id) with
      | some code => engine (.cleanUp id code)
      | none => return
  else
    let _ ← Run.update (·.takeCleanup id)
  Run.modify (·.record (.stopped id))

theorem stopEffect_of_active {world : World κ ν σ} {id : NodeId} {effect : Effect κ}
    (engine : Engine κ ν σ) (found : world.effect? id = some effect) (active : effect.active = true) :
    stopEffect engine id world =
      finishStop engine id effect.reactor (world.modifyEffect id ({ · with active := false })) := by
  unfold stopEffect
  rw [Run.world_bind, found]
  dsimp only
  rw [active, Bool.not_true, if_neg Bool.false_ne_true, Run.modify_bind]
  rfl

theorem stopEffect_of_inactive {world : World κ ν σ} {id : NodeId} {effect : Effect κ}
    (engine : Engine κ ν σ) (found : world.effect? id = some effect) (ended : effect.active = false) :
    stopEffect engine id world = some (.ok (), world) := by
  unfold stopEffect
  rw [Run.world_bind, found]
  dsimp only
  rw [ended, Bool.not_false, if_pos rfl]
  rfl

theorem World.inactive_deactivate {world : World κ ν σ} {id : NodeId} {effect stopped : Effect κ}
    (found : world.effect? id = some effect)
    (found' : (world.modifyEffect id ({ · with active := false })).effect? id = some stopped) :
    stopped.active = false := by
  rw [World.effect?_deactivate found] at found'
  cases found'
  rfl

variable [BEq ν]

/-- A run that set out from `start` may come to this world. -/
def Program.Comes (program : Program κ ν σ) (busy : NodeId → Prop) (start world : World κ ν σ) :
    Prop :=
  ∃ repaints, program.Moment busy start repaints world

section

variable {program : Program κ ν σ} {busy : NodeId → Prop} {start : World κ ν σ}

namespace Program.Comes

variable {world after : World κ ν σ}

theorem aside (comes : program.Comes busy start world) (same : world.Offstage after) :
    program.Comes busy start after := by
  obtain ⟨repaints, moment⟩ := comes
  exact ⟨repaints, moment.aside same⟩

theorem newCell (comes : program.Comes busy start world) {cell : Cell κ ν}
    (plain : cell.renderer? = none) : program.Comes busy start (world.addCell cell cell.kind).2 := by
  obtain ⟨repaints, moment⟩ := comes
  exact ⟨repaints, moment.newCell plain⟩

theorem finish (comes : program.Comes busy start world) {id : NodeId} (free : ¬ busy id) :
    program.Comes busy start (world.modifyEffect id ({ · with executing := false })) := by
  obtain ⟨repaints, moment⟩ := comes
  exact ⟨repaints, moment.finish free⟩

theorem begin (comes : program.Comes busy start world) {id : NodeId}
    (ready : ∀ renderer, world.renderer? id = some renderer →
      renderer.active = true ∧ renderer.executing = false) :
    program.Comes busy start (world.modifyEffect id ({ · with executing := true })) := by
  obtain ⟨repaints, moment⟩ := comes
  exact ⟨repaints, moment.begin ready⟩

theorem stop (comes : program.Comes busy start world) (id : NodeId) :
    program.Comes busy start (world.modifyEffect id ({ · with active := false })) := by
  obtain ⟨repaints, moment⟩ := comes
  exact ⟨repaints, moment.stop id⟩

theorem takeCleanup (comes : program.Comes busy start world) (id : NodeId) :
    program.Comes busy start (world.takeCleanup id).2 := by
  obtain ⟨repaints, moment⟩ := comes
  exact ⟨repaints, moment.takeCleanup id⟩

theorem newDocument (comes : program.Comes busy start world) :
    program.Comes busy start { world with documents := world.documents ++ [.empty] } := by
  obtain ⟨repaints, moment⟩ := comes
  exact ⟨repaints, moment.newDocument⟩

theorem withdrawn (comes : program.Comes busy start world) {id : MountId}
    (stopped : ∀ mount, world.mount? id = some mount →
      ∀ renderer, world.renderer? mount.effect = some renderer → renderer.active = false) :
    program.Comes busy start (world.withdraw id).2 := by
  obtain ⟨repaints, moment⟩ := comes
  exact ⟨_, moment.withdrawn stopped⟩

end Program.Comes

namespace Run

theorem Keeps.offstage {change : World κ ν σ → World κ ν σ}
    (same : ∀ world : World κ ν σ, world.Offstage (change world)) :
    Keeps (program.Comes busy start) (Run.modify change) :=
  .modify fun world comes => comes.aside (same world)

theorem Keeps.held {handle : Handle} {body : Run κ ν σ α}
    (keeps : Keeps (program.Comes busy start) body) :
    Keeps (program.Comes busy start) (Run.holding handle body) :=
  keeps.holding (fun world comes => comes.aside (.hold world handle))
    fun world comes => comes.aside (.drop world handle)

end Run

/-- What carries activations out comes from moments to moments. -/
def Program.Carries (program : Program κ ν σ) (engine : Engine κ ν σ) : Prop :=
  ∀ {busy : NodeId → Prop} {start : World κ ν σ}, start.Works busy →
    ∀ activation, Run.Keeps (program.Comes busy start) (engine activation)

section

variable {engine : Engine κ ν σ} (carries : program.Carries engine) (works : start.Works busy)

include carries works

theorem readComputed_comes (id : NodeId) :
    Run.Keeps (program.Comes busy start) (readComputed engine id) := by
  refine (carries works (.refresh id)).bind fun _ => Run.Keeps.world_bind fun world comes => ?_
  split
  next value _ => exact Run.Keeps.pure value world comes
  next => exact Run.Keeps.raise _ world comes

theorem readNode_comes (id : NodeId) (tracked : Bool) :
    Run.Keeps (program.Comes busy start) (readNode engine id tracked) := by
  refine Run.Keeps.world_bind fun world comes => ?_
  split
  next signal _ =>
    refine (requireLive_ends signal id "read" world).bind (fun _ after same => ?_)
      fun _ after same => same ▸ comes
    subst same
    cases tracked with
    | false => exact Run.Keeps.pure signal.value after comes
    | true => exact Run.Keeps.pure signal.value _ (comes.aside (.noteRead after _ id))
  next computed _ =>
    cases tracked with
    | false => exact readComputed_comes carries works id world comes
    | true =>
      exact readComputed_comes carries works id _ (comes.aside (.noteRead world _ id))
  next => exact Run.Keeps.raise _ world comes

theorem tryComputed_comes (id : NodeId) :
    Run.Keeps (program.Comes busy start) (tryComputed engine id) := by
  refine (readNode_comes carries works id true).attempt.bind fun result => ?_
  cases result with
  | ok value => exact Run.Keeps.pure _
  | error panic => exact Run.Keeps.pure _

theorem anyChanged_comes (owner : ReactorId) (inputs : List (NodeId × Nat)) :
    Run.Keeps (program.Comes busy start) (anyChanged engine owner inputs) := by
  induction inputs with
  | nil => exact Run.Keeps.pure _
  | cons entry rest ih =>
    refine (carries works (.refresh entry.1)).attempt.bind fun result => ?_
    cases result with
    | error panic => exact Run.Keeps.pure _
    | ok _ =>
      refine Run.Keeps.world_bind fun world comes => ?_
      split
      next => exact Run.Keeps.pure _ world comes
      next => exact ih world comes

theorem needsRun_comes (owner : ReactorId) (effect : NodeId) :
    Run.Keeps (program.Comes busy start) (needsRun engine owner effect) :=
  Run.Keeps.world_bind fun world comes => anyChanged_comes carries works owner _ world comes

theorem runVisited_comes (owner : ReactorId) (entry : Visit) :
    Run.Keeps (program.Comes busy start)
      (Run.modify (·.modifyReactor owner (·.pushChain entry.wakeup.causes)) >>= fun _ =>
        (engine (.execute entry.wakeup.effect)).thenAlways
          (Run.modify (·.modifyReactor owner Reactor.popChain))) :=
  .bind (.offstage fun world => .pushChain world owner _) fun _ =>
    .thenAlways (carries works (.execute entry.wakeup.effect))
      (.offstage fun world => .popChain world owner)

theorem visit_comes (owner : ReactorId) (entry : Visit) :
    Run.Keeps (program.Comes busy start) (visit engine owner entry) := by
  refine Run.Keeps.world_bind fun world comes => ?_
  dsimp only
  split
  next => exact Run.Keeps.pure () world comes
  next effect _ =>
    split
    next => exact Run.Keeps.pure () world comes
    next =>
      split
      next => exact Run.Keeps.offstage (fun world => .resubscribe world owner _) world comes
      next =>
        split
        next => exact Run.Keeps.pure () world comes
        next =>
          split
          next => exact runVisited_comes carries works owner entry world comes
          next =>
            refine ((needsRun_comes carries works owner entry.wakeup.effect).bind fun wanted => ?_)
              world comes
            split
            next => exact runVisited_comes carries works owner entry
            next => exact Run.Keeps.pure ()

theorem notify_comes (owner : ReactorId) (sources : List NodeId) :
    Run.Keeps (program.Comes busy start) (notify engine owner sources) := by
  refine .bind (.offstage fun world => .record world _) fun _ =>
    .bind (.update fun world comes => comes.aside (.planPass world owner sources)) fun visits => ?_
  refine .bind (.offstage fun world => .foldl_hold visits _ world) fun _ => ?_
  refine .bind (.forEach fun entry => ?_) fun _ => .offstage fun world => .record world _
  exact (visit_comes carries works owner entry).thenAlways (.offstage fun world => .drop world _)

theorem storeValue_comes (owner : ReactorId) (id : NodeId) (value : ν) :
    Run.Keeps (program.Comes busy start) (storeValue engine owner id value) := by
  refine .bind (.offstage fun world => .put world owner id value) fun _ =>
    .world_bind fun world comes => ?_
  split
  next => exact Run.Keeps.pure () world comes
  next =>
    split
    next => exact Run.Keeps.offstage (fun world => .postpone world owner id) world comes
    next => exact notify_comes carries works owner [id] world comes

theorem writeSignal_comes (id : NodeId) (value : ν) :
    Run.Keeps (program.Comes busy start) (writeSignal engine id value) := by
  refine Run.Keeps.world_bind fun world comes => ?_
  split
  next => exact Run.Keeps.raise _ world comes
  next signal _ =>
    refine (requireLive_ends signal id "write" world).bind (fun _ after same => ?_)
      fun _ after same => same ▸ comes
    subst same
    have noted := comes.aside (.noteWrite after signal.reactor id)
    refine .of_modify (.of_world ?_)
    dsimp only
    split
    next => exact Run.Keeps.pure () _ noted
    next =>
      split
      next => exact Run.Keeps.offstage (fun world => .record world _) _ noted
      next => exact storeValue_comes carries works signal.reactor id value _ noted

theorem closeBatch_comes (owner : ReactorId) :
    Run.Keeps (program.Comes busy start) (closeBatch engine owner) := by
  refine .bind (.update fun world comes => ?_) fun pending => ?_
  · exact comes.aside (.closeBatch world owner)
  · split
    next => exact notify_comes carries works owner pending
    next => exact Run.Keeps.pure ()

theorem newComputed_comes (owner : ReactorId) (body : κ) :
    Run.Keeps (program.Comes busy start) (newComputed engine owner body) := by
  refine .bind (.update fun world comes =>
    (comes.aside (.hold world (.reactor owner))).newCell rfl) fun id =>
      .bind (carries works (.refresh id)).attempt fun result => ?_
  cases result with
  | ok _ => exact Run.Keeps.pure _
  | error panic => exact .bind (.offstage fun world => .report world _ _) fun _ => .pure _

/-- An effect that is made and perhaps run at once. -/
theorem newEffect_comes (owner : ReactorId) {body : EffectBody κ}
    (plain : ∀ mount, body ≠ .render mount) (eager : Bool) :
    Run.Keeps (program.Comes busy start) (newEffect engine owner body eager) := by
  have bare : (Cell.effect ⟨owner, body, false, none, true, false, 0, 2⟩ : Cell κ ν).renderer? =
      none := by
    cases body with
    | render mount => exact absurd rfl (plain mount)
    | _ => rfl
  refine .bind (.update fun world comes => comes.newCell bare) fun id => ?_
  cases eager with
  | false => exact Run.Keeps.pure _
  | true => exact .bind (carries works (.execute id)) fun _ => .pure _

omit [BEq ν] carries works in
/-- Making a mount leads to the first run of its effect. -/
theorem newMount_eq (engine : Engine κ ν σ) (owner : ReactorId) (document : DocumentId)
    (container : HostId) (code : κ) (world : World κ ν σ) :
    newMount engine owner document container code world =
      (engine (.execute ⟨world.cells.length⟩) >>= fun _ => pure ⟨world.mounts.length⟩)
        (world.addMount owner document container code) := by
  unfold newMount newEffect
  simp only [Run.world_bind, Run.modify_bind, bind_assoc, Run.update_bind, if_true, pure_bind]
  rfl

theorem newMount_comes (owner : ReactorId) (document : DocumentId) (container : HostId) (code : κ) :
    Run.Keeps (program.Comes busy start) (newMount engine owner document container code) := by
  rintro world ⟨repaints, moment⟩
  unfold Run.Ends
  rw [newMount_eq]
  exact Run.Keeps.bind (carries works (.execute _)) (fun _ => .pure _) _
    ⟨repaints, moment.newMount owner document container code⟩

theorem dueCleanup_comes (id : NodeId) (due : Option κ) :
    Run.Keeps (program.Comes busy start)
      (match due with | some code => engine (.cleanUp id code) | none => pure ()) := by
  cases due with
  | some code => exact carries works (.cleanUp id code)
  | none => exact Run.Keeps.pure ()

omit carries works in
theorem takeCleanup_comes (id : NodeId) :
    Run.Keeps (program.Comes busy start) (Run.update (·.takeCleanup id)) :=
  .update fun _ comes => comes.takeCleanup id

theorem finishStop_comes {world : World κ ν σ} (comes : program.Comes busy start world) {id : NodeId}
    (ended : ∀ effect, world.effect? id = some effect → effect.active = false) (owner : ReactorId) :
    (finishStop engine id owner).Ends world fun _ after => program.Comes busy start after := by
  have told : Run.Keeps (program.Comes busy start)
      (Run.modify (·.record (.stopped id) : World κ ν σ → World κ ν σ)) :=
    .offstage fun world => .record world _
  refine .of_world ?_
  split
  next =>
    have retired := (comes.aside (.hold _ (.reactor owner))).aside (.retire _ id ended)
    have cleared := ((takeCleanup_comes id).bind fun due => dueCleanup_comes carries works id due)
      _ retired
    exact Run.Ends.bind (.of_modify (Run.Ends.thenAlways (.of_modify cleared) fun _ after comes =>
      comes.aside (.drop after (.reactor owner)))) (fun _ => told) fun _ _ comes => comes
  next => exact ((takeCleanup_comes id).bind fun _ => told) _ comes

/-- What was stopped is active no longer. -/
theorem stopEffect_settles {world : World κ ν σ} (comes : program.Comes busy start world) (id : NodeId) :
    (stopEffect engine id).Ends world fun _ after => program.Comes busy start after ∧
      ∀ renderer, after.renderer? id = some renderer → renderer.active = false := by
  intro result after ran
  cases found : world.effect? id with
  | none =>
    unfold stopEffect at ran
    rw [Run.world_bind, found] at ran
    cases ran
    refine ⟨comes, fun renderer here => ?_⟩
    obtain ⟨_, found', _⟩ := World.effect_of_renderer? here
    cases found.symm.trans found'
  | some effect =>
    cases live : effect.active with
    | false =>
      cases (stopEffect_of_inactive engine found live).symm.trans ran
      refine ⟨comes, fun renderer here => ?_⟩
      obtain ⟨_, found', _, same, _⟩ := World.effect_of_renderer? here
      cases found.symm.trans found'
      exact same.symm.trans live
    | true =>
      rw [stopEffect_of_active engine found live] at ran
      -- The rest sets out from a world in which the effect is stopped.
      have stopped : program.Comes (fun _ => False)
          (world.modifyEffect id ({ · with active := false }))
          (world.modifyEffect id ({ · with active := false })) := ⟨[], .start⟩
      obtain ⟨_, onward⟩ := finishStop_comes carries (fun _ => False.elim) stopped
        (fun _ => World.inactive_deactivate found) effect.reactor result after ran
      exact ⟨finishStop_comes carries works (comes.stop id)
          (fun _ => World.inactive_deactivate found) effect.reactor result after ran,
        onward.ended_of_stop (List.getElem?_eq_some_iff.mp (World.effect?_eq_some_iff.mp found)).1⟩

theorem stopEffect_comes (id : NodeId) :
    Run.Keeps (program.Comes busy start) (stopEffect engine id) :=
  fun _ comes => (stopEffect_settles carries works comes id).mono fun _ _ => And.left

theorem disposeReactor_comes (owner : ReactorId) :
    Run.Keeps (program.Comes busy start) (disposeReactor engine owner) := by
  refine .bind (.offstage fun world => .record world _) fun _ =>
    .world_bind fun world comes => ?_
  dsimp only
  refine Run.Keeps.bind (.offstage fun world => .foldl_hold _ (.node ·) world)
    (fun _ => .bind (.forEach fun effect => ?_) fun _ => .offstage fun world =>
      .record world _) world comes
  exact (stopEffect_comes carries works effect).thenAlways (.offstage fun world => .drop world _)

theorem unmount_comes (id : MountId) : Run.Keeps (program.Comes busy start) (unmount engine id) := by
  refine Run.Keeps.world_bind fun world comes => ?_
  split
  next => exact Run.Keeps.pure _ world comes
  next mount found =>
    intro result after ran
    rcases Run.of_bind_eq_some ran with ⟨panic, failed, -⟩ | ⟨_, ended, stopped, ran⟩
    · exact (stopEffect_settles carries works comes mount.effect _ _ failed).1
    obtain ⟨comes', inactive⟩ := stopEffect_settles carries works comes mount.effect _ _ stopped
    obtain ⟨⟨_, onward⟩, -⟩ := stopEffect_settles carries (fun _ => False.elim : world.Works fun _ => False)
      ⟨[], .start⟩ mount.effect _ _ stopped
    cases ran
    refine comes'.withdrawn fun mount' found' => ?_
    obtain ⟨kept, here, same⟩ := onward.keeps_mount found
    cases found'.symm.trans here
    rw [Mount.effect_of_bare same]
    exact inactive

theorem perform_comes (request : Request κ ν σ) :
    Run.Keeps (program.Comes busy start) (perform engine request) := by
  cases request with
  | newReactor settings =>
    rintro world comes _ _ ⟨⟩
    refine comes.aside (.of_cells rfl rfl rfl (fun owner id live => Or.inl ?_) fun _ died => died)
    rwa [World.graph_newReactor]
  | newSignal owner value =>
    rintro world comes _ _ ⟨⟩
    exact (comes.aside (.hold world (.reactor owner))).newCell rfl
  | newComputed owner body => exact newComputed_comes carries works owner body
  | newEffect owner body eager => exact newEffect_comes carries works owner (by rintro _ ⟨⟩) eager
  | subscribe signal callback =>
    refine Run.Keeps.world_bind fun world comes => ?_
    split
    next => exact Run.Keeps.raise _ world comes
    next state _ =>
      exact Run.Keeps.bind (.offstage fun world => .hold world _) (fun _ =>
        newEffect_comes carries works state.reactor (by rintro _ ⟨⟩) true) world comes
  | newDocument =>
    rintro world comes _ _ ⟨⟩
    exact comes.newDocument
  | mount owner document container code => exact newMount_comes carries works owner document container code
  | unmount mount => exact unmount_comes carries works mount
  | get node => exact readNode_comes carries works node true
  | peek node => exact readNode_comes carries works node false
  | tryGet computed => exact tryComputed_comes carries works computed
  | stored signal => exact Run.Keeps.world_bind fun world comes => Run.Keeps.pure _ world comes
  | set signal value => exact writeSignal_comes carries works signal value
  | label node text =>
    refine Run.Keeps.offstage fun world => ?_
    split
    next => exact .modifyNode world _ node fun _ => ⟨rfl, rfl⟩
    next => exact .refl world
  | execute effect =>
    exact Run.Keeps.bind (.offstage fun world => .record world (.executed effect)) fun _ =>
      carries works (.execute effect)
  | stop effect => exact stopEffect_comes carries works effect
  | destroy signal => exact Run.Keeps.offstage fun world => .destroySignal world signal
  | dispose owner => exact disposeReactor_comes carries works owner
  | invoke handler => exact carries works (.invoke handler)
  | hold handle => exact Run.Keeps.offstage fun world => .hold world handle
  | drop handle => exact Run.Keeps.offstage fun world => .drop world handle
  | note value => exact Run.Keeps.offstage fun world => .record world (.note value)
  | look => exact Run.Keeps.world_bind fun world comes => Run.Keeps.pure world world comes
  | store user =>
    exact Run.Keeps.offstage fun world =>
      .of_cells rfl rfl rfl (fun _ _ live => Or.inl live) fun _ died => died

omit carries works in
theorem runInFrame_comes (owner : ReactorId) (frame : Frame) {body : Run κ ν σ α}
    (keeps : Run.Keeps (program.Comes busy start) body) :
    Run.Keeps (program.Comes busy start) (runInFrame owner frame body) :=
  .bind (.offstage fun world => .pushFrame world owner frame) fun _ =>
    keeps.thenAlways (.offstage fun world => .popFrame world owner)

theorem runWithin_comes (scope : Scope) {body : Run κ ν σ α}
    (keeps : Run.Keeps (program.Comes busy start) body) :
    Run.Keeps (program.Comes busy start) (runWithin engine scope body) := by
  cases scope with
  | batch owner =>
    exact .bind (.offstage fun world => .openBatch world owner) fun _ =>
      keeps.thenAlways (closeBatch_comes carries works owner)
  | untracked owner =>
    exact .bind (.offstage fun world => .pushFrame world owner _) fun _ =>
      keeps.thenAlways (.offstage fun world => .popFrame world owner)

/-- Whatever an act does, it comes from moments to moments. -/
theorem Act.run_comes (act : Act κ ν σ α) : Run.Keeps (program.Comes busy start) (act.run engine) := by
  induction act with
  | pure value => exact Run.Keeps.pure value
  | raise panic => exact Run.Keeps.raise panic
  | bind first next ih ih' => exact ih.bind ih'
  | call request => exact perform_comes carries works request
  | within scope body ih => exact runWithin_comes carries works scope ih
  | attempt body ih => exact ih.attempt

omit carries works in
theorem runBody_comes (owner : ReactorId) (id : NodeId) {body : Run κ ν σ α}
    (keeps : Run.Keeps (program.Comes busy start) body) :
    Run.Keeps (program.Comes busy start) (runBody owner id body) :=
  .bind (.offstage fun world => .record world _) fun _ =>
    .bind (runInFrame_comes owner _ keeps).attempt fun result =>
      .bind (.offstage fun world => .record world _) fun _ => .pure result

theorem evaluate_comes (id : NodeId) (computed : Computed κ ν) :
    Run.Keeps (program.Comes busy start) (evaluate program engine id computed) := by
  refine Run.Keeps.world_bind fun world comes => ?_
  split
  next => exact Run.Keeps.raise _ world comes
  next =>
    refine Run.Keeps.bind (.offstage fun world => .modifyComputed world id _) (fun _ =>
      .bind (.offstage fun world => .unsubscribe world _ id) fun _ =>
        .bind (runBody_comes _ id (Act.run_comes carries works _)) fun result =>
          .bind (.offstage fun world => .modifyComputed world id _) fun _ => ?_) world comes
    cases result with
    | ok value => exact Run.Keeps.offstage fun world => .settleValue world id computed value
    | error panic =>
      exact .bind (.offstage fun world => .modifyNode world _ id fun _ => ⟨rfl, rfl⟩) fun _ => .raise _

theorem checkInputs_comes (id : NodeId) (computed : Computed κ ν) (inputs : List (NodeId × Nat)) :
    Run.Keeps (program.Comes busy start) (checkInputs program engine id computed inputs) := by
  induction inputs with
  | nil => exact Run.Keeps.offstage fun world => .modifyNode world _ id fun _ => ⟨rfl, rfl⟩
  | cons entry rest ih =>
    refine (carries works (.refresh entry.1)).bind fun _ => Run.Keeps.world_bind fun world comes => ?_
    split
    next => exact evaluate_comes carries works id computed world comes
    next => exact ih world comes

theorem refreshComputed_comes (id : NodeId) :
    Run.Keeps (program.Comes busy start) (refreshComputed program engine id) := by
  refine Run.Keeps.world_bind fun world comes => ?_
  split
  next => exact Run.Keeps.pure () world comes
  next computed _ =>
    dsimp only
    split
    next => exact Run.Keeps.pure () world comes
    next => exact Run.Keeps.pure () world comes
    next => exact Run.Keeps.held (evaluate_comes carries works id computed) world comes
    next => exact Run.Keeps.held (checkInputs_comes carries works id computed _) world comes

theorem callCleanup_comes (id : NodeId) (code : κ) :
    Run.Keeps (program.Comes busy start) (callCleanup program engine id code) := by
  refine Run.Keeps.world_bind fun world comes => ?_
  split
  next => exact Run.Keeps.raise _ world comes
  next effect _ =>
    refine Run.Keeps.bind (.offstage fun world => .record world _) (fun _ =>
      .bind (runInFrame_comes _ _ (Act.run_comes carries works _)).attempt fun result => ?_) world comes
    cases result with
    | ok _ => exact Run.Keeps.pure ()
    | error panic => exact Run.Keeps.offstage fun world => .report world _ _

end

/-- What the body of an effect gives, by what became of the tree. -/
def Repaint.Outcome.result : Repaint.Outcome → Except Panic (Except String (Option κ))
  | .refused _ failure => .ok (.error failure.message)
  | .panicked panic => .error panic
  | .shown _ | .withdrawn _ => .ok (.ok none)

/-- The body of an effect that renders runs the closure of the mount, and deals with what it gives. -/
theorem of_effectAct_render {engine : Engine κ ν σ} {world after : World κ ν σ} {id : NodeId}
    {effect : Effect κ} {mount : MountId} {state : Mount κ}
    {result : Except Panic (Except String (Option κ))} (renders : effect.body = .render mount)
    (found : world.mount? mount = some state)
    (ran : effectAct program engine id effect world = some (result, after)) :
    ∃ given left, (program.render state.code).run engine world = some (given, left) ∧
      after = (left.receive mount given).2 ∧ result = (left.receive mount given).1.result := by
  unfold effectAct at ran
  rw [renders] at ran
  dsimp only at ran
  rw [Run.world_bind, found] at ran
  dsimp only at ran
  rcases Run.of_bind_eq_some ran with ⟨panic, stopped, rfl⟩ | ⟨tree, left, returned, ran⟩
  · exact ⟨.error panic, after, stopped, rfl, rfl⟩
  · refine ⟨.ok tree, left, returned, ?_⟩
    rw [World.receive_ok]
    rw [Run.update_bind] at ran
    cases outcome : (left.present mount tree).1 with
    | ok _ =>
      rw [outcome] at ran
      cases ran
      exact ⟨rfl, rfl⟩
    | error failure =>
      rw [outcome] at ran
      cases ran
      exact ⟨rfl, rfl⟩

section

variable {depth : Nat} (carries : program.Carries (activate program depth))
  {world : World κ ν σ} {id : NodeId} {effect : Effect κ}

include carries

/-- The effect of a mount is marked as running when its closure ends. -/
theorem effectAct_comes (works : start.Works busy) (comes : program.Comes busy start world)
    (free : ¬ busy id)
    (running : ∀ mount, effect.body = .render mount → ∃ renderer,
      world.renderer? id = some renderer ∧ renderer.mount = mount ∧ renderer.executing = true) :
    (effectAct program (activate program depth) id effect).Ends world
      fun _ after => program.Comes busy start after := by
  cases body : effect.body with
  | plain code =>
    unfold effectAct
    rw [body]
    exact Act.run_comes carries works (program.effect code) world comes
  | watch signal callback =>
    unfold effectAct
    rw [body]
    refine Run.Keeps.bind (readNode_comes carries works signal true) (fun value =>
      .world_bind fun world comes => ?_) world comes
    split
    next =>
      exact Run.Keeps.bind (.offstage fun world => .record world _) (fun _ =>
        .bind (Act.run_comes carries works _) fun _ => .pure _) world comes
    next =>
      exact Run.Keeps.bind (.offstage fun world => .primed world id) (fun _ => .pure _) world comes
  | render mount =>
    intro result after ran
    cases found : world.mount? mount with
    | none =>
      unfold effectAct at ran
      rw [body] at ran
      dsimp only at ran
      rw [Run.world_bind, found] at ran
      cases ran
      exact comes
    | some state =>
      obtain ⟨given, left, rendered, rfl, -⟩ := of_effectAct_render body found ran
      obtain ⟨renderer, here, same, executing⟩ := running mount body
      obtain ⟨earlier, entered⟩ := comes
      obtain ⟨repaints, before⟩ :=
        Act.run_comes carries works (program.render state.code) world ⟨_, entered⟩ _ _ rendered
      obtain ⟨_, onward⟩ :=
        Act.run_comes carries (fun _ => False.elim) (program.render state.code) world ⟨_, .start⟩ _ _ rendered
      have kept := onward.renderer?_map (World.index_lt_of_renderer? here)
      rw [here] at kept
      obtain ⟨renderer', here', same'⟩ := Option.map_eq_some_iff.mp kept
      have engaged : left.isEngaged id = world.isEngaged id :=
        (program.run_traces depth _ _ _ _ rendered).takesTurns.engaged id
      rw [World.isEngaged_of_renderer? here, World.isEngaged_of_renderer? here', executing] at engaged
      exact ⟨_, entered.rendered found rendered before here' (same'.trans same) engaged free⟩

/-- Only an effect that does not render leaves a cleanup. -/
theorem settleRun_comes (works : start.Works busy) (comes : program.Comes busy start world)
    {result : Except Panic (Except String (Option κ))}
    (plain : ∀ code, result = .ok (.ok (some code)) → world.renderer? id = none) :
    (settleRun (activate program depth) id effect result).Ends world
      fun _ after => program.Comes busy start after := by
  have reported : ∀ failure, Run.Keeps (program.Comes busy start)
      (Run.modify (·.report effect.reactor failure)) := fun failure =>
    .offstage fun world => .report world effect.reactor failure
  match result with
  | .error panic => exact reported _ world comes
  | .ok (.error message) => exact reported _ world comes
  | .ok (.ok none) => exact Run.Keeps.pure () world comes
  | .ok (.ok (some code)) =>
    have absent := plain code rfl
    refine .of_modify (.of_world ?_)
    split
    next =>
      rintro _ _ ⟨⟩
      have kept : (world.record (.leftCleanup id code)).Offstage ((world.record
          (.leftCleanup id code)).modifyEffect id ({ · with cleanup := some code })) :=
        .modifyEffect _ id (World.display_modifyEffect_of_none absent fun _ => rfl)
          fun _ => ⟨rfl, rfl⟩
      exact (comes.aside (.record world _)).aside kept
    next =>
      exact carries works (.cleanUp id code) _ (comes.aside (.record world _))

omit carries in
/-- The body of an effect that renders leaves no cleanup. -/
theorem effectAct_leaves {engine : Engine κ ν σ} {after : World κ ν σ} {code : κ}
    (ran : effectAct program engine id effect world = some (.ok (.ok (some code)), after))
    (mount : MountId) : effect.body ≠ .render mount := by
  intro renders
  cases found : world.mount? mount with
  | none =>
    unfold effectAct at ran
    rw [renders] at ran
    dsimp only at ran
    rw [Run.world_bind, found] at ran
    cases ran
  | some state =>
    obtain ⟨given, left, -, -, same⟩ := of_effectAct_render renders found ran
    cases outcome : (left.receive mount given).1 <;> rw [outcome] at same <;> cases same

/-- Before its body runs, an effect is marked as running and calls the cleanup that is due. -/
theorem clearEffect_comes (works : start.Works busy) (comes : program.Comes busy start world)
    (found : world.effect? id = some effect) (active : effect.active = true)
    (idle : effect.executing = false) :
    (clearEffect (activate program depth) id effect).Ends world
      fun _ after => program.Comes busy start after := by
  have begun := comes.begin fun renderer (here : world.renderer? id = some renderer) => by
    obtain ⟨effect', found', _, active', executing', _⟩ := World.effect_of_renderer? here
    cases found.symm.trans found'
    exact ⟨active'.symm.trans active, executing'.symm.trans idle⟩
  refine .of_modify (Run.Keeps.bind (.offstage fun world => .unsubscribe world _ id) (fun _ =>
    .bind (takeCleanup_comes id) fun due => ?_) _ begun)
  cases due with
  | none => exact Run.Keeps.pure ()
  | some code => exact carries works (.cleanUp id code)

omit carries in
/-- A run has an effect come to what it renders, if it does. -/
theorem Program.Comes.renders (comes : program.Comes busy world after)
    (found : world.effect? id = some effect) {mount : MountId} (body : effect.body = .render mount)
    (engaged : after.isEngaged id = true) : ∃ renderer,
      after.renderer? id = some renderer ∧ renderer.mount = mount ∧ renderer.executing = true := by
  obtain ⟨_, moment⟩ := comes
  have here := World.renderer?_of_render found body
  have kept := moment.renderer?_map (World.index_lt_of_renderer? here)
  rw [here] at kept
  obtain ⟨renderer, here', same⟩ := Option.map_eq_some_iff.mp kept
  exact ⟨renderer, here', same, (World.isEngaged_of_renderer? here').symm.trans engaged⟩

omit carries in
theorem Program.Comes.not_renderer (comes : program.Comes busy world after)
    (found : world.effect? id = some effect) (body : ∀ mount, effect.body ≠ .render mount) :
    after.renderer? id = none := by
  obtain ⟨_, moment⟩ := comes
  have known : id.index < world.cells.length :=
    (List.getElem?_eq_some_iff.mp (World.effect?_eq_some_iff.mp found)).1
  have kept := moment.renderer?_map known
  rw [World.renderer?_of_body found body] at kept
  exact Option.map_eq_none_iff.mp kept

omit carries in
theorem isEngaged_of_cleared {middle : World κ ν σ} {result : Except Panic Unit}
    (found : world.effect? id = some effect)
    (cleared : clearEffect (activate program depth) id effect world = some (result, middle)) :
    middle.isEngaged id = true := by
  rw [(clearEffect_trails id effect world _ _ cleared).takesTurns.engaged id]
  exact World.engaged_iff.mp ⟨_, World.cell?_engage found, rfl⟩

theorem runEffect_comes (works : start.Works busy) (comes : program.Comes busy start world)
    (free : ¬ busy id) (found : world.effect? id = some effect) (active : effect.active = true)
    (idle : effect.executing = false) :
    (runEffect program (activate program depth) id effect).Ends world
      fun _ after => program.Comes busy start after := by
  have unbusy : world.Works fun _ => False := fun _ => False.elim
  rw [runEffect_eq]
  intro result after ran
  rcases Run.of_bind_eq_some ran with ⟨panic, cleared, -⟩ | ⟨_, middle, cleared, ran⟩
  · exact clearEffect_comes carries works comes found active idle _ _ cleared
  have ready := clearEffect_comes carries works comes found active idle _ _ cleared
  have onward := clearEffect_comes carries unbusy ⟨[], .start⟩ found active idle _ _ cleared
  have opened : middle.Offstage (middle.enterBody id effect.reactor) :=
    (World.Offstage.record middle _).trans (.pushFrame _ _ _)
  have engaged : (middle.enterBody id effect.reactor).isEngaged id = true :=
    (isEngaged_of_cleared found cleared : middle.isEngaged id = true)
  have renders : ∀ mount, effect.body = .render mount → ∃ renderer,
      (middle.enterBody id effect.reactor).renderer? id = some renderer ∧ renderer.mount = mount ∧
        renderer.executing = true :=
    fun mount body => (onward.aside opened).renders found body engaged
  rcases Run.of_bind_eq_some ran with ⟨panic, stopped, -⟩ | ⟨given, ended, returned, ran⟩
  · obtain ⟨_, _, same, -⟩ := of_runBody stopped
    cases same
  obtain ⟨_, inner, same, inside, rfl⟩ := of_runBody returned
  cases same
  have left : inner.Offstage ((inner.leaveBody id effect.reactor (!given.isOk)).countRun id) :=
    .leaveRun inner id effect.reactor _
  have done := effectAct_comes carries works (ready.aside opened) free renders _ _ inside
  have onward' := effectAct_comes carries unbusy (onward.aside opened) not_false renders _ _ inside
  rw [Run.modify_bind] at ran
  have settled : (settleRun (activate program depth) id effect given).Ends _ fun _ after =>
      program.Comes busy start after := settleRun_comes carries works (done.aside left) fun code same => by
    subst same
    exact (onward'.aside left).not_renderer found fun mount => effectAct_leaves inside mount
  rcases Run.of_bind_eq_some ran with ⟨panic, failed, -⟩ | ⟨_, last, finished, ran⟩
  · exact settled _ _ failed
  · cases ran
    exact (settled _ _ finished).finish free

theorem executeEffect_comes (works : start.Works busy) (id : NodeId) :
    Run.Keeps (program.Comes busy start) (executeEffect program (activate program depth) id) := by
  refine Run.Keeps.world_bind fun world comes => ?_
  split
  next => exact Run.Keeps.raise _ world comes
  next effect found =>
    split
    next => exact Run.Keeps.pure () world comes
    next ready =>
      rw [Bool.or_eq_true, Bool.or_eq_true, not_or, not_or, Bool.not_eq_true', Bool.not_eq_true',
        Bool.not_eq_false, Bool.not_eq_false, Bool.not_eq_true] at ready
      obtain ⟨⟨active, _⟩, idle⟩ := ready
      have free : ¬ busy id := by
        intro member
        obtain ⟨_, moment⟩ := comes
        obtain ⟨renderer, here, executing⟩ := moment.works works id member
        obtain ⟨effect', found', _, _, same, _⟩ := World.effect_of_renderer? here
        cases found.symm.trans found'
        exact Bool.false_ne_true (idle.symm.trans (same.trans executing))
      have ran := runEffect_comes carries works
        (comes.aside (.hold world (.reactor effect.reactor))) free found active idle
      exact .of_modify (ran.thenAlways fun _ after comes =>
        comes.aside (.drop after (.reactor effect.reactor)))

end

/-- Whatever is set off comes from moments to moments. -/
theorem activate_carries (program : Program κ ν σ) (depth : Nat) :
    program.Carries (activate program depth) := by
  induction depth with
  | zero => exact fun _ _ _ _ _ _ => nofun
  | succ depth ih =>
    intro busy start works activation
    cases activation with
    | refresh id => exact refreshComputed_comes ih works id
    | execute id => exact executeEffect_comes ih works id
    | cleanUp id code => exact callCleanup_comes ih works id code
    | invoke handler => exact Act.run_comes ih works (program.handler handler)

end

end ReactiveTree
