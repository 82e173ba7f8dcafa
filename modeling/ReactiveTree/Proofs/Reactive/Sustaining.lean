import ReactiveTree.Proofs.Reactive.Visiting

/-! # Every run keeps readers listed

One lemma for each operation, then one for each activation, and from them by induction on the act
and on the depth of nesting: whatever a program does, readers stay listed, provided that the
closures of its computeds only look.
-/

namespace ReactiveTree

variable {κ ν σ α : Type} {engine : Engine κ ν σ} {tally : Tally}

theorem storeValue_keeps (sustains : Sustains engine) (plain : tally.Plain) (owner : ReactorId)
    (id : NodeId) (value : ν) : Run.Keeps (·.Listed tally) (storeValue engine owner id value) := by
  intro world listed
  have written : (world.modifySignal id fun signal => { signal with value }).Listed tally :=
    listed.modifySignal id fun _ => rfl
  have stored := (written.bump owner id).record (.changed id value)
  refine .of_modify (.of_world ?_)
  split
  next => exact Run.Keeps.pure () _ stored
  next state _ =>
    split
    next =>
      exact Run.Keeps.modify (fun _ listed => listed.modifyRecords owner fun _ => ⟨rfl, rfl⟩) _
        stored
    next => exact notify_keeps sustains plain owner [id] _ stored

theorem writeSignal_keeps [BEq ν] (sustains : Sustains engine) (plain : tally.Plain) (id : NodeId)
    (value : ν) : Run.Keeps (·.Listed tally) (writeSignal engine id value) := by
  refine Run.Keeps.world_bind fun world listed => ?_
  split
  next => exact Run.Keeps.raise _ world listed
  next signal _ =>
    refine (requireLive_ends signal id "write" world).bind (fun _ after same => ?_)
      fun _ after same => same ▸ listed
    subst same
    have noted := listed.noteWrite signal.reactor id
    refine .of_modify (.of_world ?_)
    dsimp only
    split
    next => exact Run.Keeps.pure () _ noted
    next =>
      split
      next => exact Run.Keeps.modify (fun _ listed => listed.record _) _ noted
      next => exact storeValue_keeps sustains plain signal.reactor id value _ noted

theorem closeBatch_keeps (sustains : Sustains engine) (plain : tally.Plain) (owner : ReactorId) :
    Run.Keeps (·.Listed tally) (closeBatch engine owner) := by
  refine (Run.Keeps.update fun world listed => ?_).bind fun pending => ?_
  · cases found : world.reactor? owner with
    | none => exact listed
    | some state => exact listed.closeBatch found
  · split
    next => exact notify_keeps sustains plain owner pending
    next => exact Run.Keeps.pure ()

theorem newComputed_keeps (sustains : Sustains engine) (owner : ReactorId) (body : κ) :
    Run.Keeps (·.Listed tally) (newComputed engine owner body) := by
  refine (Run.Keeps.update fun world listed =>
    listed.addHolding (.computed ⟨owner, body, none, false, 1⟩)).bind fun id =>
      (sustains.refresh tally id).attempt.bind fun result => ?_
  split
  next => exact Run.Keeps.pure id
  next =>
    exact (Run.Keeps.modify fun world listed => listed.report _ _).bind fun _ => Run.Keeps.pure id

theorem newEffect_keeps (sustains : Sustains engine) (plain : tally.Plain) (owner : ReactorId)
    (body : EffectBody κ) (eager : Bool) :
    Run.Keeps (·.Listed tally) (newEffect engine owner body eager) := by
  refine (Run.Keeps.update fun world listed =>
    listed.addCell (.effect ⟨owner, body, false, none, true, false, 0, 2⟩) (Or.inl rfl)).bind
      fun id => ?_
  split
  next => exact (sustains.executes plain id).bind fun _ => Run.Keeps.pure id
  next => exact Run.Keeps.pure id

theorem newMount_keeps (sustains : Sustains engine) (plain : tally.Plain) (owner : ReactorId)
    (document : DocumentId) (container : HostId) (render : κ) :
    Run.Keeps (·.Listed tally) (newMount engine owner document container render) := by
  refine Run.Keeps.world_bind fun world listed => ?_
  refine .of_modify ?_
  refine ((newEffect_keeps sustains plain owner _ true).bind fun _ => Run.Keeps.pure _) _ ?_
  exact listed.of_alike rfl rfl

theorem takeCleanup_listed {world : World κ ν σ} (listed : world.Listed tally) (id : NodeId) :
    (world.takeCleanup id).2.Listed tally :=
  listed.modifyEffect id fun _ => ⟨rfl, rfl, rfl⟩

theorem stopEffect_keeps (sustains : Sustains engine) (plain : tally.Plain) (id : NodeId) :
    Run.Keeps (·.Listed tally) (stopEffect engine id) := by
  refine Run.Keeps.world_bind fun world listed => ?_
  split
  next => exact Run.Keeps.raise _ world listed
  next effect _ =>
    dsimp only
    split
    next => exact Run.Keeps.pure () world listed
    next =>
      have recorded : Run.Keeps (·.Listed tally)
          (Run.modify fun world : World κ ν σ => world.record (.stopped id)) :=
        .modify fun _ listed => listed.record _
      refine .of_modify ?_
      split
      next =>
        refine Run.Keeps.bind (Run.Keeps.holding (fun _ listed => listed.hold _)
          (fun _ listed => listed.drop _) ?_) (fun _ => recorded) _ (listed.deactivate id)
        refine (Run.Keeps.modify fun _ listed => listed.retire id).bind fun _ =>
          (Run.Keeps.update fun _ listed => takeCleanup_listed listed id).bind fun cleanup => ?_
        split
        next code => exact sustains.cleansUp plain id code
        next => exact Run.Keeps.pure ()
      next =>
        exact (Run.Keeps.update fun _ listed => takeCleanup_listed listed id).bind
          (fun _ => recorded) _ (listed.deactivate id)

theorem disposeReactor_keeps (sustains : Sustains engine) (plain : tally.Plain) (id : ReactorId) :
    Run.Keeps (·.Listed tally) (disposeReactor engine id) := by
  refine (Run.Keeps.modify fun _ listed => listed.record _).bind fun _ =>
    Run.Keeps.world_bind fun world listed => ?_
  have held : ∀ (effects : List NodeId) (world : World κ ν σ), world.Listed tally →
      (effects.foldl (fun world effect => world.hold (.node effect)) world).Listed tally :=
    fun effects _ listed => listed.foldl_hold effects _
  refine ((Run.Keeps.modify (held _)).bind fun _ => (Run.Keeps.forEach fun effect =>
    (stopEffect_keeps sustains plain effect).thenAlways
      (.modify fun _ listed => listed.drop _)).bind fun _ =>
        .modify fun _ listed => listed.record _) world listed

theorem unmount_keeps (sustains : Sustains engine) (plain : tally.Plain) (id : MountId) :
    Run.Keeps (·.Listed tally) (unmount engine id) := by
  refine Run.Keeps.world_bind fun world listed => ?_
  split
  next => exact Run.Keeps.pure _ world listed
  next mount _ =>
    exact ((stopEffect_keeps sustains plain mount.effect).bind fun _ =>
      .update fun _ listed => listed.withdraw id) world listed

theorem perform_keeps [BEq ν] (sustains : Sustains engine) (plain : tally.Plain)
    (request : Request κ ν σ) : Run.Keeps (·.Listed tally) (perform engine request) := by
  unfold perform
  cases request with
  | newReactor settings => exact Run.Keeps.update fun _ listed => listed.addReactor settings
  | newSignal reactor value =>
    exact Run.Keeps.update fun _ listed => listed.addHolding (.signal ⟨reactor, value, false, 1⟩)
  | newComputed reactor body => exact newComputed_keeps sustains reactor body
  | newEffect reactor body eager => exact newEffect_keeps sustains plain reactor _ eager
  | subscribe signal callback =>
    refine Run.Keeps.world_bind fun world listed => ?_
    split
    next => exact Run.Keeps.raise _ world listed
    next state _ =>
      exact ((Run.Keeps.modify fun _ listed => listed.hold _).bind fun _ =>
        newEffect_keeps sustains plain state.reactor _ true) world listed
  | newDocument => exact Run.Keeps.update fun _ listed => listed.of_alike rfl rfl
  | mount reactor document container render =>
    exact newMount_keeps sustains plain reactor document container render
  | unmount mount => exact unmount_keeps sustains plain mount
  | get node => exact readNode_keeps true (sustains.refresh tally node)
  | peek node => exact readNode_keeps false (sustains.refresh tally node)
  | tryGet node => exact tryComputed_keeps (sustains.refresh tally node)
  | stored signal => exact Run.Keeps.world_bind fun world listed => Run.Keeps.pure _ world listed
  | set signal value => exact writeSignal_keeps sustains plain signal value
  | label node text =>
    refine Run.Keeps.modify fun world listed => ?_
    split
    next cell _ =>
      have labelled : ∀ other : Node, (other.withLabel text).id = other.id ∧
          (other.withLabel text).dependencies = other.dependencies ∧
            (other.withLabel text).dependents = other.dependents := fun _ => ⟨rfl, rfl, rfl⟩
      exact listed.modifyNode cell.reactor node labelled (fun _ => rfl) fun _ wanted => wanted
    next => exact listed
  | execute effect =>
    exact (Run.Keeps.modify fun _ listed => listed.record _).bind fun _ =>
      sustains.executes plain effect
  | stop effect => exact stopEffect_keeps sustains plain effect
  | destroy signal => exact Run.Keeps.modify fun _ listed => listed.destroySignal signal
  | dispose reactor => exact disposeReactor_keeps sustains plain reactor
  | invoke handler => exact sustains.invoke tally plain handler
  | hold handle => exact Run.Keeps.modify fun _ listed => listed.hold handle
  | drop handle => exact Run.Keeps.modify fun _ listed => listed.drop handle
  | note value => exact Run.Keeps.modify fun _ listed => listed.record _
  | look => exact Run.Keeps.world_bind fun world listed => Run.Keeps.pure world world listed
  | store user => exact Run.Keeps.modify fun _ listed => listed.of_alike rfl rfl

theorem Act.run_keeps [BEq ν] (sustains : Sustains engine) (plain : tally.Plain)
    (act : Act κ ν σ α) : Run.Keeps (·.Listed tally) (act.run engine) := by
  induction act with
  | pure value => exact Run.Keeps.pure value
  | raise panic => exact Run.Keeps.raise panic
  | bind first next ih ih' => exact ih.bind ih'
  | call request => exact perform_keeps sustains plain request
  | within scope body ih =>
    cases scope with
    | batch reactor =>
      have opened : ∀ world : World κ ν σ, world.Listed tally →
          (world.modifyReactor reactor Reactor.openBatch).Listed tally :=
        fun world listed => listed.modifyRecords reactor fun _ => ⟨rfl, rfl⟩
      exact (Run.Keeps.modify opened).bind fun _ =>
        ih.thenAlways (closeBatch_keeps sustains plain reactor)
    | untracked reactor => exact runInFrame_keeps ih
  | attempt body ih => exact ih.attempt

section

variable {id : NodeId}

/-- Calling a cleanup of an effect that is there does not panic. -/
theorem cleanUp_ends (sustains : Sustains engine) (plain : tally.Plain) {world : World κ ν σ}
    (listed : world.Listed tally) {owner : ReactorId} (known : tally.known id (owner, .effect))
    (code : κ) : (engine (.cleanUp id code)).Ends world fun result after =>
      result = .ok () ∧ after.Listed tally := by
  obtain ⟨effect, found, _⟩ := listed.effect known
  exact (sustains.cleanUp tally plain world id code listed).mono fun _ _ kept =>
    ⟨kept.2 effect found, kept.1⟩

theorem settleRun_ends (sustains : Sustains engine) (plain : tally.Plain) {effect : Effect κ}
    {world : World κ ν σ} (listed : world.Listed tally)
    (known : tally.known id (effect.reactor, .effect))
    (given : Except Panic (Except String (Option κ))) :
    (settleRun engine id effect given).Ends world fun result after =>
      result = .ok () ∧ after.Listed tally := by
  have reported : ∀ message, (Run.modify fun world : World κ ν σ =>
      world.report effect.reactor (.failedEffect id message)).Ends world fun result after =>
        result = .ok () ∧ after.Listed tally := by
    rintro message _ _ ⟨⟩
    exact ⟨rfl, listed.report _ _⟩
  unfold settleRun
  split
  next =>
    rintro _ _ ⟨⟩
    exact ⟨rfl, listed⟩
  next code =>
    refine .of_modify (.of_world ?_)
    split
    next =>
      rintro _ _ ⟨⟩
      exact ⟨rfl, (listed.record _).modifyEffect id fun _ => ⟨rfl, rfl, rfl⟩⟩
    next => exact cleanUp_ends sustains plain (listed.record _) known code
  next message => exact reported message
  next panic => exact reported panic.message

variable [BEq ν] {program : Program κ ν σ}

theorem effectAct_keeps (sustains : Sustains engine) (plain : tally.Plain) (effect : Effect κ) :
    Run.Keeps (·.Listed tally) (effectAct program engine id effect) := by
  unfold effectAct
  cases effect.body with
  | plain code => exact Act.run_keeps sustains plain (program.effect code)
  | watch signal callback =>
    refine (readNode_keeps true (sustains.refresh tally signal)).bind fun value =>
      Run.Keeps.world_bind fun world listed => ?_
    split
    next =>
      exact ((Run.Keeps.modify fun _ listed => listed.record _).bind fun _ =>
        (Act.run_keeps sustains plain (program.callback callback value)).bind fun _ =>
          Run.Keeps.pure _) world listed
    next =>
      have primed : ∀ world : World κ ν σ, world.Listed tally →
          (world.modifyEffect id ({ · with primed := true })).Listed tally :=
        fun _ listed => listed.modifyEffect id fun _ => ⟨rfl, rfl, rfl⟩
      exact ((Run.Keeps.modify primed).bind fun _ => Run.Keeps.pure _) world listed
  | render mount =>
    refine Run.Keeps.world_bind fun world listed => ?_
    split
    next => exact Run.Keeps.pure _ world listed
    next state _ =>
      refine ((Act.run_keeps sustains plain (program.render state.code)).bind fun next =>
        (Run.Keeps.update fun _ listed => listed.present mount next).bind fun outcome => ?_)
          world listed
      cases outcome with
      | ok => exact Run.Keeps.pure _
      | error => exact Run.Keeps.pure _

/-- A run of an effect does not panic, and no visit is owed to it afterwards: it was taken off what
it read, and has subscribed anew. -/
theorem runEffect_ends (sustains : Sustains engine) (plain : tally.Plain) {effect : Effect κ}
    {world : World κ ν σ} (listed : world.Listed tally)
    (known : tally.known id (effect.reactor, .effect)) :
    (runEffect program engine id effect).Ends world fun result after =>
      result = .ok () ∧ after.Listed (tally.clearing id) := by
  have plain' : (tally.clearing id).Plain := plain
  have marked : (world.modifyEffect id ({ · with executing := true })).Listed tally :=
    listed.modifyEffect id fun _ => ⟨rfl, rfl, rfl⟩
  obtain ⟨present, found, home⟩ := marked.effect known
  have unsubscribed : ((world.modifyEffect id ({ · with executing := true })).mapGraph
      effect.reactor (·.unsubscribe id)).Listed ((tally.clearing id).insisting id) := by
    have cleared := marked.unsubscribe found
    rwa [show (Cell.effect present : Cell κ ν).reactor = effect.reactor from home] at cleared
  have taken := takeCleanup_listed unsubscribed.of_insisting id
  have ran : ∀ middle : World κ ν σ, middle.Listed (tally.clearing id) →
      (runBody effect.reactor id (effectAct program engine id effect) >>= fun result =>
        Run.modify (·.modifyEffect id fun effect => { effect with runs := effect.runs + 1 }) >>=
          fun _ => settleRun engine id effect result >>= fun _ =>
            Run.modify (·.modifyEffect id ({ · with executing := false }))).Ends middle
        fun result after => result = .ok () ∧ after.Listed (tally.clearing id) := by
    intro middle kept
    refine (runBody_ends (effectAct_keeps sustains plain' effect) kept).bind
      (fun result after kept => ?_) fun panic after kept => ?_
    -- No visit of it is owed since it unsubscribed, so the count of its runs is free to move.
    · have counted : (after.modifyEffect id fun effect =>
          { effect with runs := effect.runs + 1 }).Listed (tally.clearing id) :=
        kept.2.countRun fun entry member => of_decide_eq_true (List.mem_filter.mp member).2
      refine .of_modify ((settleRun_ends sustains plain' counted known result).bind
        (fun _ last kept => ?_) fun panic last kept => nomatch kept.1)
      rintro _ _ ⟨⟩
      exact ⟨rfl, kept.2.modifyEffect id fun _ => ⟨rfl, rfl, rfl⟩⟩
    · obtain ⟨⟨_, failed⟩, _⟩ := kept
      cases failed
  refine .of_modify (.of_modify (.of_update ?_))
  split
  next code _ =>
    exact (cleanUp_ends sustains plain' taken known code).bind
      (fun _ middle kept => ran middle kept.2) fun _ _ kept => nomatch kept.1
  next => exact ran _ taken

theorem executeEffect_ends (sustains : Sustains engine) (plain : tally.Plain) {world : World κ ν σ}
    (listed : world.Listed tally) : (executeEffect program engine id).Ends world
      fun result after => after.Listed tally ∧
        ∀ effect, world.cell? id = some (.effect effect) → result = .ok () ∧
          (effect.active = true → effect.executing = false → after.Listed (tally.clearing id)) := by
  refine .of_world ?_
  split
  next absent =>
    rintro _ _ ⟨⟩
    refine ⟨listed, fun effect found => ?_⟩
    rw [World.effect?_eq_some_iff.mpr found] at absent
    cases absent
  next effect found =>
    have found := World.effect?_eq_some_iff.mp found
    split
    next idle =>
      rintro _ _ ⟨⟩
      refine ⟨listed, fun effect' found' => ⟨rfl, fun active quiet => ?_⟩⟩
      cases Option.some.inj (found.symm.trans found')
      -- The reactor is dead, and effects there read nothing.
      rw [active, quiet, Bool.not_true, Bool.false_or, Bool.or_false, Bool.not_eq_true'] at idle
      have cleared : world.Listed ((tally.clearing id).insisting id) := listed.of_dead found idle
      exact cleared.of_insisting
    next =>
      have known := (listed.knowing found).hold (.reactor effect.reactor)
      have plain' : (tally.knowing id (effect.reactor, .effect)).Plain := plain
      refine (runEffect_ends sustains plain' known (Or.inl ⟨rfl, rfl⟩)).thenAlways
        fun result after kept => ?_
      have cleared : (after.drop (.reactor effect.reactor)).Listed
          ((tally.clearing id).knowing id (effect.reactor, .effect)) := kept.2.drop _
      exact ⟨cleared.of_knowing.of_clearing, fun _ _ => ⟨kept.1, fun _ _ => cleared.of_knowing⟩⟩

theorem callCleanup_ends (sustains : Sustains engine) (plain : tally.Plain) {world : World κ ν σ}
    (listed : world.Listed tally) (code : κ) : (callCleanup program engine id code).Ends world
      fun result after => after.Listed tally ∧
        ∀ effect, world.cell? id = some (.effect effect) → result = .ok () := by
  refine .of_world ?_
  split
  next absent =>
    rintro _ _ ⟨⟩
    refine ⟨listed, fun effect found => ?_⟩
    rw [World.effect?_eq_some_iff.mpr found] at absent
    cases absent
  next effect _ =>
    have called : Run.Keeps (·.Listed tally)
        (runInFrame effect.reactor .untracked ((program.cleanup code).run engine)) :=
      runInFrame_keeps (Act.run_keeps sustains plain (program.cleanup code))
    refine .of_modify ((called _ (listed.record _)).attempt.bind (fun result after kept => ?_)
      fun _ _ kept => ?_)
    · obtain ⟨_, _, kept⟩ := kept
      split
      next =>
        rintro _ _ ⟨⟩
        exact ⟨kept, fun _ _ => rfl⟩
      next =>
        rintro _ _ ⟨⟩
        exact ⟨kept.report _ _, fun _ _ => rfl⟩
    · obtain ⟨_, failed, _⟩ := kept
      cases failed

/-- At every depth of nesting activations keep readers listed. -/
theorem activate_sustains (looks : ∀ code, (program.compute code).Looks) (depth : Nat) :
    Sustains (activate program depth) := by
  induction depth with
  | zero => exact ⟨fun _ _ _ _ => nofun, fun _ _ _ _ _ => nofun, fun _ _ _ _ _ _ => nofun,
      fun _ _ _ _ _ => nofun⟩
  | succ depth ih =>
    exact ⟨fun tally id => refreshComputed_keeps looks ih.refresh tally id,
      fun tally plain world id listed => executeEffect_ends ih plain listed,
      fun tally plain world id code listed => callCleanup_ends ih plain listed code,
      fun tally plain handler => Act.run_keeps ih plain (program.handler handler)⟩

end

/-- Whatever a program does from the start, readers stay listed. -/
theorem Program.run_listed [BEq ν] (program : Program κ ν σ)
    (looks : ∀ code, (program.compute code).Looks) {depth : Nat} {act : Act κ ν σ α} {user : σ}
    {result : Except Panic α} {world : World κ ν σ}
    (ran : program.run depth act (World.initial user) = some (result, world)) :
    world.Listed .none :=
  Act.run_keeps (activate_sustains looks depth) (fun _ none => none) act _
    (World.initial_listed user) result world ran

end ReactiveTree
