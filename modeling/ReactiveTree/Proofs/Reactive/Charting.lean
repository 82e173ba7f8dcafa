import ReactiveTree.Proofs.Reactive.Following

/-! # Courses of effects, acts and programs

The cleanup that is due is taken from an effect before it is called, and so a run and a stop have the
shapes that a course knows. From these, by induction on acts and on the depth of nesting, every run
of a program follows a course.
-/

namespace ReactiveTree

variable {κ ν σ α : Type} {writes : Prop} {engine : Engine κ ν σ} {id : NodeId}

namespace World

variable {world after : World κ ν σ} {effect : Effect κ}

theorem isSome_of_isAlive {owner : ReactorId} (alive : world.isAlive owner = true) :
    (world.reactor? owner).isSome := by
  unfold isAlive at alive
  cases found : world.reactor? owner with
  | none =>
    rw [found] at alive
    cases alive
  | some => rfl

theorem effect?_modifyEffect (found : world.effect? id = some effect) (change : Effect κ → Effect κ) :
    (world.modifyEffect id change).effect? id = some (change effect) := by
  rw [effect?_eq_some_iff] at found ⊢
  unfold modifyEffect
  rw [cell?_modifyCell, if_pos rfl, found]
  rfl

theorem becomes_of_shown (shown : world.Shown after) : world.Becomes writes after := by
  obtain ⟨_, _, spares⟩ := shown.spares
  exact spares.becomes

/-- A change at one node that leaves its version and what it reads alone. -/
theorem becomes_modifyNode (world : World κ ν σ) (owner : ReactorId) (id : NodeId)
    {change : Node → Node} (kept : ∀ node, (change node).id = node.id ∧
      (change node).dependencies = node.dependencies ∧ (change node).version = node.version) :
    world.Becomes writes (world.mapGraph owner (·.modify id change)) :=
  (world.spares_modifyNode owner id (fun node => ⟨(kept node).1, (kept node).2.1⟩)
    fun _ node => (kept node).2.2).becomes

/-- A computed stays one. -/
theorem Becomes.computed (becomes : world.Becomes writes after) {computed : Computed κ ν}
    (found : world.computed? id = some computed) :
    ∃ computed', after.computed? id = some computed' := by
  obtain ⟨_, course⟩ := becomes
  obtain ⟨computed', found', _⟩ := course.spares_all.computed found
  exact ⟨computed', found'⟩

/-- The cleanup of an effect that is due is taken, and then called. -/
def Clears (writes : Prop) (id : NodeId) (effect : Effect κ) (world after : World κ ν σ) : Prop :=
  ∃ start cleaning, world.Spares (· = id) (calls id effect.cleanup) start ∧
    start.effect? id = some { effect with cleanup := none } ∧ start.reactors = world.reactors ∧
      (effect.cleanup = none → cleaning = []) ∧ Course writes none start cleaning after

theorem spares_takeCleanup (world : World κ ν σ) (id : NodeId) :
    world.Spares (· = id) [] (world.takeCleanup id).2 :=
  .modifyEffect world id (fun _ => rfl) fun apart => (apart rfl).elim

theorem effect?_takeCleanup (found : world.effect? id = some effect) :
    (world.takeCleanup id).2.effect? id = some { effect with cleanup := none } :=
  effect?_modifyEffect found _

theorem due_takeCleanup (found : world.effect? id = some effect) :
    (world.takeCleanup id).1 = effect.cleanup := by
  show (world.effect? id).bind Effect.cleanup = _
  rw [found]
  rfl

theorem clears_of_none (found : world.effect? id = some effect)
    (none : (world.takeCleanup id).1 = none) :
    world.Clears writes id effect (world.takeCleanup id).2 := by
  refine ⟨_, [], ?_, effect?_takeCleanup found, rfl, fun _ => rfl, .spare (.refl _)⟩
  rw [← due_takeCleanup found, none]
  exact world.spares_takeCleanup id

theorem clears_of_some (found : world.effect? id = some effect) {code : κ}
    (due : (world.takeCleanup id).1 = some code)
    (called : ((world.takeCleanup id).2.record (.cleanedUp id code)).Becomes writes after) :
    world.Clears writes id effect after := by
  obtain ⟨cleaning, course⟩ := called
  refine ⟨(world.takeCleanup id).2.record (.cleanedUp id code), cleaning, ?_,
    effect?_takeCleanup found, rfl, fun bare => ?_, course⟩
  · rw [← due_takeCleanup found, due]
    exact (world.spares_takeCleanup id).trans (.cleanedUp _ id code)
  · rw [← due_takeCleanup found, due] at bare
    cases bare

/-- An effect is the same after another node, or it itself, has left the graph. -/
theorem effect?_retire (found : world.effect? id = some effect) (other : NodeId) :
    ∃ effect', (world.retire other).effect? id = some effect' ∧
      (Cell.effect effect' : Cell κ ν).core = (Cell.effect effect).core := by
  have same : (world.unregister other).2.cell? id = world.cell? id := by
    unfold World.unregister
    split <;> rfl
  have found' : (world.unregister other).2.effect? id = some effect := by
    rw [effect?_eq_some_iff, same]
    exact effect?_eq_some_iff.mp found
  obtain ⟨_, _, dropped⟩ : ∃ events, Deaths events ∧ (world.unregister other).2.Spares
      (fun _ => False) events (world.retire other) := (world.unregister other).2.spares_dropAll _ _
  obtain ⟨effect', found'', _, core⟩ := dropped.effect found'
  exact ⟨effect', found'', core not_false⟩

/-- An effect ends: it is active no longer, and the cleanup that is due is called. -/
def Stops (writes : Prop) (id : NodeId) (effect : Effect κ) (world after : World κ ν σ) : Prop :=
  ∃ start events ended cleaning, world.Spares (· = id) (calls id effect.cleanup ++ events) start ∧
    Deaths events ∧ start.effect? id = some ended ∧
      (ended.active = false ∧ ended.cleanup = none) ∧ Course writes none start cleaning after

theorem Stops.followed {middle : World κ ν σ} (stops : world.Stops writes id effect middle)
    (becomes : middle.Becomes writes after) : world.Stops writes id effect after := by
  obtain ⟨start, events, ended, cleaning, begun, deaths, now, stopped, course⟩ := stops
  obtain ⟨later, course'⟩ := becomes
  exact ⟨start, events, ended, later ++ cleaning, begun, deaths, now, stopped, course.trans course'⟩

theorem Stops.becomes (stops : world.Stops writes id effect after) (may : writes)
    (found : world.effect? id = some effect) (active : effect.active = true) :
    world.Becomes writes (after.record (.stopped id)) := by
  obtain ⟨start, events, ended, cleaning, begun, deaths, now, stopped, course⟩ := stops
  exact ⟨_, .stop may found active begun deaths now stopped course⟩

/-- What a stop does before the cleanup is taken. -/
theorem stops_of_clears {middle : World κ ν σ} {ended : Effect κ} {events : List (Event κ ν)}
    (deaths : Deaths events) (taken : world.Spares (· = id) events middle)
    (stopped : ended.active = false) (due : ended.cleanup = effect.cleanup)
    (clears : middle.Clears writes id ended after) : world.Stops writes id effect after := by
  obtain ⟨start, cleaning, begun, now', _, _, course⟩ := clears
  rw [due] at begun
  exact ⟨start, events, _, cleaning, taken.trans begun, deaths, now', ⟨stopped, rfl⟩, course⟩

/-- Deactivating an effect. -/
theorem spares_deactivate (world : World κ ν σ) (id : NodeId) :
    world.Spares (· = id) [] (world.modifyEffect id ({ · with active := false })) :=
  .modifyEffect world id (fun _ => rfl) fun apart => (apart rfl).elim

theorem effect?_deactivate (found : world.effect? id = some effect) :
    (world.modifyEffect id ({ · with active := false })).effect? id =
      some { effect with active := false } :=
  effect?_modifyEffect found _

/-- What is left of an effect in a dead reactor is given up. -/
theorem becomes_abandon (world : World κ ν σ) (may : writes) (found : world.effect? id = some effect)
    (active : effect.active = true) (dead : world.isAlive effect.reactor = false) :
    world.Becomes writes (((world.modifyEffect id ({ · with active := false })).takeCleanup id).2.record
      (.stopped id)) := by
  have given : world.Spares (· = id) [.stopped id]
      (((world.modifyEffect id ({ · with active := false })).takeCleanup id).2.record
        (.stopped id)) :=
    ((world.spares_deactivate id).trans (spares_takeCleanup _ id)).trans (.stopped _ id)
  exact ⟨_, .abandon may found active dead given (effect?_takeCleanup (effect?_deactivate found))
    ⟨rfl, rfl⟩⟩

end World

section

variable (charts : Charts writes engine) (may : writes)

include charts may

/-- Taking the cleanup that is due, and calling it. -/
theorem takeCleanup_ends {world : World κ ν σ} {effect : Effect κ}
    (found : world.effect? id = some effect) :
    (Run.update (·.takeCleanup id) >>= fun due =>
      match due with
      | some code => engine (.cleanUp id code)
      | none => pure ()).Ends world
      fun result after => result = .ok () ∧ world.Clears writes id effect after := by
  refine .of_update ?_
  split
  next code due =>
    exact (charts.cleanUp may _ id code _ (World.effect?_takeCleanup found)).mono
      fun _ _ called => ⟨called.1, World.clears_of_some found due called.2⟩
  next none =>
    rintro _ _ ⟨⟩
    exact ⟨rfl, World.clears_of_none found none⟩

/-- An effect in a living reactor leaves the graph before its cleanup is called. -/
theorem stopLiving_ends {world : World κ ν σ} {effect : Effect κ}
    (found : world.effect? id = some effect) :
    (Run.holding (.reactor effect.reactor) (Run.modify (·.retire id) >>= fun _ =>
      Run.update (·.takeCleanup id) >>= fun due =>
        match due with
        | some code => engine (.cleanUp id code)
        | none => pure ())).Ends (world.modifyEffect id ({ · with active := false }))
      fun result after => result = .ok () ∧ world.Stops writes id effect after := by
  have held : world.Spares (· = id) [] ((world.modifyEffect id ({ · with active := false })).hold
      (.reactor effect.reactor)) :=
    (world.spares_deactivate id).trans (World.spares_hold _ _)
  have now : ((world.modifyEffect id ({ · with active := false })).hold
      (.reactor effect.reactor)).effect? id = some { effect with active := false } :=
    World.effect?_deactivate found
  obtain ⟨events, deaths, retired⟩ := @World.spares_retire _ _ _ (· = id) _ id fun _ _ => rfl
  obtain ⟨ended, now', same⟩ := World.effect?_retire now id
  obtain ⟨due, stopped, _⟩ := Effect.of_core same
  refine .of_modify (Run.Ends.thenAlways (.of_modify (takeCleanup_ends charts may now'))
    fun result after taken => ⟨taken.1, ?_⟩)
  have taken' := held.trans retired
  rw [List.append_nil] at taken'
  exact (World.stops_of_clears deaths taken' stopped due taken.2).followed
    (World.becomes_drop after (.reactor effect.reactor))

theorem stopEffect_follows (id : NodeId) : Run.Follows writes (stopEffect engine id) := by
  refine Run.Follows.world_bind fun world => ?_
  split
  next => exact Run.Follows.raise _ world
  next effect found =>
    split
    next => exact Run.Follows.pure () world
    next active =>
      rw [Bool.not_eq_true, Bool.not_eq_false'] at active
      refine .of_modify ?_
      split
      next =>
        refine (stopLiving_ends charts may found).bind (fun _ after stopped => ?_)
          fun _ _ stopped => nomatch stopped.1
        rintro _ _ ⟨⟩
        exact stopped.2.becomes may found active
      next dead =>
        rintro _ _ ⟨⟩
        exact world.becomes_abandon may found active (Bool.not_eq_true _ ▸ dead)

theorem disposeReactor_follows (id : ReactorId) :
    Run.Follows writes (disposeReactor engine id) := by
  have told : ∀ (event : Event κ ν), (∀ id, ¬ event.Concerns id) → ¬ event.IsTracked →
      Run.Follows writes (Run.modify fun world : World κ ν σ => world.record event) :=
    fun event quiet unread => .modify fun world => world.becomes_record event quiet unread
  refine (told (.disposing id) (fun _ => not_false) not_false).bind fun _ =>
    Run.Follows.world_bind fun world => ?_
  exact ((Run.Follows.modify fun world => (world.spares_foldl_hold _ _).becomes).bind fun _ =>
    (Run.Follows.forEach fun effect => (stopEffect_follows charts may effect).thenAlways
      (.modify fun world => world.becomes_drop _)).bind fun _ =>
        told (.disposed id) (fun _ => not_false) not_false) world

theorem unmount_follows (id : MountId) : Run.Follows writes (unmount engine id) := by
  refine Run.Follows.world_bind fun world => ?_
  split
  next => exact Run.Follows.pure _ world
  next mount _ =>
    refine ((stopEffect_follows charts may mount.effect).bind fun _ =>
      .update fun world => ?_) world
    exact World.becomes_of_shown (World.shown_withdraw world id)

omit may in
theorem newComputed_follows (owner : ReactorId) (body : κ) :
    Run.Follows writes (newComputed engine owner body) := by
  refine (Run.Follows.update fun world =>
    (world.spares_addHolding (.computed ⟨owner, body, none, false, 1⟩) nofun).becomes).bind
      fun id => (charts.refresh id).attempt.bind fun result => ?_
  split
  next => exact Run.Follows.pure id
  next =>
    exact (Run.Follows.modify fun world => world.becomes_report _ _).bind fun _ =>
      Run.Follows.pure id

theorem newEffect_follows (owner : ReactorId) (body : EffectBody κ) (eager : Bool) :
    Run.Follows writes (newEffect engine owner body eager) := by
  refine (Run.Follows.update fun world => (world.spares_addCell
    (.effect ⟨owner, body, false, none, true, false, 0, 2⟩) ?_).becomes).bind fun id => ?_
  · rintro _ ⟨⟩
    exact ⟨rfl, rfl, rfl⟩
  split
  next => exact (charts.execute may id).bind fun _ => Run.Follows.pure id
  next => exact Run.Follows.pure id

theorem newMount_follows (owner : ReactorId) (document : DocumentId) (container : HostId)
    (render : κ) : Run.Follows writes (newMount engine owner document container render) := by
  refine Run.Follows.world_bind fun world => .of_modify (Run.Follows.from ?_
    (((newEffect_follows charts may owner _ true).bind fun _ => Run.Follows.pure _) _))
  exact World.becomes_of_shown ⟨rfl, rfl, [], nofun, rfl⟩

end

variable [BEq ν]

/-- What only looks is allowed in any case. -/
theorem perform_follows (charts : Charts writes engine) (request : Request κ ν σ)
    (allowed : writes ∨ request.Looks) : Run.Follows writes (perform engine request) := by
  unfold perform
  cases request with
  | newReactor settings =>
    exact Run.Follows.update fun world => (world.spares_addReactor settings).becomes
  | newSignal reactor value =>
    exact Run.Follows.update fun world =>
      (world.spares_addHolding (.signal ⟨reactor, value, false, 1⟩) nofun).becomes
  | newComputed reactor body => exact newComputed_follows charts reactor body
  | newEffect reactor body eager =>
    exact newEffect_follows charts (allowed.resolve_right id) reactor _ eager
  | subscribe signal callback =>
    refine Run.Follows.world_bind fun world => ?_
    split
    next => exact Run.Follows.raise _ world
    next state _ =>
      exact ((Run.Follows.modify fun world => world.becomes_hold _).bind fun _ =>
        newEffect_follows charts (allowed.resolve_right id) state.reactor _ true) world
  | newDocument =>
    exact Run.Follows.update fun world => World.becomes_of_shown ⟨rfl, rfl, [], nofun, rfl⟩
  | mount reactor document container render =>
    exact newMount_follows charts (allowed.resolve_right id) reactor document container render
  | unmount mount => exact unmount_follows charts (allowed.resolve_right id) mount
  | get node => exact readNode_follows true (charts.refresh node)
  | peek node => exact readNode_follows false (charts.refresh node)
  | tryGet node => exact tryComputed_follows (charts.refresh node)
  | stored signal =>
    exact Run.Follows.world_bind fun world => Run.Follows.pure _ world
  | set signal value => exact writeSignal_follows charts (allowed.resolve_right id) signal value
  | label node text =>
    refine Run.Follows.modify fun world => ?_
    split
    next cell _ =>
      exact world.becomes_modifyNode cell.reactor node fun _ => ⟨rfl, rfl, rfl⟩
    next => exact .refl world
  | execute effect =>
    exact (Run.Follows.modify fun world =>
      world.becomes_record (.executed effect) (fun _ => not_false) not_false).bind fun _ =>
        charts.execute (allowed.resolve_right id) effect
  | stop effect => exact stopEffect_follows charts (allowed.resolve_right id) effect
  | destroy signal =>
    refine Run.Follows.modify fun world => ?_
    obtain ⟨_, spares⟩ := world.spares_destroySignal signal
    exact spares.becomes
  | dispose reactor => exact disposeReactor_follows charts (allowed.resolve_right id) reactor
  | invoke handler => exact charts.invoke (allowed.resolve_right id) handler
  | hold handle => exact Run.Follows.modify fun world => world.becomes_hold handle
  | drop handle => exact Run.Follows.modify fun world => world.becomes_drop handle
  | note value =>
    exact Run.Follows.modify fun world => world.becomes_record _ (fun _ => not_false) not_false
  | look => exact Run.Follows.world_bind fun world => Run.Follows.pure world world
  | store user =>
    exact Run.Follows.modify fun world => World.becomes_of_shown ⟨rfl, rfl, [], nofun, rfl⟩

theorem Act.run_follows (charts : Charts writes engine) (act : Act κ ν σ α)
    (allowed : writes ∨ act.Looks) : Run.Follows writes (act.run engine) := by
  induction act with
  | pure value => exact Run.Follows.pure value
  | raise panic => exact Run.Follows.raise panic
  | bind first next ih ih' =>
    exact (ih (allowed.imp_right And.left)).bind fun value =>
      ih' value (allowed.imp_right fun looks => looks.2 value)
  | call request => exact perform_follows charts request allowed
  | within scope body ih =>
    cases scope with
    | batch reactor =>
      have may : writes := allowed.resolve_right id
      have opened : ∀ world : World κ ν σ,
          world.Becomes writes (world.modifyReactor reactor Reactor.openBatch) :=
        fun world => world.becomes_modifyReactor reactor fun _ => ⟨rfl, rfl, rfl⟩
      exact (Run.Follows.modify opened).bind fun _ =>
        (ih (Or.inl may)).thenAlways (closeBatch_follows charts may reactor)
    | untracked reactor => exact runInFrame_follows (ih allowed)
  | attempt body ih => exact (ih allowed).attempt

section

variable {program : Program κ ν σ}

/-- The body of a computed runs, and its value is kept. -/
theorem evaluate_follows (charts : Charts writes engine)
    (allowed : writes ∨ ∀ code, (program.compute code).Looks) (state : Computed κ ν)
    {world : World κ ν σ} {computed : Computed κ ν} (found : world.computed? id = some computed) :
    (evaluate program engine id state).Ends world fun _ after => world.Becomes writes after := by
  refine .of_world ?_
  split
  next => exact Run.Follows.raise _ world
  next =>
    have entered : world.Spares (fun _ => False) []
        (world.modifyComputed id ({ · with computing := true })) :=
      .modifyComputed world id (fun _ => rfl) fun _ => rfl
    obtain ⟨computed', found', _⟩ := entered.computed found
    have unsubscribed : world.Spares (fun _ => False) []
        ((world.modifyComputed id ({ · with computing := true })).mapGraph state.reactor
          (·.unsubscribe id)) :=
      entered.trans (World.spares_unsubscribe _ _ (Or.inl ⟨computed', found'⟩))
    obtain ⟨computed'', found'', _⟩ := unsubscribed.computed found
    have started : world.Spares (fun _ => False) [.started id]
        (((world.modifyComputed id ({ · with computing := true })).mapGraph state.reactor
          (·.unsubscribe id)).record (.started id)) :=
      unsubscribed.trans (.record _ (.started id)
        (fun other same => Or.inr ⟨computed'', (show id = other from same) ▸ found''⟩) not_false)
    have looks : writes ∨ (program.compute state.body).Looks :=
      allowed.imp_right fun looks => looks state.body
    refine .of_modify (.of_modify ((runBody_follows
      (Act.run_follows charts (program.compute state.body) looks) _).bind
        (fun result after ran => ?_) fun panic after ran => ?_))
    · have left : after.Becomes writes
          (after.modifyComputed id ({ · with computing := false })) :=
        World.Spares.becomes (.modifyComputed after id (fun _ => rfl) fun _ => rfl)
      have begun := (started.becomes.trans ran.2).trans left
      obtain ⟨last, known⟩ := begun.computed found
      cases result with
      | ok value =>
        rintro _ _ ⟨⟩
        obtain ⟨_, settled⟩ := World.spares_settleValue _ known state value
        exact begun.trans settled.becomes
      | error panic =>
        rintro _ _ ⟨⟩
        exact begun.trans (World.becomes_modifyNode _ state.reactor id fun _ => ⟨rfl, rfl, rfl⟩)
    · obtain ⟨⟨_, failed⟩, _⟩ := ran
      cases failed

theorem checkInputs_follows (charts : Charts writes engine)
    (allowed : writes ∨ ∀ code, (program.compute code).Looks) (state : Computed κ ν)
    (inputs : List (NodeId × Nat)) {world : World κ ν σ} {computed : Computed κ ν}
    (found : world.computed? id = some computed) :
    (checkInputs program engine id state inputs).Ends world
      fun _ after => world.Becomes writes after := by
  induction inputs generalizing world computed with
  | nil =>
    rintro _ _ ⟨⟩
    exact world.becomes_modifyNode state.reactor id fun _ => ⟨rfl, rfl, rfl⟩
  | cons entry rest ih =>
    refine (charts.refresh entry.1 world).bind (fun _ after begun => .of_world ?_)
      fun _ _ begun => begun
    obtain ⟨computed', found'⟩ := begun.computed found
    split
    next => exact Run.Follows.from begun (evaluate_follows charts allowed state found')
    next => exact Run.Follows.from begun (ih found')

theorem refreshComputed_follows (charts : Charts writes engine)
    (allowed : writes ∨ ∀ code, (program.compute code).Looks) (id : NodeId) :
    Run.Follows writes (refreshComputed program engine id) := by
  refine Run.Follows.world_bind fun world => ?_
  split
  next => exact Run.Follows.pure () world
  next computed found =>
    have held : ∀ body : Run κ ν σ Unit, (body.Ends (world.hold (.node id))
        fun _ after => (world.hold (.node id)).Becomes writes after) →
        (Run.holding (.node id) body).Ends world fun _ after => world.Becomes writes after :=
      fun body follows => .of_modify (follows.thenAlways fun _ after begun =>
        (world.becomes_hold _).trans (begun.trans (after.becomes_drop _)))
    have begun : world.Becomes writes (world.hold (.node id)) := world.becomes_hold _
    obtain ⟨_, found'⟩ := begun.computed found
    dsimp only
    split
    next => exact Run.Follows.pure () world
    next => exact Run.Follows.pure () world
    next => exact held _ (evaluate_follows charts allowed computed found')
    next => exact held _ (checkInputs_follows charts allowed computed _ found')

theorem effectAct_follows (charts : Charts writes engine) (may : writes) (id : NodeId)
    (effect : Effect κ) : Run.Follows writes (effectAct program engine id effect) := by
  unfold effectAct
  cases effect.body with
  | plain code => exact Act.run_follows charts (program.effect code) (Or.inl may)
  | watch signal callback =>
    refine (readNode_follows true (charts.refresh signal)).bind fun value =>
      Run.Follows.world_bind fun world => ?_
    split
    next =>
      have delivered : Run.Follows writes (Run.modify fun world : World κ ν σ =>
          world.record (.delivered id value)) :=
        .modify fun world => world.becomes_record _ (fun _ => not_false) not_false
      exact (delivered.bind fun _ =>
        (Act.run_follows charts (program.callback callback value) (Or.inl may)).bind fun _ =>
          Run.Follows.pure _) world
    next =>
      have primed : Run.Follows writes (Run.modify fun world : World κ ν σ =>
          world.modifyEffect id ({ · with primed := true })) :=
        .modify fun world => World.Spares.becomes
          (.modifyEffect world id (fun _ => rfl) fun _ _ => rfl)
      exact (primed.bind fun _ => Run.Follows.pure _) world
  | render mount =>
    refine Run.Follows.world_bind fun world => ?_
    split
    next => exact Run.Follows.pure _ world
    next state _ =>
      refine ((Act.run_follows charts (program.render state.code) (Or.inl may)).bind fun next =>
        (Run.Follows.update fun world => World.becomes_of_shown
          (World.shown_present world mount next)).bind fun outcome => ?_) world
      cases outcome with
      | ok => exact Run.Follows.pure _
      | error => exact Run.Follows.pure _

omit [BEq ν] in
/-- What a body has left is settled; then the run is over. -/
theorem settleRun_settles (charts : Charts writes engine) (may : writes) {effect present : Effect κ}
    {last : World κ ν σ} (found : last.effect? id = some present)
    (given : Except Panic (Except String (Option κ))) :
    (settleRun engine id effect given).Ends last fun result after =>
      result = .ok () ∧ ∃ later, World.Settles writes id last later (after.endRun id) := by
  have reported : ∀ message, (Run.modify fun world : World κ ν σ =>
      world.report effect.reactor (.failedEffect id message)).Ends last fun result after =>
        result = .ok () ∧ ∃ later, World.Settles writes id last later (after.endRun id) := by
    rintro message _ _ ⟨⟩
    obtain ⟨_, spares⟩ := last.spares_report effect.reactor (.failedEffect id message)
    exact ⟨rfl, _, .finish spares⟩
  unfold settleRun
  split
  next =>
    rintro _ _ ⟨⟩
    exact ⟨rfl, _, .finish (.refl last)⟩
  next code =>
    have known : (last.record (.leftCleanup id code)).effect? id = some present := found
    refine .of_modify (.of_world ?_)
    rw [known]
    split
    next active =>
      rintro _ _ ⟨⟩
      exact ⟨rfl, _, .keep found active⟩
    next stopped =>
      refine (charts.cleanUp may _ id code present known).mono fun result after called =>
        ⟨called.1, ?_⟩
      obtain ⟨_, course⟩ := called.2
      exact ⟨_, .late found (Bool.eq_false_of_not_eq_true stopped) course⟩
  next message => exact reported message
  next panic => exact reported panic.message

/-- An idle effect runs. -/
theorem runEffect_runs (charts : Charts writes engine) (may : writes) {effect : Effect κ}
    {world : World κ ν σ} (found : world.effect? id = some effect) (active : effect.active = true)
    (idle : effect.executing = false) (alive : world.isAlive effect.reactor = true) :
    (runEffect program engine id effect).Ends world
      fun result after => result = .ok () ∧ ∃ events, World.Runs writes id world events after := by
  have marked : world.Spares (· = id) []
      ((world.modifyEffect id ({ · with executing := true })).mapGraph effect.reactor
        (·.unsubscribe id)) := by
    have executing : world.Spares (· = id) []
        (world.modifyEffect id ({ · with executing := true })) :=
      .modifyEffect world id (fun _ => rfl) fun apart => (apart rfl).elim
    exact executing.trans (World.spares_unsubscribe _ _ (Or.inr rfl))
  have now : ((world.modifyEffect id ({ · with executing := true })).mapGraph effect.reactor
      (·.unsubscribe id)).effect? id = some { effect with executing := true } :=
    World.effect?_modifyEffect found ({ · with executing := true })
  have live : ∀ owner, ((world.graph owner).node? id).isSome →
      ((((world.modifyEffect id ({ · with executing := true })).mapGraph effect.reactor
        (·.unsubscribe id)).graph owner).node? id).isSome := by
    intro owner there
    rw [World.graph_mapGraph _ _ rfl]
    split
    next same =>
      obtain ⟨_, eq, _⟩ := Graph.unsubscribe_cases
        ((world.modifyEffect id ({ · with executing := true })).graph effect.reactor) id id
      rw [eq, Option.isSome_map]
      exact same ▸ there
    next => exact there
  have ran : ∀ middle, World.Clears writes id { effect with executing := true }
      ((world.modifyEffect id ({ · with executing := true })).mapGraph effect.reactor
        (·.unsubscribe id)) middle →
      (runBody effect.reactor id (effectAct program engine id effect) >>= fun result =>
        Run.modify (·.modifyEffect id fun effect => { effect with runs := effect.runs + 1 }) >>=
          fun _ => settleRun engine id effect result >>= fun _ =>
            Run.modify (·.modifyEffect id ({ · with executing := false }))).Ends middle
        fun result after => result = .ok () ∧ ∃ events, World.Runs writes id world events after := by
    rintro middle ⟨start, cleaning, taken, executing, same, bare, course⟩
    have begun := marked.trans taken
    rw [List.append_nil] at begun
    have live' : ∀ owner, ((world.graph owner).node? id).isSome →
        ((start.graph owner).node? id).isSome := fun owner there => by
      rw [World.graph_of_reactors same]
      exact live owner there
    refine (runBody_follows (effectAct_follows charts may id effect) middle).bind
      (fun result last ran => ?_) fun panic last ran => ?_
    · obtain ⟨_, running, course'⟩ := ran
      have body : World.Course writes (some id) world _ (last.countRun id) :=
        .body may found active idle alive begun executing live' bare course course'
      obtain ⟨present, known, _⟩ := body.spares_all.effect found
      refine .of_modify ((settleRun_settles charts may known result).bind
        (fun _ after settled => ?_) fun _ _ settled => nomatch settled.1)
      rintro _ _ ⟨⟩
      obtain ⟨later, settles⟩ := settled.2
      exact ⟨rfl, _, _, _, later, body, settles, rfl⟩
    · obtain ⟨⟨_, failed⟩, _⟩ := ran
      cases failed
  refine .of_modify (.of_modify (.of_update ?_))
  split
  next code due =>
    exact (charts.cleanUp may _ id code _ (World.effect?_takeCleanup now)).bind
      (fun _ middle called => ran middle (World.clears_of_some now due called.2))
        fun _ _ called => nomatch called.1
  next none => exact ran _ (World.clears_of_none now none)

/-- The reactor is held meanwhile. -/
theorem heldRun_ends (charts : Charts writes engine) (may : writes) {effect : Effect κ}
    {world : World κ ν σ} (found : world.effect? id = some effect) (active : effect.active = true)
    (idle : effect.executing = false) (alive : world.isAlive effect.reactor = true) :
    (Run.holding (.reactor effect.reactor) (runEffect program engine id effect)).Ends world
      fun result after => result = .ok () ∧ ∃ events left,
        World.Runs writes id (world.hold (.reactor effect.reactor)) events left ∧
          after = left.drop (.reactor effect.reactor) := by
  have found' : (world.hold (.reactor effect.reactor)).effect? id = some effect := found
  have alive' : (world.hold (.reactor effect.reactor)).isAlive effect.reactor = true :=
    World.isAlive_hold (World.isSome_of_isAlive alive)
  refine .of_modify ((runEffect_runs charts may found' active idle alive').thenAlways
    fun _ after ran => ?_)
  obtain ⟨succeeded, events, runs⟩ := ran
  exact ⟨succeeded, events, after, runs, rfl⟩

/-- An effect that is active and idle runs, in a reactor that lives. -/
theorem executeEffect_runs (charts : Charts writes engine) (may : writes) {effect : Effect κ}
    {world : World κ ν σ} (found : world.effect? id = some effect) (active : effect.active = true)
    (idle : effect.executing = false) (alive : world.isAlive effect.reactor = true) :
    (executeEffect program engine id).Ends world fun result after => result = .ok () ∧
      ∃ events left, World.Runs writes id (world.hold (.reactor effect.reactor)) events left ∧
        after = left.drop (.reactor effect.reactor) := by
  refine .of_world ?_
  rw [found]
  dsimp only
  rw [active, alive, idle]
  exact heldRun_ends charts may found active idle alive

theorem executeEffect_follows (charts : Charts writes engine) (may : writes) (id : NodeId) :
    Run.Follows writes (executeEffect program engine id) := by
  refine Run.Follows.world_bind fun world => ?_
  split
  next => exact Run.Follows.raise _ world
  next effect found =>
    split
    next => exact Run.Follows.pure () world
    next ready =>
      rw [Bool.or_eq_true, Bool.or_eq_true, not_or, not_or, Bool.not_eq_true', Bool.not_eq_true',
        Bool.not_eq_false, Bool.not_eq_false, Bool.not_eq_true] at ready
      obtain ⟨⟨active, alive⟩, idle⟩ := ready
      refine (heldRun_ends charts may found active idle alive).mono fun result after ran => ?_
      obtain ⟨_, events, left, runs, rfl⟩ := ran
      have course : (world.hold (.reactor effect.reactor)).Becomes writes left :=
        ⟨events, runs.course⟩
      exact ((world.becomes_hold _).trans course).trans (left.becomes_drop _)

/-- A cleanup is called, and a panic in it reported. -/
theorem callCleanup_follows (charts : Charts writes engine) (may : writes) {effect : Effect κ}
    {world : World κ ν σ} (found : world.effect? id = some effect) (code : κ) :
    (callCleanup program engine id code).Ends world fun result after =>
      result = .ok () ∧ (world.record (.cleanedUp id code)).Becomes writes after := by
  refine .of_world ?_
  rw [found]
  have called : Run.Follows writes
      (runInFrame effect.reactor .untracked ((program.cleanup code).run engine)) :=
    runInFrame_follows (Act.run_follows charts (program.cleanup code) (Or.inl may))
  refine .of_modify ((called _).attempt.bind (fun result after ran => ?_) fun _ _ ran => ?_)
  · obtain ⟨_, _, ran⟩ := ran
    split
    next =>
      rintro _ _ ⟨⟩
      exact ⟨rfl, ran⟩
    next =>
      rintro _ _ ⟨⟩
      exact ⟨rfl, ran.trans (World.becomes_report _ _ _)⟩
  · obtain ⟨_, failed, _⟩ := ran
    cases failed

/-- At every depth of nesting activations follow courses. -/
theorem activate_charts (allowed : writes ∨ ∀ code, (program.compute code).Looks) (depth : Nat) :
    Charts writes (activate program depth) := by
  induction depth with
  | zero => exact ⟨fun _ => .stuck, fun _ _ => .stuck, fun _ _ _ _ _ _ _ _ => nofun, fun _ _ => .stuck⟩
  | succ depth ih =>
    exact ⟨refreshComputed_follows ih allowed, executeEffect_follows ih,
      fun may world id code effect found => callCleanup_follows ih may found code,
      fun may handler => Act.run_follows ih (program.handler handler) (Or.inl may)⟩

/-- Every run of a program follows a course. -/
theorem Program.run_follows (program : Program κ ν σ) (depth : Nat) (act : Act κ ν σ α) :
    Run.Follows True (program.run depth act) :=
  Act.run_follows (activate_charts (Or.inl trivial) depth) act (Or.inl trivial)

end

end ReactiveTree
