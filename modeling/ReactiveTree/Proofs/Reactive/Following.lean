import ReactiveTree.Proofs.Reactive.Courses
import ReactiveTree.Proofs.Reactive.Keeping

/-! # Every run follows a course

One lemma for each operation, then one for each activation, and from them by induction on the act
and on the depth of nesting: what a run does to a world is a course. If closures of computeds only
look, then so do acts that only look, computeds that are brought up to date included: their courses
never write.
-/

namespace ReactiveTree

variable {κ ν σ α β : Type} {writes : Prop} {engine : Engine κ ν σ}

namespace Run

/-- However the run ends, it has followed a course. -/
def Follows (writes : Prop) (run : Run κ ν σ α) : Prop :=
  ∀ world, run.Ends world fun _ after => world.Becomes writes after

variable {world middle : World κ ν σ}

theorem Follows.pure (value : α) : Follows writes (Pure.pure value : Run κ ν σ α) := by
  rintro world _ _ ⟨⟩
  exact .refl world

theorem Follows.raise (panic : Panic) : Follows writes (Run.raise panic : Run κ ν σ α) := by
  rintro world _ _ ⟨⟩
  exact .refl world

theorem Follows.stuck : Follows writes (Run.stuck : Run κ ν σ α) :=
  fun _ _ _ => nofun

/-- What follows a course from the middle on follows one from the start. -/
theorem Follows.from (start : world.Becomes writes middle) {run : Run κ ν σ α}
    (follows : run.Ends middle fun _ after => middle.Becomes writes after) :
    run.Ends middle fun _ after => world.Becomes writes after :=
  follows.mono fun _ _ finish => start.trans finish

theorem Follows.bind {first : Run κ ν σ α} {next : α → Run κ ν σ β} (start : Follows writes first)
    (goOn : ∀ value, Follows writes (next value)) : Follows writes (first >>= next) :=
  fun world => (start world).bind (fun value after begun => Follows.from begun (goOn value after))
    fun _ _ begun => begun

/-- A run that looks at the world first. -/
theorem Follows.world_bind {next : World κ ν σ → Run κ ν σ α}
    (goOn : ∀ world, (next world).Ends world fun _ after => world.Becomes writes after) :
    Follows writes (Run.world >>= next) :=
  goOn

theorem Follows.modify {change : World κ ν σ → World κ ν σ}
    (changes : ∀ world : World κ ν σ, world.Becomes writes (change world)) :
    Follows writes (Run.modify change) := by
  rintro world _ _ ⟨⟩
  exact changes world

theorem Follows.update {change : World κ ν σ → α × World κ ν σ}
    (changes : ∀ world : World κ ν σ, world.Becomes writes (change world).2) :
    Follows writes (Run.update change) := by
  rintro world _ _ ⟨⟩
  exact changes world

theorem Follows.attempt {body : Run κ ν σ α} (follows : Follows writes body) :
    Follows writes body.attempt := by
  intro world
  refine (follows world).attempt.mono ?_
  rintro _ after ⟨_, _, begun⟩
  exact begun

theorem Follows.ofResult (result : Except Panic α) :
    Follows writes (Run.ofResult result : Run κ ν σ α) := by
  intro world result' after ran
  rw [ofResult_apply] at ran
  cases ran
  exact .refl _

theorem Follows.thenAlways {body : Run κ ν σ α} {finish : Run κ ν σ Unit}
    (follows : Follows writes body) (follows' : Follows writes finish) :
    Follows writes (body.thenAlways finish) :=
  follows.attempt.bind fun result => follows'.bind fun _ => .ofResult result

theorem Follows.forEach {members : List α} {body : α → Run κ ν σ Unit}
    (follows : ∀ member, Follows writes (body member)) :
    Follows writes (Run.forEach members body) := by
  induction members with
  | nil => exact .pure ()
  | cons member rest ih => exact (follows member).bind fun _ => ih

end Run

namespace World

variable {world : World κ ν σ}

theorem becomes_hold (world : World κ ν σ) (handle : Handle) :
    world.Becomes writes (world.hold handle) :=
  (world.spares_hold handle).becomes

theorem becomes_drop (world : World κ ν σ) (handle : Handle) :
    world.Becomes writes (world.drop handle) := by
  obtain ⟨_, _, spares⟩ := world.spares_drop handle
  exact spares.becomes

/-- An event that is neither about a node nor a tracked read. -/
theorem becomes_record (world : World κ ν σ) (event : Event κ ν)
    (quiet : ∀ id, ¬ event.Concerns id) (unread : ¬ event.IsTracked) :
    world.Becomes writes (world.record event) :=
  (Spares.record world event (fun id concerns => (quiet id concerns).elim) unread).becomes

theorem spares_report (world : World κ ν σ) (id : ReactorId) (failure : ReactiveFailure) :
    ∃ events, world.Spares (fun _ => False) events (world.report id failure) := by
  unfold World.report
  split
  next =>
    split
    next => exact ⟨_, .record world (.failed failure) (fun _ => False.elim) not_false⟩
    next => exact ⟨[], .refl world⟩
  next => exact ⟨[], .refl world⟩

theorem becomes_report (world : World κ ν σ) (id : ReactorId) (failure : ReactiveFailure) :
    world.Becomes writes (world.report id failure) := by
  obtain ⟨_, spares⟩ := world.spares_report id failure
  exact spares.becomes

/-- A change of the frames or the batches of a reactor. -/
theorem becomes_modifyReactor (world : World κ ν σ) (owner : ReactorId) {change : Reactor → Reactor}
    (kept : ∀ state, (change state).graph = state.graph ∧ (change state).chains = state.chains ∧
      (change state).holders = state.holders) :
    world.Becomes writes (world.modifyReactor owner change) := by
  refine Spares.becomes (.modifyReactor world owner (fun state _ => (kept state).1)
    (fun state _ => (kept state).2.1) fun state _ living => ?_)
  unfold Reactor.isAlive at living ⊢
  rwa [(kept state).2.2]

end World

theorem readComputed_follows {id : NodeId} (refresh : Run.Follows writes (engine (.refresh id))) :
    Run.Follows writes (readComputed engine id) := by
  refine refresh.bind fun _ => Run.Follows.world_bind fun world => ?_
  split
  next value _ => exact Run.Follows.pure value world
  next => exact Run.Follows.raise _ world

theorem readNode_follows {id : NodeId} (tracked : Bool)
    (refresh : Run.Follows writes (engine (.refresh id))) :
    Run.Follows writes (readNode engine id tracked) := by
  refine Run.Follows.world_bind fun world => ?_
  split
  next signal found =>
    refine (requireLive_ends signal id "read" world).bind (fun _ after same => ?_)
      fun _ after same => same ▸ .refl _
    subst same
    cases tracked with
    | false => exact Run.Follows.pure signal.value after
    | true =>
      rintro _ _ ⟨⟩
      obtain ⟨_, noted⟩ := after.spares_noteRead found nofun
      exact noted.becomes
  next computed found =>
    cases tracked with
    | false => exact readComputed_follows refresh world
    | true =>
      obtain ⟨_, noted⟩ := world.spares_noteRead found nofun
      exact Run.Follows.from noted.becomes (readComputed_follows refresh _)
  next => exact Run.Follows.raise _ world

theorem tryComputed_follows {id : NodeId} (refresh : Run.Follows writes (engine (.refresh id))) :
    Run.Follows writes (tryComputed engine id) := by
  refine (readNode_follows true refresh).attempt.bind fun result => ?_
  cases result with
  | ok value => exact Run.Follows.pure _
  | error panic => exact Run.Follows.pure _

theorem runInFrame_follows {reactor : ReactorId} {frame : Frame} {body : Run κ ν σ α}
    (follows : Run.Follows writes body) : Run.Follows writes (runInFrame reactor frame body) := by
  have pushed : ∀ world : World κ ν σ,
      world.Becomes writes (world.modifyReactor reactor (·.pushFrame frame)) :=
    fun world => world.becomes_modifyReactor reactor fun _ => ⟨rfl, rfl, rfl⟩
  have popped : ∀ world : World κ ν σ,
      world.Becomes writes (world.modifyReactor reactor Reactor.popFrame) :=
    fun world => world.becomes_modifyReactor reactor fun _ => ⟨rfl, rfl, rfl⟩
  exact (Run.Follows.modify pushed).bind fun _ => follows.thenAlways (.modify popped)

/-- A body in a frame of its own never panics. -/
theorem runBody_follows {reactor : ReactorId} {id : NodeId} {body : Run κ ν σ α}
    (follows : Run.Follows writes body) (world : World κ ν σ) :
    (runBody reactor id body).Ends world fun result after =>
      (∃ inner, result = .ok inner) ∧ (world.record (.started id)).Becomes writes after := by
  refine .of_modify (((runInFrame_follows follows _).attempt).bind (fun result after ran => ?_)
    fun panic after ran => ?_)
  · obtain ⟨_, _, ran⟩ := ran
    rintro _ _ ⟨⟩
    exact ⟨⟨_, rfl⟩, ran.trans (World.becomes_record _ _ (fun _ => not_false) not_false)⟩
  · obtain ⟨_, failed, _⟩ := ran
    cases failed

theorem anyChanged_follows (refresh : ∀ id, Run.Follows writes (engine (.refresh id)))
    (owner : ReactorId) (inputs : List (NodeId × Nat)) :
    Run.Follows writes (anyChanged engine owner inputs) := by
  induction inputs with
  | nil => exact Run.Follows.pure _
  | cons entry rest ih =>
    refine (refresh entry.1).attempt.bind fun result => ?_
    cases result with
    | error panic => exact Run.Follows.pure _
    | ok _ =>
      refine Run.Follows.world_bind fun world => ?_
      split
      next => exact Run.Follows.pure _ world
      next => exact ih world

theorem needsRun_follows (refresh : ∀ id, Run.Follows writes (engine (.refresh id)))
    (owner : ReactorId) (effect : NodeId) : Run.Follows writes (needsRun engine owner effect) :=
  fun world => anyChanged_follows refresh owner _ world

/-- What carries activations out follows courses, and a cleanup of an effect that is there is called
without a panic. -/
structure Charts (writes : Prop) (engine : Engine κ ν σ) : Prop where
  refresh : ∀ id, Run.Follows writes (engine (.refresh id))
  execute : writes → ∀ id, Run.Follows writes (engine (.execute id))
  cleanUp : writes → ∀ (world : World κ ν σ) id code effect, world.effect? id = some effect →
    (engine (.cleanUp id code)).Ends world fun result after =>
      result = .ok () ∧ (world.record (.cleanedUp id code)).Becomes writes after
  invoke : writes → ∀ handler, Run.Follows writes (engine (.invoke handler))

section

variable (charts : Charts writes engine) (may : writes)

include charts may

/-- Running the effect of a visit while its causes are on the chain. -/
theorem runVisited_follows (owner : ReactorId) (entry : Visit) :
    Run.Follows writes (Run.modify (·.modifyReactor owner (·.pushChain entry.wakeup.causes)) >>=
      fun _ => (engine (.execute entry.wakeup.effect)).thenAlways
        (Run.modify (·.modifyReactor owner Reactor.popChain))) := by
  intro world
  refine .of_modify ((charts.execute may entry.wakeup.effect _).thenAlways fun _ after ran => ?_)
  obtain ⟨events, course⟩ := ran
  exact ⟨events, .chain may owner entry.wakeup.causes course⟩

theorem visit_follows (owner : ReactorId) (entry : Visit) :
    Run.Follows writes (visit engine owner entry) := by
  refine Run.Follows.world_bind fun world => ?_
  dsimp only
  split
  next => exact Run.Follows.pure () world
  next effect _ =>
    split
    next => exact Run.Follows.pure () world
    next =>
      split
      next =>
        rintro _ _ ⟨⟩
        exact (world.spares_resubscribe owner entry.wakeup.effect).becomes
      next =>
        split
        next => exact Run.Follows.pure () world
        next =>
          split
          next => exact runVisited_follows charts may owner entry world
          next =>
            refine ((needsRun_follows charts.refresh owner entry.wakeup.effect).bind
              fun wanted => ?_) world
            split
            next => exact runVisited_follows charts may owner entry
            next => exact Run.Follows.pure ()

theorem notify_follows (owner : ReactorId) (sources : List NodeId) :
    Run.Follows writes (notify engine owner sources) := by
  have told : ∀ (event : Event κ ν), (∀ id, ¬ event.Concerns id) → ¬ event.IsTracked →
      Run.Follows writes (Run.modify fun world : World κ ν σ => world.record event) :=
    fun event quiet unread => .modify fun world => world.becomes_record event quiet unread
  refine (told (.passStarted owner sources) (fun _ => not_false) not_false).bind fun _ =>
    (Run.Follows.update fun world => (world.spares_planPass owner sources).becomes).bind
      fun visits => ?_
  refine (Run.Follows.modify fun world => (world.spares_foldl_hold visits _).becomes).bind fun _ =>
    (Run.Follows.forEach fun entry => ?_).bind fun _ =>
      told (.passEnded owner) (fun _ => not_false) not_false
  exact (visit_follows charts may owner entry).thenAlways
    (.modify fun world => world.becomes_drop _)

/-- A new value is stored in a signal that is not on the innermost chain. -/
theorem storeValue_follows {world : World κ ν σ} {id : NodeId} {signal : Signal ν}
    (found : world.signal? id = some signal) {owner : ReactorId} (home : signal.reactor = owner)
    (free : ¬ world.Chained owner id) (value : ν) :
    (storeValue engine owner id value).Ends world fun _ after => world.Becomes writes after := by
  subst home
  have stored := world.spares_store signal.reactor id value
  refine .of_modify (.of_world (Run.Follows.from ⟨_, .store may found free stored⟩ ?_))
  split
  next => exact Run.Follows.pure () _
  next =>
    split
    next =>
      rintro _ _ ⟨⟩
      exact World.becomes_modifyReactor _ _ fun _ => ⟨rfl, rfl, rfl⟩
    next => exact notify_follows charts may signal.reactor [id] _

theorem writeSignal_follows [BEq ν] (id : NodeId) (value : ν) :
    Run.Follows writes (writeSignal engine id value) := by
  refine Run.Follows.world_bind fun world => ?_
  split
  next => exact Run.Follows.raise _ world
  next signal found =>
    refine (requireLive_ends signal id "write" world).bind (fun _ after same => ?_)
      fun _ after same => same ▸ .refl _
    subst same
    obtain ⟨writer, noted⟩ : ∃ writer, after.Spares (fun _ => False) [.wrote id writer]
        (after.noteWrite signal.reactor id) := after.spares_noteWrite signal.reactor id
    refine .of_modify (.of_world (Run.Follows.from noted.becomes ?_))
    dsimp only
    split
    next => exact Run.Follows.pure () _
    next =>
      split
      next =>
        rintro _ _ ⟨⟩
        exact World.becomes_record _ _ (fun _ => not_false) not_false
      next free =>
        obtain ⟨signal', found', home, _⟩ := noted.signal found
        refine storeValue_follows charts may found' home (fun ⟨state, known, circular⟩ => free ?_)
          value
        rw [known]
        exact circular

theorem closeBatch_follows (owner : ReactorId) : Run.Follows writes (closeBatch engine owner) := by
  refine (Run.Follows.update fun world => ?_).bind fun pending => ?_
  · cases found : world.reactor? owner with
    | none => exact .refl world
    | some state =>
      have kept := state.closeBatch_kept
      refine World.Spares.becomes (.modifyReactor world owner (fun other found' => ?_)
        (fun other found' => ?_) fun other found' living => ?_)
      · cases Option.some.inj (found.symm.trans found')
        exact kept.1
      · cases Option.some.inj (found.symm.trans found')
        exact kept.2.1
      · cases Option.some.inj (found.symm.trans found')
        unfold Reactor.isAlive at living ⊢
        rwa [kept.2.2]
  · split
    next => exact notify_follows charts may owner pending
    next => exact Run.Follows.pure ()

end

end ReactiveTree
