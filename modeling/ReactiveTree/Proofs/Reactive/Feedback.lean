import ReactiveTree.Proofs.Reactive.Returning

/-! # Feedback comes to an end

Effects may write what others read, and themselves, in whatever cycles. A write inside a pass starts
a pass inside it, but an effect that is running is not started again: each pass within another one
has an idle effect less to start. So with twice as many levels as there are effects every run ends,
and no more passes are ever open than effects are idle, and one.
-/

namespace ReactiveTree

variable {κ ν σ α β : Type}

namespace Run

variable {world : World κ ν σ}

/-- The run ends, and a condition holds of its result and of what it leaves. -/
def Finishes (run : Run κ ν σ α) (world : World κ ν σ)
    (condition : Except Panic α → World κ ν σ → Prop) : Prop :=
  ∃ result after, run world = some (result, after) ∧ condition result after

theorem Finishes.mono {run : Run κ ν σ α}
    {condition condition' : Except Panic α → World κ ν σ → Prop}
    (finishes : run.Finishes world condition)
    (weaker : ∀ result after, condition result after → condition' result after) :
    run.Finishes world condition' := by
  obtain ⟨result, after, ran, holds⟩ := finishes
  exact ⟨result, after, ran, weaker result after holds⟩

theorem Finishes.bind {first : Run κ ν σ α} {next : α → Run κ ν σ β}
    {middle : Except Panic α → World κ ν σ → Prop} {last : Except Panic β → World κ ν σ → Prop}
    (start : first.Finishes world middle)
    (goOn : ∀ value after, middle (.ok value) after → (next value).Finishes after last)
    (stop : ∀ panic after, middle (.error panic) after → last (.error panic) after) :
    (first >>= next).Finishes world last := by
  obtain ⟨result, between, ran, holds⟩ := start
  cases result with
  | error panic => exact ⟨_, between, bind_of_error ran next, stop panic between holds⟩
  | ok value =>
    obtain ⟨result, after, ran', holds'⟩ := goOn value between holds
    exact ⟨result, after, (bind_of_ok ran next).trans ran', holds'⟩

theorem Finishes.of_world {next : World κ ν σ → Run κ ν σ α}
    {condition : Except Panic α → World κ ν σ → Prop}
    (finishes : (next world).Finishes world condition) :
    (Run.world >>= next).Finishes world condition :=
  finishes

theorem Finishes.of_modify {change : World κ ν σ → World κ ν σ} {next : Unit → Run κ ν σ α}
    {condition : Except Panic α → World κ ν σ → Prop}
    (finishes : (next ()).Finishes (change world) condition) :
    (Run.modify change >>= next).Finishes world condition :=
  finishes

theorem Finishes.of_update {change : World κ ν σ → β × World κ ν σ} {next : β → Run κ ν σ α}
    {condition : Except Panic α → World κ ν σ → Prop}
    (finishes : (next (change world).1).Finishes (change world).2 condition) :
    (Run.update change >>= next).Finishes world condition :=
  finishes

theorem Finishes.attempt {body : Run κ ν σ α} {condition : Except Panic α → World κ ν σ → Prop}
    (finishes : body.Finishes world condition) :
    body.attempt.Finishes world fun result after =>
      ∃ inner, result = .ok inner ∧ condition inner after := by
  obtain ⟨result, after, ran, holds⟩ := finishes
  exact ⟨_, after, attempt_of ran, result, rfl, holds⟩

/-- A change of the world follows a body in any case. -/
theorem Finishes.thenAlways {body : Run κ ν σ α} {change : World κ ν σ → World κ ν σ}
    {condition condition' : Except Panic α → World κ ν σ → Prop}
    (finishes : body.Finishes world condition)
    (changed : ∀ result after, condition result after → condition' result (change after)) :
    (body.thenAlways (Run.modify change)).Finishes world condition' := by
  obtain ⟨result, after, ran, holds⟩ := finishes
  exact ⟨result, change after, thenAlways_modify_of ran change, changed result after holds⟩

/-- With so many levels of nesting, where there are no computeds: the run ends and returns, and has
one pass open at a time more than there are idle effects. -/
def Settles (depth : Nat) (run : Run κ ν σ α) : Prop :=
  ∀ world : World κ ν σ, world.Underived → 2 * world.idle + 1 ≤ depth →
    run.Finishes world fun _ after => world.Returns (world.idle + 1) after

variable {depth : Nat}

theorem Settles.pure (value : α) : Settles depth (Pure.pure value : Run κ ν σ α) :=
  fun world _ _ => ⟨_, world, rfl, .refl world⟩

theorem Settles.raise (panic : Panic) : Settles depth (Run.raise panic : Run κ ν σ α) :=
  fun world _ _ => ⟨_, world, rfl, .refl world⟩

theorem Settles.bind {first : Run κ ν σ α} {next : α → Run κ ν σ β} (start : Settles depth first)
    (goOn : ∀ value, Settles depth (next value)) : Settles depth (first >>= next) := by
  intro world underived enough
  refine (start world underived enough).bind (fun value after returns => ?_)
    fun _ _ returns => returns
  have idle := returns.idle
  exact (goOn value after (returns.underived underived) (idle ▸ enough)).mono
    fun _ _ returns' => returns.trans (idle ▸ returns')

/-- A run that looks at the world first. -/
theorem Settles.world_bind {next : World κ ν σ → Run κ ν σ α}
    (goOn : ∀ world : World κ ν σ, world.Underived → Settles depth (next world)) :
    Settles depth (Run.world >>= next) :=
  fun world underived enough => goOn world underived world underived enough

theorem Settles.modify {change : World κ ν σ → World κ ν σ}
    (changes : ∀ bound world, World.Returns bound world (change world)) :
    Settles depth (Run.modify change) :=
  fun world _ _ => ⟨_, _, rfl, changes _ world⟩

theorem Settles.update {change : World κ ν σ → α × World κ ν σ}
    (changes : ∀ bound world, World.Returns bound world (change world).2) :
    Settles depth (Run.update change) :=
  fun world _ _ => ⟨_, _, rfl, changes _ world⟩

theorem Settles.attempt {body : Run κ ν σ α} (settles : Settles depth body) :
    Settles depth body.attempt := by
  intro world underived enough
  refine (settles world underived enough).attempt.mono ?_
  rintro _ after ⟨_, _, returns⟩
  exact returns

theorem Settles.ofResult (result : Except Panic α) :
    Settles depth (Run.ofResult result : Run κ ν σ α) :=
  fun world _ _ => ⟨_, _, ofResult_apply result world, .refl world⟩

theorem Settles.thenAlways {body : Run κ ν σ α} {finish : Run κ ν σ Unit}
    (settles : Settles depth body) (settles' : Settles depth finish) :
    Settles depth (body.thenAlways finish) :=
  settles.attempt.bind fun result => settles'.bind fun _ => .ofResult result

theorem Settles.inFrame {reactor : ReactorId} {frame : Frame} {body : Run κ ν σ α}
    (settles : Settles depth body) : Settles depth (runInFrame reactor frame body) := by
  have pushed : ∀ bound (world : World κ ν σ),
      World.Returns bound world (world.modifyReactor reactor (·.pushFrame frame)) :=
    fun _ _ => .of_cells rfl rfl
  have popped : ∀ bound (world : World κ ν σ),
      World.Returns bound world (world.modifyReactor reactor Reactor.popFrame) :=
    fun _ _ => .of_cells rfl rfl
  exact (Settles.modify pushed).bind fun _ => settles.thenAlways (.modify popped)

end Run

/-- The call makes no cell, stops no effect and calls no handler. -/
def Request.Exchanges : Request κ ν σ → Prop
  | .get _ => True
  | .peek _ => True
  | .tryGet _ => True
  | .stored _ => True
  | .set .. => True
  | .label .. => True
  | .execute _ => True
  | .destroy _ => True
  | .hold _ => True
  | .drop _ => True
  | .note _ => True
  | .look => True
  | .store _ => True
  | _ => False

/-- The act reads and writes, in batches or not, and makes no cells. -/
def Act.Exchanges : {α : Type} → Act κ ν σ α → Prop
  | _, .pure _ => True
  | _, .raise _ => True
  | _, .bind first next => first.Exchanges ∧ ∀ value, (next value).Exchanges
  | _, .call request => request.Exchanges
  | _, .within _ body => body.Exchanges
  | _, .attempt body => body.Exchanges

/-- All that effects run reads and writes only. -/
structure Program.Exchanges (program : Program κ ν σ) : Prop where
  effect : ∀ code, (program.effect code).Exchanges
  cleanup : ∀ code, (program.cleanup code).Exchanges
  callback : ∀ code value, (program.callback code value).Exchanges
  render : ∀ code, (program.render code).Exchanges

/-- What carries activations out, with so many levels of nesting: an effect that runs has one idle
effect less to start, and neither it nor a cleanup panics. -/
structure Feeds (engine : Engine κ ν σ) (depth : Nat) : Prop where
  refresh : 0 < depth → ∀ (world : World κ ν σ) id, world.Underived →
    engine (.refresh id) world = some (.ok (), world)
  execute : ∀ (world : World κ ν σ) id, world.Underived → 2 * world.idle + 1 ≤ depth →
    (engine (.execute id)).Finishes world fun result after => world.Returns world.idle after ∧
      ((world.effect? id).isSome → result = .ok ())
  cleanUp : ∀ (world : World κ ν σ) id code, world.Underived → 2 * world.idle + 2 ≤ depth →
    (engine (.cleanUp id code)).Finishes world fun result after =>
      world.Returns (world.idle + 1) after ∧ ((world.effect? id).isSome → result = .ok ())

section

variable {engine : Engine κ ν σ} {depth : Nat} {owner : ReactorId} {id : NodeId}
  {world : World κ ν σ}

theorem anyChanged_finishes (feeds : Feeds engine depth) (positive : 0 < depth)
    (underived : world.Underived) (inputs : List (NodeId × Nat)) :
    (anyChanged engine owner inputs).Finishes world fun result after =>
      (∃ wanted, result = .ok wanted) ∧ after = world := by
  induction inputs with
  | nil => exact ⟨_, world, rfl, ⟨_, rfl⟩, rfl⟩
  | cons entry rest ih =>
    have refreshed : (engine (.refresh entry.1)).Finishes world fun _ after => after = world :=
      ⟨_, world, feeds.refresh positive world entry.1 underived, rfl⟩
    refine refreshed.attempt.bind (fun result after kept => ?_) fun panic after kept => ?_
    · obtain ⟨_, _, rfl⟩ := kept
      cases result with
      | error panic => exact ⟨_, after, rfl, ⟨_, rfl⟩, rfl⟩
      | ok _ =>
        refine .of_world ?_
        split
        next => exact ⟨_, after, rfl, ⟨_, rfl⟩, rfl⟩
        next => exact ih
    · obtain ⟨_, failed, _⟩ := kept
      cases failed

/-- A visit that runs its effect. -/
private theorem runVisited_finishes (feeds : Feeds engine depth) (underived : world.Underived)
    (enough : 2 * world.idle + 1 ≤ depth) {entry : Visit}
    (present : (world.effect? entry.wakeup.effect).isSome) :
    (Run.modify (·.modifyReactor owner (·.pushChain entry.wakeup.causes)) >>= fun _ =>
      (engine (.execute entry.wakeup.effect)).thenAlways
        (Run.modify (·.modifyReactor owner Reactor.popChain))).Finishes world fun result after =>
          result = .ok () ∧ world.Returns world.idle after := by
  have chained : World.Returns world.idle world
      (world.modifyReactor owner (·.pushChain entry.wakeup.causes)) := .of_cells rfl rfl
  have executed := feeds.execute _ entry.wakeup.effect (chained.underived underived) enough
  refine .of_modify (executed.thenAlways fun result left held => ?_)
  have popped : World.Returns world.idle left (left.modifyReactor owner Reactor.popChain) :=
    .of_cells rfl rfl
  exact ⟨held.2 (chained.effect_present present), (chained.trans held.1).trans popped⟩

theorem visit_finishes (feeds : Feeds engine depth) (underived : world.Underived)
    (enough : 2 * world.idle + 1 ≤ depth) (entry : Visit) :
    (visit engine owner entry).Finishes world fun result after =>
      result = .ok () ∧ world.Returns world.idle after := by
  have skipped : (pure () : Run κ ν σ Unit).Finishes world fun result after =>
      result = .ok () ∧ world.Returns world.idle after := ⟨_, world, rfl, rfl, .refl world⟩
  refine .of_world ?_
  dsimp only
  split
  next => exact skipped
  next effect found =>
    have present : (world.effect? entry.wakeup.effect).isSome := Option.isSome_of_eq_some found
    split
    next => exact skipped
    next =>
      split
      next => exact ⟨_, _, rfl, rfl, .of_cells rfl rfl⟩
      next =>
        split
        next => exact skipped
        next =>
          split
          next => exact runVisited_finishes feeds underived enough present
          next =>
            have asked : (needsRun engine owner entry.wakeup.effect).Finishes world
                fun result after => (∃ wanted, result = .ok wanted) ∧ after = world :=
              anyChanged_finishes feeds (Nat.lt_of_lt_of_le (Nat.succ_pos _) enough) underived _
            refine asked.bind (fun wanted after kept => ?_) fun _ _ kept => ?_
            · obtain ⟨_, rfl⟩ := kept
              split
              next => exact runVisited_finishes feeds underived enough present
              next => exact skipped
            · obtain ⟨⟨_, failed⟩, _⟩ := kept
              cases failed

theorem visits_finish (feeds : Feeds engine depth) (visits : List Visit) (underived : world.Underived)
    (enough : 2 * world.idle + 1 ≤ depth) :
    (Run.forEach visits (visitHeld engine owner)).Finishes world fun result after =>
      result = .ok () ∧ world.Returns world.idle after := by
  induction visits generalizing world with
  | nil => exact ⟨_, world, rfl, rfl, .refl world⟩
  | cons entry rest ih =>
    have first : (visitHeld engine owner entry).Finishes world fun result after =>
        result = .ok () ∧ world.Returns world.idle after :=
      (visit_finishes feeds underived enough entry).thenAlways fun _ left held =>
        ⟨held.1, held.2.trans (.drop left _)⟩
    refine first.bind (fun _ after held => ?_) fun _ _ held => nomatch held.1
    have idle := held.2.idle
    exact (ih (held.2.underived underived) (idle ▸ enough)).mono fun _ _ held' =>
      ⟨held'.1, held.2.trans (idle ▸ held'.2)⟩

/-- A pass is one level around its visits. -/
theorem notify_settles (feeds : Feeds engine depth) (owner : ReactorId) (sources : List NodeId) :
    Run.Settles depth (notify engine owner sources) := by
  intro world underived enough
  have entered : World.Returns world.idle (world.record (.passStarted owner sources))
      (world.enterPass owner sources) := world.enterPass_returns owner sources
  have idle : (world.enterPass owner sources).idle = world.idle := entered.idle
  have visited : (Run.forEach (world.passVisits owner sources) (visitHeld engine owner)).Finishes
      (world.enterPass owner sources) fun result left =>
        result = .ok () ∧ World.Returns world.idle (world.enterPass owner sources) left :=
    idle ▸ visits_finish feeds _ (entered.underived underived) (idle ▸ enough)
  unfold Run.Finishes
  rw [notify_apply]
  refine visited.bind (fun _ left held => ?_) fun _ _ held => nomatch held.1
  exact ⟨_, _, rfl, (entered.trans held.2).pass⟩

theorem storeValue_settles (feeds : Feeds engine depth) (owner : ReactorId) (id : NodeId) (value : ν) :
    Run.Settles depth (storeValue engine owner id value) := by
  have stored : ∀ bound (world : World κ ν σ), World.Returns bound world
      (((world.modifySignal id fun signal => { signal with value }).mapGraph owner
        (·.modify id Node.bump)).record (.changed id value)) := by
    intro bound world
    have written : World.Returns bound world
        (world.modifySignal id fun signal => { signal with value }) :=
      .modifyCell world id fun cell => by cases cell <;> rfl
    have bumped : World.Returns bound (world.modifySignal id fun signal => { signal with value })
        ((world.modifySignal id fun signal => { signal with value }).mapGraph owner
          (·.modify id Node.bump)) := .of_cells rfl rfl
    exact (written.trans bumped).trans (.record _ rfl)
  refine (Run.Settles.modify stored).bind fun _ => Run.Settles.world_bind fun world _ => ?_
  split
  next => exact .pure ()
  next =>
    split
    next => exact .modify fun _ _ => .of_cells rfl rfl
    next => exact notify_settles feeds owner [id]

theorem requireLive_settles (signal : Signal ν) (id : NodeId) (operation : String) :
    Run.Settles depth (requireLive signal id operation : Run κ ν σ Unit) := by
  unfold requireLive
  split
  next => exact .raise _
  next => exact .pure ()

theorem writeSignal_settles [BEq ν] (feeds : Feeds engine depth) (id : NodeId) (value : ν) :
    Run.Settles depth (writeSignal engine id value) := by
  refine Run.Settles.world_bind fun world _ => ?_
  split
  next => exact .raise _
  next signal _ =>
    have noted : ∀ bound (world : World κ ν σ),
        World.Returns bound world (world.noteWrite signal.reactor id) :=
      fun _ world => .noteWrite world _ _
    refine (requireLive_settles signal id "write").bind fun _ =>
      (Run.Settles.modify noted).bind fun _ => Run.Settles.world_bind fun world _ => ?_
    dsimp only
    split
    next => exact .pure ()
    next =>
      split
      next => exact .modify fun _ world => .record world rfl
      next => exact storeValue_settles feeds _ id value

theorem closeBatch_settles (feeds : Feeds engine depth) (owner : ReactorId) :
    Run.Settles depth (closeBatch engine owner) := by
  refine (Run.Settles.update fun bound world => ?_).bind fun pending => ?_
  · split
    next => exact .refl world
    next => exact .of_cells rfl rfl
  · split
    next => exact notify_settles feeds owner pending
    next => exact .pure ()

theorem readNode_settles (id : NodeId) (tracked : Bool) :
    Run.Settles depth (readNode engine id tracked) := by
  refine Run.Settles.world_bind fun world underived => ?_
  split
  next signal _ =>
    refine (requireLive_settles signal id "read").bind fun _ => ?_
    split
    next =>
      have noted : ∀ bound (world : World κ ν σ),
          World.Returns bound world (world.noteRead signal.reactor id) :=
        fun _ world => .noteRead world _ _
      exact (Run.Settles.modify noted).bind fun _ => .pure _
    next => exact .pure _
  next computed found =>
    cases (underived.computed? id).symm.trans (World.computed?_eq_some_iff.mpr found)
  next => exact .raise _

theorem tryComputed_settles (id : NodeId) : Run.Settles depth (tryComputed engine id) := by
  refine (readNode_settles id true).attempt.bind fun result => ?_
  cases result with
  | ok value => exact .pure _
  | error panic => exact .pure _

theorem Request.Exchanges.settles [BEq ν] (feeds : Feeds engine depth) {request : Request κ ν σ}
    (exchanges : request.Exchanges) : Run.Settles depth (perform engine request) := by
  unfold perform
  cases request with
  | get node => exact readNode_settles node true
  | peek node => exact readNode_settles node false
  | tryGet node => exact tryComputed_settles node
  | stored signal => exact Run.Settles.world_bind fun world _ => .pure _
  | set signal value => exact writeSignal_settles feeds signal value
  | label node text =>
    refine Run.Settles.modify fun bound world => ?_
    split
    next => exact .of_cells rfl rfl
    next => exact .refl world
  | execute effect =>
    refine (Run.Settles.modify fun _ world => .record world rfl).bind fun _ world underived enough => ?_
    exact (feeds.execute world effect underived enough).mono fun _ _ held => held.1.mono (Nat.le_succ _)
  | destroy signal => exact .modify fun _ world => .destroySignal world signal
  | hold handle => exact .modify fun _ world => .hold world handle
  | drop handle => exact .modify fun _ world => .drop world handle
  | note value => exact .modify fun _ world => .record world rfl
  | look => exact Run.Settles.world_bind fun world _ => .pure world
  | store user => exact .modify fun _ _ => .of_cells rfl rfl
  | _ => exact exchanges.elim

theorem Act.Exchanges.settles [BEq ν] (feeds : Feeds engine depth) {act : Act κ ν σ α}
    (exchanges : act.Exchanges) : Run.Settles depth (act.run engine) := by
  induction act with
  | pure value => exact .pure value
  | raise panic => exact .raise panic
  | bind first next ih ih' => exact (ih exchanges.1).bind fun value => ih' value (exchanges.2 value)
  | call request => exact Request.Exchanges.settles feeds exchanges
  | within scope body ih =>
    cases scope with
    | batch reactor =>
      have opened : ∀ bound (world : World κ ν σ),
          World.Returns bound world (world.modifyReactor reactor Reactor.openBatch) :=
        fun _ _ => .of_cells rfl rfl
      exact (Run.Settles.modify opened).bind fun _ =>
        (ih exchanges).thenAlways (closeBatch_settles feeds reactor)
    | untracked reactor => exact (ih exchanges).inFrame
  | attempt body ih => exact (ih exchanges).attempt

end

section

variable {engine : Engine κ ν σ} {depth : Nat} {id : NodeId} {effect : Effect κ}
  {world : World κ ν σ}

/-- A body in a frame of its own never panics. -/
theorem runBody_finishes {reactor : ReactorId} {body : Run κ ν σ α} (settles : Run.Settles depth body)
    (underived : world.Underived) (enough : 2 * world.idle + 1 ≤ depth) :
    (runBody reactor id body).Finishes world fun result after =>
      (∃ inner, result = .ok inner) ∧ world.Returns (world.idle + 1) after := by
  have started : World.Returns (world.idle + 1) world (world.record (.started id)) :=
    .record world rfl
  have framed : Run.Settles depth (runInFrame reactor (.tracked id) body) := settles.inFrame
  refine .of_modify ((framed _ (started.underived underived) enough).attempt.bind
    (fun result after held => ?_) fun _ _ held => ?_)
  · obtain ⟨_, _, returns⟩ := held
    exact ⟨_, _, rfl, ⟨_, rfl⟩, (started.trans returns).trans (.record after rfl)⟩
  · obtain ⟨_, failed, _⟩ := held
    cases failed

theorem settleRun_finishes (feeds : Feeds engine depth) (present : (world.effect? id).isSome)
    (underived : world.Underived) (enough : 2 * world.idle + 2 ≤ depth)
    (given : Except Panic (Except String (Option κ))) :
    (settleRun engine id effect given).Finishes world fun result after =>
      result = .ok () ∧ world.Returns (world.idle + 1) after := by
  unfold settleRun
  split
  next => exact ⟨_, world, rfl, rfl, .refl world⟩
  next code =>
    have left : World.Returns (world.idle + 1) world (world.record (.leftCleanup id code)) :=
      .record world rfl
    refine .of_modify (.of_world ?_)
    split
    next => exact ⟨_, _, rfl, rfl, left.trans (.modifyEffect _ id fun _ => rfl)⟩
    next =>
      exact (feeds.cleanUp _ id code (left.underived underived) enough).mono fun _ _ held =>
        ⟨held.2 present, left.trans held.1⟩
  next message => exact ⟨_, _, rfl, rfl, .report world _ _⟩
  next panic => exact ⟨_, _, rfl, rfl, .report world _ _⟩

variable [BEq ν] {program : Program κ ν σ}

theorem effectAct_settles (feeds : Feeds engine depth) (exchanges : program.Exchanges)
    (id : NodeId) (effect : Effect κ) : Run.Settles depth (effectAct program engine id effect) := by
  unfold effectAct
  split
  next code _ => exact (exchanges.effect code).settles feeds
  next signal callback _ =>
    refine (readNode_settles signal true).bind fun value => Run.Settles.world_bind fun world _ => ?_
    have primed : ∀ bound (world : World κ ν σ),
        World.Returns bound world (world.modifyEffect id ({ · with primed := true })) :=
      fun _ world => .modifyEffect world id fun _ => rfl
    have delivered : ∀ bound (world : World κ ν σ),
        World.Returns bound world (world.record (.delivered id value)) :=
      fun _ world => .record world rfl
    split
    next =>
      exact (Run.Settles.modify delivered).bind fun _ =>
        ((exchanges.callback callback value).settles feeds).bind fun _ => .pure _
    next => exact (Run.Settles.modify primed).bind fun _ => .pure _
  next mount _ =>
    refine Run.Settles.world_bind fun world _ => ?_
    split
    next => exact .pure _
    next state _ =>
      refine ((exchanges.render state.code).settles feeds).bind fun next =>
        (Run.Settles.update fun _ world => .of_shown (world.shown_present mount next)).bind
          fun outcome => ?_
      cases outcome with
      | ok => exact .pure _
      | error => exact .pure _

/-- The body of an effect and what it gives, up to the end of the run. -/
private theorem ranEffect_finishes (feeds : Feeds engine depth) (exchanges : program.Exchanges)
    (present : (world.effect? id).isSome) (underived : world.Underived)
    (enough : 2 * world.idle + 2 ≤ depth) :
    (runBody effect.reactor id (effectAct program engine id effect) >>= fun result =>
      Run.modify (·.modifyEffect id fun effect => { effect with runs := effect.runs + 1 }) >>=
        fun _ => settleRun engine id effect result >>= fun _ =>
          Run.modify (·.modifyEffect id ({ · with executing := false }))).Finishes world
      fun result after => result = .ok () ∧ ∃ last, world.Returns (world.idle + 1) last ∧
        after = last.endRun id := by
  refine (runBody_finishes (effectAct_settles feeds exchanges id effect) underived
    ((Nat.le_succ _).trans enough)).bind (fun given middle held => ?_) fun _ _ held => ?_
  · have counted : World.Returns (world.idle + 1) middle
        (middle.modifyEffect id fun effect => { effect with runs := effect.runs + 1 }) :=
      .modifyEffect middle id fun _ => rfl
    have returns := held.2.trans counted
    have idle := returns.idle
    refine .of_modify ((settleRun_finishes feeds (returns.effect_present present)
      (returns.underived underived) (idle ▸ enough) given).bind (fun _ last held' => ?_)
        fun _ _ held' => nomatch held'.1)
    exact ⟨_, _, rfl, rfl, last, returns.trans (idle ▸ held'.2), rfl⟩
  · obtain ⟨⟨_, failed⟩, _⟩ := held
    cases failed

/-- A run of an idle effect leaves the other idle effects to the passes inside it, and the effect is
idle again afterwards. -/
theorem runEffect_finishes (feeds : Feeds engine depth) (exchanges : program.Exchanges)
    (found : world.effect? id = some effect) (idle : effect.executing = false)
    (underived : world.Underived) (enough : 2 * world.idle ≤ depth) :
    (runEffect program engine id effect).Finishes world fun result after =>
      result = .ok () ∧ world.Returns world.idle after := by
  have engages := World.engages_takeCleanup found idle
  refine .of_modify (.of_modify (.of_update ?_))
  generalize (((world.modifyEffect id ({ · with executing := true })).mapGraph effect.reactor
    (·.unsubscribe id)).takeCleanup id).2 = start at engages ⊢
  have fewer := engages.idle_succ
  have enough' : 2 * start.idle + 2 ≤ depth := by omega
  have underived' := engages.underived underived
  have ends : ∀ last, start.Returns (start.idle + 1) last →
      world.Returns world.idle (last.endRun id) :=
    fun last returns => engages.returns (fewer ▸ returns)
  split
  next code _ =>
    refine (feeds.cleanUp start id code underived' enough').bind (fun _ middle held => ?_)
      fun _ _ held => nomatch held.2 engages.effect_present
    have idle' := held.1.idle
    refine (ranEffect_finishes feeds exchanges (held.1.effect_present engages.effect_present)
      (held.1.underived underived') (idle' ▸ enough')).mono fun _ _ held' => ?_
    obtain ⟨succeeded, last, returns, rfl⟩ := held'
    exact ⟨succeeded, ends last (held.1.trans (idle' ▸ returns))⟩
  next =>
    refine (ranEffect_finishes feeds exchanges engages.effect_present underived' enough').mono
      fun _ _ held => ?_
    obtain ⟨succeeded, last, returns, rfl⟩ := held
    exact ⟨succeeded, ends last returns⟩

theorem executeEffect_finishes (feeds : Feeds engine depth) (exchanges : program.Exchanges)
    (underived : world.Underived) (enough : 2 * world.idle + 1 ≤ depth + 1) :
    (executeEffect program engine id).Finishes world fun result after =>
      world.Returns world.idle after ∧ ((world.effect? id).isSome → result = .ok ()) := by
  refine .of_world ?_
  split
  next absent =>
    refine ⟨_, world, rfl, .refl world, fun present => ?_⟩
    rw [absent] at present
    cases present
  next effect found =>
    split
    next => exact ⟨_, world, rfl, .refl world, fun _ => rfl⟩
    next ready =>
      have held : World.Returns world.idle world (world.hold (.reactor effect.reactor)) :=
        .hold world _
      have found' : (world.hold (.reactor effect.reactor)).effect? id = some effect := found
      have idle : effect.executing = false := by
        rw [Bool.not_eq_true, Bool.or_eq_false_iff] at ready
        exact ready.2
      have ran := runEffect_finishes feeds exchanges found' idle (held.underived underived)
        (held.idle ▸ Nat.le_of_lt_succ enough)
      refine .of_modify (ran.thenAlways fun result after kept => ?_)
      exact ⟨(held.trans kept.2).trans (.drop after _), fun _ => kept.1⟩

theorem callCleanup_finishes (feeds : Feeds engine depth) (exchanges : program.Exchanges) (code : κ)
    (underived : world.Underived) (enough : 2 * world.idle + 2 ≤ depth + 1) :
    (callCleanup program engine id code).Finishes world fun result after =>
      world.Returns (world.idle + 1) after ∧ ((world.effect? id).isSome → result = .ok ()) := by
  refine .of_world ?_
  split
  next absent =>
    refine ⟨_, world, rfl, .refl world, fun present => ?_⟩
    rw [absent] at present
    cases present
  next effect _ =>
    have told : World.Returns (world.idle + 1) world (world.record (.cleanedUp id code)) :=
      .record world rfl
    have framed : Run.Settles depth
        (runInFrame effect.reactor .untracked ((program.cleanup code).run engine)) :=
      ((exchanges.cleanup code).settles feeds).inFrame
    refine .of_modify ((framed _ (told.underived underived)
      (Nat.le_of_succ_le_succ enough)).attempt.bind (fun result after held => ?_) fun _ _ held => ?_)
    · obtain ⟨_, _, returns⟩ := held
      split
      next => exact ⟨_, _, rfl, told.trans returns, fun _ => rfl⟩
      next =>
        exact ⟨_, _, rfl, (told.trans returns).trans (.report after _ _), fun _ => rfl⟩
    · obtain ⟨_, failed, _⟩ := held
      cases failed

/-- Where there are no computeds, every activation ends on twice as many levels as there are idle
effects. -/
theorem activate_feeds (exchanges : program.Exchanges) (depth : Nat) :
    Feeds (activate program depth) depth := by
  induction depth with
  | zero =>
    exact ⟨fun positive => (Nat.lt_irrefl 0 positive).elim,
      fun _ _ _ enough => (Nat.not_succ_le_zero _ enough).elim,
      fun _ _ _ _ enough => (Nat.not_succ_le_zero _ enough).elim⟩
  | succ depth ih =>
    refine ⟨fun _ world id underived => ?_, fun _ _ underived enough =>
      executeEffect_finishes ih exchanges underived enough, fun _ _ code underived enough =>
        callCleanup_finishes ih exchanges code underived enough⟩
    show refreshComputed program (activate program depth) id world = _
    unfold refreshComputed
    rw [Run.world_bind, underived.computed? id]
    rfl

end

/-- Where there are signals and effects only, and whatever cycles of reading and writing the effects
form: an act that reads and writes, in batches or not, comes to an end, and at no time are more
passes open inside one another than there are effects and one. -/
theorem feedback_ends [BEq ν] (program : Program κ ν σ) (exchanges : program.Exchanges)
    {world : World κ ν σ} (underived : world.Underived) {act : Act κ ν σ α} (plain : act.Exchanges)
    {depth : Nat} (enough : 2 * world.effectCount + 1 ≤ depth) :
    ∃ result after, program.run depth act world = some (result, after) ∧
      ∀ newer during, after.past = newer ++ (during ++ world.past) →
        openPasses during ≤ world.effectCount + 1 := by
  have few := world.idle_le_effectCount
  obtain ⟨result, after, ran, returns⟩ := plain.settles (activate_feeds exchanges depth) world
    underived (by omega)
  obtain ⟨events, past, paired⟩ := returns.past
  refine ⟨result, after, ran, fun newer during split => ?_⟩
  have within := paired.within newer during <| by
    rw [past, ← List.append_assoc] at split
    exact List.append_cancel_right split
  omega

/-- Two effects that drive each other: each reads one signal and writes the next number to the
other. -/
def Program.chasing : Program Bool Nat Unit where
  compute _ := .pure 0
  effect code := .bind (.call (.get (if code then ⟨0⟩ else ⟨1⟩))) fun value =>
    .bind (.call (.set (if code then ⟨1⟩ else ⟨0⟩) (value + 1))) fun _ => .pure (.ok none)
  cleanup _ := .pure ()
  callback _ _ := .pure ()
  render _ := .pure none
  handler _ := .pure ()

/-- Make the two signals and the two effects. -/
def Act.chasing : Act Bool Nat Unit Unit :=
  .bind (.call (.newReactor {})) fun _ =>
    .bind (.call (.newSignal ⟨0⟩ 1)) fun _ =>
      .bind (.call (.newSignal ⟨0⟩ 2)) fun _ =>
        .bind (.call (.newEffect ⟨0⟩ true true)) fun _ =>
          .bind (.call (.newEffect ⟨0⟩ false true)) fun _ => .pure ()

/-- A write drives both effects, in one pass and another inside it, and stops there. -/
theorem feedback_ends_chasing :
    ∃ world, Program.chasing.run 5 Act.chasing (World.initial ()) = some (.ok (), world) ∧
      world.effectCount = 2 ∧
      ∃ result after, Program.chasing.run 5 (.call (.set ⟨0⟩ 7)) world = some (result, after) ∧
        ∀ newer during, after.past = newer ++ (during ++ world.past) → openPasses during ≤ 3 := by
  have ends : (Program.chasing.run 5 Act.chasing (World.initial ())).map (fun reached =>
      (reached.1, reached.2.marks)) = some (.ok (),
        [(.source, false), (.source, false), (.effect, false), (.effect, false)]) := by
    decide +kernel
  obtain ⟨⟨result, world⟩, ran, reached⟩ := Option.map_eq_some_iff.mp ends
  obtain ⟨rfl, marks⟩ := Prod.mk.inj reached
  have exchanges : Program.chasing.Exchanges :=
    ⟨fun _ => ⟨trivial, fun _ => ⟨trivial, fun _ => trivial⟩⟩, fun _ => trivial,
      fun _ _ => trivial, fun _ => trivial⟩
  have effects : world.effectCount = 2 := by
    unfold World.effectCount
    rw [marks]
    rfl
  have underived : world.Underived := by
    unfold World.Underived
    rw [marks]
    decide
  have plain : (Act.call (.set ⟨0⟩ 7) : Act Bool Nat Unit Unit).Exchanges := trivial
  have enough : 2 * world.effectCount + 1 ≤ 5 := by rw [effects]
  obtain ⟨result, after, ran', within⟩ :=
    feedback_ends Program.chasing exchanges underived plain enough
  rw [effects] at within
  exact ⟨world, ran, effects, result, after, ran', within⟩

end ReactiveTree
