import ReactiveTree.Reactive.Propagation

/-! # Running closures

`perform` answers one call on the library, and `Act.run` runs an act by answering its calls. An
activation runs the act of a closure; the activations that this sets off in turn are carried out one
level further down, so that the depth of nesting is what bounds a run.
-/

namespace ReactiveTree

variable {κ ν σ : Type} [BEq ν]

/-- Answer a call on the library. -/
def perform (engine : Engine κ ν σ) : (request : Request κ ν σ) → Run κ ν σ request.Reply
  | .newReactor settings => Run.update fun world =>
      (⟨world.reactors.length⟩, { world with reactors := world.reactors ++ [.new settings] })
  | .newSignal reactor value => Run.update fun world =>
      (world.hold (.reactor reactor)).addCell (.signal ⟨reactor, value, false, 1⟩) .source
  | .newComputed reactor body => newComputed engine reactor body
  | .newEffect reactor body eager => newEffect engine reactor (.plain body) eager
  | .subscribe signal callback => do
    match (← Run.world).signal? signal with
    | none => Run.unknown
    | some state =>
      Run.modify (·.hold (.node signal))
      newEffect engine state.reactor (.watch signal callback) true
  | .newDocument => Run.update fun world =>
      (⟨world.documents.length⟩, { world with documents := world.documents ++ [.empty] })
  | .mount reactor document container render => newMount engine reactor document container render
  | .unmount mount => unmount engine mount
  | .get node => readNode engine node true
  | .peek node => readNode engine node false
  | .tryGet computed => tryComputed engine computed
  | .stored signal => do
    return ((← Run.world).signal? signal).map Signal.value
  | .set signal value => writeSignal engine signal value
  | .label node text => Run.modify fun world =>
      match world.cell? node with
      | some cell => world.mapGraph cell.reactor (·.modify node (·.withLabel text))
      | none => world
  | .execute effect => do
    Run.modify (·.record (.executed effect))
    engine (.execute effect)
  | .stop effect => stopEffect engine effect
  | .destroy signal => Run.modify (·.destroySignal signal)
  | .dispose reactor => disposeReactor engine reactor
  | .invoke handler => engine (.invoke handler)
  | .hold handle => Run.modify (·.hold handle)
  | .drop handle => Run.modify (·.drop handle)
  | .note value => Run.modify (·.record (.note value))
  | .look => Run.world
  | .store user => Run.modify ({ · with user })

/-- Run a body in a block that is closed whether the body panics or not. -/
def runWithin {α : Type} (engine : Engine κ ν σ) (scope : Scope) (body : Run κ ν σ α) :
    Run κ ν σ α :=
  match scope with
  | .batch reactor =>
    (Run.modify (·.modifyReactor reactor Reactor.openBatch)).bind fun _ =>
      body.thenAlways (closeBatch engine reactor)
  | .untracked reactor =>
    (Run.modify (·.modifyReactor reactor (·.pushFrame .untracked))).bind fun _ =>
      body.thenAlways (Run.modify (·.modifyReactor reactor Reactor.popFrame))

/-- Run an act. -/
def Act.run (engine : Engine κ ν σ) : {α : Type} → Act κ ν σ α → Run κ ν σ α
  | _, .pure value => Run.pure value
  | _, .raise panic => Run.raise panic
  | _, .bind first next => (first.run engine).bind fun value => (next value).run engine
  | _, .call request => perform engine request
  | _, .within scope body => runWithin engine scope (body.run engine)
  | _, .attempt body => (body.run engine).attempt

/-- Run a body in a frame of its own. -/
def runInFrame {α : Type} (reactor : ReactorId) (frame : Frame) (body : Run κ ν σ α) :
    Run κ ν σ α :=
  (Run.modify (·.modifyReactor reactor (·.pushFrame frame))).bind fun _ =>
    body.thenAlways (Run.modify (·.modifyReactor reactor Reactor.popFrame))

/-- Run the body of a node in a frame that tracks its reads. -/
def runBody {α : Type} (reactor : ReactorId) (id : NodeId) (body : Run κ ν σ α) :
    Run κ ν σ (Except Panic α) := do
  Run.modify (·.record (.started id))
  let result ← (runInFrame reactor (.tracked id) body).attempt
  Run.modify (·.record (.ended id (!result.isOk)))
  return result

section

variable (program : Program κ ν σ) (engine : Engine κ ν σ)

/-- Keep a new value; only a different one counts as a change. -/
def World.settleValue (world : World κ ν σ) (id : NodeId) (computed : Computed κ ν) (value : ν) :
    World κ ν σ :=
  let same :=
    match ((world.computed? id).map Computed.value).join with
    | some old => old == value
    | none => false
  if same then world.mapGraph computed.reactor (·.modify id Node.markClean)
  else
    (((world.modifyComputed id ({ · with value := some value })).mapGraph computed.reactor
      (·.modify id fun node => node.bump.markClean)).record (.changed id value))

/-- Evaluate a computed. A read of it while this is going on is a cycle. -/
def evaluate (id : NodeId) (computed : Computed κ ν) : Run κ ν σ Unit := do
  if ((← Run.world).computed? id).any Computed.computing then
    Run.raise (.text ("cycle detected: computed " ++ id.text ++ " depends on itself"))
  else
    Run.modify (·.modifyComputed id ({ · with computing := true }))
    Run.modify (·.mapGraph computed.reactor (·.unsubscribe id))
    let result ← runBody computed.reactor id ((program.compute computed.body).run engine)
    Run.modify (·.modifyComputed id ({ · with computing := false }))
    match result with
    | .ok value => Run.modify (·.settleValue id computed value)
    | .error panic =>
      Run.modify (·.mapGraph computed.reactor (·.modify id Node.markDirty))
      Run.raise panic

/-- Bring computed inputs up to date one by one, and evaluate at the first that has changed. -/
def checkInputs (id : NodeId) (computed : Computed κ ν) : List (NodeId × Nat) → Run κ ν σ Unit
  | [] => Run.modify (·.mapGraph computed.reactor (·.modify id Node.markClean))
  | (input, version) :: rest => do
    engine (.refresh input)
    if ((← Run.world).graph computed.reactor).version? input ≠ some version then
      evaluate program engine id computed
    else checkInputs id computed rest

/-- Bring a computed up to date, evaluating it only if it has to be. -/
def refreshComputed (id : NodeId) : Run κ ν σ Unit := do
  let world ← Run.world
  match world.computed? id with
  | none => return
  | some computed =>
    let graph := world.graph computed.reactor
    match (graph.node? id).map Node.freshness with
    | none => return
    | some .clean => return
    | some .dirty => Run.holding (.node id) (evaluate program engine id computed)
    | some .doubtful =>
      Run.holding (.node id)
        (checkInputs program engine id computed (graph.derivedInputs id))

/-- What an effect does when it runs. -/
def effectAct (id : NodeId) (effect : Effect κ) : Run κ ν σ (Except String (Option κ)) :=
  match effect.body with
  | .plain code => (program.effect code).run engine
  | .watch signal callback => do
    let value ← readNode engine signal true
    if ((← Run.world).effect? id).any Effect.primed then
      Run.modify (·.record (.delivered id value))
      (program.callback callback value).run engine
    else Run.modify (·.modifyEffect id ({ · with primed := true }))
    return .ok none
  | .render mount => do
    match (← Run.world).mount? mount with
    | none => return .ok none
    | some state =>
      let next ← (program.render state.code).run engine
      match ← Run.update (·.present mount next) with
      | .ok _ => return .ok none
      | .error failure => return .error failure.message

/-- Deal with what a run of an effect gave: keep a cleanup, or call it if the effect was stopped
meanwhile; report a failure. -/
def settleRun (id : NodeId) (effect : Effect κ) :
    Except Panic (Except String (Option κ)) → Run κ ν σ Unit
  | .ok (.ok none) => return
  | .ok (.ok (some code)) => do
    Run.modify (·.record (.leftCleanup id code))
    if ((← Run.world).effect? id).any Effect.active then
      Run.modify (·.modifyEffect id ({ · with cleanup := some code }))
    else engine (.cleanUp id code)
  | .ok (.error message) => Run.modify (·.report effect.reactor (.failedEffect id message))
  | .error panic => Run.modify (·.report effect.reactor (.failedEffect id panic.message))

/-- Run an effect: call the cleanup of the last run, then the body. -/
def runEffect (id : NodeId) (effect : Effect κ) : Run κ ν σ Unit := do
  Run.modify (·.modifyEffect id ({ · with executing := true }))
  Run.modify (·.mapGraph effect.reactor (·.unsubscribe id))
  match ← Run.update (·.takeCleanup id) with
  | some code => engine (.cleanUp id code)
  | none => pure ()
  let result ← runBody effect.reactor id (effectAct program engine id effect)
  Run.modify (·.modifyEffect id fun effect => { effect with runs := effect.runs + 1 })
  settleRun engine id effect result
  Run.modify (·.modifyEffect id ({ · with executing := false }))

/-- Run an effect unless it is stopped, already running or without a reactor. -/
def executeEffect (id : NodeId) : Run κ ν σ Unit := do
  let world ← Run.world
  match world.effect? id with
  | none => Run.unknown
  | some effect =>
    if !effect.active || !world.isAlive effect.reactor || effect.executing then return
    else Run.holding (.reactor effect.reactor) (runEffect program engine id effect)

/-- Call a cleanup in an untracked frame; a panic is reported. -/
def callCleanup (id : NodeId) (code : κ) : Run κ ν σ Unit := do
  match (← Run.world).effect? id with
  | none => Run.unknown
  | some effect =>
    Run.modify (·.record (.cleanedUp id code))
    match ← (runInFrame effect.reactor .untracked ((program.cleanup code).run engine)).attempt with
    | .ok _ => return
    | .error panic =>
      Run.modify (·.report effect.reactor
        (.failedEffect id ("cleanup panicked: " ++ panic.message)))

end

/-- Carry out an activation with so many levels of nesting. -/
def activate (program : Program κ ν σ) : Nat → Engine κ ν σ
  | 0, _ => Run.stuck
  | depth + 1, .refresh id => refreshComputed program (activate program depth) id
  | depth + 1, .execute id => executeEffect program (activate program depth) id
  | depth + 1, .cleanUp id code => callCleanup program (activate program depth) id code
  | depth + 1, .invoke handler => (program.handler handler).run (activate program depth)

/-- Run an act of a program with so many levels of nesting. -/
def Program.run {α : Type} (program : Program κ ν σ) (depth : Nat) (act : Act κ ν σ α) :
    Run κ ν σ α :=
  act.run (activate program depth)

end ReactiveTree
