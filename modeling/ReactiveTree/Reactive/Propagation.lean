import ReactiveTree.Reactive.Act
import ReactiveTree.Reactive.Run
import ReactiveTree.Reconcile.Diff

/-! # Reading, writing and notifying

The operations here may set closures off, but do not run them: they ask for an activation, and the
engine that they are given carries it out one level further down.

A write outside a batch starts a notification pass. The pass marks what the changed sources reach,
puts the effects in order and visits each once: it runs if it is active, not running already, has
not run since the pass began, and either read a changed source itself or has a computed input whose
value turns out to have changed.
-/

namespace ReactiveTree

/-- Something that sets a closure off. -/
inductive Activation (κ : Type) where
  /-- Bring a computed up to date. -/
  | refresh (computed : NodeId)
  /-- Run an effect. -/
  | execute (effect : NodeId)
  /-- Call a cleanup of an effect. -/
  | cleanUp (effect : NodeId) (code : κ)
  /-- Call an event handler. -/
  | invoke (handler : κ)
  deriving DecidableEq, Repr

/-- What carries activations out. -/
abbrev Engine (κ ν σ : Type) := Activation κ → Run κ ν σ Unit

variable {κ ν σ : Type}

/-- A handle that names nothing. -/
def Run.unknown {α : Type} : Run κ ν σ α :=
  .raise (.text "unknown handle")

/-- Fail if a signal was destroyed. -/
def requireLive (signal : Signal ν) (id : NodeId) (operation : String) : Run κ ν σ Unit :=
  if signal.destroyed then
    .raise (.text ("signal " ++ id.text ++ " " ++ operation ++ " after destroy"))
  else .pure ()

/-- The value of a computed after bringing it up to date. -/
def readComputed (engine : Engine κ ν σ) (id : NodeId) : Run κ ν σ ν := do
  engine (.refresh id)
  match ((← Run.world).computed? id).bind Computed.value with
  | some value => return value
  | none => Run.raise (.text ("computed " ++ id.text ++ " has no value"))

/-- Read a signal or a computed; a tracked read makes the running computation a dependent. -/
def readNode (engine : Engine κ ν σ) (id : NodeId) (tracked : Bool) : Run κ ν σ ν := do
  match (← Run.world).cell? id with
  | some (.signal signal) =>
    requireLive signal id "read"
    if tracked then Run.modify (·.noteRead signal.reactor id)
    return signal.value
  | some (.computed computed) =>
    if tracked then Run.modify (·.noteRead computed.reactor id)
    readComputed engine id
  | _ => Run.unknown

/-- Read a computed, tracking the read, with a failure as a value. -/
def tryComputed (engine : Engine κ ν σ) (id : NodeId) : Run κ ν σ (Except ReactiveFailure ν) := do
  match ← (readNode engine id true).attempt with
  | .ok value => return .ok value
  | .error panic => return .error (.failedComputed id panic.message)

/-- Whether one of the computed inputs of an effect fails or has changed. -/
def anyChanged (engine : Engine κ ν σ) (reactor : ReactorId) :
    List (NodeId × Nat) → Run κ ν σ Bool
  | [] => return false
  | (input, version) :: rest => do
    match ← (engine (.refresh input)).attempt with
    | .error _ => return true
    | .ok _ =>
      if ((← Run.world).graph reactor).version? input ≠ some version then return true
      else anyChanged engine reactor rest

/-- Whether an effect has to run because of its computed inputs. -/
def needsRun (engine : Engine κ ν σ) (reactor : ReactorId) (effect : NodeId) :
    Run κ ν σ Bool := do
  anyChanged engine reactor (((← Run.world).graph reactor).derivedInputs effect)

/-- A place in a notification pass. -/
structure Visit where
  wakeup : Wakeup
  /-- How often the effect had run when the pass began. -/
  runs : Nat
  deriving DecidableEq, Repr

/-- Visit one effect of a pass. -/
def visit (engine : Engine κ ν σ) (reactor : ReactorId) (entry : Visit) : Run κ ν σ Unit := do
  let id := entry.wakeup.effect
  match (← Run.world).effect? id with
  | none => return
  | some effect =>
    if !effect.active then return
    else if effect.executing then Run.modify (·.mapGraph reactor (·.resubscribe id))
    else if effect.runs ≠ entry.runs then return
    else
      let wanted ← if entry.wakeup.certain then pure true else needsRun engine reactor id
      if wanted then
        Run.modify (·.modifyReactor reactor (·.pushChain entry.wakeup.causes))
        (engine (.execute id)).thenAlways
          (Run.modify (·.modifyReactor reactor Reactor.popChain))

/-- Mark what changed sources reach: the effects to visit, in order. -/
def World.planPass (world : World κ ν σ) (reactor : ReactorId) (sources : List NodeId) :
    List Visit × World κ ν σ :=
  let (wakeups, graph) := (world.graph reactor).propagate sources
  let world := world.mapGraph reactor fun _ => graph
  let order := graph.schedule (wakeups.map Wakeup.effect)
  let visits := order.filterMap fun id =>
    match wakeups.find? fun wakeup => wakeup.effect = id, world.effect? id with
    | some wakeup, some effect => some ⟨wakeup, effect.runs⟩
    | _, _ => none
  (visits, world)

/-- One notification pass. The effects in it are held until their visit is over. -/
def notify (engine : Engine κ ν σ) (reactor : ReactorId) (sources : List NodeId) :
    Run κ ν σ Unit := do
  Run.modify (·.record (.passStarted reactor sources))
  let visits ← Run.update (·.planPass reactor sources)
  Run.modify fun world =>
    visits.foldl (fun world entry => world.hold (.node entry.wakeup.effect)) world
  Run.forEach visits fun entry =>
    (visit engine reactor entry).thenAlways
      (Run.modify (·.drop (.node entry.wakeup.effect)))
  Run.modify (·.record (.passEnded reactor))

/-- Store a new value, and notify now or when the outermost batch closes. -/
def storeValue (engine : Engine κ ν σ) (reactor : ReactorId) (id : NodeId) (value : ν) :
    Run κ ν σ Unit := do
  Run.modify fun world =>
    (((world.modifySignal id fun signal => { signal with value }).mapGraph reactor
      (·.modify id Node.bump)).record (.changed id value))
  match (← Run.world).reactor? reactor with
  | none => return
  | some state =>
    if 0 < state.depth then Run.modify (·.modifyReactor reactor (·.postpone id))
    else notify engine reactor [id]

/-- Write a signal. An equal value changes nothing, and a write that belongs to a notification of
the signal itself is dropped; both are still recorded as writes of the running effect. -/
def writeSignal [BEq ν] (engine : Engine κ ν σ) (id : NodeId) (value : ν) : Run κ ν σ Unit := do
  match (← Run.world).signal? id with
  | none => Run.unknown
  | some signal =>
    requireLive signal id "write"
    Run.modify (·.noteWrite signal.reactor id)
    let world ← Run.world
    if signal.value == value then return
    else if ((world.reactor? signal.reactor).map (·.isCircular id)).getD false then
      let label := ((world.node? id).bind Node.label).getD ""
      Run.modify (·.record (.circularWrite id label))
    else storeValue engine signal.reactor id value

/-- Close a batch; the outermost one notifies of everything written in it. -/
def closeBatch (engine : Engine κ ν σ) (reactor : ReactorId) : Run κ ν σ Unit := do
  let pending ← Run.update fun world =>
    match world.reactor? reactor with
    | none => ([], world)
    | some state =>
      let (pending, state) := state.closeBatch
      (pending, world.modifyReactor reactor fun _ => state)
  if pending ≠ [] then notify engine reactor pending

/-- Make a computed and evaluate it once; a failure is reported. -/
def newComputed (engine : Engine κ ν σ) (reactor : ReactorId) (body : κ) :
    Run κ ν σ NodeId := do
  let id ← Run.update fun world =>
    (world.hold (.reactor reactor)).addCell (.computed ⟨reactor, body, none, false, 1⟩) .derived
  match ← (engine (.refresh id)).attempt with
  | .ok _ => return id
  | .error panic =>
    Run.modify (·.report reactor (.failedComputed id panic.message))
    return id

/-- Make an effect, which its reactor holds too, and perhaps run it at once. -/
def newEffect (engine : Engine κ ν σ) (reactor : ReactorId) (body : EffectBody κ) (eager : Bool) :
    Run κ ν σ NodeId := do
  let id ← Run.update fun world =>
    world.addCell (.effect ⟨reactor, body, false, none, true, false, 0, 2⟩) .effect
  if eager then engine (.execute id)
  return id

/-- Take the cleanup that an effect has left. -/
def World.takeCleanup (world : World κ ν σ) (id : NodeId) : Option κ × World κ ν σ :=
  ((world.effect? id).bind Effect.cleanup, world.modifyEffect id ({ · with cleanup := none }))

/-- Stop an effect for good: it leaves the graph, and its last cleanup is called. -/
def stopEffect (engine : Engine κ ν σ) (id : NodeId) : Run κ ν σ Unit := do
  let world ← Run.world
  match world.effect? id with
  | none => Run.unknown
  | some effect =>
    if !effect.active then return
    else
      Run.modify (·.modifyEffect id ({ · with active := false }))
      if world.isAlive effect.reactor then
        Run.holding (.reactor effect.reactor) do
          Run.modify (·.retire id)
          match ← Run.update (·.takeCleanup id) with
          | some code => engine (.cleanUp id code)
          | none => return
      else
        let _ ← Run.update (·.takeCleanup id)
      Run.modify (·.record (.stopped id))

/-- Stop every effect of a reactor. No order is prescribed for this; here the oldest goes first. -/
def disposeReactor (engine : Engine κ ν σ) (id : ReactorId) : Run κ ν σ Unit := do
  Run.modify (·.record (.disposing id))
  let effects := ((← Run.world).graph id).effects
  Run.modify fun world => effects.foldl (fun world effect => world.hold (.node effect)) world
  Run.forEach effects fun effect =>
    (stopEffect engine effect).thenAlways (Run.modify (·.drop (.node effect)))
  Run.modify (·.record (.disposed id))

/-- Detach every dependent of a signal and retire it. -/
def World.destroySignal (world : World κ ν σ) (id : NodeId) : World κ ν σ :=
  match world.signal? id with
  | some signal =>
    if signal.destroyed then world
    else (world.modifySignal id ({ · with destroyed := true })).retire id
  | none => world

/-- Bring a document from one tree to another; warnings are recorded. -/
def World.reconcile (world : World κ ν σ) (mount : Mount κ) (old new : Option Tree) :
    Except ReconcileFailure Unit × World κ ν σ :=
  match world.document? mount.document with
  | none => (.ok (), world)
  | some document =>
    let repeated := (checkTree mount.policy new).repeated
    let world := repeated.foldl (fun world key => world.record (.repeatedKey key)) world
    let (outcome, journal) := ReactiveTree.reconcile mount.policy
      (Journal.opened document : Journal .refusals) mount.container old new
    let world := journal.events.foldl
      (fun world event =>
        match event with
        | .refused refusal => world.record (.refused refusal)
        | _ => world)
      { world with
        documents := world.documents.modify mount.document.index fun _ => journal.document }
    (outcome.map fun _ => (), world)

/-- Show a newly rendered tree instead of the last one; a failure keeps the last one. -/
def World.present (world : World κ ν σ) (id : MountId) (next : Option Tree) :
    Except ReconcileFailure Unit × World κ ν σ :=
  match world.mount? id with
  | none => (.ok (), world)
  | some mount =>
    let (outcome, world) := world.reconcile mount mount.tree next
    match outcome with
    | .ok _ => (.ok (), world.modifyMount id ({ · with tree := next }))
    | .error failure => (.error failure, world)

/-- Take the rendered tree off its container. -/
def World.withdraw (world : World κ ν σ) (id : MountId) :
    Except ReconcileFailure Unit × World κ ν σ :=
  match world.mount? id with
  | none => (.ok (), world)
  | some mount =>
    match mount.tree with
    | none => (.ok (), world)
    | some tree =>
      (world.modifyMount id ({ · with tree := none })).reconcile mount (some tree) none

/-- Make a mount, whose effect renders at once. -/
def newMount (engine : Engine κ ν σ) (reactor : ReactorId) (document : DocumentId)
    (container : HostId) (render : κ) : Run κ ν σ MountId := do
  let world ← Run.world
  let id : MountId := ⟨world.mounts.length⟩
  let policy := ((world.reactor? reactor).map (·.settings.keyPolicy)).getD .strict
  let effect : NodeId := ⟨world.cells.length⟩
  Run.modify fun world =>
    { world with mounts := world.mounts ++ [⟨effect, document, container, policy, render, none⟩] }
  let _ ← newEffect engine reactor (.render id) true
  return id

/-- Stop rendering and take the tree off its container. -/
def unmount (engine : Engine κ ν σ) (id : MountId) :
    Run κ ν σ (Except ReconcileFailure Unit) := do
  match (← Run.world).mount? id with
  | none => return .ok ()
  | some mount =>
    stopEffect engine mount.effect
    Run.update (·.withdraw id)

end ReactiveTree
