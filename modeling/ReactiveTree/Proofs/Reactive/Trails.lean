import ReactiveTree.Proofs.Reactive.Passes

/-! # Trails

A trail is an account of what a run does to a world, change by change. Whatever is opened on the way
is closed in the same trail: frames, chains, batches, passes, runs of effects and evaluations. It
says where in a run a change may occur, and in which state of the world.

Some changes depend on where the trail is. Reads are tracked for the frame that is open, so they
belong to the closure that runs in it; what the library does on its behalf tracks none. Computeds
are marked and evaluated only while one is being brought up to date.
-/

namespace ReactiveTree

variable {κ ν σ : Type}

/-- The event tells of no value, read, write, run or pass, and of no death. -/
def Event.IsRemark : Event κ ν → Prop
  | .read .. => False
  | .wrote .. => False
  | .changed .. => False
  | .passStarted .. => False
  | .passEnded .. => False
  | .started .. => False
  | .ended .. => False
  | .died .. => False
  | _ => True

/-- A signal that was not destroyed or a computed without a value, with one handle. -/
def Cell.IsNew : Cell κ ν → Prop
  | .signal state => state.destroyed = false ∧ state.holders = 1
  | .computed state => state.value = none ∧ state.computing = false ∧ state.holders = 1
  | .effect _ => False

namespace World

/-- Give a handle back; what loses its last handle perishes. -/
def shed (world : World κ ν σ) (handle : Handle) : World κ ν σ :=
  if world.holdersOf handle = 1 then ((world.lose handle).perish handle).2 else world.lose handle

/-- Store a new value in a signal. -/
def put (world : World κ ν σ) (owner : ReactorId) (id : NodeId) (value : ν) : World κ ν σ :=
  ((world.modifySignal id fun signal => { signal with value }).mapGraph owner
    (·.modify id Node.bump)).record (.changed id value)

/-- Close a batch; the outermost one gives up the pending sources. -/
def closeBatch (world : World κ ν σ) (owner : ReactorId) : List NodeId × World κ ν σ :=
  match world.reactor? owner with
  | none => ([], world)
  | some state => (state.closeBatch.1, world.modifyReactor owner fun _ => state.closeBatch.2)

/-- No batch of a reactor is open. -/
def Unbatched (world : World κ ν σ) (owner : ReactorId) : Prop :=
  ∀ state, world.reactor? owner = some state → state.depth = 0

/-- An effect begins to run: it forgets what it read, and its cleanup is taken. -/
def engage (world : World κ ν σ) (id : NodeId) (owner : ReactorId) : World κ ν σ :=
  (((world.modifyEffect id ({ · with executing := true })).mapGraph owner
    (·.unsubscribe id)).takeCleanup id).2

/-- The body of an effect begins, in a frame of its own. -/
def enterBody (world : World κ ν σ) (id : NodeId) (owner : ReactorId) : World κ ν σ :=
  (world.record (.started id)).modifyReactor owner (·.pushFrame (.tracked id))

/-- The body of an effect ends, and its frame with it. -/
def leaveBody (world : World κ ν σ) (id : NodeId) (owner : ReactorId) (panicked : Bool) :
    World κ ν σ :=
  (world.modifyReactor owner Reactor.popFrame).record (.ended id panicked)

/-- A change of a world in which no closure takes part. -/
inductive Change : World κ ν σ → World κ ν σ → Prop
  /-- Cells and reactors stay as they are. -/
  | aside {world after} (events : List (Event κ ν)) (remarks : ∀ event ∈ events, Event.IsRemark event)
      (past : after.past = events ++ world.past) (cells : after.cells = world.cells)
      (reactors : after.reactors = world.reactors) : Change world after
  | hold {world} (handle : Handle) : Change world (world.hold handle)
  | shed {world} (handle : Handle) : Change world (world.shed handle)
  /-- An effect is stopped and leaves the graph; its reactor is held meanwhile. -/
  | stop {world id effect} (found : world.effect? id = some effect) :
      Change world (((world.modifyEffect id ({ · with active := false })).hold
        (.reactor effect.reactor)).unregister id).2
  /-- An effect is stopped whose reactor is dead. -/
  | abandon {world id effect} (found : world.effect? id = some effect)
      (dead : world.isAlive effect.reactor = false) :
      Change world (world.modifyEffect id ({ · with active := false }))
  /-- A signal is destroyed and leaves the graph. -/
  | destroy {world id signal} (found : world.signal? id = some signal)
      (kept : signal.destroyed = false) :
      Change world ((world.modifySignal id ({ · with destroyed := true })).unregister id).2
  /-- A new value waits for the outermost batch to close. -/
  | defer {world id signal state value} (found : world.signal? id = some signal)
      (kept : signal.destroyed = false) (present : world.reactor? signal.reactor = some state)
      (batched : 0 < state.depth) :
      Change world ((world.put signal.reactor id value).modifyReactor signal.reactor
        (·.postpone id))
  /-- A new value where there is no reactor to notify. -/
  | putLost {world id signal value} (found : world.signal? id = some signal)
      (lost : world.reactor? signal.reactor = none) :
      Change world (world.put signal.reactor id value)
  | noteWrite {world id signal} (found : world.signal? id = some signal) :
      Change world (world.noteWrite signal.reactor id)
  | addReactor {world} (settings : Settings) :
      Change world { world with reactors := world.reactors ++ [.new settings] }
  | addHolding {world} (cell : Cell κ ν) (new : cell.IsNew) :
      Change world ((world.hold (.reactor cell.reactor)).addCell cell cell.kind).2
  | addEffect {world} (owner : ReactorId) (body : EffectBody κ) :
      Change world
        (world.addCell (.effect ⟨owner, body, false, none, true, false, 0, 2⟩) .effect).2
  | label {world id cell} (found : world.cell? id = some cell) (text : String) :
      Change world (world.mapGraph cell.reactor (·.modify id (·.withLabel text)))
  /-- What an effect keeps besides its state. -/
  | tweak {world} (id : NodeId) {change : Effect κ → Effect κ}
      (kept : ∀ effect, (change effect).reactor = effect.reactor ∧
        (change effect).active = effect.active ∧ (change effect).executing = effect.executing ∧
        (change effect).runs = effect.runs ∧ (change effect).holders = effect.holders) :
      Change world (world.modifyEffect id change)

end World

/-- What is going on where a trail is. -/
inductive Mode where
  /-- A closure runs, or the program outside all closures. -/
  | acting
  /-- The library works; in the frame that is open no read is tracked. -/
  | serving
  /-- A computed is being brought up to date. -/
  | updating (id : NodeId)
  deriving DecidableEq

/-- What a trail is about. -/
inductive Phase where
  | flat (mode : Mode)
  /-- An effect is to run. -/
  | running (id : NodeId)
  /-- An effect is visited by a pass. -/
  | visiting (owner : ReactorId) (entry : Visit)
  /-- The visits of a pass that are still to be made. -/
  | passing (owner : ReactorId) (visits : List Visit)
  /-- A whole pass. -/
  | pass (owner : ReactorId) (sources : List NodeId)

open World in
/-- What a run of a program does to a world. -/
inductive Trail [BEq ν] (program : Program κ ν σ) : Phase → World κ ν σ → World κ ν σ → Prop
  | refl (mode : Mode) (world) : Trail program (.flat mode) world world
  | trans {mode world middle after} (start : Trail program (.flat mode) world middle)
      (finish : Trail program (.flat mode) middle after) :
      Trail program (.flat mode) world after
  /-- The library works whatever is going on. -/
  | serve {mode world after} (serving : Trail program (.flat .serving) world after) :
      Trail program (.flat mode) world after
  | change {world after} (change : world.Change after) :
      Trail program (.flat .serving) world after
  /-- A tracked read. -/
  | read {world id cell} (found : world.cell? id = some cell) (readable : cell.kind ≠ .effect) :
      Trail program (.flat .acting) world (world.noteRead cell.reactor id)
  /-- An untracked block. -/
  | untracked {world inner} (owner : ReactorId) (inside : Trail program (.flat .acting)
        (world.modifyReactor owner (·.pushFrame .untracked)) inner) :
      Trail program (.flat .acting) world (inner.modifyReactor owner Reactor.popFrame)
  /-- A cleanup of an effect. -/
  | cleanup {world id effect inner} (found : world.effect? id = some effect)
      (inside : Trail program (.flat .acting)
        (world.modifyReactor effect.reactor (·.pushFrame .untracked)) inner) :
      Trail program (.flat .serving) world
        (inner.modifyReactor effect.reactor Reactor.popFrame)
  /-- A batch in which nothing is left to be told. -/
  | batch {world inner} (owner : ReactorId) (inside : Trail program (.flat .acting)
        (world.modifyReactor owner Reactor.openBatch) inner)
      (bare : (inner.closeBatch owner).1 = []) :
      Trail program (.flat .acting) world (inner.closeBatch owner).2
  /-- A batch that notifies when it closes. -/
  | flush {world inner after} (owner : ReactorId) (inside : Trail program (.flat .acting)
        (world.modifyReactor owner Reactor.openBatch) inner)
      (due : (inner.closeBatch owner).1 ≠ [])
      (pass : Trail program (.pass owner (inner.closeBatch owner).1)
        (inner.closeBatch owner).2 after) :
      Trail program (.flat .acting) world after
  /-- A new value outside batches, with its pass. -/
  | store {world id signal value after} (found : world.signal? id = some signal)
      (kept : signal.destroyed = false) (unbatched : world.Unbatched signal.reactor)
      (pass : Trail program (.pass signal.reactor [id])
        (world.put signal.reactor id value) after) :
      Trail program (.flat .serving) world after
  | refresh {world id depth result after}
      (ran : activate program depth (.refresh id) world = some (result, after))
      (inside : Trail program (.flat (.updating id)) world after) :
      Trail program (.flat .serving) world after
  /-- A run of an effect by hand. -/
  | execute {world id after}
      (run : Trail program (.running id) (world.record (.executed id)) after) :
      Trail program (.flat .serving) world after
  /-- A new effect that runs at once. -/
  | born {world after} (owner : ReactorId) (body : EffectBody κ)
      (run : Trail program (.running world.nextId)
        (world.addCell (.effect ⟨owner, body, false, none, true, false, 0, 2⟩) .effect).2 after) :
      Trail program (.flat .serving) world after
  /-- The inputs of a computed have not changed. -/
  | confirm {world id computed} (found : world.computed? id = some computed) :
      Trail program (.flat (.updating id)) world
        (world.mapGraph computed.reactor (·.modify id Node.markClean))
  /-- An evaluation of a computed. -/
  | evaluate {world id computed present inner} (found : world.computed? id = some present)
      (home : present.reactor = computed.reactor) (idle : present.computing = false)
      (inside : Trail program (.flat .acting) (world.enter id computed.reactor) inner)
      (result : Except Panic ν) :
      Trail program (.flat (.updating id)) world (inner.afterEvaluation id computed result).2
  /-- An effect that is not there, stopped, running already or without a reactor does not run. -/
  | decline {world id} (unready : ∀ effect, world.effect? id = some effect →
        effect.active = false ∨ effect.executing = true ∨ world.isAlive effect.reactor = false) :
      Trail program (.running id) world world
  | run {world id effect middle inner last after} (panicked : Bool)
      (found : world.effect? id = some effect) (active : effect.active = true)
      (idle : effect.executing = false) (alive : world.isAlive effect.reactor = true)
      (cleaned : Trail program (.flat .serving)
        ((world.hold (.reactor effect.reactor)).engage id effect.reactor) middle)
      (inside : Trail program (.flat .acting) (middle.enterBody id effect.reactor) inner)
      (settled : Trail program (.flat .serving)
        ((inner.leaveBody id effect.reactor panicked).countRun id) last)
      (released : Trail program (.flat .serving) (last.endRun id) after) :
      Trail program (.running id) world after
  /-- The effect of a visit is not there, or stopped, or has run meanwhile. -/
  | skip {world owner entry} (unready : ∀ effect, world.effect? entry.wakeup.effect = some effect →
        effect.active = true → effect.executing = false ∧ effect.runs ≠ entry.runs) :
      Trail program (.visiting owner entry) world world
  /-- The effect of a visit runs already, and is put back where it has read. -/
  | again {world owner entry effect} (found : world.effect? entry.wakeup.effect = some effect)
      (active : effect.active = true) (executing : effect.executing = true) :
      Trail program (.visiting owner entry) world
        (world.mapGraph owner (·.resubscribe entry.wakeup.effect))
  /-- No computed input of the effect of a visit has changed. -/
  | spare {world owner entry effect after} (found : world.effect? entry.wakeup.effect = some effect)
      (active : effect.active = true) (idle : effect.executing = false)
      (asked : Trail program (.flat .serving) world after) :
      Trail program (.visiting owner entry) world after
  /-- A visit runs its effect, with the causes on the chain. -/
  | wake {world owner entry effect middle after}
      (found : world.effect? entry.wakeup.effect = some effect) (active : effect.active = true)
      (idle : effect.executing = false)
      (asked : Trail program (.flat .serving) world middle)
      (run : Trail program (.running entry.wakeup.effect)
        (middle.modifyReactor owner (·.pushChain entry.wakeup.causes)) after) :
      Trail program (.visiting owner entry) world
        (after.modifyReactor owner Reactor.popChain)
  | done {owner} (world) : Trail program (.passing owner []) world world
  | next {world owner entry rest visited dropped after}
      (visit : Trail program (.visiting owner entry) world visited)
      (drop : Trail program (.flat .serving) visited dropped)
      (others : Trail program (.passing owner rest) dropped after) :
      Trail program (.passing owner (entry :: rest)) world after
  | pass {world owner sources after}
      (visits : Trail program (.passing owner (world.passVisits owner sources))
        (world.enterPass owner sources) after) :
      Trail program (.pass owner sources) world (after.record (.passEnded owner))

namespace World

variable {world middle after : World κ ν σ} {id : NodeId} {owner : ReactorId}

/-- The past goes on, cells stay in their places, and what has left a graph does not come back. -/
def Leads (world after : World κ ν σ) : Prop :=
  ∃ events, world.Spares (fun _ => True) events after

theorem Spares.leads {events : List (Event κ ν)}
    (spares : world.Spares (fun _ => True) events after) : world.Leads after :=
  ⟨events, spares⟩

theorem Leads.refl (world : World κ ν σ) : world.Leads world :=
  ⟨[], .refl world⟩

theorem Leads.trans (start : world.Leads middle) (finish : middle.Leads after) :
    world.Leads after := by
  obtain ⟨events, spares⟩ := start
  obtain ⟨later, spares'⟩ := finish
  exact ⟨_, spares.trans spares'⟩

theorem Leads.past (leads : world.Leads after) : ∃ events, after.past = events ++ world.past := by
  obtain ⟨events, spares⟩ := leads
  exact ⟨events, spares.past⟩

theorem Leads.cell (leads : world.Leads after) {cell : Cell κ ν} (found : world.cell? id = some cell) :
    ∃ cell', after.cell? id = some cell' ∧ cell'.place = cell.place := by
  obtain ⟨_, spares⟩ := leads
  obtain ⟨cell', found', place, _⟩ := spares.cells id cell found
  exact ⟨cell', found', place⟩

theorem Leads.known (leads : world.Leads after) (known : (world.cell? id).isSome) :
    (after.cell? id).isSome := by
  obtain ⟨cell, found⟩ := Option.isSome_iff_exists.mp known
  obtain ⟨cell', found', _⟩ := leads.cell found
  rw [found']
  rfl

theorem Leads.effect (leads : world.Leads after) {effect : Effect κ}
    (found : world.effect? id = some effect) :
    ∃ effect', after.effect? id = some effect' ∧ effect'.reactor = effect.reactor := by
  obtain ⟨_, spares⟩ := leads
  obtain ⟨effect', found', home, _⟩ := spares.effect found
  exact ⟨effect', found', home⟩

theorem Leads.computed (leads : world.Leads after) {computed : Computed κ ν}
    (found : world.computed? id = some computed) :
    ∃ computed', after.computed? id = some computed' ∧ computed'.reactor = computed.reactor := by
  obtain ⟨_, spares⟩ := leads
  exact spares.computed found

theorem Leads.signal (leads : world.Leads after) {signal : Signal ν}
    (found : world.signal? id = some signal) :
    ∃ signal', after.signal? id = some signal' ∧ signal'.reactor = signal.reactor := by
  obtain ⟨_, spares⟩ := leads
  obtain ⟨signal', found', home, _⟩ := spares.signal found
  exact ⟨signal', found', home⟩

/-- What is live later was live before, if it was there at all. -/
theorem Leads.live (leads : world.Leads after) (known : (world.cell? id).isSome)
    (live : ((after.graph owner).node? id).isSome) : ((world.graph owner).node? id).isSome := by
  obtain ⟨_, spares⟩ := leads
  obtain ⟨cell, found⟩ := Option.isSome_iff_exists.mp known
  obtain ⟨node, live⟩ := Option.isSome_iff_exists.mp live
  obtain ⟨old, was, _⟩ := spares.nodes owner id cell node found live
  rw [was]
  rfl

/-- A change of a reactor besides its graph, its chains and its handles. -/
theorem Leads.modifyReactor (world : World κ ν σ) (owner : ReactorId) {change : Reactor → Reactor}
    (kept : ∀ state, (change state).graph = state.graph ∧ (change state).chains = state.chains ∧
      (change state).holders = state.holders) : world.Leads (world.modifyReactor owner change) := by
  refine Spares.leads (.modifyReactor world owner
    (fun state _ => (kept state).1) (fun state _ => (kept state).2.1) fun state _ living => ?_)
  unfold Reactor.isAlive at living ⊢
  rwa [(kept state).2.2]

theorem leads_pushFrame (world : World κ ν σ) (owner : ReactorId) (frame : Frame) :
    world.Leads (world.modifyReactor owner (·.pushFrame frame)) :=
  .modifyReactor world owner fun _ => ⟨rfl, rfl, rfl⟩

theorem leads_popFrame (world : World κ ν σ) (owner : ReactorId) :
    world.Leads (world.modifyReactor owner Reactor.popFrame) :=
  .modifyReactor world owner fun _ => ⟨rfl, rfl, rfl⟩

theorem leads_openBatch (world : World κ ν σ) (owner : ReactorId) :
    world.Leads (world.modifyReactor owner Reactor.openBatch) :=
  .modifyReactor world owner fun _ => ⟨rfl, rfl, rfl⟩

theorem Leads.record (world : World κ ν σ) (event : Event κ ν) (unread : ¬ event.IsTracked) :
    world.Leads (world.record event) :=
  (Spares.record world event (fun _ _ => Or.inl trivial) unread).leads

theorem Leads.mapGraph (world : World κ ν σ) (owner : ReactorId) (id : NodeId) {change : Node → Node}
    (kept : ∀ node, (change node).id = node.id ∧ (change node).dependencies = node.dependencies) :
    world.Leads (world.mapGraph owner (·.modify id change)) :=
  (spares_modifyNode world owner id kept
    fun free => absurd trivial free.1).leads

theorem leads_unsubscribe (world : World κ ν σ) (owner : ReactorId) (id : NodeId) :
    world.Leads (world.mapGraph owner (·.unsubscribe id)) :=
  (spares_unsubscribe world owner (Or.inr trivial)).leads

theorem leads_modifyEffect (world : World κ ν σ) (id : NodeId) (change : Effect κ → Effect κ)
    (home : ∀ state, (change state).reactor = state.reactor) :
    world.Leads (world.modifyEffect id change) :=
  (Spares.modifyEffect world id home
    fun apart => absurd trivial apart).leads

theorem leads_countRun (world : World κ ν σ) (id : NodeId) : world.Leads (world.countRun id) :=
  world.leads_modifyEffect id _ fun _ => rfl

theorem leads_endRun (world : World κ ν σ) (id : NodeId) : world.Leads (world.endRun id) :=
  world.leads_modifyEffect id _ fun _ => rfl

theorem leads_put (world : World κ ν σ) (owner : ReactorId) (id : NodeId) (value : ν) :
    world.Leads (world.put owner id value) :=
  ((world.spares_store owner id value).mono fun _ _ => trivial).leads

theorem leads_closeBatch (world : World κ ν σ) (owner : ReactorId) :
    world.Leads (world.closeBatch owner).2 := by
  unfold closeBatch
  split
  next => exact .refl world
  next state found =>
    obtain ⟨graph, chains, holders⟩ := state.closeBatch_kept
    have same : ∀ other, world.reactor? owner = some other → other = state :=
      fun other found' => Option.some.inj (found'.symm.trans found)
    refine Spares.leads (.modifyReactor world owner
      (fun other found' => ?_) (fun other found' => ?_) fun other found' living => ?_)
    · rw [same other found', graph]
    · rw [same other found', chains]
    · rw [same other found'] at living
      unfold Reactor.isAlive at living ⊢
      rwa [holders]

theorem leads_engage (world : World κ ν σ) (id : NodeId) (owner : ReactorId) :
    world.Leads (world.engage id owner) := by
  have executing := world.leads_modifyEffect id ({ · with executing := true }) fun _ => rfl
  exact (executing.trans (leads_unsubscribe _ owner id)).trans
    (leads_modifyEffect _ id _ fun _ => rfl)

theorem leads_enterBody (world : World κ ν σ) (id : NodeId) (owner : ReactorId) :
    world.Leads (world.enterBody id owner) :=
  (Leads.record world (.started id) not_false).trans (leads_pushFrame _ owner (.tracked id))

theorem leads_leaveBody (world : World κ ν σ) (id : NodeId) (owner : ReactorId) (panicked : Bool) :
    world.Leads (world.leaveBody id owner panicked) :=
  (world.leads_popFrame owner).trans (.record _ (.ended id panicked) not_false)

theorem leads_enterPass (world : World κ ν σ) (owner : ReactorId) (sources : List NodeId) :
    world.Leads (world.enterPass owner sources) := by
  have planned := (spares_planPass (world.record (.passStarted owner sources)) owner sources).leads
  exact ((Leads.record world (.passStarted owner sources) not_false).trans planned).trans
    (spares_foldl_hold _ _ _).leads

theorem leads_enter (world : World κ ν σ) (id : NodeId) (owner : ReactorId) :
    world.Leads (world.enter id owner) := by
  have computing : world.Leads (world.modifyComputed id ({ · with computing := true })) :=
    Spares.leads (.modifyComputed world id (fun _ => rfl) fun _ => rfl)
  exact ((computing.trans (leads_unsubscribe _ owner id)).trans
    (.record _ (.started id) not_false)).trans (leads_pushFrame _ owner (.tracked id))

theorem leads_leave (world : World κ ν σ) (id : NodeId) (owner : ReactorId) (panicked : Bool) :
    world.Leads (world.leave id owner panicked) :=
  (world.leads_leaveBody id owner panicked).trans
    (Spares.leads (.modifyComputed _ id (fun _ => rfl) fun _ => rfl))

theorem leads_afterEvaluation [BEq ν] (world : World κ ν σ) {id : NodeId} {present : Computed κ ν}
    (found : world.computed? id = some present) (computed : Computed κ ν)
    (result : Except Panic ν) : world.Leads (world.afterEvaluation id computed result).2 := by
  cases result with
  | error panic =>
    exact (world.leads_leave id computed.reactor true).trans (.mapGraph _ _ id fun _ => ⟨rfl, rfl⟩)
  | ok value =>
    have left := world.leads_leave id computed.reactor false
    obtain ⟨_, found', _⟩ := left.computed found
    obtain ⟨_, settled⟩ := spares_settleValue _ found' computed value
    exact left.trans settled.leads

theorem Change.leads (change : world.Change after) : world.Leads after := by
  cases change with
  | aside _ remarks past cells reactors =>
    refine Spares.leads (.of_alike cells reactors past
      (fun _ _ _ _ => Or.inl trivial) fun event member tracked => ?_)
    have remark := remarks event member
    cases event with
    | read => exact remark
    | _ => exact tracked
  | hold handle => exact (spares_hold world handle).leads
  | shed handle =>
    unfold World.shed
    split
    next =>
      obtain ⟨_, _, perished⟩ := spares_perish world handle
      exact perished.leads
    next held => exact (spares_lose held).leads
  | @stop id effect =>
    have stopped := world.leads_modifyEffect id ({ · with active := false }) fun _ => rfl
    exact (stopped.trans (spares_hold _ (.reactor effect.reactor)).leads).trans
      (spares_unregister _ fun _ _ => trivial).leads
  | abandon => exact world.leads_modifyEffect _ _ fun _ => rfl
  | @destroy id =>
    have marked : world.Leads (world.modifySignal id ({ · with destroyed := true })) :=
      Spares.leads (.modifySignal world id (fun _ => rfl) fun _ _ => rfl)
    exact marked.trans (spares_unregister _ fun _ _ => trivial).leads
  | defer =>
    exact (world.leads_put _ _ _).trans (.modifyReactor _ _ fun _ => ⟨rfl, rfl, rfl⟩)
  | putLost => exact world.leads_put _ _ _
  | noteWrite =>
    obtain ⟨_, noted⟩ := spares_noteWrite world _ _
    exact noted.leads
  | addReactor settings => exact (spares_addReactor world settings).leads
  | addHolding _ new =>
    refine (spares_addHolding world _ fun effect same => ?_).leads
    subst same
    exact new.elim
  | addEffect owner body =>
    refine (spares_addCell world
      (.effect ⟨owner, body, false, none, true, false, 0, 2⟩) ?_).leads
    rintro _ ⟨⟩
    exact ⟨rfl, rfl, rfl⟩
  | label => exact .mapGraph world _ _ fun _ => ⟨rfl, rfl⟩
  | tweak id kept => exact world.leads_modifyEffect id _ fun effect => (kept effect).1

/-- A chain that is put on before a stretch and taken off after it. -/
theorem Leads.popChain {causes : List NodeId}
    (leads : (world.modifyReactor owner (·.pushChain causes)).Leads after) :
    world.Leads (after.modifyReactor owner Reactor.popChain) := by
  obtain ⟨events, spares⟩ := leads
  exact ⟨events, spares.popChain⟩

end World

open World in
theorem Trail.leads [BEq ν] {program : Program κ ν σ} {phase : Phase}
    {world after : World κ ν σ} (trail : Trail program phase world after) :
    world.Leads after := by
  induction trail with
  | refl => exact .refl _
  | trans _ _ start finish => exact start.trans finish
  | serve _ serving => exact serving
  | change change => exact change.leads
  | read found readable =>
    obtain ⟨_, noted⟩ := spares_noteRead _ found readable
    exact noted.leads
  | untracked owner _ inside =>
    exact ((leads_pushFrame _ owner _).trans inside).trans (leads_popFrame _ owner)
  | cleanup _ _ inside =>
    exact ((leads_pushFrame _ _ _).trans inside).trans (leads_popFrame _ _)
  | batch owner _ _ inside =>
    exact ((leads_openBatch _ owner).trans inside).trans (leads_closeBatch _ owner)
  | flush owner _ _ _ inside pass =>
    exact (((leads_openBatch _ owner).trans inside).trans (leads_closeBatch _ owner)).trans pass
  | store _ _ _ _ pass => exact (leads_put _ _ _ _).trans pass
  | refresh _ _ inside => exact inside
  | @execute world id _ _ run => exact (Leads.record world (.executed id) not_false).trans run
  | born owner body _ run => exact (Change.addEffect owner body).leads.trans run
  | confirm => exact .mapGraph _ _ _ fun _ => ⟨rfl, rfl⟩
  | evaluate found _ _ _ result inside =>
    have entered := (leads_enter _ _ _).trans inside
    obtain ⟨_, found', _⟩ := entered.computed found
    exact entered.trans (leads_afterEvaluation _ found' _ result)
  | decline => exact .refl _
  | @run world id effect _ _ _ _ panicked _ _ _ _ _ _ _ _ cleaned inside settled released =>
    have begun := ((Change.hold (.reactor effect.reactor) : world.Change _).leads.trans
      (leads_engage _ id effect.reactor)).trans cleaned
    have left := ((begun.trans (leads_enterBody _ id effect.reactor)).trans inside).trans
      (leads_leaveBody _ id effect.reactor panicked)
    have settled := (left.trans (leads_countRun _ id)).trans settled
    exact (settled.trans (leads_endRun _ id)).trans released
  | skip => exact .refl _
  | again => exact (spares_resubscribe _ _ _).leads
  | spare _ _ _ _ asked => exact asked
  | wake _ _ _ _ _ asked run => exact asked.trans run.popChain
  | done => exact .refl _
  | next _ _ _ visit drop others => exact (visit.trans drop).trans others
  | pass _ visits =>
    exact ((leads_enterPass _ _ _).trans visits).trans (.record _ _ not_false)

end ReactiveTree
