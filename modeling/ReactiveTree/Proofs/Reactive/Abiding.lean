import ReactiveTree.Proofs.Reactive.Closing
import ReactiveTree.Proofs.Reactive.Renewing
import ReactiveTree.Proofs.Reactive.Sustaining

/-! # Changes that marks abide

Between two evaluations marks can be trusted: they are sound, no computed is in evaluation, and every
computed that is not dirty is listed by what it reads. Most steps leave marks and computeds as they
are. A new computed is dirty, and the plan of a pass marks whatever a source reaches.
-/

namespace ReactiveTree

variable {κ ν σ : Type}

/-- Some visits are owed; nothing else is asked for. -/
def Tally.owing (owed : List (NodeId × Nat)) : Tally :=
  { Tally.none with owed }

theorem Tally.owing_plain (owed : List (NodeId × Nat)) : (Tally.owing owed).Plain :=
  fun _ holds => holds

namespace World

/-- All reads in open frames are those of effects. -/
def Attributed (world : World κ ν σ) : Prop :=
  ∀ owner reader, .tracked reader ∈ (world.opened owner).1 → (world.effect? reader).isSome

/-- Marks can be relied on, and no computed is in evaluation. -/
structure Trusted (world : World κ ν σ) : Prop where
  listed : ∃ owed, world.Listed (.owing owed)
  sound : world.Sound
  held : ∀ id state, world.computed? id = some state →
    ((world.graph state.reactor).node? id).isSome → 0 < state.holders
  idle : ∀ id state, world.computed? id = some state → state.computing = false

/-- A step leaves marks and computeds as they are; a computed that is held stays so. -/
structure Abides (world after : World κ ν σ) : Prop where
  marks : ∀ owner, (world.graph owner).SameMarks (after.graph owner)
  computeds : ∀ id state, after.computed? id = some state → ∃ old, world.computed? id = some old ∧
    state.reactor = old.reactor ∧ state.value = old.value ∧ state.computing = old.computing ∧
      (0 < old.holders → 0 < state.holders)

variable {world middle after : World κ ν σ} {id : NodeId} {owner : ReactorId}

theorem Attributed.reader (attributed : world.Attributed) {reader : NodeId}
    (reading : world.reader? owner = some reader) : (world.effect? reader).isSome := by
  refine attributed owner reader ?_
  obtain ⟨state, found, reads⟩ := Option.bind_eq_some_iff.mp reading
  have frames : (world.opened owner).1 = state.frames := by
    unfold opened
    rw [found]
    rfl
  rw [frames]
  unfold Reactor.reader? at reads
  split at reads
  next top =>
    cases reads
    rw [top]
    exact List.mem_cons_self
  next => cases reads

/-- Nothing is pending where marks can be trusted. -/
theorem Trusted.staged (trusted : world.Trusted) (attributed : world.Attributed) :
    world.Staged fun _ => False where
  homes := by
    obtain ⟨_, listed⟩ := trusted.listed
    exact listed.home
  held := trusted.held
  busy id state found computing := by
    rw [trusted.idle id state found] at computing
    cases computing
  readers _ _ reading := Or.inr (attributed.reader reading)

/-- Marks can be trusted after a step that leaves computeds alone, as far as they are live. -/
theorem Trusted.of_step (trusted : world.Trusted) (listed : ∃ owed, after.Listed (.owing owed))
    (marks : ∀ owner, (world.graph owner).SameMarks (after.graph owner))
    (computeds : ∀ id state, after.computed? id = some state → ∃ old,
      world.computed? id = some old ∧ state.reactor = old.reactor ∧ state.value = old.value ∧
        state.computing = old.computing ∧ (((after.graph state.reactor).node? id).isSome →
          0 < old.holders → 0 < state.holders)) : after.Trusted := by
  have live : ∀ id state node, after.computed? id = some state →
      (after.graph state.reactor).node? id = some node → ∃ old,
        (world.graph state.reactor).node? id = some old ∧ old.freshness = node.freshness := by
    intro id state node found present
    obtain ⟨_, listed⟩ := listed
    obtain ⟨cell, known, _, kind⟩ := listed.home _ id node present
    rw [computed?_eq_some_iff.mp found] at known
    cases known
    obtain ⟨old, was, _, same, _⟩ := marks _ id node present kind.symm
    exact ⟨old, was, same⟩
  refine ⟨listed, ⟨fun owner => (trusted.sound.settled owner).of_sameMarks (marks owner), ?_⟩, ?_, ?_⟩
  · intro id state node found present mark
    obtain ⟨old, was, home, value, _⟩ := computeds id state found
    obtain ⟨before, known, same⟩ := live id state node found present
    rw [value]
    exact trusted.sound.valued id old before was (home ▸ known) (same ▸ mark)
  · intro id state found present
    obtain ⟨old, was, home, _, _, holders⟩ := computeds id state found
    obtain ⟨node, present'⟩ := Option.isSome_iff_exists.mp present
    obtain ⟨before, known, _⟩ := live id state node found present'
    refine holders present (trusted.held id old was ?_)
    rw [← home, known]
    rfl
  · intro id state found
    obtain ⟨old, was, _, _, computing, _⟩ := computeds id state found
    exact computing.trans (trusted.idle id old was)

theorem Trusted.abide (trusted : world.Trusted) (abides : world.Abides after)
    (listed : ∃ owed, after.Listed (.owing owed)) : after.Trusted :=
  trusted.of_step listed abides.marks fun id state found => by
    obtain ⟨old, was, home, value, computing, holders⟩ := abides.computeds id state found
    exact ⟨old, was, home, value, computing, fun _ => holders⟩

theorem Abides.trans (start : world.Abides middle) (finish : middle.Abides after) :
    world.Abides after where
  marks owner := (start.marks owner).trans (finish.marks owner)
  computeds id state found := by
    obtain ⟨between, present, home, value, computing, holders⟩ := finish.computeds id state found
    obtain ⟨old, was, home', value', computing', holders'⟩ := start.computeds id between present
    exact ⟨old, was, home.trans home', value.trans value', computing.trans computing',
      fun held => holders (holders' held)⟩

/-- A step that leaves cells alone. -/
theorem Abides.of_graphs (cells : after.cells = world.cells)
    (marks : ∀ owner, (world.graph owner).SameMarks (after.graph owner)) : world.Abides after where
  marks := marks
  computeds id state found := by
    refine ⟨state, ?_, rfl, rfl, rfl, fun held => held⟩
    unfold computed? cell? at found ⊢
    rwa [cells] at found

theorem Abides.of_alike (cells : after.cells = world.cells) (reactors : after.reactors = world.reactors) :
    world.Abides after := by
  refine .of_graphs cells fun owner => ?_
  unfold graph reactor?
  rw [reactors]
  exact .refl _

theorem Abides.record (world : World κ ν σ) (event : Event κ ν) : world.Abides (world.record event) :=
  .of_alike rfl rfl

theorem Abides.modifyReactor (world : World κ ν σ) (owner : ReactorId) {change : Reactor → Reactor}
    (kept : ∀ state, (change state).graph = state.graph) :
    world.Abides (world.modifyReactor owner change) := by
  refine .of_graphs rfl fun other => ?_
  rw [graph_modifyReactor world owner fun state _ => kept state]
  exact .refl _

theorem Abides.mapGraph (world : World κ ν σ) (owner : ReactorId) {change : Graph → Graph}
    (bare : change .empty = .empty) (marks : (world.graph owner).SameMarks (change (world.graph owner))) :
    world.Abides (world.mapGraph owner change) := by
  refine .of_graphs rfl fun other => ?_
  rw [graph_mapGraph world owner bare]
  split
  next same => exact same ▸ marks
  next => exact .refl _

theorem Abides.modifyNode (world : World κ ν σ) (owner : ReactorId) (id : NodeId)
    {change : Node → Node} (kept : ∀ node, (change node).id = node.id ∧
      (change node).kind = node.kind ∧ (change node).freshness = node.freshness ∧
        (change node).dependencies = node.dependencies) :
    world.Abides (world.mapGraph owner (·.modify id change)) :=
  .mapGraph world owner rfl (.modify _ id kept)

theorem Abides.modifyCell (world : World κ ν σ) (id : NodeId) {change : Cell κ ν → Cell κ ν}
    (kept : ∀ cell state, world.cell? id = some cell → change cell = .computed state → ∃ old,
      cell = .computed old ∧ state.reactor = old.reactor ∧ state.value = old.value ∧
        state.computing = old.computing ∧ (0 < old.holders → 0 < state.holders)) :
    world.Abides (world.modifyCell id change) where
  marks _ := .refl _
  computeds other state found := by
    rw [computed?_eq_some_iff, cell?_modifyCell] at found
    split at found
    next same =>
      subst same
      obtain ⟨cell, known, changed⟩ := Option.map_eq_some_iff.mp found
      obtain ⟨old, rfl, rest⟩ := kept cell state known changed
      exact ⟨old, computed?_eq_some_iff.mpr known, rest⟩
    next => exact ⟨state, computed?_eq_some_iff.mpr found, rfl, rfl, rfl, fun held => held⟩

theorem Abides.modifySignal (world : World κ ν σ) (id : NodeId) (change : Signal ν → Signal ν) :
    world.Abides (world.modifySignal id change) := by
  refine .modifyCell world id fun cell state _ changed => ?_
  cases cell with
  | signal => cases changed
  | computed =>
    cases changed
    exact ⟨_, rfl, rfl, rfl, rfl, fun held => held⟩
  | effect => cases changed

theorem Abides.modifyEffect (world : World κ ν σ) (id : NodeId) (change : Effect κ → Effect κ) :
    world.Abides (world.modifyEffect id change) := by
  refine .modifyCell world id fun cell state _ changed => ?_
  cases cell with
  | signal => cases changed
  | computed =>
    cases changed
    exact ⟨_, rfl, rfl, rfl, rfl, fun held => held⟩
  | effect => cases changed

theorem Abides.hold (world : World κ ν σ) (handle : Handle) : world.Abides (world.hold handle) := by
  cases handle with
  | reactor owner => exact .modifyReactor world owner fun _ => rfl
  | node id =>
    refine .modifyCell world id fun cell state _ changed => ?_
    cases cell with
    | signal => cases changed
    | computed old =>
      cases changed
      exact ⟨old, rfl, rfl, rfl, rfl, fun _ => Nat.succ_pos _⟩
    | effect => cases changed

theorem Abides.foldl_hold {α : Type} (world : World κ ν σ) (members : List α) (handle : α → Handle) :
    world.Abides (members.foldl (fun world member => world.hold (handle member)) world) := by
  induction members generalizing world with
  | nil => exact .of_alike rfl rfl
  | cons member rest ih => exact (Abides.hold world (handle member)).trans (ih _)

/-- A handle that is not the last one is given back. -/
theorem Abides.lose (world : World κ ν σ) {handle : Handle} (held : world.holdersOf handle ≠ 1) :
    world.Abides (world.lose handle) := by
  cases handle with
  | reactor owner => exact .modifyReactor world owner fun _ => rfl
  | node id =>
    refine .modifyCell world id fun cell state known changed => ?_
    cases cell with
    | signal => cases changed
    | computed old =>
      cases changed
      refine ⟨old, rfl, rfl, rfl, rfl, fun positive => ?_⟩
      have several : old.holders ≠ 1 := by
        intro single
        refine held ?_
        show ((world.cell? id).map Cell.holders).getD 0 = 1
        rw [known]
        exact single
      show 0 < old.holders - 1
      omega
    | effect => cases changed

theorem Abides.unregister (world : World κ ν σ) (id : NodeId) :
    world.Abides (world.unregister id).2 := by
  unfold World.unregister
  split
  next => exact .of_alike rfl rfl
  next cell _ =>
    rw [removeNode_eq]
    exact (Abides.mapGraph world cell.reactor rfl (.remove _ id)).trans
      (.modifyReactor _ cell.reactor fun _ => rfl)

theorem Abides.put (world : World κ ν σ) (owner : ReactorId) (id : NodeId) (value : ν) :
    world.Abides (world.put owner id value) := by
  have stored := Abides.modifySignal world id fun signal => { signal with value }
  have bumped : (world.modifySignal id fun signal => { signal with value }).Abides
      ((world.modifySignal id fun signal => { signal with value }).mapGraph owner
        (·.modify id Node.bump)) := .modifyNode _ owner id fun _ => ⟨rfl, rfl, rfl, rfl⟩
  exact (stored.trans bumped).trans (.record _ _)

theorem Abides.noteWrite (world : World κ ν σ) (owner : ReactorId) (source : NodeId) :
    world.Abides (world.noteWrite owner source) := by
  unfold World.noteWrite
  split
  next writer _ =>
    have noted : world.Abides (world.mapGraph owner (·.noteWrite source writer)) :=
      .mapGraph world owner rfl (.noteWrite _ source writer)
    exact noted.trans (.record _ _)
  next => exact .record world _

theorem Trusted.record (trusted : world.Trusted) (event : Event κ ν) :
    (world.record event).Trusted := by
  obtain ⟨owed, listed⟩ := trusted.listed
  exact trusted.abide (.record world event) ⟨owed, listed.record event⟩

/-- A change of what a reactor keeps besides its graph and its handles. -/
theorem Trusted.modifyRecords (trusted : world.Trusted) (owner : ReactorId)
    {change : Reactor → Reactor} (kept : ∀ state, (change state).graph = state.graph ∧
      (change state).holders = state.holders) : (world.modifyReactor owner change).Trusted := by
  obtain ⟨owed, listed⟩ := trusted.listed
  exact trusted.abide (.modifyReactor world owner fun state => (kept state).1)
    ⟨owed, listed.modifyRecords owner kept⟩

theorem Trusted.closeBatch (trusted : world.Trusted) (owner : ReactorId) :
    (world.closeBatch owner).2.Trusted := by
  rw [closeBatch_snd]
  refine trusted.modifyRecords owner fun state => ?_
  obtain ⟨graph, _, holders⟩ := state.closeBatch_kept
  exact ⟨graph, holders⟩

theorem Trusted.modifyEffect (trusted : world.Trusted) (id : NodeId) {change : Effect κ → Effect κ}
    (kept : ∀ state, (change state).reactor = state.reactor ∧ (change state).active = state.active ∧
      (change state).runs = state.runs) : (world.modifyEffect id change).Trusted := by
  obtain ⟨owed, listed⟩ := trusted.listed
  exact trusted.abide (.modifyEffect world id change) ⟨owed, listed.modifyEffect id kept⟩

theorem Trusted.countRun (trusted : world.Trusted) (id : NodeId) : (world.countRun id).Trusted := by
  obtain ⟨owed, listed⟩ := trusted.listed
  exact trusted.abide (.modifyEffect world id _) (listed.countOwed id)

theorem Listed.put {tally : Tally} (listed : world.Listed tally) (owner : ReactorId) (id : NodeId)
    (value : ν) : (world.put owner id value).Listed tally := by
  have written : (world.modifySignal id fun signal => { signal with value }).Listed tally :=
    listed.modifySignal id fun _ => rfl
  exact (written.bump owner id).record (.changed id value)

theorem Trusted.put (trusted : world.Trusted) (owner : ReactorId) (id : NodeId) (value : ν) :
    (world.put owner id value).Trusted := by
  obtain ⟨owed, listed⟩ := trusted.listed
  exact trusted.abide (.put world owner id value) ⟨owed, listed.put owner id value⟩

/-- An effect begins to run. -/
theorem Trusted.engage (trusted : world.Trusted) {effect : Effect κ}
    (found : world.effect? id = some effect) : (world.engage id effect.reactor).Trusted := by
  have marked : (world.modifyEffect id ({ · with executing := true })).Trusted :=
    trusted.modifyEffect id fun _ => ⟨rfl, rfl, rfl⟩
  obtain ⟨owed, listed⟩ := marked.listed
  have known : (world.modifyEffect id ({ · with executing := true })).cell? id =
      some (.effect { effect with executing := true }) := by
    unfold World.modifyEffect
    rw [cell?_modifyCell, if_pos rfl, effect?_eq_some_iff.mp found]
    rfl
  have unsubscribed := listed.unsubscribe known
  exact (marked.abide (.mapGraph _ effect.reactor rfl (.unsubscribe _ id))
    ⟨owed, unsubscribed.of_insisting.of_clearing⟩).modifyEffect id fun _ => ⟨rfl, rfl, rfl⟩

theorem cell?_unregister (world : World κ ν σ) (id other : NodeId) :
    (world.unregister id).2.cell? other = world.cell? other := by
  unfold World.unregister
  split <;> rfl

theorem node?_unregister {cell : Cell κ ν} (found : world.cell? id = some cell) :
    ((world.unregister id).2.graph cell.reactor).node? id = none := by
  unfold World.unregister
  rw [found]
  dsimp only
  have forgotten : ((world.mapGraph cell.reactor (·.remove id)).modifyReactor cell.reactor
      fun reactor => { reactor with pending := reactor.pending.erase id }).graph cell.reactor =
        (world.mapGraph cell.reactor (·.remove id)).graph cell.reactor := by
    refine graph_modifyReactor _ _ ?_ _
    exact fun _ _ => rfl
  have removed : (world.mapGraph cell.reactor (·.remove id)).graph cell.reactor =
      if cell.reactor = cell.reactor then (world.graph cell.reactor).remove id
      else world.graph cell.reactor := graph_mapGraph world cell.reactor rfl cell.reactor
  rw [removeNode_eq, forgotten, removed, if_pos rfl]
  exact Graph.node?_remove_self _ id

/-- A computed without a handle leaves the graph. -/
theorem Trusted.shed (trusted : world.Trusted) (handle : Handle) : (world.shed handle).Trusted := by
  obtain ⟨owed, listed⟩ := trusted.listed
  unfold World.shed
  split
  next last =>
    have listed' := listed.perish handle
    cases handle with
    | reactor owner =>
      have lost : world.Abides (world.lose (.reactor owner)) :=
        .modifyReactor world owner fun _ => rfl
      have emptied : (world.lose (.reactor owner)).Abides
          ((world.lose (.reactor owner)).mapGraph owner fun _ => .empty) :=
        .mapGraph _ owner rfl (.empty _)
      exact trusted.abide ((lost.trans emptied).trans (.record _ _)) ⟨owed, listed'⟩
    | node id =>
      refine trusted.of_step ⟨owed, listed'⟩ (fun owner => ?_) fun other state found => ?_
      · unfold World.perish
        dsimp only
        split
        next => exact .refl _
        next => exact (Abides.unregister (world.lose (.node id)) id).marks owner
        next => exact .refl _
      · have found' : (world.lose (.node id)).computed? other = some state := by
          rw [computed?_eq_some_iff] at found ⊢
          unfold World.perish at found
          dsimp only at found
          split at found
          next => exact found
          next => rwa [cell?_unregister] at found
          next => exact found
        have cells : (world.lose (.node id)).cell? other = _ := cell?_modifyCell world id other _
        by_cases same : other = id
        · subst same
          rw [computed?_eq_some_iff, cells, if_pos rfl] at found'
          obtain ⟨cell, known, lost⟩ := Option.map_eq_some_iff.mp found'
          cases cell with
          | signal => cases lost
          | effect => cases lost
          | computed old =>
            cases lost
            refine ⟨old, computed?_eq_some_iff.mpr known, rfl, rfl, rfl, fun live => ?_⟩
            have known' : (world.lose (.node other)).cell? other =
                some (.computed { old with holders := old.holders - 1 }) := by
              rw [cells, if_pos rfl, known]
              rfl
            have gone := node?_unregister known'
            unfold World.perish at live
            dsimp only at live
            rw [known'] at live
            dsimp only at live
            rw [show old.reactor = (Cell.computed
              { old with holders := old.holders - 1 } : Cell κ ν).reactor from rfl, gone] at live
            cases live
        · refine ⟨state, ?_, rfl, rfl, rfl, fun _ held => held⟩
          rwa [computed?_eq_some_iff, cells, if_neg same, ← computed?_eq_some_iff] at found'
  next several => exact trusted.abide (.lose world several) ⟨owed, listed.lose several⟩

/-- A new computed is dirty, and no computed has read a new node. -/
theorem Trusted.addCell (trusted : world.Trusted) (cell : Cell κ ν)
    (new : ∀ state, cell = .computed state → state.computing = false ∧ 0 < state.holders)
    (listed' : ∃ owed, (world.addCell cell cell.kind).2.Listed (.owing owed)) :
    (world.addCell cell cell.kind).2.Trusted := by
  obtain ⟨owed, listed⟩ := trusted.listed
  have unknown : ∀ owner node, (world.graph owner).node? world.nextId ≠ some node := by
    intro owner node found
    obtain ⟨known, found', _⟩ := listed.home owner _ node found
    rw [cell?_nextId] at found'
    cases found'
  have nodes : ∀ owner id node, ((world.addCell cell cell.kind).2.graph owner).node? id = some node →
      (world.graph owner).node? id = some node ∨ id = world.nextId ∧ node = .new id cell.kind := by
    intro owner id node found
    rcases graph_addCell_cases world cell owner with same | ⟨_, _, inserted⟩
    · exact Or.inl (same ▸ found)
    · rw [inserted, Graph.node?_insert] at found
      split at found
      next here => exact Or.inr ⟨here, here ▸ (Option.some.inj found).symm⟩
      next => exact Or.inl found
  have computeds : ∀ id state, (world.addCell cell cell.kind).2.computed? id = some state →
      id = world.nextId ∧ cell = .computed state ∨
        id ≠ world.nextId ∧ world.computed? id = some state := by
    intro id state found
    rw [computed?_eq_some_iff, cell?_addCell] at found
    split at found
    next here => exact Or.inl ⟨here, Option.some.inj found⟩
    next apart => exact Or.inr ⟨apart, computed?_eq_some_iff.mpr found⟩
  refine ⟨listed', ⟨fun owner => ?_, fun id state node found live mark => ?_⟩,
    fun id state found live => ?_, fun id state found => ?_⟩
  · rcases graph_addCell_cases world cell owner with same | ⟨_, _, inserted⟩
    · rw [same]
      exact trusted.sound.settled owner
    · rw [inserted]
      refine (trusted.sound.settled owner).insert (fun reader node found member => ?_) cell.kind
      have known := listed.reads owner reader node found _ member
      rw [cell?_nextId] at known
      cases known
  · rcases computeds id state found with ⟨rfl, rfl⟩ | ⟨apart, was⟩
    · rcases nodes _ _ node live with present | ⟨_, rfl⟩
      · exact absurd present (unknown _ node)
      · exact absurd rfl mark
    · rcases nodes _ id node live with present | ⟨here, _⟩
      · exact trusted.sound.valued id state node was present mark
      · exact absurd here apart
  · rcases computeds id state found with ⟨_, rfl⟩ | ⟨apart, was⟩
    · exact (new state rfl).2
    · obtain ⟨node, live⟩ := Option.isSome_iff_exists.mp live
      rcases nodes _ id node live with present | ⟨here, _⟩
      · exact trusted.held id state was (by rw [present]; rfl)
      · exact absurd here apart
  · rcases computeds id state found with ⟨_, rfl⟩ | ⟨_, was⟩
    · exact (new state rfl).1
    · exact trusted.idle id state was

/-- Marks can be trusted after any change. -/
theorem Trusted.change (trusted : world.Trusted) (change : world.Change after) : after.Trusted := by
  obtain ⟨owed, listed⟩ := trusted.listed
  cases change with
  | aside _ _ _ cells reactors =>
    exact trusted.abide (.of_alike cells reactors) ⟨owed, listed.of_alike cells reactors⟩
  | hold handle => exact trusted.abide (.hold world handle) ⟨owed, listed.hold handle⟩
  | shed handle => exact trusted.shed handle
  | @stop id effect =>
    refine trusted.abide (((Abides.modifyEffect world id _).trans
      (.hold _ (.reactor effect.reactor))).trans (.unregister _ id)) ⟨owed, ?_⟩
    exact ((listed.deactivate id).hold _).unregister id
  | abandon => exact trusted.abide (.modifyEffect world _ _) ⟨owed, listed.deactivate _⟩
  | @destroy id =>
    have marked : (world.modifySignal id ({ · with destroyed := true })).Listed (.owing owed) :=
      listed.modifySignal id fun _ => rfl
    exact trusted.abide ((Abides.modifySignal world id _).trans (.unregister _ id))
      ⟨owed, marked.unregister id⟩
  | @defer id signal state value =>
    refine trusted.abide ((Abides.put world signal.reactor id value).trans ?_)
      ⟨owed, (listed.put signal.reactor id value).modifyRecords signal.reactor fun _ => ⟨rfl, rfl⟩⟩
    exact .modifyReactor _ signal.reactor fun _ => rfl
  | @putLost id signal value =>
    exact trusted.abide (.put world signal.reactor id value) ⟨owed, listed.put signal.reactor id value⟩
  | @noteWrite id signal =>
    exact trusted.abide (.noteWrite world signal.reactor id) ⟨owed, listed.noteWrite signal.reactor id⟩
  | addReactor settings =>
    refine trusted.abide (.of_graphs rfl fun owner => ?_) ⟨owed, listed.addReactor settings⟩
    rw [graph_newReactor]
    exact .refl _
  | addHolding cell new =>
    have held := trusted.abide (.hold world (.reactor cell.reactor)) ⟨owed, listed.hold _⟩
    refine held.addCell cell (fun state same => ?_) ⟨owed, listed.addHolding cell⟩
    subst same
    exact ⟨new.2.1, by rw [new.2.2]; exact Nat.one_pos⟩
  | addEffect owner body =>
    exact trusted.addCell (.effect ⟨owner, body, false, none, true, false, 0, 2⟩) nofun
      ⟨owed, listed.addCell (.effect ⟨owner, body, false, none, true, false, 0, 2⟩) (Or.inl rfl)⟩
  | @label id cell found text =>
    have labelled : ∀ other : Node, (other.withLabel text).id = other.id ∧
        (other.withLabel text).dependencies = other.dependencies ∧
          (other.withLabel text).dependents = other.dependents := fun _ => ⟨rfl, rfl, rfl⟩
    exact trusted.abide (.modifyNode world cell.reactor id fun _ => ⟨rfl, rfl, rfl, rfl⟩)
      ⟨owed, listed.modifyNode cell.reactor id labelled (fun _ => rfl) fun _ wanted => wanted⟩
  | @tweak id change kept =>
    exact trusted.abide (.modifyEffect world id change)
      ⟨owed, listed.modifyEffect id fun state => ⟨(kept state).1, (kept state).2.1, (kept state).2.2.2.1⟩⟩

/-- A tracked read of an effect. -/
theorem Trusted.noteRead (trusted : world.Trusted) (attributed : world.Attributed)
    {cell : Cell κ ν} (found : world.cell? id = some cell) (readable : cell.kind ≠ .effect) :
    (world.noteRead cell.reactor id).Trusted := by
  obtain ⟨owed, listed⟩ := trusted.listed
  have listed' := listed.noteRead found readable
  unfold World.noteRead at listed' ⊢
  split at listed'
  next reader reading =>
    have connected : world.Abides (world.mapGraph cell.reactor (·.connect id reader)) := by
      refine .mapGraph world cell.reactor (Graph.connect_empty id reader)
        (.connect _ id fun node live derived => ?_)
      obtain ⟨other, known, _, kind⟩ := listed.home _ reader node live
      obtain ⟨effect, isEffect⟩ := Option.isSome_iff_exists.mp (attributed.reader reading)
      rw [effect?_eq_some_iff.mp isEffect] at known
      cases known
      rw [derived] at kind
      cases kind
    exact trusted.abide (connected.trans (.record _ _)) ⟨owed, listed'⟩
  next => exact trusted.abide (.record world _) ⟨owed, listed'⟩

theorem Trusted.resubscribe (trusted : world.Trusted) (owner : ReactorId) (id : NodeId) :
    (world.mapGraph owner (·.resubscribe id)).Trusted := by
  obtain ⟨owed, listed⟩ := trusted.listed
  refine trusted.abide (.mapGraph world owner rfl (.resubscribe _ id)) ⟨owed, ?_⟩
  refine listed.mapGraph owner rfl (fun other node found => ?_) (fun _ _ holds => holds)
    (((listed.lists owner).resubscribe id).mono (fun _ => Or.inr) fun _ => Or.inr)
    fun other _ => listed.lists other
  obtain ⟨old, was, kind, _, dependencies⟩ := Graph.resubscribe_cases found
  exact ⟨old, was, kind, fun _ member => Or.inl (dependencies ▸ member)⟩

theorem graph_planPass (world : World κ ν σ) (home : ReactorId) (sources : List NodeId)
    (owner : ReactorId) : (world.planPass home sources).2.graph owner =
      if owner = home then ((world.graph home).propagate sources).2 else world.graph owner := by
  have planned : (world.planPass home sources).2 =
      world.mapGraph home fun graph => (graph.propagate sources).2 :=
    mapGraph_at world home fun graph => (graph.propagate sources).2
  rw [planned]
  exact graph_mapGraph world home (Graph.propagate_empty sources) owner

theorem marked_planPass (world : World κ ν σ) (home : ReactorId) (sources : List NodeId)
    (owner : ReactorId) (id : NodeId) : Option.Rel Graph.MarkedFrom ((world.graph owner).node? id)
      (((world.planPass home sources).2.graph owner).node? id) := by
  rw [graph_planPass]
  split
  next same => exact same ▸ Graph.markedFrom_propagate _ sources id
  next => exact relOption_refl Graph.MarkedFrom.refl _

/-- The plan of a pass marks what its sources reach. -/
theorem Trusted.planPass (trusted : world.Trusted) (owner : ReactorId) (sources : List NodeId) :
    (world.planPass owner sources).2.Trusted := by
  obtain ⟨owed, listed⟩ := trusted.listed
  refine ⟨⟨_, (listed.planPass (Tally.owing_plain owed) owner sources).mono (fun _ member => member)
      (fun _ holds => holds) nofun⟩, ⟨fun other => ?_, fun id state node found live mark => ?_⟩,
    fun id state found live => ?_, trusted.idle⟩
  · rw [graph_planPass]
    split
    next =>
      exact (trusted.sound.settled owner).propagate (listed.lists owner) (Tally.owing_plain owed) sources
    next => exact trusted.sound.settled other
  · have marked := marked_planPass world owner sources state.reactor id
    rw [live] at marked
    obtain ⟨old, was, holds⟩ := relOption_some marked
    refine trusted.sound.valued id state old found was fun dirty => ?_
    rcases holds.2.2.2 with same | dirtied | ⟨clean, _⟩
    · exact mark (same.trans dirty)
    · exact mark dirtied
    · rw [dirty] at clean
      cases clean
  · refine trusted.held id state found ?_
    rw [← relOption_isSome (marked_planPass world owner sources state.reactor id)]
    exact live

theorem Trusted.enterPass (trusted : world.Trusted) (owner : ReactorId) (sources : List NodeId) :
    (world.enterPass owner sources).Trusted := by
  have planned := (trusted.record (.passStarted owner sources)).planPass owner sources
  obtain ⟨owed, listed⟩ := planned.listed
  exact planned.abide (.foldl_hold _ _ _) ⟨owed, listed.foldl_hold _ _⟩

end World

end ReactiveTree
