import ReactiveTree.Proofs.Graph.Carrying
import ReactiveTree.Proofs.Reactive.Owing

/-! # What a change spares

Values of signals, runs of effects and their cleanups change at few places. Every other change of a
world spares them: it keeps the core of each cell, the chains of each reactor, the version of a
signal's node and what an effect reads, as far as that is live, and no event that it records tells
of a signal or an effect. A change that touches some nodes spares all others in this sense.
-/

namespace ReactiveTree

variable {κ ν σ : Type}

/-- A cell without what comes and goes on the side. -/
def Cell.core : Cell κ ν → Cell κ ν
  | .signal state => .signal { state with destroyed := false, holders := 0 }
  | .computed state => .computed { state with value := none, computing := false, holders := 0 }
  | .effect state => .effect { state with primed := false, holders := 0 }

theorem Cell.core_withHolders (cell : Cell κ ν) (holders : Nat) :
    (cell.withHolders holders).core = cell.core := by
  cases cell <;> rfl

theorem Cell.place_withHolders (cell : Cell κ ν) (holders : Nat) :
    (cell.withHolders holders).place = cell.place := by
  cases cell <;> rfl

theorem Cell.place_of_core {cell other : Cell κ ν} (same : other.core = cell.core) :
    other.place = cell.place := by
  have places : ∀ cell : Cell κ ν, cell.core.place = cell.place := fun cell => by cases cell <;> rfl
  rw [← places, same, places]

theorem Signal.value_of_core {state other : Signal ν}
    (same : (Cell.signal other : Cell κ ν).core = (Cell.signal state).core) :
    other.value = state.value := by
  unfold Cell.core at same
  grind

/-- What the core of an effect determines. -/
theorem Effect.of_core {effect other : Effect κ}
    (same : (Cell.effect other : Cell κ ν).core = (Cell.effect effect).core) :
    other.cleanup = effect.cleanup ∧ other.active = effect.active ∧
      other.executing = effect.executing ∧ other.runs = effect.runs := by
  unfold Cell.core at same
  grind

/-- The event tells of a new value, a run, a cleanup or the end of a node. -/
def Event.Concerns (id : NodeId) : Event κ ν → Prop
  | .changed node _ => node = id
  | .started node => node = id
  | .leftCleanup effect _ => effect = id
  | .cleanedUp effect _ => effect = id
  | .stopped effect => effect = id
  | _ => False

/-- A read that is recorded for some computation. -/
def Event.IsTracked : Event κ ν → Prop
  | .read _ (some _) => True
  | _ => False

/-- An effect that has not run yet. -/
def Effect.Fresh (effect : Effect κ) : Prop :=
  effect.active = true ∧ effect.executing = false ∧ effect.cleanup = none

namespace World

/-- A cell whose node has left a graph, or was never there. -/
def Gone (world : World κ ν σ) (owner : ReactorId) (id : NodeId) : Prop :=
  (world.cell? id).isSome ∧ (world.graph owner).node? id = none

/-- A change that records some events and touches no cells but some. -/
structure Spares (touched : NodeId → Prop) (world : World κ ν σ) (events : List (Event κ ν))
    (after : World κ ν σ) : Prop where
  past : after.past = events ++ world.past
  cells : ∀ id cell, world.cell? id = some cell → ∃ cell', after.cell? id = some cell' ∧
    cell'.place = cell.place ∧ (¬ touched id → cell'.core = cell.core)
  made : ∀ id effect, world.cell? id = none → after.cell? id = some (.effect effect) →
    ¬ touched id → effect.Fresh
  reactors : ∀ owner state, world.reactor? owner = some state →
    ∃ state', after.reactor? owner = some state' ∧ state'.chains = state.chains ∧
      (state.isAlive = true → state'.isAlive = true ∨ .died owner ∈ events)
  founded : ∀ owner state, world.reactor? owner = none → after.reactor? owner = some state →
    state.isAlive = true ∨ .died owner ∈ events
  nodes : ∀ owner id cell node, world.cell? id = some cell →
    (after.graph owner).node? id = some node → ∃ old, (world.graph owner).node? id = some old ∧
      (¬ touched id → cell.kind ≠ .derived → node.version = old.version ∧
        ∀ read ∈ old.dependencies, read ∈ node.dependencies ∨ after.Gone owner read)
  lives : ∀ owner id effect, world.effect? id = some effect → ¬ touched id →
    ((world.graph owner).node? id).isSome →
      ((after.graph owner).node? id).isSome ∨ .died owner ∈ events
  quiet : ∀ event ∈ events, ∀ id, event.Concerns id →
    touched id ∨ ∃ state, after.computed? id = some state
  reads : ∀ read id effect, .read read (some id) ∈ events → world.effect? id = some effect →
    ¬ touched id → ∃ cell, after.cell? read = some cell ∧ ∀ node,
      (after.graph cell.reactor).node? id = some node →
        read ∈ node.dependencies ∨ after.Gone cell.reactor read

variable {world middle after : World κ ν σ} {events later : List (Event κ ν)}
  {touched touched' : NodeId → Prop}

theorem Spares.refl (world : World κ ν σ) : world.Spares touched [] world where
  past := rfl
  cells _ cell found := ⟨cell, found, rfl, fun _ => rfl⟩
  made _ _ absent found := nomatch absent.symm.trans found
  reactors _ state found := ⟨state, found, rfl, Or.inl⟩
  founded _ _ absent found := nomatch absent.symm.trans found
  nodes _ _ _ node _ found := ⟨node, found, fun _ _ => ⟨rfl, fun _ member => Or.inl member⟩⟩
  lives _ _ _ _ _ live := Or.inl live
  quiet := nofun
  reads := nofun

theorem Spares.mono (spares : world.Spares touched events after) (more : ∀ id, touched id → touched' id) :
    world.Spares touched' events after where
  past := spares.past
  cells id cell found := by
    obtain ⟨cell', found', place, core⟩ := spares.cells id cell found
    exact ⟨cell', found', place, fun apart => core fun member => apart (more id member)⟩
  made id effect absent found apart :=
    spares.made id effect absent found fun member => apart (more id member)
  reactors := spares.reactors
  founded := spares.founded
  nodes owner id cell node found live := by
    obtain ⟨old, was, kept⟩ := spares.nodes owner id cell node found live
    exact ⟨old, was, fun apart => kept fun member => apart (more id member)⟩
  lives owner id effect found apart :=
    spares.lives owner id effect found fun member => apart (more id member)
  quiet event member id concerns :=
    (spares.quiet event member id concerns).imp_left (more id)
  reads read id effect member found apart :=
    spares.reads read id effect member found fun member => apart (more id member)

/-- What is gone does not come back. -/
theorem Spares.gone (spares : world.Spares touched events after) {owner : ReactorId} {id : NodeId}
    (gone : world.Gone owner id) : after.Gone owner id := by
  obtain ⟨known, absent⟩ := gone
  obtain ⟨cell, found⟩ := Option.isSome_iff_exists.mp known
  obtain ⟨cell', found', _⟩ := spares.cells id cell found
  refine ⟨by rw [found']; rfl, Option.eq_none_iff_forall_ne_some.mpr fun node live => ?_⟩
  obtain ⟨old, was, _⟩ := spares.nodes owner id cell node found live
  rw [absent] at was
  cases was

theorem Spares.computed (spares : world.Spares touched events after) {id : NodeId}
    {state : Computed κ ν} (found : world.computed? id = some state) :
    ∃ state', after.computed? id = some state' ∧ state'.reactor = state.reactor := by
  obtain ⟨cell, found', place, _⟩ := spares.cells id _ (computed?_eq_some_iff.mp found)
  cases cell with
  | computed state' => exact ⟨state', computed?_eq_some_iff.mpr found', congrArg Prod.fst place⟩
  | signal => cases congrArg Prod.snd place
  | effect => cases congrArg Prod.snd place

theorem Spares.effect (spares : world.Spares touched events after) {id : NodeId} {effect : Effect κ}
    (found : world.effect? id = some effect) :
    ∃ effect', after.effect? id = some effect' ∧ effect'.reactor = effect.reactor ∧
      (¬ touched id → (Cell.effect effect' : Cell κ ν).core = (Cell.effect effect).core) := by
  obtain ⟨cell, found', place, core⟩ := spares.cells id _ (effect?_eq_some_iff.mp found)
  cases cell with
  | effect effect' =>
    exact ⟨effect', effect?_eq_some_iff.mpr found', congrArg Prod.fst place, core⟩
  | signal => cases congrArg Prod.snd place
  | computed => cases congrArg Prod.snd place

theorem Spares.signal (spares : world.Spares touched events after) {id : NodeId} {signal : Signal ν}
    (found : world.signal? id = some signal) :
    ∃ signal', after.signal? id = some signal' ∧ signal'.reactor = signal.reactor ∧
      (¬ touched id → signal'.value = signal.value) := by
  obtain ⟨cell, found', place, core⟩ := spares.cells id _ (signal?_eq_some_iff.mp found)
  cases cell with
  | signal signal' =>
    exact ⟨signal', signal?_eq_some_iff.mpr found', congrArg Prod.fst place,
      fun apart => Signal.value_of_core (core apart)⟩
  | computed => cases congrArg Prod.snd place
  | effect => cases congrArg Prod.snd place

theorem Spares.trans (start : world.Spares touched events middle)
    (finish : middle.Spares touched later after) : world.Spares touched (later ++ events) after where
  past := by rw [finish.past, start.past, List.append_assoc]
  cells id cell found := by
    obtain ⟨cell', found', place, core⟩ := start.cells id cell found
    obtain ⟨cell'', found'', place', core'⟩ := finish.cells id cell' found'
    exact ⟨cell'', found'', place'.trans place, fun apart => (core' apart).trans (core apart)⟩
  made id effect absent found apart := by
    cases between : middle.cell? id with
    | none => exact finish.made id effect between found apart
    | some cell =>
      obtain ⟨cell', found', place, core⟩ := finish.cells id cell between
      rw [found] at found'
      cases found'
      cases cell with
      | effect old =>
        obtain ⟨active, executing, cleanup⟩ := start.made id old absent between apart
        obtain ⟨cleanup', active', executing', _⟩ := Effect.of_core (core apart)
        exact ⟨active'.trans active, executing'.trans executing, cleanup'.trans cleanup⟩
      | signal => cases congrArg Prod.snd place
      | computed => cases congrArg Prod.snd place
  reactors owner state found := by
    obtain ⟨state', found', chains, alive⟩ := start.reactors owner state found
    obtain ⟨state'', found'', chains', alive'⟩ := finish.reactors owner state' found'
    refine ⟨state'', found'', chains'.trans chains, fun living => ?_⟩
    rcases alive living with living | died
    · exact (alive' living).imp_right fun died => List.mem_append_left _ died
    · exact Or.inr (List.mem_append_right _ died)
  founded owner state absent found := by
    cases between : middle.reactor? owner with
    | none =>
      exact (finish.founded owner state between found).imp_right fun died =>
        List.mem_append_left _ died
    | some old =>
      obtain ⟨state', found', _, alive⟩ := finish.reactors owner old between
      rw [found] at found'
      cases found'
      rcases start.founded owner old absent between with living | died
      · exact (alive living).imp_right fun died => List.mem_append_left _ died
      · exact Or.inr (List.mem_append_right _ died)
  nodes owner id cell node found live := by
    obtain ⟨cell', found', place, _⟩ := start.cells id cell found
    obtain ⟨between, live', kept'⟩ := finish.nodes owner id cell' node found' live
    obtain ⟨old, was, kept⟩ := start.nodes owner id cell between found live'
    refine ⟨old, was, fun apart kind => ?_⟩
    have kind' : cell'.kind ≠ .derived := fun derived =>
      kind ((congrArg Prod.snd place).symm.trans derived)
    obtain ⟨version, dependencies⟩ := kept apart kind
    obtain ⟨version', dependencies'⟩ := kept' apart kind'
    refine ⟨version'.trans version, fun read member => ?_⟩
    rcases dependencies read member with still | gone
    · exact dependencies' read still
    · exact Or.inr (finish.gone gone)
  lives owner id effect found apart live := by
    obtain ⟨effect', found', _⟩ := start.effect found
    rcases start.lives owner id effect found apart live with live | died
    · exact (finish.lives owner id effect' found' apart live).imp_right fun died =>
        List.mem_append_left _ died
    · exact Or.inr (List.mem_append_right _ died)
  quiet event member id concerns := by
    rcases List.mem_append.mp member with new | old
    · exact finish.quiet event new id concerns
    · refine (start.quiet event old id concerns).imp_right fun ⟨state, found⟩ => ?_
      obtain ⟨state', found', _⟩ := finish.computed found
      exact ⟨state', found'⟩
  reads read id effect member found apart := by
    obtain ⟨effect', found', _⟩ := start.effect found
    rcases List.mem_append.mp member with new | old
    · exact finish.reads read id effect' new found' apart
    · obtain ⟨cell, known, kept⟩ := start.reads read id effect old found apart
      obtain ⟨cell', known', place, _⟩ := finish.cells read cell known
      have home : cell'.reactor = cell.reactor := congrArg Prod.fst place
      refine ⟨cell', known', fun node live => ?_⟩
      rw [home] at live ⊢
      obtain ⟨between, live', kept'⟩ := finish.nodes cell.reactor id _ node
        (effect?_eq_some_iff.mp found') live
      rcases kept between live' with member | gone
      · exact (kept' apart nofun).2 read member
      · exact Or.inr (finish.gone gone)

theorem graph_of_reactors (same : after.reactors = world.reactors) (owner : ReactorId) :
    after.graph owner = world.graph owner := by
  unfold graph reactor?
  rw [same]

/-- A change that leaves the reactors alone. -/
theorem Spares.of_reactors (reactors : after.reactors = world.reactors)
    (past : after.past = events ++ world.past)
    (cells : ∀ id cell, world.cell? id = some cell → ∃ cell', after.cell? id = some cell' ∧
      cell'.place = cell.place ∧ (¬ touched id → cell'.core = cell.core))
    (made : ∀ id, world.cell? id = none → after.cell? id = none)
    (quiet : ∀ event ∈ events, ∀ id, event.Concerns id →
      touched id ∨ ∃ state, after.computed? id = some state)
    (unread : ∀ event ∈ events, ¬ event.IsTracked) : world.Spares touched events after where
  past := past
  cells := cells
  made id effect absent found := by
    rw [made id absent] at found
    cases found
  reactors owner state found := by
    refine ⟨state, ?_, rfl, Or.inl⟩
    unfold reactor? at found ⊢
    rwa [reactors]
  founded owner state absent found := by
    unfold reactor? at absent found
    rw [reactors, absent] at found
    cases found
  nodes owner id cell node _ live := by
    rw [graph_of_reactors reactors] at live
    exact ⟨node, live, fun _ _ => ⟨rfl, fun _ member => Or.inl member⟩⟩
  lives owner id effect _ _ live := by
    rw [graph_of_reactors reactors]
    exact Or.inl live
  quiet := quiet
  reads read id effect member := (unread _ member trivial).elim

/-- Events about what is touched, or about computeds, and no tracked reads. -/
theorem Spares.of_alike (cells : after.cells = world.cells)
    (reactors : after.reactors = world.reactors) (past : after.past = events ++ world.past)
    (quiet : ∀ event ∈ events, ∀ id, event.Concerns id →
      touched id ∨ ∃ state, world.computed? id = some state)
    (unread : ∀ event ∈ events, ¬ event.IsTracked) : world.Spares touched events after := by
  have same : ∀ id, after.cell? id = world.cell? id := fun id => by unfold cell?; rw [cells]
  refine .of_reactors reactors past (fun id cell found => ⟨cell, ?_, rfl, fun _ => rfl⟩)
    (fun id absent => ?_) (fun event member id concerns => ?_) unread
  · rw [same, found]
  · rw [same, absent]
  · have computed : after.computed? id = world.computed? id := by unfold computed?; rw [same]
    rw [computed]
    exact quiet event member id concerns

theorem Spares.record (world : World κ ν σ) (event : Event κ ν)
    (quiet : ∀ id, event.Concerns id → touched id ∨ ∃ state, world.computed? id = some state)
    (unread : ¬ event.IsTracked) : world.Spares touched [event] (world.record event) :=
  .of_alike rfl rfl rfl (fun _ member => by rw [List.mem_singleton.mp member]; exact quiet)
    fun _ member => by rwa [List.mem_singleton.mp member]

theorem Spares.modifyCell (world : World κ ν σ) (id : NodeId) {change : Cell κ ν → Cell κ ν}
    (place : ∀ cell, (change cell).place = cell.place)
    (core : ¬ touched id → ∀ cell, (change cell).core = cell.core) :
    world.Spares touched [] (world.modifyCell id change) := by
  refine .of_reactors rfl rfl (fun other cell found => ?_) (fun other absent => ?_) nofun nofun
  · rw [cell?_modifyCell]
    split
    next same =>
      subst same
      exact ⟨change cell, by rw [found]; rfl, place cell, fun apart => core apart cell⟩
    next => exact ⟨cell, found, rfl, fun _ => rfl⟩
  · rw [cell?_modifyCell]
    split
    next same =>
      subst same
      rw [absent]
      rfl
    next => exact absent

theorem Spares.modifySignal (world : World κ ν σ) (id : NodeId) {change : Signal ν → Signal ν}
    (home : ∀ state, (change state).reactor = state.reactor)
    (core : ¬ touched id → ∀ state, (change state).value = state.value) :
    world.Spares touched [] (world.modifySignal id change) := by
  refine .modifyCell world id (fun cell => ?_) fun apart cell => ?_
  · cases cell with
    | signal state => exact congrArg (·, NodeKind.source) (home state)
    | computed => rfl
    | effect => rfl
  · cases cell with
    | signal state =>
      simp only [Cell.core, home state, core apart state]
    | computed => rfl
    | effect => rfl

theorem Spares.modifyComputed (world : World κ ν σ) (id : NodeId)
    {change : Computed κ ν → Computed κ ν} (home : ∀ state, (change state).reactor = state.reactor)
    (body : ∀ state, (change state).body = state.body) :
    world.Spares touched [] (world.modifyComputed id change) := by
  have core : ∀ state, (Cell.computed (change state) : Cell κ ν).core =
      (Cell.computed state).core := fun state => by
    simp only [Cell.core, home state, body state]
  refine .modifyCell world id (fun cell => ?_) fun _ cell => ?_
  · cases cell with
    | computed state => exact Cell.place_of_core (core state)
    | signal => rfl
    | effect => rfl
  · cases cell with
    | computed state => exact core state
    | signal => rfl
    | effect => rfl

/-- An effect is touched by what changes more of it than that it was primed. -/
theorem Spares.modifyEffect (world : World κ ν σ) (id : NodeId) {change : Effect κ → Effect κ}
    (home : ∀ state, (change state).reactor = state.reactor)
    (core : ¬ touched id → ∀ state, (Cell.effect (change state) : Cell κ ν).core =
      (Cell.effect state).core) :
    world.Spares touched [] (world.modifyEffect id change) := by
  refine .modifyCell world id (fun cell => ?_) fun apart cell => ?_
  · cases cell with
    | effect state => exact congrArg (·, NodeKind.effect) (home state)
    | signal => rfl
    | computed => rfl
  · cases cell with
    | effect state => exact core apart state
    | signal => rfl
    | computed => rfl

/-- A change of what a reactor keeps besides its graph and its chains. -/
theorem Spares.modifyReactor (world : World κ ν σ) (owner : ReactorId) {change : Reactor → Reactor}
    (graph : ∀ state, world.reactor? owner = some state → (change state).graph = state.graph)
    (chains : ∀ state, world.reactor? owner = some state → (change state).chains = state.chains)
    (alive : ∀ state, world.reactor? owner = some state → state.isAlive = true →
      (change state).isAlive = true) :
    world.Spares touched [] (world.modifyReactor owner change) where
  past := rfl
  cells _ cell found := ⟨cell, found, rfl, fun _ => rfl⟩
  made _ _ absent found := nomatch absent.symm.trans found
  reactors other state found := by
    rw [reactor?_modifyReactor]
    split
    next same =>
      subst same
      exact ⟨change state, by rw [found]; rfl, chains state found,
        fun living => Or.inl (alive state found living)⟩
    next => exact ⟨state, found, rfl, Or.inl⟩
  founded other state absent found := by
    rw [reactor?_modifyReactor] at found
    split at found
    next same =>
      subst same
      rw [absent] at found
      cases found
    next =>
      rw [absent] at found
      cases found
  nodes other id cell node _ live := by
    rw [graph_modifyReactor world owner graph] at live
    exact ⟨node, live, fun _ _ => ⟨rfl, fun _ member => Or.inl member⟩⟩
  lives other id effect _ _ live := by
    rw [graph_modifyReactor world owner graph]
    exact Or.inl live
  quiet := nofun
  reads := nofun

theorem Spares.mapGraph (world : World κ ν σ) (owner : ReactorId) {change : Graph → Graph}
    (bare : change .empty = .empty)
    (nodes : ∀ id cell node, world.cell? id = some cell →
      (change (world.graph owner)).node? id = some node →
        ∃ old, (world.graph owner).node? id = some old ∧
          (¬ touched id → cell.kind ≠ .derived → node.version = old.version ∧
            ∀ read ∈ old.dependencies, read ∈ node.dependencies ∨
              (world.cell? read).isSome ∧ (change (world.graph owner)).node? read = none))
    (lives : ∀ id effect, world.effect? id = some effect → ¬ touched id →
      ((world.graph owner).node? id).isSome → ((change (world.graph owner)).node? id).isSome) :
    world.Spares touched [] (world.mapGraph owner change) where
  past := rfl
  cells _ cell found := ⟨cell, found, rfl, fun _ => rfl⟩
  made _ _ absent found := nomatch absent.symm.trans found
  reactors other state found := by
    unfold World.mapGraph
    rw [reactor?_modifyReactor]
    split
    next same =>
      subst same
      exact ⟨state.mapGraph change, by rw [found]; rfl, rfl, Or.inl⟩
    next => exact ⟨state, found, rfl, Or.inl⟩
  founded other state absent found := by
    unfold World.mapGraph at found
    rw [reactor?_modifyReactor] at found
    split at found
    next same =>
      subst same
      rw [absent] at found
      cases found
    next =>
      rw [absent] at found
      cases found
  nodes other id cell node known live := by
    rw [graph_mapGraph world owner bare] at live
    split at live
    next same =>
      subst same
      obtain ⟨old, was, kept⟩ := nodes id cell node known live
      refine ⟨old, was, fun apart kind => ⟨(kept apart kind).1, fun read member => ?_⟩⟩
      refine ((kept apart kind).2 read member).imp_right fun ⟨known, gone⟩ => ⟨known, ?_⟩
      rwa [graph_mapGraph world other bare, if_pos rfl]
    next => exact ⟨node, live, fun _ _ => ⟨rfl, fun _ member => Or.inl member⟩⟩
  lives other id effect found apart live := by
    rw [graph_mapGraph world owner bare]
    split
    next same =>
      subst same
      exact Or.inl (lives id effect found apart live)
    next => exact Or.inl live
  quiet := nofun
  reads := nofun

/-- A change that works node by node. -/
theorem Spares.mapGraph_of_rel (world : World κ ν σ) (owner : ReactorId) {change : Graph → Graph}
    (bare : change .empty = .empty)
    (nodes : ∀ id, Option.Rel (fun old node => ¬ touched id →
        (∀ cell, world.cell? id = some cell → cell.kind ≠ .derived) → old.Carries node)
      ((world.graph owner).node? id) ((change (world.graph owner)).node? id)) :
    world.Spares touched [] (world.mapGraph owner change) := by
  refine .mapGraph world owner bare (fun id cell node known live => ?_) fun id _ _ _ live => ?_
  · have related := nodes id
    rw [live] at related
    obtain ⟨old, was, kept⟩ := relOption_some related
    refine ⟨old, was, fun apart kind => ?_⟩
    obtain ⟨version, more⟩ := kept apart fun cell' known' => by
      rw [known] at known'
      cases known'
      exact kind
    exact ⟨version, fun _ member => Or.inl (more member)⟩
  · have related := nodes id
    revert related live
    generalize (world.graph owner).node? id = before
    generalize (change (world.graph owner)).node? id = now
    intro live related
    cases related with
    | none => exact live
    | some => rfl

end World

end ReactiveTree
