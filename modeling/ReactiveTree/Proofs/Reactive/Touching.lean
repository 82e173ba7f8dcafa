import ReactiveTree.Proofs.Reactive.Sparing
import ReactiveTree.Reactive.Engine

/-! # What the operations on a world touch

Handles, reads, marks and new nodes touch nothing. A new value touches its signal, and what forgets
the reads of an effect or takes it out of its graph touches that effect.
-/

namespace ReactiveTree

variable {κ ν σ : Type}

namespace World

variable {world : World κ ν σ} {touched : NodeId → Prop}

theorem spares_hold (world : World κ ν σ) (handle : Handle) :
    world.Spares touched [] (world.hold handle) := by
  cases handle with
  | reactor id =>
    refine .modifyReactor world id (fun _ _ => rfl) (fun _ _ => rfl) fun state _ _ => ?_
    exact decide_eq_true (Nat.succ_pos state.holders)
  | node id =>
    exact .modifyCell world id (fun cell => cell.place_withHolders _)
      fun _ cell => cell.core_withHolders _

theorem spares_foldl_hold {α : Type} (members : List α) (handle : α → Handle)
    (world : World κ ν σ) :
    world.Spares touched [] (members.foldl (fun world member => world.hold (handle member)) world) := by
  induction members generalizing world with
  | nil => exact .refl world
  | cons member rest ih => exact (world.spares_hold (handle member)).trans (ih _)

/-- A handle that is not the last one is given back. -/
theorem spares_lose {handle : Handle} (held : world.holdersOf handle ≠ 1) :
    world.Spares touched [] (world.lose handle) := by
  cases handle with
  | reactor id =>
    refine .modifyReactor world id (fun _ _ => rfl) (fun _ _ => rfl) fun state found living => ?_
    have several : state.holders ≠ 1 := by
      have counted : ((world.reactor? id).map Reactor.holders).getD 0 ≠ 1 := held
      rwa [found] at counted
    have positive : 0 < state.holders := of_decide_eq_true living
    exact decide_eq_true (by dsimp only; omega)
  | node id =>
    exact .modifyCell world id (fun cell => cell.place_withHolders _)
      fun _ cell => cell.core_withHolders _

/-- A node that is not that of an effect leaves its graph, or an effect that may be touched. -/
theorem spares_unregister (world : World κ ν σ) {id : NodeId}
    (free : ∀ effect, world.effect? id = some effect → touched id) :
    world.Spares touched [] (world.unregister id).2 := by
  unfold World.unregister
  split
  next => exact .refl world
  next cell known =>
    dsimp only
    rw [removeNode_eq]
    have removed : world.Spares touched [] (world.mapGraph cell.reactor (·.remove id)) := by
      refine .mapGraph world cell.reactor rfl (fun other _ node _ live => ?_)
        fun other effect found apart live => ?_
      · obtain ⟨_, old, was, version, kept⟩ := Graph.remove_keeps live
        refine ⟨old, was, fun _ _ => ⟨version, fun read member => ?_⟩⟩
        refine (kept read member).imp_right fun same => ⟨?_, ?_⟩
        · rw [same, known]
          rfl
        · rw [same]
          exact Graph.node?_remove_self _ id
      · refine Graph.remove_contains (fun same => ?_) live
        subst same
        exact apart (free effect found)
    have forgotten : (world.mapGraph cell.reactor (·.remove id)).Spares touched []
        ((world.mapGraph cell.reactor (·.remove id)).modifyReactor cell.reactor fun reactor =>
          { reactor with pending := reactor.pending.erase id }) :=
      .modifyReactor _ cell.reactor (fun _ _ => rfl) (fun _ _ => rfl) fun _ _ living => living
    exact removed.trans forgotten

/-- Nothing but the deaths of reactors. -/
def Deaths (events : List (Event κ ν)) : Prop :=
  ∀ event ∈ events, ∃ owner, event = .died owner

theorem Deaths.nil : Deaths ([] : List (Event κ ν)) :=
  fun _ member => nomatch member

theorem Deaths.append {events later : List (Event κ ν)} (deaths : Deaths events)
    (deaths' : Deaths later) : Deaths (later ++ events) :=
  fun event member => (List.mem_append.mp member).elim (deaths' event) (deaths event)

/-- What loses its last handle perishes. -/
theorem spares_perish (world : World κ ν σ) (handle : Handle) :
    ∃ events, Deaths events ∧
      world.Spares touched events ((world.lose handle).perish handle).2 := by
  cases handle with
  | reactor id =>
    refine ⟨[.died id], fun event member => ⟨id, List.mem_singleton.mp member⟩, ?_⟩
    have nodes : ∀ owner, ((world.lose (.reactor id)).mapGraph id fun _ => .empty).graph owner =
        if owner = id then .empty else world.graph owner := by
      intro owner
      rw [graph_mapGraph _ _ rfl]
      split
      next => rfl
      next =>
        refine graph_modifyReactor world id ?_ owner
        exact fun _ _ => rfl
    have reactors : ∀ owner, ((world.lose (.reactor id)).mapGraph id fun _ => .empty).reactor? owner =
        if owner = id then (world.reactor? id).map fun reactor =>
          { reactor with holders := reactor.holders - 1, graph := .empty }
        else world.reactor? owner := by
      intro owner
      unfold World.mapGraph World.lose
      dsimp only
      rw [reactor?_modifyReactor, reactor?_modifyReactor, if_pos rfl, Option.map_map]
      split
      next => rfl
      next apart => rw [reactor?_modifyReactor, if_neg apart]
    refine ⟨rfl, fun _ cell found => ⟨cell, found, rfl, fun _ => rfl⟩,
      fun _ _ absent found => (nomatch absent.symm.trans found), fun owner state found => ?_,
      fun owner state absent found => ?_, fun owner other cell node _ live => ?_,
      fun owner other effect _ _ live => ?_, fun event member other concerns => ?_,
      fun read other _ member => ?_⟩
    · change ∃ state', ((world.lose (.reactor id)).mapGraph id fun _ => .empty).reactor? owner =
        some state' ∧ _
      rw [reactors]
      split
      next same =>
        subst same
        refine ⟨{ state with holders := state.holders - 1, graph := .empty }, ?_, rfl,
          fun _ => Or.inr List.mem_cons_self⟩
        rw [found]
        rfl
      next => exact ⟨state, found, rfl, Or.inl⟩
    · change ((world.lose (.reactor id)).mapGraph id fun _ => .empty).reactor? owner = _ at found
      rw [reactors] at found
      split at found
      next same =>
        subst same
        rw [absent] at found
        cases found
      next =>
        rw [absent] at found
        cases found
    · change (((world.lose (.reactor id)).mapGraph id fun _ => .empty).graph owner).node? other =
        _ at live
      rw [nodes] at live
      split at live
      next => cases live
      next => exact ⟨node, live, fun _ _ => ⟨rfl, fun _ member => Or.inl member⟩⟩
    · change (((world.lose (.reactor id)).mapGraph id fun _ => .empty).graph owner |>.node?
        other).isSome ∨ _
      rw [nodes]
      split
      next same => exact Or.inr (same ▸ List.mem_cons_self)
      next => exact Or.inl live
    · rw [List.mem_singleton.mp member] at concerns
      exact concerns.elim
    · cases List.mem_singleton.mp member
  | node id =>
    have lost : world.Spares touched [] (world.lose (.node id)) :=
      .modifyCell world id (fun cell => cell.place_withHolders _)
        fun _ cell => cell.core_withHolders _
    refine ⟨[], .nil, ?_⟩
    unfold World.perish
    dsimp only
    split
    next => exact lost
    next cell passive found =>
      refine lost.trans (spares_unregister _ fun effect found' => ?_)
      rw [effect?_eq_some_iff, found] at found'
      cases found'
      exact (passive effect rfl).elim
    next => exact lost

theorem spares_dropAll (world : World κ ν σ) (handles : List Handle) (fuel : Nat) :
    ∃ events, Deaths events ∧ world.Spares touched events (world.dropAll handles fuel) := by
  induction fuel generalizing world handles with
  | zero =>
    refine ⟨[], .nil, ?_⟩
    cases handles with
    | nil => exact .refl world
    | cons => exact .refl world
  | succ fuel ih =>
    cases handles with
    | nil => exact ⟨[], .nil, .refl world⟩
    | cons handle rest =>
      unfold World.dropAll
      dsimp only
      split
      next =>
        obtain ⟨events, deaths, perished⟩ : ∃ events, Deaths events ∧ world.Spares touched events
            ((world.lose handle).perish handle).2 := world.spares_perish handle
        obtain ⟨later, deaths', dropped⟩ := ih ((world.lose handle).perish handle).2
          (((world.lose handle).perish handle).1 ++ rest)
        exact ⟨_, deaths.append deaths', perished.trans dropped⟩
      next several =>
        obtain ⟨later, deaths, dropped⟩ := ih (world.lose handle) rest
        exact ⟨_, Deaths.nil.append deaths, (spares_lose several).trans dropped⟩

theorem spares_drop (world : World κ ν σ) (handle : Handle) :
    ∃ events, Deaths events ∧ world.Spares touched events (world.drop handle) :=
  world.spares_dropAll _ _

theorem spares_retire (world : World κ ν σ) {id : NodeId}
    (free : ∀ effect, world.effect? id = some effect → touched id) :
    ∃ events, Deaths events ∧ world.Spares touched events (world.retire id) := by
  obtain ⟨events, deaths, dropped⟩ : ∃ events, Deaths events ∧
      (world.unregister id).2.Spares touched events (world.retire id) :=
    (world.unregister id).2.spares_dropAll _ _
  exact ⟨_, Deaths.nil.append deaths, (world.spares_unregister free).trans dropped⟩

theorem spares_destroySignal (world : World κ ν σ) (id : NodeId) :
    ∃ events, world.Spares touched events (world.destroySignal id) := by
  unfold World.destroySignal
  split
  next signal found =>
    split
    next => exact ⟨[], .refl world⟩
    next =>
      have marked : world.Spares touched []
          (world.modifySignal id ({ · with destroyed := true })) :=
        .modifySignal world id (fun _ => rfl) fun _ _ => rfl
      obtain ⟨signal', known, _⟩ := marked.signal found
      obtain ⟨events, _, retired⟩ : ∃ events, Deaths events ∧
          (world.modifySignal id ({ · with destroyed := true })).Spares touched events
            ((world.modifySignal id ({ · with destroyed := true })).retire id) :=
        spares_retire _ fun effect found' => by
          rw [effect?_eq_some_iff] at found'
          rw [signal?_eq_some_iff, found'] at known
          cases known
      exact ⟨_, marked.trans retired⟩
  next => exact ⟨[], .refl world⟩

/-- A tracked read adds to what the reader reads, unless the node that is read is gone. -/
theorem spares_noteRead (world : World κ ν σ) {read : NodeId} {cell : Cell κ ν}
    (found : world.cell? read = some cell) (readable : cell.kind ≠ .effect) :
    ∃ reader, world.Spares touched [.read read reader] (world.noteRead cell.reactor read) := by
  unfold World.noteRead
  split
  next reader _ =>
    have bare : (fun graph : Graph => graph.connect read reader) .empty = .empty :=
      Graph.connect_empty read reader
    have connected : world.Spares touched []
        (world.mapGraph cell.reactor (·.connect read reader)) := by
      exact .mapGraph_of_rel world cell.reactor bare fun id =>
        relOption_mono (fun _ _ carries _ _ => carries) (Graph.carries_connect _ read reader id)
    refine ⟨some reader, rfl, connected.cells, connected.made, fun owner state known => ?_,
      fun owner state absent known => ?_, connected.nodes, fun owner id effect known apart live => ?_,
      fun event member id concerns => ?_, fun other id effect member running _ => ?_⟩
    · obtain ⟨state', known', chains, alive⟩ := connected.reactors owner state known
      exact ⟨state', known', chains, fun living => (alive living).imp_right nofun⟩
    · exact (connected.founded owner state absent known).imp_right nofun
    · exact (connected.lives owner id effect known apart live).imp_right nofun
    · rw [List.mem_singleton.mp member] at concerns
      exact concerns.elim
    · -- The read is recorded for the reader itself, so that the edge is there or its source gone.
      cases List.mem_singleton.mp member
      have apart : read ≠ reader := by
        rintro rfl
        rw [effect?_eq_some_iff] at running
        cases found.symm.trans running
        exact readable rfl
      refine ⟨cell, found, fun node live => ?_⟩
      have connects : ((world.mapGraph cell.reactor (·.connect read reader)).record
          (.read read (some reader))).graph cell.reactor =
            (world.graph cell.reactor).connect read reader :=
        (@graph_mapGraph _ _ _ world cell.reactor (·.connect read reader) bare cell.reactor).trans
          (if_pos rfl)
      rw [connects] at live
      refine (Graph.connect_adds apart live).imp_right fun absent => ⟨?_, ?_⟩
      · show (world.cell? read).isSome
        rw [found]
        rfl
      · rwa [connects]
  next => exact ⟨none, .record world _ (fun _ concerns => concerns.elim) not_false⟩

theorem spares_noteWrite (world : World κ ν σ) (owner : ReactorId) (source : NodeId) :
    ∃ writer, world.Spares touched [.wrote source writer] (world.noteWrite owner source) := by
  have recorded : ∀ (world : World κ ν σ) writer,
      world.Spares touched [.wrote source writer] (world.record (.wrote source writer)) :=
    fun world writer => .record world _ (fun _ concerns => concerns.elim) not_false
  unfold World.noteWrite
  split
  next writer _ =>
    have noted : world.Spares touched [] (world.mapGraph owner (·.noteWrite source writer)) :=
      .mapGraph_of_rel world owner rfl fun id =>
        relOption_mono (fun _ _ carries _ _ => carries) (Graph.carries_noteWrite _ source writer id)
    exact ⟨some writer, noted.trans (recorded _ _)⟩
  next => exact ⟨none, recorded world none⟩

/-- A change at one node, in which the version of a touched node or of a computed may move. -/
theorem spares_modifyNode (world : World κ ν σ) (owner : ReactorId) (id : NodeId)
    {change : Node → Node} (kept : ∀ node, (change node).id = node.id ∧
      (change node).dependencies = node.dependencies)
    (version : (¬ touched id ∧ ∀ cell, world.cell? id = some cell → cell.kind ≠ .derived) →
      ∀ node, (change node).version = node.version) :
    world.Spares touched [] (world.mapGraph owner (·.modify id change)) := by
  refine .mapGraph_of_rel world owner rfl fun other => ?_
  refine Graph.relOption_modify (fun node _ _ => .refl node) _ id change (fun node => (kept node).1)
    fun same node apart kind => ?_
  subst same
  exact ⟨version ⟨apart, kind⟩ node, fun _ member => (kept node).2 ▸ member⟩

/-- What forgets its reads is a computed, or is touched. -/
theorem spares_unsubscribe (world : World κ ν σ) (owner : ReactorId) {id : NodeId}
    (free : (∃ state, world.computed? id = some state) ∨ touched id) :
    world.Spares touched [] (world.mapGraph owner (·.unsubscribe id)) := by
  refine .mapGraph_of_rel world owner rfl fun other => ?_
  obtain ⟨step, eq, kept⟩ := Graph.unsubscribe_cases (world.graph owner) id other
  rw [eq]
  cases (world.graph owner).node? other with
  | none => exact .none
  | some old =>
    refine .some fun untouched kind => ?_
    obtain ⟨_, standing, dependencies⟩ := kept old
    have apart : other ≠ id := by
      rintro rfl
      rcases free with ⟨state, found⟩ | member
      · exact kind _ (computed?_eq_some_iff.mp found) rfl
      · exact untouched member
    rw [if_neg apart] at dependencies
    exact ⟨congrArg Prod.snd standing, fun _ member => dependencies ▸ member⟩

theorem spares_resubscribe (world : World κ ν σ) (owner : ReactorId) (id : NodeId) :
    world.Spares touched [] (world.mapGraph owner (·.resubscribe id)) := by
  exact .mapGraph_of_rel world owner rfl fun other =>
    relOption_mono (fun _ _ carries _ _ => carries) (Graph.carries_resubscribe _ id other)

/-- Marking what changed sources reach moves no version and takes no reads away. -/
theorem spares_planPass (world : World κ ν σ) (owner : ReactorId) (sources : List NodeId) :
    world.Spares touched [] (world.planPass owner sources).2 := by
  have planned : (world.planPass owner sources).2 =
      world.mapGraph owner fun graph => (graph.propagate sources).2 :=
    mapGraph_at world owner fun graph => (graph.propagate sources).2
  rw [planned]
  exact .mapGraph_of_rel world owner (Graph.propagate_empty sources) fun id =>
    relOption_mono (fun _ _ carries _ _ => carries) (Graph.carries_propagate _ sources id)

/-- A new value touches its signal. -/
theorem spares_store (world : World κ ν σ) (owner : ReactorId) (id : NodeId) (value : ν) :
    world.Spares (· = id) [.changed id value]
      (((world.modifySignal id fun signal => { signal with value }).mapGraph owner
        (·.modify id Node.bump)).record (.changed id value)) := by
  have valued : world.Spares (· = id) [] (world.modifySignal id fun signal => { signal with value }) :=
    .modifySignal world id (fun _ => rfl) fun apart => (apart rfl).elim
  have bumped : (world.modifySignal id fun signal => { signal with value }).Spares (· = id) []
      ((world.modifySignal id fun signal => { signal with value }).mapGraph owner
        (·.modify id Node.bump)) :=
    spares_modifyNode _ owner id (fun _ => ⟨rfl, rfl⟩) fun apart => (apart.1 rfl).elim
  refine (valued.trans bumped).trans (.record _ (.changed id value)
    (fun other concerns => Or.inl ?_) not_false)
  exact Eq.symm concerns

theorem spares_settleValue [BEq ν] (world : World κ ν σ) {id : NodeId} {state : Computed κ ν}
    (found : world.computed? id = some state) (computed : Computed κ ν) (value : ν) :
    ∃ events, world.Spares touched events (world.settleValue id computed value) := by
  unfold World.settleValue
  extract_lets same
  split
  next =>
    exact ⟨[], spares_modifyNode world computed.reactor id (fun _ => ⟨rfl, rfl⟩) fun _ _ => rfl⟩
  next =>
    have valued : world.Spares touched []
        (world.modifyComputed id ({ · with value := some value })) :=
      .modifyComputed world id (fun _ => rfl) fun _ => rfl
    obtain ⟨state', found', _⟩ := valued.computed found
    have bumped : (world.modifyComputed id ({ · with value := some value })).Spares touched []
        ((world.modifyComputed id ({ · with value := some value })).mapGraph computed.reactor
          (·.modify id fun node => node.bump.markClean)) :=
      spares_modifyNode _ computed.reactor id (fun _ => ⟨rfl, rfl⟩) fun apart =>
        (apart.2 _ (computed?_eq_some_iff.mp found') rfl).elim
    refine ⟨_, (valued.trans bumped).trans
      (.record _ (.changed id value)
      (fun other concerns => Or.inr ?_) not_false)⟩
    have here : id = other := concerns
    exact ⟨state', here ▸ found'⟩

theorem spares_addReactor (world : World κ ν σ) (settings : Settings) :
    world.Spares touched [] { world with reactors := world.reactors ++ [.new settings] } where
  past := rfl
  cells _ cell found := ⟨cell, found, rfl, fun _ => rfl⟩
  made _ _ absent found := nomatch absent.symm.trans found
  reactors owner state found := by
    rcases reactor?_newReactor world settings owner with same | ⟨absent, _⟩
    · exact ⟨state, same.trans found, rfl, Or.inl⟩
    · rw [absent] at found
      cases found
  founded owner state absent found := by
    rcases reactor?_newReactor world settings owner with same | ⟨_, new⟩
    · rw [same, absent] at found
      cases found
    · cases new.symm.trans found
      exact Or.inl rfl
  nodes owner id cell node _ live := by
    rw [graph_newReactor] at live
    exact ⟨node, live, fun _ _ => ⟨rfl, fun _ member => Or.inl member⟩⟩
  lives owner id effect _ _ live := by
    rw [graph_newReactor]
    exact Or.inl live
  quiet := nofun
  reads := nofun

theorem spares_addCell (world : World κ ν σ) (cell : Cell κ ν)
    (fresh : ∀ effect, cell = .effect effect → effect.Fresh) :
    world.Spares touched [] (world.addCell cell cell.kind).2 := by
  have kept : ∀ id state, world.cell? id = some state →
      (world.addCell cell cell.kind).2.cell? id = some state := by
    intro id state found
    rw [cell?_addCell, if_neg, found]
    rintro rfl
    rw [cell?_nextId] at found
    cases found
  have nodes : ∀ owner id state, world.cell? id = some state →
      ((world.addCell cell cell.kind).2.graph owner).node? id = (world.graph owner).node? id := by
    intro owner id state found
    have apart : id ≠ world.nextId := by
      rintro rfl
      rw [cell?_nextId] at found
      cases found
    rcases graph_addCell_cases world cell owner with same | ⟨_, _, inserted⟩
    · rw [same]
    · rw [inserted, Graph.node?_insert]
      exact if_neg apart
  refine ⟨rfl, fun id state found => ⟨state, kept id state found, rfl, fun _ => rfl⟩,
    fun id effect absent found _ => ?_, fun owner state found => ?_,
    fun owner state absent found => ?_, fun owner id state node found live => ?_,
    fun owner id effect found _ live => ?_, nofun, nofun⟩
  · rw [cell?_addCell] at found
    split at found
    next => exact fresh effect (Option.some.inj found)
    next =>
      rw [absent] at found
      cases found
  · show ∃ state', (world.modifyReactor cell.reactor _).reactor? owner = some state' ∧ _
    rw [reactor?_modifyReactor]
    split
    next same =>
      subst same
      exact ⟨state.mapGraph _, by rw [found]; rfl, rfl, Or.inl⟩
    next => exact ⟨state, found, rfl, Or.inl⟩
  · change (world.modifyReactor cell.reactor _).reactor? owner = some state at found
    rw [reactor?_modifyReactor] at found
    split at found
    next same =>
      subst same
      rw [absent] at found
      cases found
    next =>
      rw [absent] at found
      cases found
  · rw [nodes owner id state found] at live
    exact ⟨node, live, fun _ _ => ⟨rfl, fun _ member => Or.inl member⟩⟩
  · rw [nodes owner id _ (effect?_eq_some_iff.mp found)]
    exact Or.inl live

/-- A new cell that holds its reactor. -/
theorem spares_addHolding (world : World κ ν σ) (cell : Cell κ ν)
    (fresh : ∀ effect, cell = .effect effect → effect.Fresh) :
    world.Spares touched [] ((world.hold (.reactor cell.reactor)).addCell cell cell.kind).2 :=
  (world.spares_hold _).trans (spares_addCell _ cell fresh)

/-- Nothing but warnings and refusals of a document. -/
def Warnings (events : List (Event κ ν)) : Prop :=
  ∀ event ∈ events, (∃ key, event = .repeatedKey key) ∨ ∃ refusal, event = .refused refusal

/-- What leaves cells and reactors alone and adds no more than warnings. -/
def Shown (world after : World κ ν σ) : Prop :=
  after.cells = world.cells ∧ after.reactors = world.reactors ∧
    ∃ events, Warnings events ∧ after.past = events ++ world.past

theorem Shown.refl (world : World κ ν σ) : world.Shown world :=
  ⟨rfl, rfl, [], nofun, rfl⟩

theorem Shown.trans {middle after : World κ ν σ} (start : world.Shown middle)
    (finish : middle.Shown after) : world.Shown after := by
  obtain ⟨cells, reactors, events, warnings, past⟩ := start
  obtain ⟨cells', reactors', later, warnings', past'⟩ := finish
  refine ⟨cells'.trans cells, reactors'.trans reactors, later ++ events, fun event member => ?_, ?_⟩
  · exact (List.mem_append.mp member).elim (warnings' event) (warnings event)
  · rw [past', past, List.append_assoc]

theorem Shown.foldl {α : Type} {step : World κ ν σ → α → World κ ν σ}
    (kept : ∀ world member, World.Shown world (step world member)) (members : List α)
    (world : World κ ν σ) : world.Shown (members.foldl step world) := by
  induction members generalizing world with
  | nil => exact .refl world
  | cons member rest ih => exact (kept world member).trans (ih (step world member))

theorem Shown.spares {after : World κ ν σ} (shown : world.Shown after) :
    ∃ events, Warnings events ∧ world.Spares touched events after := by
  obtain ⟨cells, reactors, events, warnings, past⟩ := shown
  refine ⟨events, warnings, .of_alike cells reactors past (fun event member id concerns => ?_)
    fun event member => ?_⟩
  · rcases warnings event member with ⟨_, rfl⟩ | ⟨_, rfl⟩ <;> exact concerns.elim
  · rcases warnings event member with ⟨_, rfl⟩ | ⟨_, rfl⟩ <;> exact not_false

theorem shown_reconcile (world : World κ ν σ) (mount : Mount κ) (old new : Option Tree) :
    world.Shown (world.reconcile mount old new).2 := by
  have warned : ∀ (world : World κ ν σ) event,
      ((∃ key, event = .repeatedKey key) ∨ ∃ refusal, event = Event.refused refusal) →
        world.Shown (world.record event) :=
    fun world event warning => ⟨rfl, rfl, [event], fun other member => by
      rwa [List.mem_singleton.mp member], rfl⟩
  unfold World.reconcile
  split
  next => exact .refl world
  next document _ =>
    dsimp only
    refine (Shown.foldl (fun world key => warned world _ (Or.inl ⟨key, rfl⟩)) _ world).trans
      (.trans ⟨rfl, rfl, [], nofun, rfl⟩ (Shown.foldl (fun world event => ?_) _ _))
    cases event with
    | refused refusal => exact warned world _ (Or.inr ⟨refusal, rfl⟩)
    | _ => exact .refl world

theorem shown_present (world : World κ ν σ) (id : MountId) (next : Option Tree) :
    world.Shown (world.present id next).2 := by
  unfold World.present
  split
  next => exact .refl world
  next mount _ =>
    have shown := world.shown_reconcile mount mount.tree next
    dsimp only
    split
    next => exact shown.trans ⟨rfl, rfl, [], nofun, rfl⟩
    next => exact shown

theorem shown_withdraw (world : World κ ν σ) (id : MountId) :
    world.Shown (world.withdraw id).2 := by
  unfold World.withdraw
  split
  next => exact .refl world
  next mount _ =>
    split
    next => exact .refl world
    next tree _ =>
      have bare : world.Shown (world.modifyMount id ({ · with tree := none })) :=
        ⟨rfl, rfl, [], nofun, rfl⟩
      exact bare.trans (World.shown_reconcile _ mount (some tree) none)

end World

end ReactiveTree
