import ReactiveTree.Proofs.Reactive.Accounts
import ReactiveTree.Proofs.Reactive.Attending
import ReactiveTree.Proofs.Reactive.Abiding
import ReactiveTree.Proofs.Reactive.Batching

/-! # Computeds are kept while a batch is open

A computed that is up to date is not evaluated again before it is marked, and only a pass of its own
reactor marks it. While a batch is open no such pass begins. So a computed that is up to date when the
batch opens keeps its value to the end of the batch, whatever is written and read meanwhile; and one
that is not is up to date after the first read.
-/

namespace ReactiveTree

variable {κ ν σ α : Type}

/-- A node that is clean stays so, as far as it is live. -/
def Graph.StaysClean (id : NodeId) (graph after : Graph) : Prop :=
  ∀ node, after.node? id = some node → ∃ old, graph.node? id = some old ∧
    (old.freshness = .clean → node.freshness = .clean)

namespace Graph

variable {graph middle after : Graph} {id : NodeId}

theorem StaysClean.refl (graph : Graph) : StaysClean id graph graph :=
  fun node found => ⟨node, found, fun clean => clean⟩

theorem StaysClean.trans (start : StaysClean id graph middle) (finish : StaysClean id middle after) :
    StaysClean id graph after := by
  intro node found
  obtain ⟨between, present, clean⟩ := finish node found
  obtain ⟨old, was, clean'⟩ := start between present
  exact ⟨old, was, fun held => clean (clean' held)⟩

theorem StaysClean.modify (graph : Graph) (other : NodeId) {change : Node → Node}
    (kept : ∀ node, (change node).id = node.id ∧
      (other = id → node.freshness = .clean → (change node).freshness = .clean)) :
    StaysClean id graph (graph.modify other change) := by
  intro node found
  obtain ⟨old, was, rfl | ⟨same, rfl⟩⟩ := modify_cases (fun node => (kept node).1) found
  · exact ⟨node, was, fun clean => clean⟩
  · exact ⟨old, was, (kept old).2 same.symm⟩

theorem StaysClean.noteWrite (graph : Graph) (source effect : NodeId) :
    StaysClean id graph (graph.noteWrite source effect) := by
  unfold Graph.noteWrite
  split
  next =>
    have written : StaysClean id graph (graph.modify source (·.addWriter effect)) :=
      .modify graph source fun _ => ⟨rfl, fun _ clean => clean⟩
    exact written.trans (.modify _ effect fun _ => ⟨rfl, fun _ clean => clean⟩)
  next => exact .refl graph

theorem StaysClean.remove (graph : Graph) (other : NodeId) :
    StaysClean id graph (graph.remove other) := by
  intro node found
  obtain ⟨_, old, was, _, mark, _⟩ := remove_cases found
  exact ⟨old, was, mark.trans⟩

theorem StaysClean.resubscribe (graph : Graph) (other : NodeId) :
    StaysClean id graph (graph.resubscribe other) := by
  intro node found
  obtain ⟨old, was, _, mark, _⟩ := resubscribe_cases found
  exact ⟨old, was, mark.trans⟩

theorem StaysClean.unsubscribe (graph : Graph) (other : NodeId) :
    StaysClean id graph (graph.unsubscribe other) := by
  intro node found
  obtain ⟨change, eq, kept⟩ := unsubscribe_cases graph other id
  rw [eq] at found
  obtain ⟨old, was, rfl⟩ := Option.map_eq_some_iff.mp found
  exact ⟨old, was, (congrArg Prod.fst (kept old).2.1).trans⟩

theorem StaysClean.connect (graph : Graph) (read reader : NodeId) :
    StaysClean id graph (graph.connect read reader) := by
  intro node found
  obtain ⟨change, eq, kept⟩ := connect_cases graph read reader id
  rw [eq] at found
  obtain ⟨old, was, rfl⟩ := Option.map_eq_some_iff.mp found
  exact ⟨old, was, (congrArg Prod.fst (kept old).2.1).trans⟩

end Graph

namespace World

variable {world middle after : World κ ν σ} {owner : ReactorId} {id other : NodeId} {value : ν}

/-- A computed holds a value and is up to date, unless it is no longer live. -/
structure Kept (world : World κ ν σ) (owner : ReactorId) (id : NodeId) (value : ν) : Prop where
  holds : ∃ computed, world.computed? id = some computed ∧ computed.reactor = owner ∧
    computed.value = some value
  clean : ∀ node, (world.graph owner).node? id = some node → node.freshness = .clean

/-- A step keeps a computed as it is, if it is there. -/
structure Saves (owner : ReactorId) (id : NodeId) (world after : World κ ν σ) : Prop where
  computed : ∀ computed, world.computed? id = some computed → ∃ computed',
    after.computed? id = some computed' ∧ computed'.reactor = computed.reactor ∧
      computed'.value = computed.value
  clean : (world.computed? id).isSome → Graph.StaysClean id (world.graph owner) (after.graph owner)

theorem Kept.save (kept : world.Kept owner id value) (saves : Saves owner id world after) :
    after.Kept owner id value := by
  obtain ⟨computed, found, home, held⟩ := kept.holds
  obtain ⟨computed', found', home', held'⟩ := saves.computed computed found
  refine ⟨⟨computed', found', home'.trans home, held'.trans held⟩, fun node live => ?_⟩
  obtain ⟨old, was, clean⟩ := saves.clean (by rw [found]; rfl) node live
  exact clean (kept.clean old was)

theorem Saves.refl (world : World κ ν σ) : Saves owner id world world :=
  ⟨fun computed found => ⟨computed, found, rfl, rfl⟩, fun _ => .refl _⟩

theorem Saves.trans (start : Saves owner id world middle) (finish : Saves owner id middle after) :
    Saves owner id world after where
  computed computed found := by
    obtain ⟨between, found', home, held⟩ := start.computed computed found
    obtain ⟨computed', found'', home', held'⟩ := finish.computed between found'
    exact ⟨computed', found'', home'.trans home, held'.trans held⟩
  clean known := by
    refine (start.clean known).trans (finish.clean ?_)
    obtain ⟨computed, found⟩ := Option.isSome_iff_exists.mp known
    obtain ⟨between, found', _⟩ := start.computed computed found
    rw [found']
    rfl

/-- A step that leaves cells alone. -/
theorem Saves.of_cells (cells : after.cells = world.cells)
    (clean : Graph.StaysClean id (world.graph owner) (after.graph owner)) :
    Saves owner id world after := by
  refine ⟨fun computed found => ⟨computed, ?_, rfl, rfl⟩, fun _ => clean⟩
  unfold computed? cell? at found ⊢
  rwa [cells]

theorem Saves.of_alike (cells : after.cells = world.cells)
    (reactors : after.reactors = world.reactors) : Saves owner id world after := by
  refine .of_cells cells ?_
  rw [graph_of_reactors reactors]
  exact .refl _

theorem Saves.record (world : World κ ν σ) (event : Event κ ν) :
    Saves owner id world (world.record event) :=
  .of_alike rfl rfl

theorem Saves.modifyReactor (world : World κ ν σ) (home : ReactorId) {change : Reactor → Reactor}
    (kept : ∀ state, (change state).graph = state.graph) :
    Saves owner id world (world.modifyReactor home change) := by
  refine .of_cells rfl ?_
  rw [graph_modifyReactor world home fun state _ => kept state]
  exact .refl _

theorem Saves.pushFrame (world : World κ ν σ) (home : ReactorId) (frame : Frame) :
    Saves owner id world (world.modifyReactor home (·.pushFrame frame)) :=
  .modifyReactor world home fun _ => rfl

theorem Saves.popFrame (world : World κ ν σ) (home : ReactorId) :
    Saves owner id world (world.modifyReactor home Reactor.popFrame) :=
  .modifyReactor world home fun _ => rfl

theorem Saves.openBatch (world : World κ ν σ) (home : ReactorId) :
    Saves owner id world (world.modifyReactor home Reactor.openBatch) :=
  .modifyReactor world home fun _ => rfl

theorem Saves.closeBatch (world : World κ ν σ) (home : ReactorId) :
    Saves owner id world (world.closeBatch home).2 := by
  rw [closeBatch_snd]
  exact .modifyReactor world home fun state => state.closeBatch_kept.1

theorem Saves.mapGraph (world : World κ ν σ) (home : ReactorId) {change : Graph → Graph}
    (bare : change .empty = .empty)
    (clean : home = owner → Graph.StaysClean id (world.graph owner) (change (world.graph owner))) :
    Saves owner id world (world.mapGraph home change) := by
  refine .of_cells rfl ?_
  rw [graph_mapGraph world home bare]
  split
  next same =>
    subst same
    exact clean rfl
  next => exact .refl _

theorem Saves.modifyNode (world : World κ ν σ) (home : ReactorId) (other : NodeId)
    {change : Node → Node} (kept : ∀ node, (change node).id = node.id ∧
      (other = id → node.freshness = .clean → (change node).freshness = .clean)) :
    Saves owner id world (world.mapGraph home (·.modify other change)) :=
  .mapGraph world home rfl fun _ => .modify _ other kept

theorem Saves.unsubscribe (world : World κ ν σ) (home : ReactorId) (other : NodeId) :
    Saves owner id world (world.mapGraph home (·.unsubscribe other)) :=
  .mapGraph world home rfl fun _ => .unsubscribe _ other

theorem Saves.modifyCell (world : World κ ν σ) (other : NodeId) {change : Cell κ ν → Cell κ ν}
    (kept : other = id → ∀ computed, world.computed? id = some computed → ∃ computed',
      change (.computed computed) = .computed computed' ∧ computed'.reactor = computed.reactor ∧
        computed'.value = computed.value) : Saves owner id world (world.modifyCell other change) := by
  refine ⟨fun computed found => ?_, fun _ => .refl _⟩
  by_cases same : id = other
  · obtain ⟨computed', changed, rest⟩ := kept same.symm computed found
    refine ⟨computed', ?_, rest⟩
    rw [computed?_eq_some_iff, cell?_modifyCell, if_pos same, ← same, computed?_eq_some_iff.mp found]
    exact congrArg some changed
  · refine ⟨computed, ?_, rfl, rfl⟩
    rw [computed?_eq_some_iff, cell?_modifyCell, if_neg same]
    exact computed?_eq_some_iff.mp found

theorem Saves.modifySignal (world : World κ ν σ) (other : NodeId) (change : Signal ν → Signal ν) :
    Saves owner id world (world.modifySignal other change) :=
  .modifyCell world other fun _ computed _ => ⟨computed, rfl, rfl, rfl⟩

theorem Saves.modifyEffect (world : World κ ν σ) (other : NodeId) (change : Effect κ → Effect κ) :
    Saves owner id world (world.modifyEffect other change) :=
  .modifyCell world other fun _ computed _ => ⟨computed, rfl, rfl, rfl⟩

/-- A change of another computed, or of what a computed keeps besides its value. -/
theorem Saves.modifyComputed (world : World κ ν σ) (other : NodeId)
    {change : Computed κ ν → Computed κ ν} (kept : other = id → ∀ computed,
      (change computed).reactor = computed.reactor ∧ (change computed).value = computed.value) :
    Saves owner id world (world.modifyComputed other change) :=
  .modifyCell world other fun same computed _ => ⟨change computed, rfl, kept same computed⟩

theorem Saves.hold (world : World κ ν σ) (handle : Handle) :
    Saves owner id world (world.hold handle) := by
  cases handle with
  | reactor home => exact .modifyReactor world home fun _ => rfl
  | node other => exact .modifyCell world other fun _ computed _ => ⟨_, rfl, rfl, rfl⟩

theorem Saves.lose (world : World κ ν σ) (handle : Handle) :
    Saves owner id world (world.lose handle) := by
  cases handle with
  | reactor home => exact .modifyReactor world home fun _ => rfl
  | node other => exact .modifyCell world other fun _ computed _ => ⟨_, rfl, rfl, rfl⟩

theorem Saves.unregister (world : World κ ν σ) (other : NodeId) :
    Saves owner id world (world.unregister other).2 := by
  unfold World.unregister
  split
  next => exact .refl world
  next cell _ =>
    rw [removeNode_eq]
    exact (Saves.mapGraph world cell.reactor rfl fun _ => .remove _ other).trans
      (.modifyReactor _ cell.reactor fun _ => rfl)

theorem Saves.shed (world : World κ ν σ) (handle : Handle) :
    Saves owner id world (world.shed handle) := by
  unfold World.shed
  split
  next =>
    refine (Saves.lose world handle).trans ?_
    cases handle with
    | reactor home =>
      have emptied : Saves owner id (world.lose (.reactor home))
          ((world.lose (.reactor home)).mapGraph home fun _ => .empty) :=
        .mapGraph _ home rfl fun _ => nofun
      exact emptied.trans (.record _ _)
    | node other =>
      unfold World.perish
      dsimp only
      split
      next => exact .refl _
      next => exact .unregister _ other
      next => exact .refl _
  next => exact .lose world handle

/-- Handles are given back one by one. -/
theorem Saves.drop (world : World κ ν σ) (handle : Handle) :
    Saves owner id world (world.drop handle) := by
  have all : ∀ (fuel : Nat) (handles : List Handle) (world : World κ ν σ),
      Saves owner id world (world.dropAll handles fuel) := by
    intro fuel
    induction fuel with
    | zero =>
      intro handles world
      cases handles <;> exact .refl world
    | succ fuel ih =>
      intro handles world
      cases handles with
      | nil => exact .refl world
      | cons handle rest =>
        have shed : Saves owner id world (world.shed handle) := .shed world handle
        unfold World.dropAll
        dsimp only
        split
        next last =>
          rw [World.shed, if_pos last] at shed
          exact shed.trans (ih _ _)
        next several =>
          rw [World.shed, if_neg several] at shed
          exact shed.trans (ih _ _)
  exact all _ _ world

theorem Saves.put (world : World κ ν σ) (home : ReactorId) (other : NodeId) (new : ν) :
    Saves owner id world (world.put home other new) := by
  have stored : Saves owner id world (world.modifySignal other fun signal => { signal with value := new }) :=
    .modifySignal world other _
  have bumped : Saves owner id (world.modifySignal other fun signal => { signal with value := new })
      ((world.modifySignal other fun signal => { signal with value := new }).mapGraph home
        (·.modify other Node.bump)) := .modifyNode _ home other fun _ => ⟨rfl, fun _ clean => clean⟩
  exact (stored.trans bumped).trans (.record _ _)

theorem Saves.noteRead (world : World κ ν σ) (home : ReactorId) (read : NodeId) :
    Saves owner id world (world.noteRead home read) := by
  unfold World.noteRead
  split
  next reader _ =>
    have connected : Saves owner id world (world.mapGraph home (·.connect read reader)) :=
      .mapGraph world home (Graph.connect_empty read reader) fun _ => .connect _ read reader
    exact connected.trans (.record _ _)
  next => exact .record world _

theorem Saves.noteWrite (world : World κ ν σ) (home : ReactorId) (source : NodeId) :
    Saves owner id world (world.noteWrite home source) := by
  unfold World.noteWrite
  split
  next writer _ =>
    have noted : Saves owner id world (world.mapGraph home (·.noteWrite source writer)) :=
      .mapGraph world home rfl fun _ => .noteWrite _ source writer
    exact noted.trans (.record _ _)
  next => exact .record world _

theorem Saves.addCell (world : World κ ν σ) (cell : Cell κ ν) :
    Saves owner id world (world.addCell cell cell.kind).2 := by
  have old : ∀ computed, world.computed? id = some computed → id ≠ world.nextId := by
    rintro computed found rfl
    exact nomatch (cell?_nextId world).symm.trans (computed?_eq_some_iff.mp found)
  refine ⟨fun computed found => ⟨computed, ?_, rfl, rfl⟩, fun known => ?_⟩
  · rw [computed?_eq_some_iff, cell?_addCell, if_neg (old computed found)]
    exact computed?_eq_some_iff.mp found
  · obtain ⟨computed, found⟩ := Option.isSome_iff_exists.mp known
    rcases graph_addCell_cases world cell owner with same | ⟨_, _, inserted⟩
    · rw [same]
      exact .refl _
    · intro node live
      have apart : id ≠ (Node.new world.nextId cell.kind).id := old computed found
      rw [inserted, Graph.node?_insert, if_neg apart] at live
      exact ⟨node, live, fun clean => clean⟩

/-- No change in which no closure takes part marks a computed. -/
theorem Change.saves (change : world.Change after) : Saves owner id world after := by
  cases change with
  | aside _ _ _ cells reactors => exact .of_alike cells reactors
  | hold handle => exact .hold world handle
  | shed handle => exact .shed world handle
  | stop => exact ((Saves.modifyEffect world _ _).trans (.hold _ _)).trans (.unregister _ _)
  | abandon => exact .modifyEffect world _ _
  | destroy => exact (Saves.modifySignal world _ _).trans (.unregister _ _)
  | @defer other signal state new =>
    exact (Saves.put world signal.reactor other new).trans (.modifyReactor _ _ fun _ => rfl)
  | putLost => exact .put world _ _ _
  | noteWrite => exact .noteWrite world _ _
  | addReactor settings =>
    refine .of_cells rfl ?_
    rw [graph_newReactor]
    exact .refl _
  | addHolding cell => exact (Saves.hold world _).trans (.addCell _ cell)
  | addEffect home body => exact .addCell world (.effect ⟨home, body, false, none, true, false, 0, 2⟩)
  | label => exact .modifyNode world _ _ fun _ => ⟨rfl, fun _ clean => clean⟩
  | tweak other => exact .modifyEffect world other _

theorem Saves.enterBody (world : World κ ν σ) (other : NodeId) (home : ReactorId) :
    Saves owner id world (world.enterBody other home) :=
  (Saves.record world _).trans (.pushFrame _ home _)

theorem Saves.leaveBody (world : World κ ν σ) (other : NodeId) (home : ReactorId) (panicked : Bool) :
    Saves owner id world (world.leaveBody other home panicked) :=
  (Saves.popFrame world home).trans (.record _ _)

theorem Saves.enter (world : World κ ν σ) (other : NodeId) (home : ReactorId) :
    Saves owner id world (world.enter other home) := by
  have computing : Saves owner id world (world.modifyComputed other ({ · with computing := true })) :=
    .modifyComputed world other fun _ _ => ⟨rfl, rfl⟩
  exact ((computing.trans (.unsubscribe _ home other)).trans (.record _ _)).trans
    (.modifyReactor _ home fun _ => rfl)

theorem Saves.engage (world : World κ ν σ) (other : NodeId) (home : ReactorId) :
    Saves owner id world (world.engage other home) := by
  have executing : Saves owner id world (world.modifyEffect other ({ · with executing := true })) :=
    .modifyEffect world other _
  exact (executing.trans (.unsubscribe _ home other)).trans (.modifyEffect _ other _)

theorem Saves.countRun (world : World κ ν σ) (other : NodeId) :
    Saves owner id world (world.countRun other) :=
  .modifyEffect world other _

theorem Saves.endRun (world : World κ ν σ) (other : NodeId) :
    Saves owner id world (world.endRun other) :=
  .modifyEffect world other _

/-- An evaluation of another computed ends. -/
theorem Saves.afterEvaluation [BEq ν] (inner : World κ ν σ) (apart : other ≠ id)
    (computed : Computed κ ν) (result : Except Panic ν) :
    Saves owner id inner (inner.afterEvaluation other computed result).2 := by
  have left : ∀ panicked, Saves owner id inner (inner.leave other computed.reactor panicked) :=
    fun panicked => (Saves.leaveBody inner other computed.reactor panicked).trans
      (.modifyComputed _ other fun _ _ => ⟨rfl, rfl⟩)
  cases result with
  | error panic =>
    exact (left true).trans (.modifyNode _ _ other fun _ => ⟨rfl, fun same => absurd same apart⟩)
  | ok value =>
    refine (left false).trans ?_
    show Saves owner id _ (World.settleValue _ other computed value)
    unfold settleValue
    extract_lets same
    split
    next => exact .modifyNode _ _ other fun _ => ⟨rfl, fun same => absurd same apart⟩
    next =>
      have kept : Saves owner id (inner.leave other computed.reactor false)
          ((inner.leave other computed.reactor false).modifyComputed other
            ({ · with value := some value })) :=
        .modifyComputed _ other fun same => absurd same apart
      refine (kept.trans (.modifyNode _ computed.reactor other ?_)).trans (.record _ _)
      exact fun _ => ⟨rfl, fun same => absurd same apart⟩

/-- A pass of another reactor begins. -/
theorem Saves.enterPass (world : World κ ν σ) {home : ReactorId} (apart : home ≠ owner)
    (sources : List NodeId) : Saves owner id world (world.enterPass home sources) := by
  have told : Saves owner id world (world.record (.passStarted home sources)) := .record world _
  have planned : Saves owner id (world.record (.passStarted home sources))
      ((world.record (.passStarted home sources)).planPass home sources).2 := by
    refine .of_cells rfl ?_
    rw [graph_planPass, if_neg (Ne.symm apart)]
    exact .refl _
  have held : ∀ (visits : List Visit) (world : World κ ν σ), Saves owner id world
      (visits.foldl (fun world entry => world.hold (.node entry.wakeup.effect)) world) := by
    intro visits
    induction visits with
    | nil => exact fun world => .refl world
    | cons entry rest ih => exact fun world => (Saves.hold world _).trans (ih _)
  exact (told.trans planned).trans (held _ _)

end World

section

variable [BEq ν] {program : Program κ ν σ} {world after : World κ ν σ}
  {owner : ReactorId} {id : NodeId} {value : ν}

/-- A computed that is up to date is not evaluated. -/
theorem World.Kept.refresh (kept : world.Kept owner id value) (depth : Nat) :
    activate program (depth + 1) (.refresh id) world = some (.ok (), world) := by
  obtain ⟨computed, found, rfl, _⟩ := kept.holds
  show refreshComputed program (activate program depth) id world = _
  unfold refreshComputed
  rw [Run.world_bind, found]
  dsimp only
  cases live : (world.graph computed.reactor).node? id with
  | none => rfl
  | some node =>
    rw [Option.map_some, kept.clean node live]
    rfl

open World in
/-- All along a run within a batch a computed that is up to date is kept as it is. -/
theorem Trail.kept {phase : Phase} (trail : Trail program phase world after)
    (steady : phase ≠ .flat (.updating id)) (quiet : ∀ sources, phase ≠ .pass owner sources)
    (batched : 0 < world.depth owner) (kept : world.Kept owner id value) :
    after.Kept owner id value := by
  -- Frames and chains do not count, and what runs in between gives batches back as they were.
  have beside : ∀ (world : World κ ν σ) (home : ReactorId) {change : Reactor → Reactor},
      (∀ state, (change state).depth = state.depth) → 0 < world.depth owner →
        0 < (world.modifyReactor home change).depth owner := by
    intro world home change same batched
    rwa [depth_modifyReactor world home same owner]
  have onward : ∀ {phase : Phase} {world after : World κ ν σ},
      Trail program phase world after → 0 < world.depth owner → 0 < after.depth owner := by
    intro phase world after trail batched
    rwa [depth_congr (trail.opened owner)]
  induction trail with
  | refl => exact kept
  | trans start finish ih ih' =>
    exact ih' steady quiet (onward start batched) (ih steady quiet batched kept)
  | serve _ ih => exact ih nofun nofun batched kept
  | change change => exact kept.save change.saves
  | read => exact kept.save (.noteRead _ _ _)
  | untracked home inside ih =>
    exact (ih nofun nofun (beside _ _ (fun _ => rfl) batched) (kept.save (.pushFrame _ home _))).save
      (.popFrame _ home)
  | cleanup found inside ih =>
    exact (ih nofun nofun (beside _ _ (fun _ => rfl) batched) (kept.save (.pushFrame _ _ _))).save
      (.popFrame _ _)
  | @batch world inner home inside _ ih =>
    have deeper := Nat.lt_of_lt_of_le batched (world.depth_openBatch home owner).1
    exact (ih nofun nofun deeper (kept.save (.openBatch world home))).save (.closeBatch inner home)
  | @flush world inner after home inside due pass ih ih' =>
    have deeper := Nat.lt_of_lt_of_le batched (world.depth_openBatch home owner).1
    have ran := ih nofun nofun deeper (kept.save (.openBatch world home))
    -- A batch of the reactor within its batch has nothing to notify of.
    have apart : home ≠ owner := by
      rintro rfl
      have deep := deeper_inBatch (depth_congr (inside.opened home)) batched
      rw [closeBatch_fst, if_neg (Nat.not_le_of_lt deep)] at due
      exact due rfl
    refine ih' nofun (fun sources same => apart (by cases same; rfl)) ?_
      (ran.save (.closeBatch inner home))
    have closed : (inner.closeBatch home).2.depth owner = inner.depth owner := by
      rw [closeBatch_snd]
      unfold depth World.opened
      rw [reactor?_modifyReactor, if_neg (Ne.symm apart)]
    rw [closed]
    exact onward inside deeper
  | @store world other signal new after found _ unbatched pass ih =>
    have apart : signal.reactor ≠ owner := fun same => by
      rw [← same, unbatched.depth] at batched
      exact Nat.lt_irrefl 0 batched
    refine ih nofun (fun sources same => apart (by cases same; rfl)) ?_ (kept.save (.put _ _ _ _))
    rwa [depth_congr (opened_put _ _ _ _ _)]
  | @refresh world other depth result after ran inside ih =>
    by_cases same : other = id
    · subst same
      cases depth with
      | zero => cases ran
      | succ depth =>
        cases (kept.refresh depth).symm.trans ran
        exact kept
    · exact ih (fun equal => same (by cases equal; rfl)) nofun batched kept
  | @execute world id after _ ih =>
    exact ih nofun nofun batched (kept.save (.record world _))
  | @born world after home body _ ih =>
    have made : Saves owner id world
        (world.addCell (.effect ⟨home, body, false, none, true, false, 0, 2⟩) .effect).2 :=
      .addCell world (.effect ⟨home, body, false, none, true, false, 0, 2⟩)
    refine ih nofun nofun ?_ (kept.save made)
    rwa [depth_congr (opened_addCell _ _ _ _)]
  | @confirm world other computed found =>
    have apart : other ≠ id := fun same => steady (by rw [same])
    refine kept.save (.modifyNode world _ other ?_)
    exact fun _ => ⟨rfl, fun same => absurd same apart⟩
  | @evaluate world other computed present inner found home idle inside result ih =>
    have apart : other ≠ id := fun same => steady (by rw [same])
    refine (ih nofun nofun ?_ (kept.save (.enter world other computed.reactor))).save
      (.afterEvaluation inner apart computed result)
    have entered : 0 < (((world.modifyComputed other ({ · with computing := true })).mapGraph
        computed.reactor (·.unsubscribe other)).record (.started other)).depth owner := by
      rwa [depth_congr ((opened_record _ _ _).trans (opened_mapGraph _ _ _ _))]
    exact beside _ _ (fun _ => rfl) entered
  | decline => exact kept
  | @run world other effect middle inner last after panicked found _ _ _ cleaned inside settled released
      cleans runs settles releases =>
    have held : Saves owner id world (world.hold (.reactor effect.reactor)) := .hold world _
    have engaged : 0 < ((world.hold (.reactor effect.reactor)).engage other
        effect.reactor).depth owner := by
      rwa [depth_congr ((opened_engage _ _ _ _).trans (opened_hold _ _ _))]
    have entered : 0 < (middle.enterBody other effect.reactor).depth owner :=
      beside (middle.record (.started other)) _ (fun _ => rfl)
        (onward cleaned engaged : 0 < middle.depth owner)
    have left : 0 < ((inner.leaveBody other effect.reactor panicked).countRun other).depth owner :=
      beside inner effect.reactor (fun _ => rfl) (onward inside entered)
    have begun := cleans nofun nofun engaged (kept.save (held.trans (.engage _ other effect.reactor)))
    have ran := runs nofun nofun entered (begun.save (.enterBody middle other effect.reactor))
    have counted := (ran.save (.leaveBody inner other effect.reactor panicked)).save
      (.countRun _ other)
    have finished := settles nofun nofun left counted
    have stopped : 0 < last.depth owner := onward settled left
    exact releases nofun nofun stopped (finished.save (.endRun last other))
  | skip => exact kept
  | again =>
    exact kept.save (.mapGraph _ _ rfl fun _ => .resubscribe _ _)
  | spare _ _ _ _ ih => exact ih nofun nofun batched kept
  | @wake world home entry effect middle after _ _ _ asked run ih ih' =>
    have pushed : Saves owner id middle
        (middle.modifyReactor home (·.pushChain entry.wakeup.causes)) :=
      .modifyReactor middle home fun _ => rfl
    have popped : Saves owner id after (after.modifyReactor home Reactor.popChain) :=
      .modifyReactor after home fun _ => rfl
    have ran := ih' nofun nofun (beside _ _ (fun _ => rfl) (onward asked batched))
      ((ih nofun nofun batched kept).save pushed)
    exact ran.save popped
  | done => exact kept
  | next visit drop others ih ih' ih'' =>
    have visited := onward visit batched
    exact ih'' nofun nofun (onward drop visited) (ih' nofun nofun visited (ih nofun nofun batched kept))
  | @pass world home sources after visits ih =>
    have apart : home ≠ owner := fun same => quiet sources (by rw [same])
    have entered := ih nofun nofun (by rwa [depth_congr (opened_enterPass _ _ _ _)])
      (kept.save (.enterPass world apart sources))
    exact entered.save (.record _ _)

/-- A read of the computed gives this value, at every depth of nesting. -/
def World.Gives (program : Program κ ν σ) (id : NodeId) (value : ν) (world : World κ ν σ) : Prop :=
  ∀ depth tracked, ∃ left,
    readNode (activate program (depth + 1)) id tracked world = some (.ok value, left)

/-- A read of a computed that is up to date gives the value that it holds. -/
theorem World.Kept.gives (kept : world.Kept owner id value) : world.Gives program id value := by
  intro depth tracked
  obtain ⟨computed, found, _⟩ := kept.holds
  have read : ∀ world : World κ ν σ, world.Kept owner id value →
      readComputed (activate program (depth + 1)) id world = some (.ok value, world) := by
    intro world kept
    obtain ⟨computed, found, _, held⟩ := kept.holds
    unfold readComputed
    rw [Run.bind_of_ok (kept.refresh depth), Run.world_bind, found, Option.bind_some, held]
    rfl
  unfold readNode
  rw [Run.world_bind, World.computed?_eq_some_iff.mp found]
  dsimp only
  cases tracked with
  | false => exact ⟨world, read world kept⟩
  | true => exact ⟨_, read _ (kept.save (.noteRead world computed.reactor id))⟩

omit [BEq ν] in
/-- What is marked clean is clean. -/
theorem World.clean_modify (world : World κ ν σ) (home : ReactorId) (id : NodeId)
    {change : Node → Node} (marks : ∀ node, (change node).id = node.id ∧
      (change node).freshness = .clean) (node : Node)
    (live : ((world.mapGraph home (·.modify id change)).graph home).node? id = some node) :
    node.freshness = .clean := by
  rw [World.graph_mapGraph world home rfl, if_pos rfl,
    Graph.node?_modify _ fun node => (marks node).1, if_pos rfl] at live
  obtain ⟨old, _, rfl⟩ := Option.map_eq_some_iff.mp live
  exact (marks old).2

/-- Whatever gives a computed its value marks it clean. -/
theorem evaluate_clean (engine : Engine κ ν σ) (id : NodeId) (computed : Computed κ ν)
    (world : World κ ν σ) : (evaluate program engine id computed).Ends world fun result after =>
      result = .ok () → ∀ node, (after.graph computed.reactor).node? id = some node →
        node.freshness = .clean := by
  rintro _ after ran rfl
  cases busy : (world.computed? id).any Computed.computing with
  | true =>
    unfold evaluate at ran
    rw [Run.world_bind, busy] at ran
    cases ran
  | false =>
    cases inside : (program.compute computed.body).run engine (world.enter id computed.reactor) with
    | none =>
      rw [evaluate_of_none busy inside] at ran
      cases ran
    | some outcome =>
      obtain ⟨given, inner⟩ := outcome
      rw [evaluate_of busy inside] at ran
      cases given with
      | error => cases ran
      | ok value =>
        cases ran
        rcases World.settleValue_eq_or (inner.leave id computed.reactor false) id computed value with
          same | different
        · show ∀ node, ((World.settleValue _ id computed value).graph computed.reactor).node? id = _ → _
          rw [same]
          exact World.clean_modify _ _ id fun _ => ⟨rfl, rfl⟩
        · show ∀ node, ((World.settleValue _ id computed value).graph computed.reactor).node? id = _ → _
          rw [different]
          exact World.clean_modify _ _ id fun _ => ⟨rfl, rfl⟩

theorem checkInputs_clean (engine : Engine κ ν σ) (id : NodeId) (computed : Computed κ ν)
    (inputs : List (NodeId × Nat)) (world : World κ ν σ) :
    (checkInputs program engine id computed inputs).Ends world fun result after =>
      result = .ok () → ∀ node, (after.graph computed.reactor).node? id = some node →
        node.freshness = .clean := by
  induction inputs generalizing world with
  | nil =>
    rintro _ _ ⟨⟩ _
    exact World.clean_modify _ _ id fun _ => ⟨rfl, rfl⟩
  | cons entry rest ih =>
    have asked : (engine (.refresh entry.1)).Ends world fun _ _ => True := fun _ _ _ => trivial
    refine asked.bind (fun _ after _ => .of_world ?_) nofun
    split
    next => exact evaluate_clean engine id computed after
    next => exact ih after

/-- A computed that was brought up to date is up to date. -/
theorem refresh_clean (depth : Nat) {computed : Computed κ ν}
    (found : world.computed? id = some computed) :
    (activate program depth (.refresh id)).Ends world fun result after => result = .ok () →
      ∀ node, (after.graph computed.reactor).node? id = some node → node.freshness = .clean := by
  cases depth with
  | zero => exact nofun
  | succ depth =>
    have traced : Traced program depth :=
      activate_traced program depth
    have found' : (world.hold (.node id)).computed? id =
        some { computed with holders := computed.holders + 1 } := by
      rw [World.computed?_eq_some_iff]
      refine (World.cell?_modifyCell world id id _).trans ?_
      rw [if_pos rfl, World.computed?_eq_some_iff.mp found]
      rfl
    -- The handle that is held meanwhile may be the last one.
    have held : ∀ body : Run κ ν σ Unit,
        (body.Ends (world.hold (.node id)) fun _ inner => ∃ present,
          inner.computed? id = some present) →
        (body.Ends (world.hold (.node id)) fun result inner => result = .ok () →
          ∀ node, (inner.graph computed.reactor).node? id = some node → node.freshness = .clean) →
        (Run.holding (.node id) body).Ends world fun result after => result = .ok () →
          ∀ node, (after.graph computed.reactor).node? id = some node → node.freshness = .clean := by
      rintro body present clean _ after ran rfl node live
      obtain ⟨given, inner, _, inside, dropped, same⟩ := Run.of_thenAlways ran
      cases dropped
      obtain ⟨_, known⟩ := present given inner inside
      have drops : World.Saves computed.reactor id inner (inner.drop (.node id)) := .drop inner _
      obtain ⟨old, was, stays⟩ := drops.clean (by rw [known]; rfl) node live
      exact stays (clean given inner inside (same rfl).symm old was)
    refine .of_world ?_
    rw [found]
    dsimp only
    split
    next gone =>
      rintro _ _ ⟨⟩ _ node live
      rw [live] at gone
      cases gone
    next clean =>
      rintro _ _ ⟨⟩ _ node live
      rw [live] at clean
      exact Option.some.inj clean
    next =>
      refine held _ (fun _ inner ran => ?_) (evaluate_clean _ id computed _)
      obtain ⟨present, known, _⟩ := (evaluate_updates traced found' rfl
        _ inner ran).leads.computed found'
      exact ⟨present, known⟩
    next =>
      refine held _ (fun _ inner ran => ?_) (checkInputs_clean _ id computed _ _)
      have checked : Trail program (.flat (.updating id)) (world.hold (.node id)) inner :=
        checkInputs_updates traced _ found' (by rfl) _ _ ran
      obtain ⟨present, known, _⟩ := checked.leads.computed found'
      exact ⟨present, known⟩

/-- What a read of a computed gives while a batch is open is what the computed then holds. -/
theorem readNode_kept {depth : Nat} {tracked : Bool} {computed : Computed κ ν}
    (found : world.computed? id = some computed) :
    (readNode (activate program depth) id tracked).Ends world fun result left =>
      result = .ok value → left.Kept computed.reactor id value := by
  have traced : Traced program depth :=
    activate_traced program depth
  have read : ∀ {world : World κ ν σ}, world.computed? id = some computed →
      (readComputed (activate program depth) id).Ends world fun result left =>
        result = .ok value → left.Kept computed.reactor id value := by
    intro world found
    have refreshed : (activate program depth (.refresh id)).Ends world fun result after =>
        (∃ present, after.computed? id = some present ∧ present.reactor = computed.reactor) ∧
          (result = .ok () → ∀ node, (after.graph computed.reactor).node? id = some node →
            node.freshness = .clean) := fun result after ran =>
      ⟨(traced.refresh id world result after ran).leads.computed found,
        refresh_clean depth found result after ran⟩
    refine refreshed.bind (fun _ after fresh => .of_world ?_) nofun
    obtain ⟨⟨present, known, home⟩, clean⟩ := fresh
    rw [known, Option.bind_some]
    split
    next kept holds =>
      rintro _ _ ⟨⟩ same
      cases same
      exact ⟨⟨present, known, home, holds⟩, clean rfl⟩
    next =>
      rintro _ _ ⟨⟩
      exact nofun
  refine .of_world ?_
  rw [World.computed?_eq_some_iff.mp found]
  dsimp only
  cases tracked with
  | false => exact read found
  | true =>
    refine .of_modify (read ?_)
    rw [World.computed?_eq_some_iff, World.cell?_noteRead]
    exact World.computed?_eq_some_iff.mp found

/-- In an open batch every act keeps what is up to date. -/
theorem Program.run_kept (batched : 0 < world.depth owner) (kept : world.Kept owner id value)
    (depth : Nat) (act : Act κ ν σ α) :
    (program.run depth act).Ends world fun _ after => after.Kept owner id value :=
  fun result after ran =>
    (program.run_traces depth act world result after ran).kept nofun nofun batched kept

/-- A computed that is up to date when a batch opens is read with the value that it then holds as long
as the batch is open, whatever is written and read in between. Any other computed is read with the same
value from the first read in the batch on. -/
theorem frozen_in_batch (program : Program κ ν σ) (owner : ReactorId) (id : NodeId) (value : ν) :
    (∀ world : World κ ν σ, (world.reactor? owner).isSome → world.Kept owner id value →
      ∀ (α : Type) (act : Act κ ν σ α) depth, (program.run depth act).Ends
        (world.modifyReactor owner Reactor.openBatch) fun _ inner => inner.Gives program id value) ∧
    ∀ (world : World κ ν σ) computed depth tracked, 0 < world.depth owner →
      world.computed? id = some computed → computed.reactor = owner →
      (readNode (activate program depth) id tracked).Ends world fun result first =>
        result = .ok value → ∀ (α : Type) (act : Act κ ν σ α) depth,
          (program.run depth act).Ends first fun _ inner => inner.Gives program id value := by
  refine ⟨fun world known kept α act depth => ?_, fun world computed depth tracked batched found home =>
    fun result first ran read α act depth' => ?_⟩
  · have batched : 0 < (world.modifyReactor owner Reactor.openBatch).depth owner := by
      rw [(world.depth_openBatch owner owner).2 known rfl]
      exact Nat.succ_pos _
    have opened : (world.modifyReactor owner Reactor.openBatch).Kept owner id value :=
      kept.save (.openBatch world owner)
    exact (Program.run_kept batched opened depth act).mono fun _ _ kept => kept.gives
  · subst home
    have kept := readNode_kept found result first ran read
    have traced : Traced program depth :=
      activate_traced program depth
    have reads : Trail program (.flat .acting) world first := by
      cases tracked with
      | true => exact readNode_traces traced id world result first ran
      | false => exact .serve (peek_traces traced id world result first ran)
    have batched' : 0 < first.depth computed.reactor := by
      rwa [World.depth_congr (reads.opened _)]
    exact (Program.run_kept batched' kept depth' act).mono fun _ _ kept => kept.gives

end

/-- A computed that has the value of a signal. -/
def Program.echoing : Program Unit Nat Unit where
  compute _ := .call (.get ⟨0⟩)
  effect _ := .pure (.ok none)
  cleanup _ := .pure ()
  callback _ _ := .pure ()
  render _ := .pure none
  handler _ := .pure ()

/-- Make the signal and the computed. -/
def Act.echoing : Act Unit Nat Unit Unit :=
  .bind (.call (.newReactor {})) fun _ => .bind (.call (.newSignal ⟨0⟩ 1)) fun _ =>
    .bind (.call (.newComputed ⟨0⟩ ())) fun _ => .pure ()

/-- A computed that is up to date is read with its old value after the signal was written. -/
theorem frozen_in_batch_echoing : ∃ world inner,
    Program.echoing.run 3 Act.echoing (World.initial ()) = some (.ok (), world) ∧
      (world.reactor? ⟨0⟩).isSome ∧ world.Kept ⟨0⟩ ⟨1⟩ 1 ∧
      Program.echoing.run 3 (.call (.set ⟨0⟩ 3)) (world.modifyReactor ⟨0⟩ Reactor.openBatch) =
        some (.ok (), inner) ∧
      (inner.signal? ⟨0⟩).map Signal.value = some 3 ∧ inner.Gives Program.echoing ⟨1⟩ 1 := by
  have made : ((Program.echoing.run 3 Act.echoing (World.initial ())).bind fun reached =>
      (reached.2.computed? ⟨1⟩).bind fun computed =>
        (Program.echoing.run 3 (.call (.set ⟨0⟩ 3))
          (reached.2.modifyReactor ⟨0⟩ Reactor.openBatch)).map fun left =>
            decide (reached.1 = .ok () ∧ (reached.2.reactor? ⟨0⟩).isSome ∧
              computed.reactor = ⟨0⟩ ∧ computed.value = some 1 ∧
              (∀ node ∈ (reached.2.graph ⟨0⟩).node? ⟨1⟩, node.freshness = .clean) ∧
              left.1 = .ok () ∧ (left.2.signal? ⟨0⟩).map Signal.value = some 3)) = some true := by
    decide +kernel
  obtain ⟨⟨result, world⟩, ran, made⟩ := Option.bind_eq_some_iff.mp made
  obtain ⟨computed, found, made⟩ := Option.bind_eq_some_iff.mp made
  obtain ⟨⟨result', inner⟩, wrote, made⟩ := Option.map_eq_some_iff.mp made
  obtain ⟨rfl, known, home, held, clean, rfl, stored⟩ := of_decide_eq_true made
  have kept : world.Kept ⟨0⟩ ⟨1⟩ 1 := ⟨⟨computed, found, home, held⟩, clean⟩
  exact ⟨world, inner, ran, known, kept, wrote, stored,
    (frozen_in_batch Program.echoing ⟨0⟩ ⟨1⟩ 1).1 world known kept Unit _ 3 _ inner wrote⟩

/-- A computed that is out of date when a batch opens is not frozen: a read would give two when the
batch opens, and gives three after the signal was written. -/
theorem thawed_in_batch : ∃ world,
    (∃ made, Program.echoing.run 3 Act.echoing (World.initial ()) = some (.ok (), made) ∧
      Program.echoing.run 3 (.call (.set ⟨0⟩ 2)) made = some (.ok (), world)) ∧
    (∃ left, Program.echoing.run 3 (.call (.get ⟨1⟩))
      (world.modifyReactor ⟨0⟩ Reactor.openBatch) = some (.ok 2, left)) ∧
    ∃ after, Program.echoing.run 3
      (.within (.batch ⟨0⟩) (.bind (.call (.set ⟨0⟩ 3)) fun _ => .call (.get ⟨1⟩))) world =
        some (.ok (3 : Nat), after) := by
  have made : ((Program.echoing.run 3 Act.echoing (World.initial ())).bind fun made =>
      (Program.echoing.run 3 (.call (.set ⟨0⟩ 2)) made.2).bind fun reached =>
        (Program.echoing.run 3 (.call (.get ⟨1⟩))
          (reached.2.modifyReactor ⟨0⟩ Reactor.openBatch)).bind fun left =>
            (Program.echoing.run 3 (.within (.batch ⟨0⟩) (.bind (.call (.set ⟨0⟩ 3)) fun _ =>
              .call (.get ⟨1⟩))) reached.2).map fun after =>
                decide (made.1 = .ok () ∧ reached.1 = .ok () ∧ left.1 = .ok 2 ∧
                  after.1 = .ok (3 : Nat))) = some true := by
    decide +kernel
  obtain ⟨⟨_, made⟩, ran, outcome⟩ := Option.bind_eq_some_iff.mp made
  obtain ⟨⟨_, world⟩, wrote, outcome⟩ := Option.bind_eq_some_iff.mp outcome
  obtain ⟨⟨_, left⟩, read, outcome⟩ := Option.bind_eq_some_iff.mp outcome
  obtain ⟨⟨_, after⟩, batched, outcome⟩ := Option.map_eq_some_iff.mp outcome
  obtain ⟨rfl, rfl, rfl, rfl⟩ := of_decide_eq_true outcome
  exact ⟨world, ⟨made, ran, wrote⟩, ⟨left, read⟩, after, batched⟩

end ReactiveTree
