import ReactiveTree.Proofs.Graph.Retaining
import ReactiveTree.Proofs.Reactive.Abiding

/-! # A node whose closure runs keeps its record

While the closure of a node runs, nobody else runs it, so nobody makes the node forget what it has
read. `Attends` says of a step that it leaves the record of a node alone, as far as nodes last up to
some later world. Every change of a world in which no closure takes part does so, unless it takes the
node itself out of its graph.
-/

namespace ReactiveTree

variable {κ ν σ : Type}

namespace Cell

/-- Whether the closure of the cell is running. -/
def isEngaged : Cell κ ν → Bool
  | .signal _ => false
  | .computed state => state.computing
  | .effect state => state.executing

/-- Whether the cell is that of a stopped effect. -/
def isStopped : Cell κ ν → Bool
  | .effect state => !state.active
  | _ => false

@[simp] theorem isEngaged_withHolders (cell : Cell κ ν) (holders : Nat) :
    (cell.withHolders holders).isEngaged = cell.isEngaged := by
  cases cell <;> rfl

@[simp] theorem isStopped_withHolders (cell : Cell κ ν) (holders : Nat) :
    (cell.withHolders holders).isStopped = cell.isStopped := by
  cases cell <;> rfl

end Cell

namespace World

variable {world middle after final : World κ ν σ} {owner : ReactorId} {id : NodeId} {cell : Cell κ ν}

/-- Cells stay in their places, and what has left a graph does not come back. -/
structure Precedes (world after : World κ ν σ) : Prop where
  cell : ∀ id cell, world.cell? id = some cell →
    ∃ cell', after.cell? id = some cell' ∧ cell'.place = cell.place
  live : ∀ owner id, (world.cell? id).isSome → (after.graph owner).contains id = true →
    (world.graph owner).contains id = true

theorem Leads.precedes (leads : world.Leads after) : world.Precedes after :=
  ⟨fun _ _ found => leads.cell found, fun _ _ known live => leads.live known live⟩

theorem Precedes.trans (start : world.Precedes middle) (finish : middle.Precedes after) :
    world.Precedes after where
  cell id cell found := by
    obtain ⟨between, found', place⟩ := start.cell id cell found
    obtain ⟨cell', found'', place'⟩ := finish.cell id between found'
    exact ⟨cell', found'', place'.trans place⟩
  live owner id known live := by
    obtain ⟨cell, found⟩ := Option.isSome_iff_exists.mp known
    obtain ⟨between, found', _⟩ := start.cell id cell found
    exact start.live owner id known (finish.live owner id (by rw [found']; rfl) live)

/-- A change of what a reactor keeps besides its graph. -/
theorem Precedes.modifyReactor (world : World κ ν σ) (home : ReactorId) {change : Reactor → Reactor}
    (kept : ∀ state, (change state).graph = state.graph) :
    world.Precedes (world.modifyReactor home change) := by
  refine ⟨fun _ cell found => ⟨cell, found, rfl⟩, fun owner id _ live => ?_⟩
  rwa [graph_modifyReactor world home fun state _ => kept state] at live

/-- A node that is live in a reactor. -/
def lasting (final : World κ ν σ) (owner : ReactorId) (id : NodeId) : Bool :=
  (final.graph owner).contains id

/-- What a node has read, as far as it lasts. -/
def onRecord (world final : World κ ν σ) (owner : ReactorId) (id : NodeId) : List NodeId :=
  ((world.graph owner).dependenciesOf id).filter (final.lasting owner)

/-- The closure of a node runs. -/
def Engaged (world : World κ ν σ) (id : NodeId) : Prop :=
  ∃ cell, world.cell? id = some cell ∧ cell.isEngaged = true

/-- An effect runs that nobody has stopped. -/
structure AtWork (world : World κ ν σ) (owner : ReactorId) (id : NodeId) : Prop where
  running : ∃ effect, world.cell? id = some (.effect effect) ∧ effect.executing = true ∧
    effect.active = true
  alive : world.isAlive owner = true
  kind : (world.graph owner).kind? id = some .effect

/-- Every lasting node that a node has read is that of a cell. -/
def Familiar (world final : World κ ν σ) (owner : ReactorId) (id : NodeId) : Prop :=
  ∀ read ∈ (world.graph owner).dependenciesOf id, final.lasting owner read = true →
    (world.cell? read).isSome

/-- Every lasting node that a node has read lists it. -/
def Heeded (world final : World κ ν σ) (owner : ReactorId) (id : NodeId) : Prop :=
  (world.graph owner).Heeds (final.lasting owner) id

/-- A node stays what it is and goes on as it was. -/
structure Stays (owner : ReactorId) (id : NodeId) (world after : World κ ν σ) : Prop where
  cell : ∀ cell, world.cell? id = some cell → ∃ cell', after.cell? id = some cell' ∧
    cell'.place = cell.place ∧ cell'.isEngaged = cell.isEngaged ∧
      (world.isAlive owner = true → cell'.isStopped = cell.isStopped)
  alive : world.isAlive owner = true → after.isAlive owner = true
  kind : (after.graph owner).kind? id = (world.graph owner).kind? id

/-- A step that leaves the record of a node alone. -/
structure Attends (final : World κ ν σ) (owner : ReactorId) (id : NodeId)
    (world after : World κ ν σ) : Prop extends Stays owner id world after where
  known : ∀ other, (world.cell? other).isSome → (after.cell? other).isSome
  retains : Graph.Retains (final.lasting owner) (fun read => (world.cell? read).isSome) id
    (world.graph owner) (after.graph owner)

theorem Stays.refl (world : World κ ν σ) : Stays owner id world world :=
  ⟨fun cell found => ⟨cell, found, rfl, rfl, fun _ => rfl⟩, fun living => living, rfl⟩

theorem Stays.trans (start : Stays owner id world middle) (finish : Stays owner id middle after) :
    Stays owner id world after where
  cell cell found := by
    obtain ⟨between, found', place, engaged, stopped⟩ := start.cell cell found
    obtain ⟨cell', found'', place', engaged', stopped'⟩ := finish.cell between found'
    exact ⟨cell', found'', place'.trans place, engaged'.trans engaged,
      fun living => (stopped' (start.alive living)).trans (stopped living)⟩
  alive living := finish.alive (start.alive living)
  kind := finish.kind.trans start.kind

theorem Stays.engaged (stays : Stays owner id world after) (engaged : world.Engaged id) :
    after.Engaged id := by
  obtain ⟨cell, found, busy⟩ := engaged
  obtain ⟨cell', found', _, same, _⟩ := stays.cell cell found
  exact ⟨cell', found', same.trans busy⟩

theorem Stays.atWork (stays : Stays owner id world after) (atWork : world.AtWork owner id) :
    after.AtWork owner id := by
  refine ⟨?_, stays.alive atWork.alive, stays.kind.trans atWork.kind⟩
  obtain ⟨effect, found, executing, active⟩ := atWork.running
  obtain ⟨cell', found', place, engaged, stopped⟩ := stays.cell _ found
  cases cell' with
  | effect effect' =>
    have same : (!effect'.active) = !effect.active := stopped atWork.alive
    exact ⟨effect', found', engaged.trans executing, by rwa [Bool.not_inj same]⟩
  | signal => cases congrArg Prod.snd place
  | computed => cases congrArg Prod.snd place

theorem Attends.refl (world : World κ ν σ) : Attends final owner id world world :=
  ⟨.refl world, fun _ known => known, .refl _⟩

theorem Attends.trans (start : Attends final owner id world middle)
    (finish : Attends final owner id middle after) : Attends final owner id world after where
  toStays := start.toStays.trans finish.toStays
  known other known := finish.known other (start.known other known)
  retains := by
    refine start.retains.trans ⟨finish.retains.kind, finish.retains.reads, ?_⟩
    exact fun read lasts known => finish.retains.listed read lasts (start.known read known)

theorem Attends.onRecord (attends : Attends final owner id world after) :
    after.onRecord final owner id = world.onRecord final owner id :=
  attends.retains.reads

theorem Familiar.of_onRecord (familiar : world.Familiar final owner id)
    (known : ∀ other, (world.cell? other).isSome → (after.cell? other).isSome)
    (same : after.onRecord final owner id = world.onRecord final owner id) :
    after.Familiar final owner id := by
  intro read member lasts
  have recorded : read ∈ after.onRecord final owner id := List.mem_filter.mpr ⟨member, lasts⟩
  rw [same] at recorded
  exact known read (familiar read (List.mem_filter.mp recorded).1 lasts)

theorem Attends.heeded (attends : Attends final owner id world after)
    (familiar : world.Familiar final owner id) (heeded : world.Heeded final owner id) :
    after.Heeded final owner id :=
  Graph.Heeds.retain heeded attends.retains familiar

theorem Stays.of_cells (cells : after.cells = world.cells)
    (alive : world.isAlive owner = true → after.isAlive owner = true)
    (kind : (after.graph owner).kind? id = (world.graph owner).kind? id) :
    Stays owner id world after := by
  refine ⟨fun cell found => ⟨cell, ?_, rfl, rfl, fun _ => rfl⟩, alive, kind⟩
  unfold cell? at found ⊢
  rwa [cells]

/-- A step that leaves cells alone. -/
theorem Attends.of_cells (cells : after.cells = world.cells)
    (alive : world.isAlive owner = true → after.isAlive owner = true)
    (retains : Graph.Retains (final.lasting owner) (fun read => (world.cell? read).isSome) id
      (world.graph owner) (after.graph owner)) : Attends final owner id world after := by
  refine ⟨.of_cells cells alive retains.kind, fun other known => ?_, retains⟩
  unfold cell? at known ⊢
  rwa [cells]

theorem Attends.of_alike (cells : after.cells = world.cells)
    (reactors : after.reactors = world.reactors) : Attends final owner id world after := by
  refine .of_cells cells (fun living => ?_) ?_
  · unfold isAlive reactor? at living ⊢
    rwa [reactors]
  · rw [graph_of_reactors reactors]
    exact .refl _

theorem Attends.record (world : World κ ν σ) (event : Event κ ν) :
    Attends final owner id world (world.record event) :=
  .of_alike rfl rfl

/-- A change of what a reactor keeps besides its graph, which leaves it alive. -/
theorem Attends.modifyReactor (world : World κ ν σ) (home : ReactorId) {change : Reactor → Reactor}
    (kept : ∀ state, (change state).graph = state.graph ∧
      (state.isAlive = true → (change state).isAlive = true)) :
    Attends final owner id world (world.modifyReactor home change) := by
  refine .of_cells rfl (isAlive_modifyReactor fun state _ => (kept state).2) ?_
  rw [graph_modifyReactor world home fun state _ => (kept state).1]
  exact .refl _

theorem Attends.pushFrame (world : World κ ν σ) (home : ReactorId) (frame : Frame) :
    Attends final owner id world (world.modifyReactor home (·.pushFrame frame)) :=
  .modifyReactor world home fun _ => ⟨rfl, fun living => living⟩

theorem Attends.popFrame (world : World κ ν σ) (home : ReactorId) :
    Attends final owner id world (world.modifyReactor home Reactor.popFrame) :=
  .modifyReactor world home fun _ => ⟨rfl, fun living => living⟩

theorem Attends.openBatch (world : World κ ν σ) (home : ReactorId) :
    Attends final owner id world (world.modifyReactor home Reactor.openBatch) :=
  .modifyReactor world home fun _ => ⟨rfl, fun living => living⟩

theorem Attends.closeBatch (world : World κ ν σ) (home : ReactorId) :
    Attends final owner id world (world.closeBatch home).2 := by
  rw [closeBatch_snd]
  refine .modifyReactor world home fun state => ?_
  obtain ⟨graph, _, holders⟩ := state.closeBatch_kept
  refine ⟨graph, fun living => ?_⟩
  unfold Reactor.isAlive at living ⊢
  rwa [holders]

/-- A change of the graph of some reactor. -/
theorem Attends.mapGraph (world : World κ ν σ) (home : ReactorId) {change : Graph → Graph}
    (bare : change .empty = .empty) (retains : home = owner → Graph.Retains (final.lasting owner)
      (fun read => (world.cell? read).isSome) id (world.graph owner) (change (world.graph owner))) :
    Attends final owner id world (world.mapGraph home change) := by
  refine .of_cells rfl isAlive_mapGraph ?_
  rw [graph_mapGraph world home bare]
  split
  next same =>
    subst same
    exact retains rfl
  next => exact .refl _

/-- A change of marks, versions and labels. -/
theorem Attends.modifyNode (world : World κ ν σ) (home : ReactorId) (other : NodeId)
    {change : Node → Node} (kept : ∀ node, (change node).id = node.id ∧
      (change node).kind = node.kind ∧ (change node).dependencies = node.dependencies ∧
        (change node).dependents = node.dependents) :
    Attends final owner id world (world.mapGraph home (·.modify other change)) :=
  .mapGraph world home rfl fun _ => .modify _ other kept

/-- Another node forgets what it reads. -/
theorem Attends.unsubscribe (world : World κ ν σ) (home : ReactorId) {other : NodeId}
    (apart : other ≠ id) : Attends final owner id world (world.mapGraph home (·.unsubscribe other)) :=
  .mapGraph world home rfl fun _ => .unsubscribe _ apart

theorem Attends.resubscribe (world : World κ ν σ) (home : ReactorId) (other : NodeId) :
    Attends final owner id world (world.mapGraph home (·.resubscribe other)) :=
  .mapGraph world home rfl fun _ => .resubscribe _ other

theorem Attends.modifyCell (world : World κ ν σ) (other : NodeId) {change : Cell κ ν → Cell κ ν}
    (kept : other = id → ∀ cell, world.cell? id = some cell → (change cell).place = cell.place ∧
      (change cell).isEngaged = cell.isEngaged ∧
        (world.isAlive owner = true → (change cell).isStopped = cell.isStopped)) :
    Attends final owner id world (world.modifyCell other change) := by
  refine ⟨⟨fun cell found => ?_, fun living => living, rfl⟩, fun name known => ?_, .refl _⟩
  · rw [cell?_modifyCell]
    split
    next same =>
      subst same
      exact ⟨change cell, by rw [found]; rfl, kept rfl cell found⟩
    next => exact ⟨cell, found, rfl, rfl, fun _ => rfl⟩
  · rw [cell?_modifyCell]
    split
    next same => rwa [Option.isSome_map, ← same]
    next => exact known

theorem Attends.modifySignal (world : World κ ν σ) (other : NodeId) {change : Signal ν → Signal ν}
    (kept : ∀ state, (change state).reactor = state.reactor) :
    Attends final owner id world (world.modifySignal other change) := by
  refine .modifyCell world other fun _ cell _ => ?_
  cases cell with
  | signal state => exact ⟨congrArg (·, NodeKind.source) (kept state), rfl, fun _ => rfl⟩
  | computed => exact ⟨rfl, rfl, fun _ => rfl⟩
  | effect => exact ⟨rfl, rfl, fun _ => rfl⟩

/-- A change of another computed. -/
theorem Attends.modifyComputed (world : World κ ν σ) {other : NodeId} (apart : other ≠ id)
    (change : Computed κ ν → Computed κ ν) :
    Attends final owner id world (world.modifyComputed other change) :=
  .modifyCell world other fun same => absurd same apart

/-- A change of another effect, or of what an effect keeps besides its state. -/
theorem Attends.modifyEffect (world : World κ ν σ) (other : NodeId) {change : Effect κ → Effect κ}
    (kept : other = id → ∀ state, (change state).reactor = state.reactor ∧
      (change state).executing = state.executing ∧
        (world.isAlive owner = true → (change state).active = state.active)) :
    Attends final owner id world (world.modifyEffect other change) := by
  refine .modifyCell world other fun same cell _ => ?_
  cases cell with
  | signal => exact ⟨rfl, rfl, fun _ => rfl⟩
  | computed => exact ⟨rfl, rfl, fun _ => rfl⟩
  | effect state =>
    obtain ⟨home, executing, active⟩ := kept same state
    exact ⟨congrArg (·, NodeKind.effect) home, executing, fun living => congrArg Bool.not (active living)⟩

theorem Attends.hold (world : World κ ν σ) (handle : Handle) :
    Attends final owner id world (world.hold handle) := by
  cases handle with
  | reactor home =>
    exact .modifyReactor world home fun state => ⟨rfl, fun _ => decide_eq_true (Nat.succ_pos _)⟩
  | node other =>
    exact .modifyCell world other fun _ cell _ => ⟨cell.place_withHolders _, by simp, by simp⟩

theorem Attends.foldl_hold {α : Type} (members : List α) (handle : α → Handle)
    (world : World κ ν σ) : Attends final owner id world
      (members.foldl (fun world member => world.hold (handle member)) world) := by
  induction members generalizing world with
  | nil => exact .refl world
  | cons member rest ih => exact (Attends.hold world (handle member)).trans (ih _)

/-- A handle that is not the last one is given back. -/
theorem Attends.lose (world : World κ ν σ) {handle : Handle} (held : world.holdersOf handle ≠ 1) :
    Attends final owner id world (world.lose handle) := by
  cases handle with
  | reactor home =>
    refine .of_cells rfl (isAlive_modifyReactor fun state found living => ?_) ?_
    · have several : state.holders ≠ 1 := by
        have counted : ((world.reactor? home).map Reactor.holders).getD 0 ≠ 1 := held
        rwa [found] at counted
      have positive : 0 < state.holders := of_decide_eq_true living
      exact decide_eq_true (by dsimp only; omega)
    · have same : (world.lose (.reactor home)).graph owner = world.graph owner := by
        refine graph_modifyReactor world home ?_ owner
        exact fun _ _ => rfl
      rw [same]
      exact .refl _
  | node other =>
    exact .modifyCell world other fun _ cell _ => ⟨cell.place_withHolders _, by simp, by simp⟩

theorem Attends.put (world : World κ ν σ) (home : ReactorId) (other : NodeId) (value : ν) :
    Attends final owner id world (world.put home other value) := by
  have stored : Attends final owner id world
      (world.modifySignal other fun signal => { signal with value }) :=
    .modifySignal world other fun _ => rfl
  have bumped : Attends final owner id (world.modifySignal other fun signal => { signal with value })
      ((world.modifySignal other fun signal => { signal with value }).mapGraph home
        (·.modify other Node.bump)) := .modifyNode _ home other fun _ => ⟨rfl, rfl, rfl, rfl⟩
  exact (stored.trans bumped).trans (.record _ _)

theorem Attends.noteWrite (world : World κ ν σ) (home : ReactorId) (source : NodeId) :
    Attends final owner id world (world.noteWrite home source) := by
  unfold World.noteWrite
  split
  next writer _ =>
    have noted : Attends final owner id world (world.mapGraph home (·.noteWrite source writer)) :=
      .mapGraph world home rfl fun _ => .noteWrite _ source writer
    exact noted.trans (.record _ _)
  next => exact .record world _

/-- What has left its graph does not last. -/
theorem lasting_eq_false (leads : after.Precedes final) {other : NodeId}
    (known : (after.cell? other).isSome) (gone : (after.graph owner).contains other = false) :
    final.lasting owner other = false :=
  Bool.eq_false_of_not_eq_true fun live =>
    Bool.false_ne_true (gone.symm.trans (leads.live _ _ known live))

/-- Another node leaves its graph, or the one in question leaves the graph for good. -/
theorem Attends.unregister (world : World κ ν σ) (other : NodeId)
    (leads : (world.unregister other).2.Precedes final) (lasts : final.lasting owner id = true)
    (home : ∀ cell, world.cell? id = some cell → cell.reactor = owner) :
    Attends final owner id world (world.unregister other).2 := by
  cases found : world.cell? other with
  | none =>
    have same : (world.unregister other).2 = world := by
      unfold World.unregister
      rw [found]
    rw [same]
    exact .refl world
  | some cell =>
    have known : ((world.unregister other).2.cell? other).isSome := by
      rw [cell?_unregister, found]
      rfl
    have leaves : cell.reactor = owner → final.lasting owner other = false := by
      intro here
      refine lasting_eq_false leads known ?_
      rw [← here, Graph.contains, node?_unregister found]
      rfl
    have left : (world.unregister other).2 = (world.mapGraph cell.reactor (·.remove other)).modifyReactor
        cell.reactor fun reactor => { reactor with pending := reactor.pending.erase other } := by
      unfold World.unregister
      rw [found]
      exact removeNode_eq world cell.reactor other
    rw [left]
    refine (Attends.mapGraph world cell.reactor rfl fun here => .remove _ ?_ (leaves here)).trans
      (.modifyReactor _ cell.reactor fun _ => ⟨rfl, fun living => living⟩)
    rintro rfl
    rw [leaves here] at lasts
    cases lasts

/-- A handle is given back, and the node in question stays. -/
theorem Attends.shed (world : World κ ν σ) (handle : Handle) (leads : (world.shed handle).Precedes final)
    (lasts : final.lasting owner id = true) (found : world.cell? id = some cell)
    (home : cell.reactor = owner) : Attends final owner id world (world.shed handle) := by
  unfold World.shed at leads ⊢
  split at leads
  next last =>
    rw [if_pos last]
    cases handle with
    | reactor other =>
      have apart : owner ≠ other := by
        rintro rfl
        have emptied : (((world.lose (.reactor owner)).perish (.reactor owner)).2.graph owner) = .empty := by
          refine (graph_mapGraph (world.lose (.reactor owner)) owner rfl owner).trans ?_
          exact if_pos rfl
        have known : (world.cell? id).isSome := by
          rw [found]
          rfl
        have gone : final.lasting owner id = false :=
          lasting_eq_false leads known (by rw [emptied]; rfl)
        rw [gone] at lasts
        cases lasts
      have kept : ((world.lose (.reactor other)).perish (.reactor other)).2.reactor? owner =
          world.reactor? owner := by
        show ((world.lose (.reactor other)).mapGraph other fun _ => .empty).reactor? owner = _
        unfold World.lose World.mapGraph
        rw [reactor?_modifyReactor, if_neg apart, reactor?_modifyReactor, if_neg apart]
      refine .of_cells rfl (fun living => ?_) ?_
      · unfold isAlive at living ⊢
        rwa [kept]
      · unfold graph
        rw [kept]
        exact .refl _
    | node other =>
      have lost : Attends final owner id world (world.lose (.node other)) :=
        .modifyCell world other fun _ cell _ => ⟨cell.place_withHolders _, by simp, by simp⟩
      obtain ⟨cell', found', place, _⟩ := lost.cell cell found
      have home' : cell'.reactor = owner := (congrArg Prod.fst place).trans home
      unfold World.perish at leads ⊢
      dsimp only at leads ⊢
      split at leads
      next => exact lost
      next =>
        refine lost.trans (.unregister _ other leads lasts fun present known => ?_)
        cases found'.symm.trans known
        exact home'
      next => exact lost
  next several =>
    rw [if_neg several]
    exact .lose world several

/-- A new cell, with its node. -/
theorem Attends.addCell (world : World κ ν σ) (new : Cell κ ν) (found : world.cell? id = some cell) :
    Attends final owner id world (world.addCell new new.kind).2 := by
  have kept : ∀ other, (world.cell? other).isSome →
      (world.addCell new new.kind).2.cell? other = world.cell? other := by
    intro other known
    rw [cell?_addCell, if_neg]
    rintro rfl
    rw [cell?_nextId] at known
    cases known
  have retains : Graph.Retains (final.lasting owner) (fun read => (world.cell? read).isSome) id
      (world.graph owner) ((world.addCell new new.kind).2.graph owner) := by
    rcases graph_addCell_cases world new owner with same | ⟨_, _, inserted⟩
    · rw [same]
      exact .refl _
    · rw [inserted]
      refine .insert _ (fun same => ?_) fun known => ?_
      · rw [← same] at found
        exact nomatch (cell?_nextId world).symm.trans found
      · change (world.cell? world.nextId).isSome at known
        rw [cell?_nextId] at known
        cases known
  refine ⟨⟨fun state found => ⟨state, ?_, rfl, rfl, fun _ => rfl⟩, isAlive_addCell new new.kind,
    retains.kind⟩, fun other known => ?_, retains⟩
  · exact (kept id (by rw [found]; rfl)).trans found
  · rwa [kept other known]

/-- No change in which no closure takes part touches the record of a node that lasts. -/
theorem Change.attends (change : world.Change after) (leads : after.Precedes final)
    (lasts : final.lasting owner id = true) (found : world.cell? id = some cell)
    (home : cell.reactor = owner) : Attends final owner id world after := by
  cases change with
  | aside _ _ _ cells reactors => exact .of_alike cells reactors
  | hold handle => exact .hold world handle
  | shed handle => exact .shed world handle leads lasts found home
  | @stop other effect known =>
    have place : ∀ cell', ((world.modifyEffect other ({ · with active := false })).hold
        (.reactor effect.reactor)).cell? id = some cell' → cell'.reactor = owner := by
      intro cell' found'
      change (world.modifyEffect other ({ · with active := false })).cell? id = some cell' at found'
      unfold World.modifyEffect at found'
      rw [cell?_modifyCell] at found'
      split at found'
      next same =>
        subst same
        rw [found] at found'
        cases found'
        cases cell <;> exact home
      next =>
        cases found.symm.trans found'
        exact home
    by_cases same : other = id
    · -- The effect itself does not last.
      subst same
      rw [effect?_eq_some_iff] at known
      cases found.symm.trans known
      have known' : ((world.modifyEffect other ({ · with active := false })).hold
          (.reactor effect.reactor)).cell? other = some (.effect { effect with active := false }) := by
        show (world.modifyEffect other ({ · with active := false })).cell? other = _
        unfold World.modifyEffect
        rw [cell?_modifyCell, if_pos rfl, found]
        rfl
      have gone : final.lasting owner other = false := by
        refine lasting_eq_false leads (by rw [cell?_unregister, known']; rfl) ?_
        rw [← home]
        exact congrArg Option.isSome (node?_unregister known')
      rw [gone] at lasts
      cases lasts
    · have stopped : Attends final owner id world
          (world.modifyEffect other ({ · with active := false })) :=
        .modifyEffect world other fun equal => absurd equal same
      exact (stopped.trans (.hold _ _)).trans (.unregister _ other leads lasts place)
  | @abandon other effect known dead =>
    refine .modifyEffect world other fun same state => ⟨rfl, rfl, fun living => ?_⟩
    subst same
    rw [effect?_eq_some_iff] at known
    cases found.symm.trans known
    change effect.reactor = owner at home
    rw [home, living] at dead
    cases dead
  | @destroy other =>
    have marked : Attends final owner id world
        (world.modifySignal other ({ · with destroyed := true })) :=
      .modifySignal world other fun _ => rfl
    refine marked.trans (.unregister _ other leads lasts fun cell' found' => ?_)
    obtain ⟨cell'', found'', place, _⟩ := marked.cell cell found
    cases found'.symm.trans found''
    exact (congrArg Prod.fst place).trans home
  | defer =>
    exact (Attends.put world _ _ _).trans (.modifyReactor _ _ fun _ => ⟨rfl, fun living => living⟩)
  | putLost => exact .put world _ _ _
  | noteWrite => exact .noteWrite world _ _
  | addReactor settings =>
    refine .of_cells rfl (fun living => ?_) ?_
    · unfold isAlive at living ⊢
      rcases reactor?_newReactor world settings owner with same | ⟨absent, _⟩
      · rwa [same]
      · rw [absent] at living
        cases living
    · rw [graph_newReactor]
      exact .refl _
  | addHolding new =>
    have held : Attends final owner id world (world.hold (.reactor new.reactor)) := .hold world _
    obtain ⟨_, found', _⟩ := held.cell cell found
    exact held.trans (.addCell _ new found')
  | addEffect home body =>
    exact .addCell world (.effect ⟨home, body, false, none, true, false, 0, 2⟩) found
  | label => exact .modifyNode world _ _ fun _ => ⟨rfl, rfl, rfl, rfl⟩
  | tweak other kept =>
    refine .modifyEffect world other fun _ state => ?_
    obtain ⟨home, active, executing, _⟩ := kept state
    exact ⟨home, executing, fun _ => active⟩

end World

end ReactiveTree
