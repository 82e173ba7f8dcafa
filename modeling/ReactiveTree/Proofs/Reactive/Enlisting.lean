import ReactiveTree.Proofs.Graph.Membership
import ReactiveTree.Proofs.Reactive.Displays
import ReactiveTree.Proofs.Reactive.Recording

/-! # Active effects are enlisted

An effect that is active has its node in the graph of its reactor, unless the reactor has died: only
what stops an effect takes its node out. A step is off stage if the display does not tell of it and
effects stay enlisted. Except where a node is made, or where an effect that renders begins, ends or
is stopped, whatever the library does between two changes of documents is off stage.
-/

namespace ReactiveTree

variable {κ ν σ : Type}

namespace Graph

theorem kind?_unsubscribe (graph : Graph) (other id : NodeId) :
    (graph.unsubscribe other).kind? id = graph.kind? id := by
  refine (map_node?_mapNodes _ _ (fun node => ?_) id).trans
    (graph.map_node?_modify other Node.dropDependencies (fun _ => ⟨rfl, rfl⟩) id)
  split <;> exact ⟨rfl, rfl⟩

theorem kind?_resubscribe (graph : Graph) (other id : NodeId) :
    (graph.resubscribe other).kind? id = graph.kind? id :=
  graph.map_node?_mapNodes _ (fun node => by split <;> exact ⟨rfl, rfl⟩) id

/-- A node stays what it is when another one leaves the graph. -/
theorem kind?_remove_of_ne {graph : Graph} {other id : NodeId} {kind : NodeKind} (apart : id ≠ other)
    (live : graph.kind? id = some kind) : (graph.remove other).kind? id = some kind := by
  obtain ⟨old, was, same⟩ := Option.map_eq_some_iff.mp live
  have kept : (graph.remove other).contains id = true := remove_contains apart (by rw [was]; rfl)
  obtain ⟨node, found⟩ := Option.isSome_iff_exists.mp kept
  obtain ⟨_, old', was', kept, _⟩ := remove_cases found
  cases was.symm.trans was'
  unfold kind?
  rw [found]
  exact congrArg some (kept.trans same)

end Graph

namespace World

variable {world middle after : World κ ν σ} {id : NodeId}

/-- If an effect of this name is active, its node is in the graph, unless its reactor has died. -/
def Enlisted (world : World κ ν σ) (id : NodeId) : Prop :=
  ∀ effect, world.effect? id = some effect → effect.active = true →
    (world.graph effect.reactor).kind? id = some .effect ∨ .died effect.reactor ∈ world.past

/-- A step that the display does not tell of, and that leaves effects enlisted. -/
structure Offstage (world after : World κ ν σ) : Prop where
  display : after.display = world.display
  enlisted : ∀ id, world.Enlisted id → after.Enlisted id

theorem Enlisted.of_kept (enlisted : world.Enlisted id)
    (kept : ∀ effect', after.effect? id = some effect' → effect'.active = true →
      ∃ effect, world.effect? id = some effect ∧ effect.active = true ∧
        effect.reactor = effect'.reactor)
    (kinds : ∀ owner, (world.graph owner).kind? id = some .effect →
      (after.graph owner).kind? id = some .effect ∨ .died owner ∈ after.past)
    (past : ∀ owner, .died owner ∈ world.past → .died owner ∈ after.past) : after.Enlisted id := by
  intro effect' found' active'
  obtain ⟨effect, found, active, home⟩ := kept effect' found' active'
  rcases enlisted effect found active with live | died
  · exact kinds _ (home ▸ live)
  · exact Or.inr (past _ (home ▸ died))

/-- A change of an effect that does not start it. -/
theorem Enlisted.modifyEffect (enlisted : world.Enlisted id) (other : NodeId)
    {change : Effect κ → Effect κ} (kept : ∀ effect, (change effect).reactor = effect.reactor ∧
      ((change effect).active = true → effect.active = true)) :
    (world.modifyEffect other change).Enlisted id := by
  refine enlisted.of_kept (fun effect' found active => ?_) (fun _ live => Or.inl live)
    fun _ died => died
  rw [effect?_eq_some_iff] at found
  unfold World.modifyEffect at found
  rw [cell?_modifyCell] at found
  split at found
  next same =>
    subst same
    obtain ⟨cell, present, changed⟩ := Option.map_eq_some_iff.mp found
    cases cell with
    | effect effect =>
      cases changed
      exact ⟨effect, effect?_eq_some_iff.mpr present, (kept effect).2 active, (kept effect).1.symm⟩
    | signal => cases changed
    | computed => cases changed
  next => exact ⟨effect', effect?_eq_some_iff.mpr found, active, rfl⟩

/-- A known effect stays enlisted where another node is made. -/
theorem Enlisted.addCell (enlisted : world.Enlisted id) (known : id.index < world.cells.length)
    (cell : Cell κ ν) : (world.addCell cell cell.kind).2.Enlisted id := by
  obtain ⟨own, present⟩ : ∃ own, world.cell? id = some own := ⟨_, List.getElem?_eq_getElem known⟩
  refine enlisted.of_kept (fun effect found active => ⟨effect, ?_, active, rfl⟩)
    (fun owner live => Or.inl ?_) fun _ died => died
  · rw [effect?_eq_some_iff, cell?_addCell, if_neg] at found
    · exact effect?_eq_some_iff.mpr found
    · rintro rfl
      exact Nat.lt_irrefl _ known
  · have kept : Attends world owner id world (world.addCell cell cell.kind).2 :=
      .addCell world cell present
    exact kept.kind.trans live

/-- A new effect is enlisted. -/
theorem enlisted_addCell (world : World κ ν σ) (effect : Effect κ)
    (there : (world.reactor? effect.reactor).isSome) :
    (world.addCell (.effect effect) .effect).2.Enlisted world.nextId := by
  intro present found _
  rw [effect?_eq_some_iff, cell?_addCell, if_pos rfl] at found
  cases found
  have graph := (world.graph_addCell (.effect effect) .effect there effect.reactor).trans (if_pos rfl)
  refine Or.inl ?_
  unfold Graph.kind?
  rw [graph, Graph.node?_insert]
  exact congrArg (Option.map Node.kind) (if_pos rfl)

namespace Offstage

theorem refl (world : World κ ν σ) : world.Offstage world :=
  ⟨rfl, fun _ enlisted => enlisted⟩

theorem trans (start : world.Offstage middle) (finish : middle.Offstage after) :
    world.Offstage after :=
  ⟨finish.display.trans start.display, fun id enlisted => finish.enlisted id (start.enlisted id enlisted)⟩

theorem of_cells (mounts : after.mounts = world.mounts) (documents : after.documents = world.documents)
    (cells : after.cells = world.cells)
    (kinds : ∀ owner id, (world.graph owner).kind? id = some .effect →
      (after.graph owner).kind? id = some .effect ∨ .died owner ∈ after.past)
    (past : ∀ owner, .died owner ∈ world.past → .died owner ∈ after.past) : world.Offstage after := by
  refine ⟨display_of_cells mounts documents cells, fun id enlisted =>
    enlisted.of_kept (fun effect found active => ⟨effect, ?_, active, rfl⟩) (kinds · id) past⟩
  unfold effect? cell? at found ⊢
  rwa [← cells]

theorem record (world : World κ ν σ) (event : Event κ ν) : world.Offstage (world.record event) :=
  .of_cells rfl rfl rfl (fun _ _ live => Or.inl live) fun _ => List.mem_cons_of_mem _

/-- A change of what a reactor keeps besides its graph. -/
theorem modifyReactor (world : World κ ν σ) (owner : ReactorId) {change : Reactor → Reactor}
    (kept : ∀ state, (change state).graph = state.graph) :
    world.Offstage (world.modifyReactor owner change) := by
  refine .of_cells rfl rfl rfl (fun other id live => Or.inl ?_) fun _ died => died
  rwa [graph_modifyReactor world owner fun state _ => kept state]

theorem pushFrame (world : World κ ν σ) (owner : ReactorId) (frame : Frame) :
    world.Offstage (world.modifyReactor owner (·.pushFrame frame)) :=
  .modifyReactor world owner fun _ => rfl

theorem popFrame (world : World κ ν σ) (owner : ReactorId) :
    world.Offstage (world.modifyReactor owner Reactor.popFrame) :=
  .modifyReactor world owner fun _ => rfl

theorem pushChain (world : World κ ν σ) (owner : ReactorId) (causes : List NodeId) :
    world.Offstage (world.modifyReactor owner (·.pushChain causes)) :=
  .modifyReactor world owner fun _ => rfl

theorem popChain (world : World κ ν σ) (owner : ReactorId) :
    world.Offstage (world.modifyReactor owner Reactor.popChain) :=
  .modifyReactor world owner fun _ => rfl

theorem openBatch (world : World κ ν σ) (owner : ReactorId) :
    world.Offstage (world.modifyReactor owner Reactor.openBatch) :=
  .modifyReactor world owner fun _ => rfl

theorem closeBatch (world : World κ ν σ) (owner : ReactorId) :
    world.Offstage (world.closeBatch owner).2 := by
  rw [closeBatch_snd]
  exact .modifyReactor world owner fun state => state.closeBatch_kept.1

theorem postpone (world : World κ ν σ) (owner : ReactorId) (id : NodeId) :
    world.Offstage (world.modifyReactor owner (·.postpone id)) :=
  .modifyReactor world owner fun _ => rfl

/-- A change of a graph that leaves nodes what they are. -/
theorem mapGraph (world : World κ ν σ) (owner : ReactorId) {change : Graph → Graph}
    (bare : change .empty = .empty)
    (kinds : ∀ id, (change (world.graph owner)).kind? id = (world.graph owner).kind? id) :
    world.Offstage (world.mapGraph owner change) := by
  refine .of_cells rfl rfl rfl (fun other id live => Or.inl ?_) fun _ died => died
  rw [graph_mapGraph world owner bare]
  split
  next same =>
    subst same
    exact (kinds id).trans live
  next => exact live

theorem modifyNode (world : World κ ν σ) (owner : ReactorId) (other : NodeId) {change : Node → Node}
    (kept : ∀ node, (change node).id = node.id ∧ (change node).kind = node.kind) :
    world.Offstage (world.mapGraph owner (·.modify other change)) :=
  .mapGraph world owner rfl (Graph.map_node?_modify _ other change kept)

theorem unsubscribe (world : World κ ν σ) (owner : ReactorId) (other : NodeId) :
    world.Offstage (world.mapGraph owner (·.unsubscribe other)) :=
  .mapGraph world owner rfl (Graph.kind?_unsubscribe _ other)

theorem resubscribe (world : World κ ν σ) (owner : ReactorId) (other : NodeId) :
    world.Offstage (world.mapGraph owner (·.resubscribe other)) :=
  .mapGraph world owner rfl (Graph.kind?_resubscribe _ other)

/-- A change of one cell that starts no effect. -/
theorem modifyCell (world : World κ ν σ) (other : NodeId) {change : Cell κ ν → Cell κ ν}
    (shown : ∀ cell, (change cell).renderer? = cell.renderer?)
    (kept : ∀ cell effect', change cell = .effect effect' → ∃ effect, cell = .effect effect ∧
      effect.active = effect'.active ∧ effect.reactor = effect'.reactor) :
    world.Offstage (world.modifyCell other change) := by
  refine ⟨world.display_modifyCell other shown, fun id enlisted => enlisted.of_kept
    (fun effect' found active => ?_) (fun _ live => Or.inl live) fun _ died => died⟩
  rw [effect?_eq_some_iff, cell?_modifyCell] at found
  split at found
  next same =>
    subst same
    obtain ⟨cell, present, changed⟩ := Option.map_eq_some_iff.mp found
    obtain ⟨effect, rfl, same, home⟩ := kept cell effect' changed
    exact ⟨effect, effect?_eq_some_iff.mpr present, same.trans active, home⟩
  next => exact ⟨effect', effect?_eq_some_iff.mpr found, active, rfl⟩

theorem modifySignal (world : World κ ν σ) (other : NodeId) (change : Signal ν → Signal ν) :
    world.Offstage (world.modifySignal other change) :=
  .modifyCell world other (fun cell => by cases cell <;> rfl) fun cell effect changed => by
    cases cell with
    | effect state => exact ⟨effect, changed, rfl, rfl⟩
    | signal => cases changed
    | computed => cases changed

theorem modifyComputed (world : World κ ν σ) (other : NodeId)
    (change : Computed κ ν → Computed κ ν) : world.Offstage (world.modifyComputed other change) :=
  .modifyCell world other (fun cell => by cases cell <;> rfl) fun cell effect changed => by
    cases cell with
    | effect state => exact ⟨effect, changed, rfl, rfl⟩
    | signal => cases changed
    | computed => cases changed

theorem put (world : World κ ν σ) (owner : ReactorId) (id : NodeId) (value : ν) :
    world.Offstage (world.put owner id value) := by
  have stored : world.Offstage (world.modifySignal id fun signal => { signal with value }) :=
    .modifySignal world id _
  refine (stored.trans ?_).trans (.record _ _)
  exact .modifyNode _ owner id fun _ => ⟨rfl, rfl⟩

/-- A change of an effect that leaves it as active as it is. -/
theorem modifyEffect (world : World κ ν σ) (other : NodeId) {change : Effect κ → Effect κ}
    (display : (world.modifyEffect other change).display = world.display)
    (kept : ∀ effect, (change effect).active = effect.active ∧
      (change effect).reactor = effect.reactor) :
    world.Offstage (world.modifyEffect other change) :=
  ⟨display, fun _ enlisted => enlisted.modifyEffect other fun effect =>
    ⟨(kept effect).2, fun active => (kept effect).1.symm.trans active⟩⟩

theorem primed (world : World κ ν σ) (id : NodeId) :
    world.Offstage (world.modifyEffect id ({ · with primed := true })) :=
  .modifyEffect world id (world.display_modifyEffect id fun effect => by
    cases effect with
    | mk _ body => cases body <;> rfl) fun _ => ⟨rfl, rfl⟩

theorem countRun (world : World κ ν σ) (id : NodeId) : world.Offstage (world.countRun id) :=
  .modifyEffect world id (world.display_modifyEffect id fun effect => by
    cases effect with
    | mk _ body => cases body <;> rfl) fun _ => ⟨rfl, rfl⟩

/-- The body of an effect ends, and its run is counted. -/
theorem leaveRun (world : World κ ν σ) (id : NodeId) (owner : ReactorId) (panicked : Bool) :
    world.Offstage ((world.leaveBody id owner panicked).countRun id) :=
  ((popFrame world owner).trans (.record _ _)).trans (.countRun _ id)

private theorem withHolders (world : World κ ν σ) (id : NodeId) (count : Cell κ ν → Nat) :
    world.Offstage (world.modifyCell id fun cell => cell.withHolders (count cell)) :=
  .modifyCell world id (fun cell => cell.renderer?_withHolders _) fun cell effect changed => by
    cases cell with
    | effect state =>
      cases changed
      exact ⟨state, rfl, rfl, rfl⟩
    | signal => cases changed
    | computed => cases changed

theorem hold (world : World κ ν σ) (handle : Handle) : world.Offstage (world.hold handle) := by
  cases handle with
  | reactor owner =>
    refine .modifyReactor world owner ?_
    exact fun _ => rfl
  | node id => exact withHolders world id _

theorem lose (world : World κ ν σ) (handle : Handle) : world.Offstage (world.lose handle) := by
  cases handle with
  | reactor owner =>
    refine .modifyReactor world owner ?_
    exact fun _ => rfl
  | node id => exact withHolders world id _

theorem foldl_hold {α : Type} (members : List α) (handle : α → Handle) (world : World κ ν σ) :
    world.Offstage (members.foldl (fun world member => world.hold (handle member)) world) := by
  induction members generalizing world with
  | nil => exact .refl world
  | cons member rest ih => exact (hold world (handle member)).trans (ih _)

/-- What is no active effect leaves its graph. -/
theorem unregister (world : World κ ν σ) (other : NodeId)
    (ended : ∀ effect, world.effect? other = some effect → effect.active = false) :
    world.Offstage (world.unregister other).2 := by
  refine ⟨world.display_unregister other, fun id enlisted => ?_⟩
  by_cases same : id = other
  · subst same
    intro effect found active
    rw [effect?_eq_some_iff, cell?_unregister, ← effect?_eq_some_iff] at found
    cases (ended effect found).symm.trans active
  · refine enlisted.of_kept (fun effect found active => ⟨effect, ?_, active, rfl⟩)
      (fun owner live => Or.inl ?_) fun owner died => ?_
    · rwa [effect?_eq_some_iff, cell?_unregister, ← effect?_eq_some_iff] at found
    · unfold World.unregister
      split
      next => exact live
      next cell _ =>
        have left : ∀ owner', ((world.modifyReactor cell.reactor (·.removeNode other)).graph owner') =
            if owner' = cell.reactor then (world.graph cell.reactor).remove other
            else world.graph owner' := by
          intro owner'
          rw [removeNode_eq]
          refine (graph_modifyReactor _ _ ?_ owner').trans (graph_mapGraph world cell.reactor rfl owner')
          exact fun _ _ => rfl
        dsimp only
        rw [left]
        split
        next here => exact Graph.kind?_remove_of_ne same (here ▸ live)
        next => exact live
    · unfold World.unregister
      split <;> exact died

theorem perish (world : World κ ν σ) (handle : Handle) :
    world.Offstage (world.perish handle).2 := by
  cases handle with
  | reactor owner =>
    refine .of_cells rfl rfl rfl (fun other id live => ?_) fun _ => List.mem_cons_of_mem _
    by_cases same : other = owner
    · exact Or.inr (same ▸ List.mem_cons_self)
    · refine Or.inl ?_
      show ((world.mapGraph owner fun _ => .empty).graph other).kind? id = _
      rwa [graph_mapGraph world owner rfl, if_neg same]
  | node id =>
    unfold World.perish
    dsimp only
    split
    next => exact .refl world
    next cell other found =>
      refine .unregister world id fun effect present => ?_
      rw [effect?_eq_some_iff, found] at present
      cases present
      exact absurd rfl (other effect)
    next => exact .refl world

theorem dropAll (world : World κ ν σ) (handles : List Handle) (fuel : Nat) :
    world.Offstage (world.dropAll handles fuel) := by
  induction fuel generalizing world handles with
  | zero => cases handles <;> exact .refl world
  | succ fuel ih =>
    cases handles with
    | nil => exact .refl world
    | cons handle rest =>
      unfold World.dropAll
      dsimp only
      split
      next => exact ((lose world handle).trans (perish _ handle)).trans (ih _ _)
      next => exact (lose world handle).trans (ih _ _)

theorem drop (world : World κ ν σ) (handle : Handle) : world.Offstage (world.drop handle) :=
  dropAll world _ _

theorem retire (world : World κ ν σ) (id : NodeId)
    (ended : ∀ effect, world.effect? id = some effect → effect.active = false) :
    world.Offstage (world.retire id) :=
  (unregister world id ended).trans (dropAll _ _ _)

theorem noteRead (world : World κ ν σ) (owner : ReactorId) (read : NodeId) :
    world.Offstage (world.noteRead owner read) := by
  refine .of_cells ?_ ?_ ?_ (fun other id live => Or.inl ?_) fun other died => ?_
  · unfold World.noteRead
    split <;> rfl
  · unfold World.noteRead
    split <;> rfl
  · unfold World.noteRead
    split <;> rfl
  · rcases graph_noteRead world owner read other with same | ⟨rfl, reader, _, connected⟩
    · rwa [same]
    · rwa [connected, Graph.kind?_connect]
  · unfold World.noteRead
    split <;> exact List.mem_cons_of_mem _ died

theorem noteWrite (world : World κ ν σ) (owner : ReactorId) (source : NodeId) :
    world.Offstage (world.noteWrite owner source) := by
  unfold World.noteWrite
  split
  next writer _ =>
    have noted : world.Offstage (world.mapGraph owner (·.noteWrite source writer)) :=
      .mapGraph world owner rfl fun id => Graph.kind?_noteWrite _ source writer id
    exact noted.trans (.record _ _)
  next => exact .record world _

theorem report (world : World κ ν σ) (owner : ReactorId) (failure : ReactiveFailure) :
    world.Offstage (world.report owner failure) := by
  unfold World.report
  split
  next =>
    split
    next => exact .record world _
    next => exact .refl world
  next => exact .refl world

theorem planPass (world : World κ ν σ) (owner : ReactorId) (sources : List NodeId) :
    world.Offstage (world.planPass owner sources).2 := by
  refine .of_cells rfl rfl rfl (fun other id live => Or.inl ?_) fun _ died => died
  exact (Stays.planPass world owner sources).kind.trans live

theorem destroySignal (world : World κ ν σ) (id : NodeId) :
    world.Offstage (world.destroySignal id) := by
  unfold World.destroySignal
  split
  next signal found =>
    split
    next => exact .refl world
    next =>
      refine (modifySignal world id _).trans (.retire _ id fun effect present => ?_)
      rw [signal?_eq_some_iff] at found
      rw [effect?_eq_some_iff] at present
      unfold World.modifySignal at present
      rw [cell?_modifyCell, if_pos rfl, found] at present
      cases present
  next => exact .refl world

theorem settleValue [BEq ν] (world : World κ ν σ) (id : NodeId) (computed : Computed κ ν)
    (value : ν) : world.Offstage (world.settleValue id computed value) := by
  unfold World.settleValue
  extract_lets same
  split
  next => exact .modifyNode world _ id fun _ => ⟨rfl, rfl⟩
  next =>
    have stored : world.Offstage (world.modifyComputed id ({ · with value := some value })) :=
      .modifyComputed world id _
    refine (stored.trans ?_).trans (.record _ _)
    exact .modifyNode _ _ id fun _ => ⟨rfl, rfl⟩

end Offstage

end World

end ReactiveTree
