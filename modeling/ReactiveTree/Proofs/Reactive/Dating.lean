import ReactiveTree.Proofs.Reactive.Accounts
import ReactiveTree.Proofs.Reactive.Attending
import ReactiveTree.Proofs.Reactive.Closing

/-! # Versions count changes

The version of a live node is the number of the changes that were recorded for it, and a computed
has kept the value of the latest one. Every step of a run keeps this, whatever its closures do. So to
compare versions is to ask whether a change was recorded in between; a failure is none, and neither
is a value that was kept through it.
-/

namespace ReactiveTree

variable {κ ν σ : Type}

/-- The value that a node was changed to. -/
def Event.change? (id : NodeId) : Event κ ν → Option ν
  | .changed node value => if node = id then some value else none
  | _ => none

theorem Event.IsRemark.change? {event : Event κ ν} (remark : event.IsRemark) (id : NodeId) :
    event.change? id = none := by
  cases event with
  | changed => exact remark.elim
  | _ => rfl

/-- What the dating of a cell depends on. -/
def Cell.stamp (cell : Cell κ ν) : (ReactorId × NodeKind) × Option ν :=
  (cell.place, cell.value?)

theorem Cell.stamp_withHolders (cell : Cell κ ν) (holders : Nat) :
    (cell.withHolders holders).stamp = cell.stamp := by
  cases cell <;> rfl

namespace World

variable {world middle after : World κ ν σ} {id : NodeId} {owner : ReactorId}

/-- The values that a node was changed to, the latest first. -/
def changesOf (world : World κ ν σ) (id : NodeId) : List ν :=
  world.past.filterMap (Event.change? id)

/-- Live nodes are those of cells, their versions count their changes, and a computed has the value
of its latest change. -/
structure Dated (world : World κ ν σ) : Prop where
  home : ∀ owner id node, (world.graph owner).node? id = some node →
    ∃ cell, world.cell? id = some cell ∧ cell.reactor = owner
  version : ∀ owner id node, (world.graph owner).node? id = some node →
    node.version = (world.changesOf id).length
  value : ∀ id cell, world.cell? id = some cell → cell.kind = .derived →
    cell.value? = (world.changesOf id).head?
  unmade : ∀ id, world.cell? id = none → world.changesOf id = []

theorem initial_dated (user : σ) : (initial user : World κ ν σ).Dated where
  home _ _ _ found := nomatch found
  version _ _ _ found := nomatch found
  value _ _ found := nomatch found
  unmade _ _ := rfl

/-- Nothing takes a new value, and no node is made. -/
structure Dateless (world after : World κ ν σ) : Prop where
  changes : ∀ id, after.changesOf id = world.changesOf id
  stamps : ∀ id, (after.cell? id).map Cell.stamp = (world.cell? id).map Cell.stamp
  versions : ∀ owner id node, (after.graph owner).node? id = some node →
    ∃ old, (world.graph owner).node? id = some old ∧ node.version = old.version

theorem Dateless.dated (dateless : world.Dateless after) (dated : world.Dated) : after.Dated where
  home owner id node live := by
    obtain ⟨old, was, _⟩ := dateless.versions owner id node live
    obtain ⟨cell, found, home⟩ := dated.home owner id old was
    have stamp := dateless.stamps id
    rw [found] at stamp
    obtain ⟨cell', found', same⟩ := Option.map_eq_some_iff.mp stamp
    exact ⟨cell', found', (congrArg (·.1.1) same).trans home⟩
  version owner id node live := by
    obtain ⟨old, was, same⟩ := dateless.versions owner id node live
    rw [same, dated.version owner id old was, dateless.changes]
  value id cell found derived := by
    have stamp := dateless.stamps id
    rw [found] at stamp
    obtain ⟨old, was, same⟩ := Option.map_eq_some_iff.mp stamp.symm
    rw [dateless.changes, ← dated.value id old was ((congrArg (·.1.2) same).trans derived)]
    exact congrArg Prod.snd same.symm
  unmade id absent := by
    have stamp := dateless.stamps id
    rw [absent] at stamp
    rw [dateless.changes]
    exact dated.unmade id (Option.map_eq_none_iff.mp stamp.symm)

namespace Dateless

theorem refl (world : World κ ν σ) : world.Dateless world :=
  ⟨fun _ => rfl, fun _ => rfl, fun _ _ node live => ⟨node, live, rfl⟩⟩

theorem trans (start : world.Dateless middle) (finish : middle.Dateless after) :
    world.Dateless after where
  changes id := (finish.changes id).trans (start.changes id)
  stamps id := (finish.stamps id).trans (start.stamps id)
  versions owner id node live := by
    obtain ⟨between, live', same⟩ := finish.versions owner id node live
    obtain ⟨old, was, same'⟩ := start.versions owner id between live'
    exact ⟨old, was, same.trans same'⟩

/-- Cells and reactors stay as they are, and no change is recorded. -/
theorem of_alike {events : List (Event κ ν)} (cells : after.cells = world.cells)
    (reactors : after.reactors = world.reactors) (past : after.past = events ++ world.past)
    (silent : ∀ event ∈ events, ∀ id, event.change? id = none) : world.Dateless after := by
  refine ⟨fun id => ?_, fun id => ?_, fun owner id node live => ⟨node, ?_, rfl⟩⟩
  · have none : events.filterMap (Event.change? id) = [] :=
      List.filterMap_eq_nil_iff.mpr fun event member => silent event member id
    unfold changesOf
    rw [past, List.filterMap_append, none, List.nil_append]
  · unfold cell?
    rw [cells]
  · rwa [← graph_of_reactors reactors]

theorem record (world : World κ ν σ) {event : Event κ ν}
    (silent : ∀ id, event.change? id = none) : world.Dateless (world.record event) :=
  .of_alike rfl rfl (List.singleton_append).symm fun _ member => by
    rwa [List.mem_singleton.mp member]

/-- A change of what a reactor keeps besides its graph. -/
theorem modifyReactor (world : World κ ν σ) (owner : ReactorId) {change : Reactor → Reactor}
    (kept : ∀ state, (change state).graph = state.graph) :
    world.Dateless (world.modifyReactor owner change) := by
  refine ⟨fun _ => rfl, fun _ => rfl, fun other id node live => ⟨node, ?_, rfl⟩⟩
  rwa [graph_modifyReactor world owner fun state _ => kept state] at live

theorem pushFrame (world : World κ ν σ) (owner : ReactorId) (frame : Frame) :
    world.Dateless (world.modifyReactor owner (·.pushFrame frame)) :=
  .modifyReactor world owner fun _ => rfl

theorem popFrame (world : World κ ν σ) (owner : ReactorId) :
    world.Dateless (world.modifyReactor owner Reactor.popFrame) :=
  .modifyReactor world owner fun _ => rfl

theorem pushChain (world : World κ ν σ) (owner : ReactorId) (causes : List NodeId) :
    world.Dateless (world.modifyReactor owner (·.pushChain causes)) :=
  .modifyReactor world owner fun _ => rfl

theorem popChain (world : World κ ν σ) (owner : ReactorId) :
    world.Dateless (world.modifyReactor owner Reactor.popChain) :=
  .modifyReactor world owner fun _ => rfl

theorem openBatch (world : World κ ν σ) (owner : ReactorId) :
    world.Dateless (world.modifyReactor owner Reactor.openBatch) :=
  .modifyReactor world owner fun _ => rfl

theorem closeBatch (world : World κ ν σ) (owner : ReactorId) :
    world.Dateless (world.closeBatch owner).2 := by
  rw [closeBatch_snd]
  exact .modifyReactor world owner fun state => state.closeBatch_kept.1

/-- A change of a graph in which nodes keep their versions or leave. -/
theorem mapGraph (world : World κ ν σ) (owner : ReactorId) {change : Graph → Graph}
    (bare : change .empty = .empty)
    (versions : ∀ id node, (change (world.graph owner)).node? id = some node →
      ∃ old, (world.graph owner).node? id = some old ∧ node.version = old.version) :
    world.Dateless (world.mapGraph owner change) := by
  refine ⟨fun _ => rfl, fun _ => rfl, fun other id node live => ?_⟩
  rw [graph_mapGraph world owner bare] at live
  split at live
  next same =>
    subst same
    exact versions id node live
  next => exact ⟨node, live, rfl⟩

/-- A change of a graph that works node by node. -/
theorem mapGraph_of_rel (world : World κ ν σ) (owner : ReactorId) {change : Graph → Graph}
    (bare : change .empty = .empty)
    (nodes : ∀ id, Option.Rel (fun old node => node.version = old.version)
      ((world.graph owner).node? id) ((change (world.graph owner)).node? id)) :
    world.Dateless (world.mapGraph owner change) := by
  refine .mapGraph world owner bare fun id node live => ?_
  have related := nodes id
  rw [live] at related
  exact relOption_some related

theorem modifyNode (world : World κ ν σ) (owner : ReactorId) (id : NodeId) {change : Node → Node}
    (kept : ∀ node, (change node).id = node.id ∧ (change node).version = node.version) :
    world.Dateless (world.mapGraph owner (·.modify id change)) := by
  refine .mapGraph world owner rfl fun other node live => ?_
  rw [Graph.node?_modify _ fun node => (kept node).1] at live
  split at live
  next same =>
    subst same
    obtain ⟨old, was, rfl⟩ := Option.map_eq_some_iff.mp live
    exact ⟨old, was, (kept old).2⟩
  next => exact ⟨node, live, rfl⟩

theorem unsubscribe (world : World κ ν σ) (owner : ReactorId) (id : NodeId) :
    world.Dateless (world.mapGraph owner (·.unsubscribe id)) := by
  refine .mapGraph world owner rfl fun other node live => ?_
  obtain ⟨step, eq, kept⟩ := Graph.unsubscribe_cases (world.graph owner) id other
  rw [eq] at live
  obtain ⟨old, was, rfl⟩ := Option.map_eq_some_iff.mp live
  exact ⟨old, was, congrArg Prod.snd (kept old).2.1⟩

theorem resubscribe (world : World κ ν σ) (owner : ReactorId) (id : NodeId) :
    world.Dateless (world.mapGraph owner (·.resubscribe id)) :=
  .mapGraph_of_rel world owner rfl fun other =>
    relOption_mono (fun _ _ carries => carries.1) (Graph.carries_resubscribe _ id other)

theorem planPass (world : World κ ν σ) (owner : ReactorId) (sources : List NodeId) :
    world.Dateless (world.planPass owner sources).2 := by
  have planned : (world.planPass owner sources).2 =
      world.mapGraph owner fun graph => (graph.propagate sources).2 :=
    mapGraph_at world owner fun graph => (graph.propagate sources).2
  rw [planned]
  exact .mapGraph_of_rel world owner (Graph.propagate_empty sources) fun id =>
    relOption_mono (fun _ _ carries => carries.1) (Graph.carries_propagate _ sources id)

/-- A change of one cell that leaves it its place and the value that it has kept. -/
theorem modifyCell (world : World κ ν σ) (id : NodeId) {change : Cell κ ν → Cell κ ν}
    (kept : ∀ cell, (change cell).stamp = cell.stamp) :
    world.Dateless (world.modifyCell id change) := by
  refine ⟨fun _ => rfl, fun other => ?_, fun _ _ node live => ⟨node, live, rfl⟩⟩
  rw [cell?_modifyCell]
  split
  next same =>
    subst same
    rw [Option.map_map]
    congr 1
    funext cell
    exact kept cell
  next => rfl

theorem modifySignal (world : World κ ν σ) (id : NodeId) {change : Signal ν → Signal ν}
    (home : ∀ state, (change state).reactor = state.reactor) :
    world.Dateless (world.modifySignal id change) :=
  .modifyCell world id fun cell => by
    cases cell with
    | signal state => exact congrArg (fun owner => ((owner, NodeKind.source), none)) (home state)
    | computed => rfl
    | effect => rfl

theorem modifyEffect (world : World κ ν σ) (id : NodeId) {change : Effect κ → Effect κ}
    (home : ∀ state, (change state).reactor = state.reactor) :
    world.Dateless (world.modifyEffect id change) :=
  .modifyCell world id fun cell => by
    cases cell with
    | effect state => exact congrArg (fun owner => ((owner, NodeKind.effect), none)) (home state)
    | signal => rfl
    | computed => rfl

/-- An evaluation begins or ends. -/
theorem computing (world : World κ ν σ) (id : NodeId) (flag : Bool) :
    world.Dateless (world.modifyComputed id ({ · with computing := flag })) :=
  .modifyCell world id fun cell => by cases cell <;> rfl

theorem hold (world : World κ ν σ) (handle : Handle) : world.Dateless (world.hold handle) := by
  cases handle with
  | reactor owner => exact .modifyReactor world owner fun _ => rfl
  | node id => exact .modifyCell world id fun cell => cell.stamp_withHolders _

theorem lose (world : World κ ν σ) (handle : Handle) : world.Dateless (world.lose handle) := by
  cases handle with
  | reactor owner => exact .modifyReactor world owner fun _ => rfl
  | node id => exact .modifyCell world id fun cell => cell.stamp_withHolders _

theorem foldl_hold {α : Type} (members : List α) (handle : α → Handle) (world : World κ ν σ) :
    world.Dateless (members.foldl (fun world member => world.hold (handle member)) world) := by
  induction members generalizing world with
  | nil => exact .refl world
  | cons member rest ih => exact (hold world (handle member)).trans (ih _)

theorem unregister (world : World κ ν σ) (id : NodeId) :
    world.Dateless (world.unregister id).2 := by
  unfold World.unregister
  split
  next => exact .refl world
  next cell _ =>
    dsimp only
    rw [removeNode_eq]
    refine trans (.mapGraph world cell.reactor rfl fun other node live => ?_)
      (.modifyReactor _ cell.reactor fun _ => rfl)
    obtain ⟨_, old, was, version, _⟩ := Graph.remove_keeps live
    exact ⟨old, was, version⟩

theorem perish (world : World κ ν σ) (handle : Handle) :
    world.Dateless (world.perish handle).2 := by
  cases handle with
  | reactor owner =>
    have emptied : world.Dateless (world.mapGraph owner fun _ => .empty) :=
      .mapGraph world owner rfl fun _ _ live => nomatch live
    exact emptied.trans (.record _ fun _ => rfl)
  | node id =>
    unfold World.perish
    dsimp only
    split
    next => exact .refl world
    next => exact .unregister world id
    next => exact .refl world

theorem shed (world : World κ ν σ) (handle : Handle) : world.Dateless (world.shed handle) := by
  unfold World.shed
  split
  next => exact (lose world handle).trans (perish _ handle)
  next => exact lose world handle

theorem noteRead (world : World κ ν σ) (owner : ReactorId) (read : NodeId) :
    world.Dateless (world.noteRead owner read) := by
  unfold World.noteRead
  split
  next reader _ =>
    have connected : world.Dateless (world.mapGraph owner (·.connect read reader)) :=
      .mapGraph_of_rel world owner (Graph.connect_empty read reader) fun id =>
        relOption_mono (fun _ _ carries => carries.1) (Graph.carries_connect _ read reader id)
    exact connected.trans (.record _ fun _ => rfl)
  next => exact .record world fun _ => rfl

theorem noteWrite (world : World κ ν σ) (owner : ReactorId) (source : NodeId) :
    world.Dateless (world.noteWrite owner source) := by
  unfold World.noteWrite
  split
  next writer _ =>
    have noted : world.Dateless (world.mapGraph owner (·.noteWrite source writer)) :=
      .mapGraph_of_rel world owner rfl fun id =>
        relOption_mono (fun _ _ carries => carries.1) (Graph.carries_noteWrite _ source writer id)
    exact noted.trans (.record _ fun _ => rfl)
  next => exact .record world fun _ => rfl

theorem enter (world : World κ ν σ) (id : NodeId) (owner : ReactorId) :
    world.Dateless (world.enter id owner) :=
  (((computing world id true).trans (unsubscribe _ owner id)).trans
    (.record _ fun _ => rfl)).trans (pushFrame _ owner _)

theorem leave (world : World κ ν σ) (id : NodeId) (owner : ReactorId) (panicked : Bool) :
    world.Dateless (world.leave id owner panicked) :=
  ((popFrame world owner).trans (.record _ fun _ => rfl)).trans (computing _ id false)

theorem engage (world : World κ ν σ) (id : NodeId) (owner : ReactorId) :
    world.Dateless (world.engage id owner) := by
  have executing : world.Dateless (world.modifyEffect id ({ · with executing := true })) :=
    .modifyEffect world id fun _ => rfl
  exact (executing.trans (.unsubscribe _ owner id)).trans (.modifyEffect _ id fun _ => rfl)

theorem enterBody (world : World κ ν σ) (id : NodeId) (owner : ReactorId) :
    world.Dateless (world.enterBody id owner) :=
  (record world fun _ => rfl).trans (pushFrame _ owner _)

theorem leaveBody (world : World κ ν σ) (id : NodeId) (owner : ReactorId) (panicked : Bool) :
    world.Dateless (world.leaveBody id owner panicked) :=
  (popFrame world owner).trans (.record _ fun _ => rfl)

theorem enterPass (world : World κ ν σ) (owner : ReactorId) (sources : List NodeId) :
    world.Dateless (world.enterPass owner sources) :=
  ((record world fun _ => rfl).trans (planPass _ owner sources)).trans (foldl_hold _ _ _)

end Dateless

/-- A new value is one change more, of the node that it belongs to. -/
theorem changesOf_changed (world : World κ ν σ) (id : NodeId) (value : ν) (other : NodeId) :
    (world.record (.changed id value)).changesOf other =
      if other = id then value :: world.changesOf id else world.changesOf other := by
  unfold changesOf World.record
  rw [List.filterMap_cons]
  split
  next none =>
    rw [if_neg]
    rintro rfl
    exact absurd none (by simp [Event.change?])
  next value' changed =>
    obtain ⟨rfl, rfl⟩ : id = other ∧ value = value' := by simpa [Event.change?] using changed
    rw [if_pos rfl]

/-- A cell takes a new value, and its node a new version. -/
private theorem Dated.renew (dated : world.Dated) {cell : Cell κ ν}
    (found : world.cell? id = some cell) {value : ν} {change : Cell κ ν → Cell κ ν}
    (place : (change cell).place = cell.place)
    (kept : cell.kind = .derived → (change cell).value? = some value) {step : Node → Node}
    (moved : ∀ node, (step node).id = node.id ∧ (step node).version = node.version + 1) :
    (((world.modifyCell id change).mapGraph cell.reactor (·.modify id step)).record
      (.changed id value)).Dated := by
  have nodes : ∀ owner other, (((world.modifyCell id change).mapGraph cell.reactor
      (·.modify id step)).graph owner).node? other =
        if owner = cell.reactor ∧ other = id then ((world.graph owner).node? id).map step
        else (world.graph owner).node? other := by
    intro owner other
    rw [graph_mapGraph _ _ rfl]
    by_cases here : owner = cell.reactor
    · subst here
      rw [if_pos rfl]
      simp only [true_and]
      exact Graph.node?_modify _ (fun node => (moved node).1) id other
    · rw [if_neg here, if_neg fun both => here both.1]
      rfl
  have cells : ∀ other, ((world.modifyCell id change).mapGraph cell.reactor
      (·.modify id step)).cell? other =
        if other = id then some (change cell) else world.cell? other := by
    intro other
    refine (cell?_modifyCell world id other change).trans ?_
    rw [found]
    rfl
  have changes : ∀ other, (((world.modifyCell id change).mapGraph cell.reactor
      (·.modify id step)).record (.changed id value)).changesOf other =
        if other = id then value :: world.changesOf id else world.changesOf other :=
    changesOf_changed _ id value
  refine ⟨fun owner other node live => ?_, fun owner other node live => ?_,
    fun other cell' found' derived => ?_, fun other absent => ?_⟩
  · have live' := (nodes owner other).symm.trans live
    show ∃ cell', ((world.modifyCell id change).mapGraph cell.reactor
      (·.modify id step)).cell? other = some cell' ∧ _
    rw [cells]
    split at live'
    next here => exact ⟨_, if_pos here.2, (congrArg Prod.fst place).trans here.1.symm⟩
    next =>
      obtain ⟨own, known, home⟩ := dated.home owner other node live'
      by_cases same : other = id
      · subst same
        cases found.symm.trans known
        exact ⟨_, if_pos rfl, (congrArg Prod.fst place).trans home⟩
      · exact ⟨own, (if_neg same).trans known, home⟩
  · have live' := (nodes owner other).symm.trans live
    rw [changes]
    split at live'
    next here =>
      obtain ⟨old, was, rfl⟩ := Option.map_eq_some_iff.mp live'
      rw [if_pos here.2, (moved old).2, dated.version owner id old was]
      rfl
    next away =>
      rw [if_neg, dated.version owner other node live']
      -- A node of this name lives in the graph of its cell alone.
      rintro rfl
      obtain ⟨own, known, home⟩ := dated.home owner other node live'
      cases found.symm.trans known
      exact away ⟨home.symm, rfl⟩
  · have found'' := (cells other).symm.trans found'
    rw [changes]
    split at found''
    next here =>
      cases found''
      rw [if_pos here, kept ((congrArg Prod.snd place).symm.trans derived)]
      rfl
    next apart =>
      rw [if_neg apart]
      exact dated.value other cell' found'' derived
  · have absent' := (cells other).symm.trans absent
    rw [changes]
    split at absent'
    next => cases absent'
    next apart =>
      rw [if_neg apart]
      exact dated.unmade other absent'

theorem Dated.put (dated : world.Dated) {signal : Signal ν} (found : world.signal? id = some signal)
    (value : ν) : (world.put signal.reactor id value).Dated :=
  dated.renew (signal?_eq_some_iff.mp found) rfl nofun fun _ => ⟨rfl, rfl⟩

/-- A value that an evaluation gives is a change if it is not the one that was kept. -/
theorem Dated.settleValue [BEq ν] (dated : world.Dated) {present computed : Computed κ ν}
    (found : world.computed? id = some present) (home : present.reactor = computed.reactor)
    (value : ν) : (world.settleValue id computed value).Dated := by
  rcases settleValue_eq_or world id computed value with same | renewed
  · rw [same]
    have marked : world.Dateless (world.mapGraph computed.reactor (·.modify id Node.markClean)) :=
      .modifyNode world _ id fun _ => ⟨rfl, rfl⟩
    exact marked.dated dated
  · rw [renewed, ← home]
    exact dated.renew (computed?_eq_some_iff.mp found) rfl (fun _ => rfl) fun _ => ⟨rfl, rfl⟩

/-- A new node has no version yet, and a new computed no value. -/
theorem Dated.addCell (dated : world.Dated) (cell : Cell κ ν) (bare : cell.value? = none) :
    (world.addCell cell cell.kind).2.Dated := by
  have nodes : ∀ owner id node, ((world.addCell cell cell.kind).2.graph owner).node? id = some node →
      owner = cell.reactor ∧ id = world.nextId ∧ node.version = 0 ∨
        (world.graph owner).node? id = some node := by
    intro owner id node live
    rcases graph_addCell_cases world cell owner with same | ⟨home, _, inserted⟩
    · exact Or.inr (same ▸ live)
    · rw [inserted, Graph.node?_insert] at live
      split at live
      next here =>
        cases live
        exact Or.inl ⟨home, here, rfl⟩
      next => exact Or.inr live
  have none : world.changesOf world.nextId = [] := dated.unmade _ world.cell?_nextId
  refine ⟨fun owner id node live => ?_, fun owner id node live => ?_,
    fun id cell' found derived => ?_, fun id absent => ?_⟩
  · rw [cell?_addCell]
    rcases nodes owner id node live with ⟨home, here, _⟩ | was
    · exact ⟨cell, if_pos here, home.symm⟩
    · obtain ⟨own, known, home⟩ := dated.home owner id node was
      refine ⟨own, (if_neg ?_).trans known, home⟩
      rintro rfl
      cases world.cell?_nextId.symm.trans known
  · show node.version = (world.changesOf id).length
    rcases nodes owner id node live with ⟨_, rfl, version⟩ | was
    · rw [version, none]
      rfl
    · exact dated.version owner id node was
  · show cell'.value? = (world.changesOf id).head?
    rw [cell?_addCell] at found
    split at found
    next here =>
      cases found
      rw [here, none, bare]
      rfl
    next => exact dated.value id cell' found derived
  · rw [cell?_addCell] at absent
    split at absent
    next => cases absent
    next => exact dated.unmade id absent

theorem Change.dated (change : world.Change after) (dated : world.Dated) : after.Dated := by
  cases change with
  | aside events remarks past cells reactors =>
    have silent : world.Dateless after := .of_alike cells reactors past fun event member id =>
      (remarks event member).change? id
    exact silent.dated dated
  | hold handle => exact (Dateless.hold world handle).dated dated
  | shed handle => exact (Dateless.shed world handle).dated dated
  | @stop id effect =>
    have stopped : world.Dateless (world.modifyEffect id ({ · with active := false })) :=
      .modifyEffect world id fun _ => rfl
    exact ((stopped.trans (.hold _ _)).trans (.unregister _ id)).dated dated
  | abandon =>
    refine Dateless.dated (.modifyEffect world _ ?_) dated
    exact fun _ => rfl
  | @destroy id =>
    have destroyed : world.Dateless (world.modifySignal id ({ · with destroyed := true })) :=
      .modifySignal world id fun _ => rfl
    exact (destroyed.trans (.unregister _ id)).dated dated
  | defer found =>
    refine Dateless.dated (.modifyReactor _ _ ?_) (dated.put found _)
    exact fun _ => rfl
  | putLost found => exact dated.put found _
  | noteWrite => exact (Dateless.noteWrite world _ _).dated dated
  | addReactor settings =>
    have founded : world.Dateless { world with reactors := world.reactors ++ [.new settings] } :=
      ⟨fun _ => rfl, fun _ => rfl, fun owner id node live =>
        ⟨node, (graph_newReactor world settings owner) ▸ live, rfl⟩⟩
    exact founded.dated dated
  | addHolding cell new =>
    refine ((Dateless.hold world _).dated dated).addCell cell ?_
    cases cell with
    | signal => rfl
    | computed state => exact new.1
    | effect => rfl
  | addEffect owner body => exact dated.addCell _ rfl
  | label =>
    refine Dateless.dated (.modifyNode world _ _ ?_) dated
    exact fun _ => ⟨rfl, rfl⟩
  | tweak id kept => exact (Dateless.modifyEffect world id fun effect => (kept effect).1).dated dated

end World

open World in
/-- Whatever a run does, versions go on counting changes. -/
theorem Trail.dated [BEq ν] {program : Program κ ν σ} {phase : Phase}
    {world after : World κ ν σ} (trail : Trail program phase world after) (dated : world.Dated) :
    after.Dated := by
  induction trail with
  | refl => exact dated
  | trans _ _ start finish => exact finish (start dated)
  | serve _ serving => exact serving dated
  | change change => exact change.dated dated
  | read => exact (Dateless.noteRead _ _ _).dated dated
  | untracked owner _ inside =>
    exact (Dateless.popFrame _ owner).dated (inside ((Dateless.pushFrame _ owner _).dated dated))
  | cleanup _ _ inside =>
    exact (Dateless.popFrame _ _).dated (inside ((Dateless.pushFrame _ _ _).dated dated))
  | batch owner _ _ inside =>
    exact (Dateless.closeBatch _ owner).dated (inside ((Dateless.openBatch _ owner).dated dated))
  | flush owner _ _ _ inside pass =>
    exact pass ((Dateless.closeBatch _ owner).dated
      (inside ((Dateless.openBatch _ owner).dated dated)))
  | store found _ _ _ pass => exact pass (dated.put found _)
  | refresh _ _ inside => exact inside dated
  | execute _ run => exact run ((Dateless.record _ fun _ => rfl).dated dated)
  | born owner body _ run => exact run ((Change.addEffect owner body).dated dated)
  | confirm =>
    refine Dateless.dated (.modifyNode _ _ _ ?_) dated
    exact fun _ => ⟨rfl, rfl⟩
  | @evaluate world id computed present inner found home idle inside' result inside =>
    have ran := inside ((Dateless.enter world id computed.reactor).dated dated)
    have left := fun panicked => (Dateless.leave inner id computed.reactor panicked).dated ran
    cases result with
    | error panic =>
      refine Dateless.dated (.modifyNode _ _ id ?_) (left true)
      exact fun _ => ⟨rfl, rfl⟩
    | ok value =>
      have leads := ((leads_enter world id computed.reactor).trans inside'.leads).trans
        (leads_leave inner id computed.reactor false)
      obtain ⟨present', found', home'⟩ := leads.computed found
      exact (left false).settleValue found' (home'.trans home) value
  | decline => exact dated
  | @run _ id effect middle inner last _ panicked _ _ _ _ _ _ _ _ cleaned inside settled released =>
    have engaged := (Dateless.engage _ id effect.reactor).dated
      ((Dateless.hold _ (.reactor effect.reactor)).dated dated)
    have ran := inside ((Dateless.enterBody _ id effect.reactor).dated (cleaned engaged))
    have counted : (inner.leaveBody id effect.reactor panicked).Dateless
        ((inner.leaveBody id effect.reactor panicked).countRun id) :=
      .modifyEffect _ id fun _ => rfl
    have ended : last.Dateless (last.endRun id) := .modifyEffect _ id fun _ => rfl
    have left := (Dateless.leaveBody inner id effect.reactor panicked).dated ran
    exact released (ended.dated (settled (counted.dated left)))
  | skip => exact dated
  | again => exact (Dateless.resubscribe _ _ _).dated dated
  | spare _ _ _ _ asked => exact asked dated
  | wake _ _ _ _ _ asked run =>
    exact (Dateless.popChain _ _).dated (run ((Dateless.pushChain _ _ _).dated (asked dated)))
  | done => exact dated
  | next _ _ _ visit drop others => exact others (drop (visit dated))
  | pass _ visits =>
    exact (Dateless.record _ fun _ => rfl).dated
      (visits ((Dateless.enterPass _ _ _).dated dated))

/-- In every world that a program comes to, versions count changes. -/
theorem Program.run_dated [BEq ν] (program : Program κ ν σ) {α : Type} {depth : Nat}
    {act : Act κ ν σ α} {user : σ} {result : Except Panic α} {world : World κ ν σ}
    (ran : program.run depth act (World.initial user) = some (result, world)) : world.Dated :=
  (Program.run_traces program depth act _ _ _ ran).dated (World.initial_dated user)

end ReactiveTree
