import ReactiveTree.Proofs.Reactive.Pending

/-! # Steps that leave the queue alone

Most of what happens on a trail neither adds to the queue of a reactor nor takes from it: marks and
edges, cells and their handles, frames and chains, and new values as such.
-/

namespace ReactiveTree

variable {κ ν σ : Type}

namespace World

variable {world after : World κ ν σ} {owner : ReactorId}

theorem pending_of_reactors (same : after.reactors = world.reactors) (owner : ReactorId) :
    after.pending owner = world.pending owner := by
  unfold pending reactor?
  rw [same]

theorem pending_modifyReactor (world : World κ ν σ) (home : ReactorId) {change : Reactor → Reactor}
    (kept : ∀ state, (change state).pending = state.pending) (owner : ReactorId) :
    (world.modifyReactor home change).pending owner = world.pending owner := by
  unfold pending
  rw [reactor?_modifyReactor]
  split
  next same =>
    subst same
    cases world.reactor? owner with
    | none => rfl
    | some state => exact kept state
  next => rfl

theorem Undisturbed.of_same (cells : after.cells = world.cells)
    (reactors : after.reactors = world.reactors) : Undisturbed owner world after := by
  have same : ∀ id, after.cell? id = world.cell? id := fun id => by unfold cell?; rw [cells]
  refine ⟨fun id known => by rwa [same], fun id _ => ?_, fun id keeps => ?_, fun id _ => ?_,
    pending_of_reactors reactors owner⟩
  · unfold World.owns
    rw [same]
  · obtain ⟨signal, found, stands⟩ := keeps
    exact ⟨signal, by rw [signal?_eq_some_iff, same, signal?_eq_some_iff.mp found], stands⟩
  · rw [graph_of_reactors reactors]

theorem undisturbed_record (world : World κ ν σ) (event : Event κ ν) :
    Undisturbed owner world (world.record event) :=
  .of_same rfl rfl

theorem undisturbed_modifyCell (world : World κ ν σ) (id : NodeId) {change : Cell κ ν → Cell κ ν}
    (place : ∀ cell, (change cell).place = cell.place)
    (kept : ∀ signal, ∃ signal', change (.signal signal) = .signal signal' ∧
      signal'.destroyed = signal.destroyed) :
    Undisturbed owner world (world.modifyCell id change) := by
  have cells : ∀ other cell, world.cell? other = some cell → ∃ cell',
      (world.modifyCell id change).cell? other = some cell' ∧ (cell' = cell ∨ cell' = change cell) := by
    intro other cell found
    rw [cell?_modifyCell]
    split
    next same =>
      subst same
      exact ⟨change cell, by rw [found]; rfl, Or.inr rfl⟩
    next => exact ⟨cell, found, Or.inl rfl⟩
  refine ⟨fun other known => ?_, fun other known => ?_, fun other keeps => ?_, fun _ _ => rfl, rfl⟩
  · obtain ⟨cell, found⟩ := Option.isSome_iff_exists.mp known
    obtain ⟨cell', found', _⟩ := cells other cell found
    rw [found']
    rfl
  · obtain ⟨cell, found⟩ := Option.isSome_iff_exists.mp known
    obtain ⟨cell', found', changed⟩ := cells other cell found
    rw [owns_of_cell found, owns_of_cell found']
    rcases changed with rfl | rfl
    · rfl
    · rw [place]
  · obtain ⟨signal, found, rfl, stands⟩ := keeps
    obtain ⟨cell', found', changed⟩ := cells other _ (signal?_eq_some_iff.mp found)
    rcases changed with rfl | rfl
    · exact ⟨signal, signal?_eq_some_iff.mpr found', rfl, stands⟩
    · obtain ⟨signal', same, destroyed⟩ := kept signal
      have places := place (.signal signal)
      rw [same] at found' places
      exact ⟨signal', signal?_eq_some_iff.mpr found', congrArg Prod.fst places,
        destroyed.trans stands⟩

theorem undisturbed_modifyEffect (world : World κ ν σ) (id : NodeId) {change : Effect κ → Effect κ}
    (kept : ∀ effect, (change effect).reactor = effect.reactor) :
    Undisturbed owner world (world.modifyEffect id change) := by
  refine undisturbed_modifyCell world id (fun cell => ?_) fun signal => ⟨signal, rfl, rfl⟩
  cases cell with
  | effect state => exact congrArg (·, NodeKind.effect) (kept state)
  | signal => rfl
  | computed => rfl

theorem undisturbed_modifyComputed (world : World κ ν σ) (id : NodeId)
    {change : Computed κ ν → Computed κ ν}
    (kept : ∀ computed, (change computed).reactor = computed.reactor) :
    Undisturbed owner world (world.modifyComputed id change) := by
  refine undisturbed_modifyCell world id (fun cell => ?_) fun signal => ⟨signal, rfl, rfl⟩
  cases cell with
  | computed state => exact congrArg (·, NodeKind.derived) (kept state)
  | signal => rfl
  | effect => rfl

theorem undisturbed_modifyReactor (world : World κ ν σ) (home : ReactorId)
    (change : Reactor → Reactor) (pending : ∀ state, (change state).pending = state.pending)
    (live : ∀ state id, (change state).graph.contains id = state.graph.contains id) :
    Undisturbed owner world (world.modifyReactor home change) := by
  refine ⟨fun _ known => known, fun _ _ => rfl, fun _ keeps => keeps, fun id _ => ?_,
    pending_modifyReactor world home pending owner⟩
  unfold graph
  rw [reactor?_modifyReactor]
  split
  next same =>
    subst same
    cases world.reactor? owner with
    | none => rfl
    | some state => exact live state id
  next => rfl

theorem undisturbed_mapGraph (world : World κ ν σ) (home : ReactorId) (change : Graph → Graph)
    (live : ∀ graph id, (change graph).contains id = graph.contains id) :
    Undisturbed owner world (world.mapGraph home change) :=
  undisturbed_modifyReactor world home (·.mapGraph change) (fun _ => rfl)
    fun state id => live state.graph id

theorem undisturbed_modifyNode (world : World κ ν σ) (home : ReactorId) (id : NodeId)
    (change : Node → Node) (kept : ∀ node, (change node).id = node.id) :
    Undisturbed owner world (world.mapGraph home (·.modify id change)) :=
  undisturbed_mapGraph world home _ fun graph other => graph.contains_modify id change kept other

theorem undisturbed_hold (world : World κ ν σ) (handle : Handle) :
    Undisturbed owner world (world.hold handle) := by
  cases handle with
  | reactor home =>
    exact undisturbed_modifyReactor world home _ (fun _ => rfl) fun _ _ => rfl
  | node id =>
    exact undisturbed_modifyCell world id (fun cell => cell.place_withHolders _)
      fun signal => ⟨_, rfl, rfl⟩

theorem undisturbed_lose (world : World κ ν σ) (handle : Handle) :
    Undisturbed owner world (world.lose handle) := by
  cases handle with
  | reactor home =>
    exact undisturbed_modifyReactor world home _ (fun _ => rfl) fun _ _ => rfl
  | node id =>
    exact undisturbed_modifyCell world id (fun cell => cell.place_withHolders _)
      fun signal => ⟨_, rfl, rfl⟩

theorem undisturbed_foldl_hold (members : List Visit) (world : World κ ν σ) :
    Undisturbed owner world (members.foldl
      (fun world entry => world.hold (.node entry.wakeup.effect)) world) := by
  induction members generalizing world with
  | nil => exact .refl world
  | cons member rest ih => exact (undisturbed_hold world _).trans (ih _)

theorem undisturbed_noteRead (world : World κ ν σ) (home : ReactorId) (id : NodeId) :
    Undisturbed owner world (world.noteRead home id) := by
  unfold noteRead
  split
  next reader _ =>
    exact (undisturbed_mapGraph world home (·.connect id reader) fun graph other =>
      graph.contains_connect id reader other).trans (undisturbed_record _ _)
  next => exact undisturbed_record world _

theorem undisturbed_noteWrite (world : World κ ν σ) (home : ReactorId) (id : NodeId) :
    Undisturbed owner world (world.noteWrite home id) := by
  unfold noteWrite
  split
  next writer _ =>
    exact (undisturbed_mapGraph world home (·.noteWrite id writer) fun graph other =>
      graph.contains_noteWrite id writer other).trans (undisturbed_record _ _)
  next => exact undisturbed_record world _

theorem past_noteRead (world : World κ ν σ) (home : ReactorId) (id : NodeId) :
    ∃ reader, (world.noteRead home id).past = [.read id reader] ++ world.past := by
  unfold noteRead
  split
  next => exact ⟨_, rfl⟩
  next => exact ⟨_, rfl⟩

theorem past_noteWrite (world : World κ ν σ) (home : ReactorId) (id : NodeId) :
    ∃ writer, (world.noteWrite home id).past = [.wrote id writer] ++ world.past := by
  unfold noteWrite
  split
  next => exact ⟨_, rfl⟩
  next => exact ⟨_, rfl⟩

theorem undisturbed_put (world : World κ ν σ) (home : ReactorId) (id : NodeId) (value : ν) :
    Undisturbed owner world (world.put home id value) := by
  have valued : Undisturbed owner world (world.modifySignal id fun signal => { signal with value }) :=
    undisturbed_modifyCell world id (fun cell => by cases cell <;> rfl) fun _ => ⟨_, rfl, rfl⟩
  exact (valued.trans (undisturbed_modifyNode _ home id Node.bump fun _ => rfl)).trans
    (undisturbed_record _ _)

theorem undisturbed_addCell (world : World κ ν σ) (cell : Cell κ ν) :
    Undisturbed owner world (world.addCell cell cell.kind).2 := by
  have kept : ∀ id, (world.cell? id).isSome →
      (world.addCell cell cell.kind).2.cell? id = world.cell? id := by
    intro id known
    rw [cell?_addCell, if_neg]
    rintro rfl
    rw [cell?_nextId] at known
    cases known
  refine ⟨fun id known => by rwa [kept id known], fun id known => ?_, fun id keeps => ?_,
    fun id known => ?_, ?_⟩
  · unfold World.owns
    rw [kept id known]
  · obtain ⟨signal, found, stands⟩ := keeps
    refine ⟨signal, ?_, stands⟩
    rw [signal?_eq_some_iff, kept id (Keeps.known ⟨signal, found, stands⟩), signal?_eq_some_iff.mp found]
  · rcases graph_addCell_cases world cell owner with same | ⟨_, _, inserted⟩
    · rw [same]
    · rw [inserted]
      unfold Graph.contains
      rw [Graph.node?_insert, if_neg]
      rintro rfl
      change (world.cell? world.nextId).isSome at known
      rw [cell?_nextId] at known
      cases known
  · refine pending_modifyReactor { world with cells := world.cells ++ [cell] } cell.reactor ?_ owner
    exact fun _ => rfl

theorem undisturbed_addReactor (world : World κ ν σ) (settings : Settings) :
    Undisturbed owner world
      ({ world with reactors := world.reactors ++ [.new settings] } : World κ ν σ) := by
  refine ⟨fun _ known => known, fun _ _ => rfl, fun _ keeps => keeps, fun id _ => ?_, ?_⟩
  · rw [graph_newReactor]
  · unfold World.pending
    rcases reactor?_newReactor world settings owner with same | ⟨absent, new⟩
    · rw [same]
    · rw [absent, new]
      rfl

theorem undisturbed_engage (world : World κ ν σ) (id : NodeId) (home : ReactorId) :
    Undisturbed owner world (world.engage id home) := by
  have executing : Undisturbed owner world (world.modifyEffect id ({ · with executing := true })) :=
    undisturbed_modifyEffect world id fun _ => rfl
  exact (executing.trans (undisturbed_mapGraph _ home (·.unsubscribe id)
    fun graph other => graph.contains_unsubscribe id other)).trans
      (undisturbed_modifyEffect _ id fun _ => rfl)

theorem undisturbed_popFrame (world : World κ ν σ) (home : ReactorId) :
    Undisturbed owner world (world.modifyReactor home Reactor.popFrame) :=
  undisturbed_modifyReactor world home Reactor.popFrame (fun _ => rfl) fun _ _ => rfl

theorem undisturbed_leaveBody (world : World κ ν σ) (id : NodeId) (home : ReactorId)
    (panicked : Bool) : Undisturbed owner world (world.leaveBody id home panicked) :=
  (undisturbed_popFrame world home).trans (undisturbed_record _ _)

theorem undisturbed_enterPass (world : World κ ν σ) (home : ReactorId) (sources : List NodeId) :
    Undisturbed owner world (world.enterPass home sources) := by
  have planned : ((world.record (.passStarted home sources)).planPass home sources).2 =
      (world.record (.passStarted home sources)).mapGraph home
        fun graph => (graph.propagate sources).2 :=
    mapGraph_at _ home fun graph => (graph.propagate sources).2
  have marked : Undisturbed owner (world.record (.passStarted home sources))
      ((world.record (.passStarted home sources)).planPass home sources).2 := by
    rw [planned]
    exact undisturbed_mapGraph _ home _ fun graph id => graph.contains_propagate sources id
  exact ((undisturbed_record world _).trans marked).trans (undisturbed_foldl_hold _ _)

theorem undisturbed_leave (world : World κ ν σ) (id : NodeId) (home : ReactorId)
    (panicked : Bool) : Undisturbed owner world (world.leave id home panicked) :=
  (undisturbed_leaveBody world id home panicked).trans (undisturbed_modifyComputed _ id fun _ => rfl)

theorem undisturbed_settleValue [BEq ν] (world : World κ ν σ) (id : NodeId)
    (computed : Computed κ ν) (value : ν) :
    Undisturbed owner world (world.settleValue id computed value) := by
  unfold settleValue
  extract_lets same
  split
  next => exact undisturbed_modifyNode world computed.reactor id Node.markClean fun _ => rfl
  next =>
    have valued : Undisturbed owner world
        (world.modifyComputed id ({ · with value := some value })) :=
      undisturbed_modifyComputed world id fun _ => rfl
    exact (valued.trans (undisturbed_modifyNode _ computed.reactor id
      (fun node => node.bump.markClean) fun _ => rfl)).trans (undisturbed_record _ _)

theorem undisturbed_afterEvaluation [BEq ν] (world : World κ ν σ) (id : NodeId)
    (computed : Computed κ ν) (result : Except Panic ν) :
    Undisturbed owner world (world.afterEvaluation id computed result).2 := by
  cases result with
  | error panic =>
    exact (undisturbed_leave world id computed.reactor true).trans
      (undisturbed_modifyNode _ computed.reactor id Node.markDirty fun _ => rfl)
  | ok value =>
    exact (undisturbed_leave world id computed.reactor false).trans
      (undisturbed_settleValue _ id computed value)

end World

end ReactiveTree
