import ReactiveTree.Proofs.Reactive.Listing
import ReactiveTree.Reactive.Propagation

/-! # Readers stay listed as nodes come and go

Making and retiring nodes, giving handles back and showing trees keep readers listed. Marking what
changed sources reach does so too, except that the pass owes a visit to each effect that it wakes
for certain.
-/

namespace ReactiveTree

variable {κ ν σ : Type}

/-- What a pass owes while a visit is still to be made: the visit, if it is made for certain. -/
def Visit.debts (entry : Visit) : List (NodeId × Nat) :=
  if entry.wakeup.certain then [(entry.wakeup.effect, entry.runs)] else []

/-- Some effects of a reactor are still to be visited. -/
def Tally.visiting (tally : Tally) (owner : ReactorId) (visits : List Visit) : Tally :=
  { tally with
    owed := visits.flatMap Visit.debts ++ tally.owed
    known := fun id place =>
      place = (owner, .effect) ∧ (∃ entry ∈ visits, entry.wakeup.effect = id) ∨
        tally.known id place }

namespace World

variable {world after : World κ ν σ} {tally tally' : Tally}

theorem removeNode_eq (world : World κ ν σ) (owner : ReactorId) (id : NodeId) :
    world.modifyReactor owner (·.removeNode id) =
      (world.mapGraph owner (·.remove id)).modifyReactor owner fun reactor =>
        { reactor with pending := reactor.pending.erase id } := by
  refine ext_of_lookups (fun other => ?_) (fun _ => rfl) rfl rfl rfl rfl
  unfold World.mapGraph
  rw [reactor?_modifyReactor, reactor?_modifyReactor, reactor?_modifyReactor, if_pos rfl,
    Option.map_map]
  split
  next => rfl
  next apart => rw [reactor?_modifyReactor, if_neg apart]

theorem Listed.unregister (listed : world.Listed tally) (id : NodeId) :
    (world.unregister id).2.Listed tally := by
  unfold World.unregister
  split
  next => exact listed
  next cell _ =>
    dsimp only
    rw [removeNode_eq]
    have removed : (world.mapGraph cell.reactor (·.remove id)).Listed tally := by
      refine listed.mapGraph cell.reactor rfl (fun other node found => ?_) (fun _ _ holds => holds)
        ((listed.lists cell.reactor).remove id) fun other _ => listed.lists other
      obtain ⟨_, old, was, kind, _, fewer, _⟩ := Graph.remove_cases found
      exact ⟨old, was, kind, fun _ member => Or.inl (fewer member)⟩
    exact removed.modifyRecords cell.reactor fun _ => ⟨rfl, rfl⟩

/-- A handle that is not the last one is given back. -/
theorem Listed.lose (listed : world.Listed tally) {handle : Handle}
    (held : world.holdersOf handle ≠ 1) : (world.lose handle).Listed tally := by
  cases handle with
  | reactor id =>
    refine listed.modifyReactor id (fun _ _ => rfl) fun state found living => ?_
    have several : state.holders ≠ 1 := by
      have counted : ((world.reactor? id).map Reactor.holders).getD 0 ≠ 1 := held
      rwa [found] at counted
    have positive : 0 < state.holders := of_decide_eq_true living
    exact decide_eq_true (by dsimp only; omega)
  | node id => exact listed.modifyCell id fun cell => cell.withHolders_face _

/-- What loses its last handle perishes. -/
theorem Listed.perish (listed : world.Listed tally) (handle : Handle) :
    ((world.lose handle).perish handle).2.Listed tally := by
  cases handle with
  | reactor id =>
    have graphs : ∀ owner, ((world.lose (.reactor id)).mapGraph id fun _ => .empty).graph owner =
        if owner = id then .empty else world.graph owner := by
      intro owner
      rw [graph_mapGraph _ _ rfl]
      split
      next => rfl
      next apart =>
        unfold World.lose graph
        dsimp only
        rw [reactor?_modifyReactor, if_neg apart]
    have nodes : ∀ owner id' node,
        (((world.lose (.reactor id)).mapGraph id fun _ => .empty).graph owner).node? id' =
          some node →
          owner ≠ id ∧ (world.graph owner).node? id' = some node := by
      intro owner id' node found
      rw [graphs] at found
      split at found
      next => cases found
      next apart => exact ⟨apart, found⟩
    have emptied : ((world.lose (.reactor id)).mapGraph id fun _ => .empty).Listed tally := by
      refine ⟨listed.toHoused.change (fun _ cell found => ⟨cell, found, rfl, rfl⟩)
        (fun owner living => ?_) fun owner id' node found => ?_, listed.known, fun owner => ?_⟩
      · by_cases same : owner = id
        · exact Or.inr ((graphs owner).trans (if_pos same))
        · refine Or.inl ?_
          have kept : ((world.lose (.reactor id)).mapGraph id fun _ => .empty).reactor? owner =
              world.reactor? owner := by
            unfold World.lose World.mapGraph
            dsimp only
            rw [reactor?_modifyReactor, if_neg same, reactor?_modifyReactor, if_neg same]
          unfold isAlive at living ⊢
          change ((((world.lose (.reactor id)).mapGraph id fun _ => .empty).reactor? owner).map
            _).getD _ = _
          rwa [kept]
      · exact ⟨node, (nodes owner id' node found).2, rfl, fun _ member => Or.inl member⟩
      · show (((world.lose (.reactor id)).mapGraph id fun _ => .empty).graph owner).Lists _
        rw [graphs]
        split
        next => exact Graph.lists_empty _
        next => exact listed.lists owner
    exact emptied.record _
  | node id =>
    have lost : (world.lose (.node id)).Listed tally :=
      listed.modifyCell id fun cell => cell.withHolders_face _
    unfold World.perish
    dsimp only
    split
    next => exact lost
    next => exact lost.unregister id
    next => exact lost

theorem Listed.dropAll (listed : world.Listed tally) (handles : List Handle) (fuel : Nat) :
    (world.dropAll handles fuel).Listed tally := by
  induction fuel generalizing world handles with
  | zero =>
    cases handles with
    | nil => exact listed
    | cons => exact listed
  | succ fuel ih =>
    cases handles with
    | nil => exact listed
    | cons handle rest =>
      unfold World.dropAll
      dsimp only
      split
      next => exact ih (listed.perish handle) _
      next several => exact ih (listed.lose several) _

theorem Listed.drop (listed : world.Listed tally) (handle : Handle) :
    (world.drop handle).Listed tally :=
  listed.dropAll _ _

theorem Listed.retire (listed : world.Listed tally) (id : NodeId) :
    (world.retire id).Listed tally :=
  (listed.unregister id).dropAll _ _

theorem Listed.destroySignal (listed : world.Listed tally) (id : NodeId) :
    (world.destroySignal id).Listed tally := by
  unfold World.destroySignal
  split
  next =>
    split
    next => exact listed
    next =>
      have marked : (world.modifySignal id ({ · with destroyed := true })).Listed tally :=
        listed.modifySignal id fun _ => rfl
      exact marked.retire id
  next => exact listed

theorem Listed.addReactor (listed : world.Listed tally) (settings : Settings) :
    ({ world with reactors := world.reactors ++ [.new settings] } : World κ ν σ).Listed tally := by
  refine listed.of_faces (fun _ => rfl) (graph_newReactor world settings) fun id living => ?_
  unfold isAlive at living ⊢
  rcases reactor?_newReactor world settings id with same | ⟨none, _⟩
  · rwa [same]
  · rw [none] at living
    cases living

/-- A reactor that is held is alive. -/
theorem isAlive_hold {owner : ReactorId} (present : (world.reactor? owner).isSome) :
    (world.hold (.reactor owner)).isAlive owner = true := by
  obtain ⟨state, found⟩ := Option.isSome_iff_exists.mp present
  unfold isAlive World.hold
  dsimp only
  rw [reactor?_modifyReactor, if_pos rfl, found]
  exact decide_eq_true (Nat.succ_pos state.holders)

theorem graph_addCell_cases (world : World κ ν σ) (cell : Cell κ ν) (owner : ReactorId) :
    (world.addCell cell cell.kind).2.graph owner = world.graph owner ∨
      owner = cell.reactor ∧ (world.reactor? cell.reactor).isSome ∧
        (world.addCell cell cell.kind).2.graph owner =
          (world.graph owner).insert (.new world.nextId cell.kind) := by
  cases present : world.reactor? cell.reactor with
  | none =>
    refine Or.inl ?_
    show (((({ world with cells := world.cells ++ [cell] } : World κ ν σ).modifyReactor cell.reactor
      (·.mapGraph (·.insert (.new world.nextId cell.kind)))).reactor? owner).map
        Reactor.graph).getD .empty = _
    rw [reactor?_modifyReactor]
    split
    next same =>
      subst same
      show (((world.reactor? cell.reactor).map _).map Reactor.graph).getD .empty = _
      unfold graph
      rw [present]
      rfl
    next => rfl
  | some state =>
    rw [graph_addCell world cell cell.kind (by rw [present]; rfl)]
    split
    next same => exact Or.inr ⟨same, rfl, rfl⟩
    next => exact Or.inl rfl

theorem isAlive_addCell (cell : Cell κ ν) (kind : NodeKind) {owner : ReactorId}
    (living : world.isAlive owner = true) : (world.addCell cell kind).2.isAlive owner = true :=
  isAlive_mapGraph living

/-- A new cell comes with a node that reads nothing. -/
theorem Listed.addCell (listed : world.Listed tally) (cell : Cell κ ν)
    (living : cell.kind = .effect ∨ ((world.reactor? cell.reactor).isSome →
      world.isAlive cell.reactor = true)) :
    (world.addCell cell cell.kind).2.Listed tally := by
  have kept : ∀ id state, world.cell? id = some state →
      (world.addCell cell cell.kind).2.cell? id = some state := by
    intro id state found
    rw [cell?_addCell, if_neg, found]
    rintro rfl
    rw [cell?_nextId] at found
    cases found
  have fresh : ∀ owner node, (world.graph owner).node? world.nextId ≠ some node := by
    intro owner node found
    obtain ⟨state, known, _⟩ := listed.home owner _ node found
    rw [cell?_nextId] at known
    cases known
  have nodes : ∀ owner id node,
      ((world.addCell cell cell.kind).2.graph owner).node? id = some node →
      (world.graph owner).node? id = some node ∨ id = world.nextId ∧ owner = cell.reactor ∧
        (world.reactor? cell.reactor).isSome ∧ node = .new world.nextId cell.kind := by
    intro owner id node found
    rcases graph_addCell_cases world cell owner with same | ⟨here, present, inserted⟩
    · exact Or.inl (same ▸ found)
    · rw [inserted, Graph.node?_insert] at found
      split at found
      next new =>
        cases found
        exact Or.inr ⟨new, here, present, rfl⟩
      next => exact Or.inl found
  refine ⟨⟨fun owner id node found => ?_, fun owner id node found read member => ?_,
    fun owner dead id node found => ?_⟩, fun id place holds => ?_, fun owner => ?_⟩
  · rcases nodes owner id node found with old | ⟨rfl, rfl, _, rfl⟩
    · obtain ⟨state, known, same⟩ := listed.home owner id node old
      exact ⟨state, kept id state known, same⟩
    · exact ⟨cell, by rw [cell?_addCell, if_pos rfl], rfl, rfl⟩
  · rcases nodes owner id node found with old | ⟨_, _, _, rfl⟩
    · obtain ⟨state, known⟩ := Option.isSome_iff_exists.mp
        (listed.reads owner id node old read member)
      rw [kept read state known]
      rfl
    · cases member
  · have dead : world.isAlive owner = false := by
      rw [← Bool.not_eq_true] at dead ⊢
      exact fun living => dead (isAlive_addCell cell cell.kind living)
    rcases nodes owner id node found with old | ⟨_, rfl, present, rfl⟩
    · exact listed.dead owner dead id node old
    · refine ⟨living.resolve_right fun alive => ?_, rfl⟩
      rw [alive present] at dead
      cases dead
  · obtain ⟨state, known, same⟩ := listed.known id place holds
    exact ⟨state, kept id state known, same⟩
  · have lists : (world.graph owner).Lists ((world.addCell cell cell.kind).2.demand tally) := by
      intro reader node found wanted
      refine listed.lists owner reader node found
        (wanted.mono (fun ⟨runs, turn, absent⟩ => ⟨runs, ?_, absent⟩) fun holds => holds)
      obtain ⟨state, known, _⟩ := listed.home owner reader node found
      unfold turn? at turn ⊢
      rwa [kept reader state known, ← known] at turn
    rcases graph_addCell_cases world cell owner with same | ⟨_, _, inserted⟩
    · rwa [same]
    · rw [inserted]
      refine lists.insert (fun reader node found member => ?_) cell.kind
      have known := listed.reads owner reader node found _ member
      rw [cell?_nextId] at known
      cases known

/-- A new cell that holds its reactor. -/
theorem Listed.addHolding (listed : world.Listed tally) (cell : Cell κ ν) :
    ((world.hold (.reactor cell.reactor)).addCell cell cell.kind).2.Listed tally := by
  refine (listed.hold (.reactor cell.reactor)).addCell cell (Or.inr fun present => ?_)
  refine isAlive_hold ?_
  unfold World.hold at present
  dsimp only at present
  rw [reactor?_modifyReactor, if_pos rfl, Option.isSome_map] at present
  exact present

theorem mapGraph_at (world : World κ ν σ) (owner : ReactorId) (change : Graph → Graph) :
    (world.mapGraph owner fun _ => change (world.graph owner)) = world.mapGraph owner change := by
  refine ext_of_lookups (fun other => ?_) (fun _ => rfl) rfl rfl rfl rfl
  unfold World.mapGraph
  rw [reactor?_modifyReactor, reactor?_modifyReactor]
  split
  next same =>
    unfold graph
    cases world.reactor? owner <;> rfl
  next => rfl

/-- A visit is planned for a woken effect, with the runs that the effect has had. -/
theorem of_mem_planPass {owner : ReactorId} {sources : List NodeId} {entry : Visit}
    (member : entry ∈ (world.planPass owner sources).1) :
    (∃ effect, world.cell? entry.wakeup.effect = some (.effect effect) ∧
        entry.runs = effect.runs) ∧
      (world.graph owner).kind? entry.wakeup.effect = some .effect := by
  obtain ⟨id, _, planned⟩ := List.mem_filterMap.mp member
  split at planned
  next wakeup effect woken found =>
    cases planned
    have same : wakeup.effect = id := by
      have chosen := List.find?_some woken
      exact of_decide_eq_true chosen
    refine ⟨⟨effect, ?_, rfl⟩, ?_⟩
    · dsimp only
      rw [same]
      exact effect?_eq_some_iff.mp found
    · exact Graph.kind?_of_mem_propagate (List.mem_of_find?_eq_some woken)
  next => cases planned

/-- Every effect that a changed source reaches is visited, for certain if it read the source. -/
theorem exists_visit {owner : ReactorId} {sources : List NodeId} {id : NodeId} {effect : Effect κ}
    (found : world.cell? id = some (.effect effect))
    (met : id ∈ ((world.graph owner).invalidateAll sources).1.flatMap fun reach =>
      reach.direct ++ reach.indirect) :
    ∃ entry ∈ (world.planPass owner sources).1, entry.wakeup.effect = id ∧
      entry.runs = effect.runs ∧
        (id ∈ ((world.graph owner).invalidateAll sources).1.flatMap Reach.direct →
          entry.wakeup.certain = true) := by
  obtain ⟨wakeup, woken, listed, same, certain⟩ := Wakeup.find?_ofReaches met
  refine ⟨⟨wakeup, effect.runs⟩, List.mem_filterMap.mpr ⟨id, Graph.mem_schedule listed, ?_⟩, same,
    rfl, certain⟩
  have found' : (world.mapGraph owner fun _ =>
      ((world.graph owner).invalidateAll sources).2).effect? id = some effect :=
    effect?_eq_some_iff.mpr found
  rw [woken, found']

/-- A pass owes a visit to each effect that it wakes for certain. -/
theorem Listed.planPass (listed : world.Listed tally) (plain : ∀ id, ¬ tally.dirty id)
    (owner : ReactorId) (sources : List NodeId) :
    (world.planPass owner sources).2.Listed
      (tally.visiting owner (world.planPass owner sources).1) := by
  show (world.mapGraph owner fun _ => ((world.graph owner).propagate sources).2).Listed _
  have marked : (world.mapGraph owner fun graph => (graph.propagate sources).2).Listed
      { tally with owed := (world.planPass owner sources).1.flatMap Visit.debts ++ tally.owed } := by
    refine listed.mapGraph owner (Graph.propagate_empty sources) (fun id node found => ?_)
      (fun _ _ holds => holds) ?_ fun other _ => ?_
    · have related := Graph.markedFrom_propagate (world.graph owner) sources id
      rw [found] at related
      obtain ⟨old, was, outline, _, dependencies, _⟩ := relOption_some related
      exact ⟨old, was, Node.kind_of_outline outline, fun _ member => Or.inl (dependencies ▸ member)⟩
    · refine ((listed.lists owner).invalidateAll plain sources).mono (fun id holds => ?_)
        fun _ holds => holds
      obtain ⟨runs, turn, absent⟩ := holds
      rw [List.mem_append, not_or] at absent
      refine ⟨⟨runs, turn, absent.2⟩, fun direct => absent.1 ?_⟩
      obtain ⟨cell, found, turn⟩ := Option.bind_eq_some_iff.mp turn
      have met : id ∈ ((world.graph owner).invalidateAll sources).1.flatMap fun reach =>
          reach.direct ++ reach.indirect := by
        obtain ⟨reach, member, direct⟩ := List.mem_flatMap.mp direct
        exact List.mem_flatMap.mpr ⟨reach, member, List.mem_append_left _ direct⟩
      cases cell with
      | signal => cases turn
      | computed => cases turn
      | effect effect =>
        change (if effect.active then some effect.runs else none) = some runs at turn
        split at turn
        next =>
          cases turn
          obtain ⟨entry, member, rfl, counted, certain⟩ := exists_visit found met
          refine List.mem_flatMap.mpr ⟨entry, member, ?_⟩
          unfold Visit.debts
          rw [if_pos (certain direct), counted]
          exact List.mem_singleton.mpr rfl
        next => cases turn
    · exact (listed.lists other).mono
        (fun id ⟨runs, turn, absent⟩ =>
          ⟨runs, turn, fun member => absent (List.mem_append_right _ member)⟩)
        fun _ holds => holds
  rw [mapGraph_at world owner fun graph => (graph.propagate sources).2]
  refine ⟨marked.toHoused, fun id place holds => ?_, marked.lists⟩
  rcases holds with ⟨rfl, entry, member, rfl⟩ | before
  · obtain ⟨⟨effect, found, _⟩, live⟩ := of_mem_planPass member
    obtain ⟨node, live, _⟩ := Option.map_eq_some_iff.mp live
    obtain ⟨cell, known, home, _⟩ := listed.home _ _ node live
    rw [found] at known
    cases known
    exact ⟨_, found, congrArg (·, NodeKind.effect) home⟩
  · exact marked.known id place before

theorem foldl_alike {α : Type} (events : List α) (step : World κ ν σ → α → World κ ν σ)
    (kept : ∀ world event, (step world event).cells = world.cells ∧
      (step world event).reactors = world.reactors) (world : World κ ν σ) :
    (events.foldl step world).cells = world.cells ∧
      (events.foldl step world).reactors = world.reactors := by
  induction events generalizing world with
  | nil => exact ⟨rfl, rfl⟩
  | cons event rest ih =>
    obtain ⟨cells, reactors⟩ := ih (step world event)
    exact ⟨cells.trans (kept world event).1, reactors.trans (kept world event).2⟩

theorem Listed.of_alike (listed : world.Listed tally) (cells : after.cells = world.cells)
    (reactors : after.reactors = world.reactors) : after.Listed tally := by
  refine listed.of_faces (fun id => ?_) (fun owner => ?_) fun owner living => ?_
  · unfold cell?
    rw [cells]
  · unfold graph reactor?
    rw [reactors]
  · unfold isAlive reactor? at living ⊢
    rwa [reactors]

theorem Listed.reconcile (listed : world.Listed tally) (mount : Mount κ) (old new : Option Tree) :
    (world.reconcile mount old new).2.Listed tally := by
  unfold World.reconcile
  split
  next => exact listed
  next document _ =>
    dsimp only
    have warned := foldl_alike (checkTree mount.policy new).repeated
      (fun world key => world.record (.repeatedKey key)) (fun _ _ => ⟨rfl, rfl⟩) world
    revert warned
    generalize (checkTree mount.policy new).repeated.foldl
      (fun world key => world.record (.repeatedKey key)) world = middle
    intro warned
    refine listed.of_alike ?_ ?_
    · refine (foldl_alike _ _ ?_ _).1.trans warned.1
      intro world event
      cases event <;> exact ⟨rfl, rfl⟩
    · refine (foldl_alike _ _ ?_ _).2.trans warned.2
      intro world event
      cases event <;> exact ⟨rfl, rfl⟩

theorem Listed.present (listed : world.Listed tally) (id : MountId) (next : Option Tree) :
    (world.present id next).2.Listed tally := by
  unfold World.present
  split
  next => exact listed
  next mount _ =>
    have shown := listed.reconcile mount mount.tree next
    dsimp only
    split
    next => exact shown.of_alike rfl rfl
    next => exact shown

theorem Listed.withdraw (listed : world.Listed tally) (id : MountId) :
    (world.withdraw id).2.Listed tally := by
  unfold World.withdraw
  split
  next => exact listed
  next mount _ =>
    split
    next => exact listed
    next tree _ =>
      have bare : (world.modifyMount id ({ · with tree := none })).Listed tally :=
        listed.of_alike rfl rfl
      exact bare.reconcile mount (some tree) none

end World

end ReactiveTree
