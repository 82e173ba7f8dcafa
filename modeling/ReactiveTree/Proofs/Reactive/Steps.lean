import ReactiveTree.Proofs.Reactive.Drift
import ReactiveTree.Proofs.Reactive.Running

/-! # The steps of an evaluation

An evaluation enters a frame that tracks its reads, runs the closure, leaves the frame and settles
the value. Here is what each of these steps does to the views of a world.
-/

namespace ReactiveTree

variable {κ ν σ : Type}

namespace World

/-- A change of one graph, node by node: inside the graph as the graph says, outside not at all. -/
private theorem mapGraph_cases (world : World κ ν σ) (id : ReactorId) (change : Graph → Graph)
    (bare : change .empty = .empty) {allowed : NodeId → (Node → Node) → Prop}
    (inside : ∀ other, ∃ step, (change (world.graph id)).node? other =
      ((world.graph id).node? other).map step ∧ allowed other step)
    (outside : ∀ other, (∀ cell, world.cell? other = some cell → cell.reactor ≠ id) →
      allowed other fun node => node) (other : NodeId) :
    ∃ step, (world.mapGraph id change).node? other = (world.node? other).map step ∧
      allowed other step := by
  cases found : world.cell? other with
  | none =>
    refine ⟨fun node => node, ?_, outside other (by simp [found])⟩
    simp only [node?, cell?_mapGraph, found, Option.bind_none, Option.map_none]
  | some cell =>
    rw [node?_mapGraph world id bare found]
    by_cases here : cell.reactor = id
    · obtain ⟨step, eq, permitted⟩ := inside other
      refine ⟨step, ?_, permitted⟩
      rw [if_pos here, eq, node?_eq found, here]
    · refine ⟨fun node => node, by rw [if_neg here]; simp, outside other ?_⟩
      intro cell' found'
      rw [found] at found'
      cases found'
      exact here

@[simp] theorem skeleton_noteRead (world : World κ ν σ) (id : ReactorId) (node : NodeId) :
    (world.noteRead id node).skeleton = world.skeleton := by
  unfold noteRead
  split
  next => rw [skeleton_record, skeleton_mapGraph]
  next => rfl

@[simp] theorem cell?_noteRead (world : World κ ν σ) (id : ReactorId) (node other : NodeId) :
    (world.noteRead id node).cell? other = world.cell? other := by
  unfold noteRead
  split <;> rfl

@[simp] theorem value?_noteRead (world : World κ ν σ) (id : ReactorId) (node other : NodeId) :
    (world.noteRead id node).value? other = world.value? other := by
  unfold noteRead
  split <;> rfl

/-- A tracked read changes edges only, and dependencies only those of the reader. -/
theorem noteRead_cases (world : World κ ν σ) (id : ReactorId) (node other : NodeId) :
    ∃ step : Node → Node,
      (world.noteRead id node).node? other = (world.node? other).map step ∧
      ∀ old, (step old).outline = old.outline ∧ (step old).standing = old.standing ∧
        ((step old).dependencies = old.dependencies ∨
          world.reader? id = some other ∧
            (step old).dependencies = addLast old.dependencies node) := by
  unfold noteRead
  split
  next reader reading =>
    obtain ⟨step, eq, permitted⟩ := mapGraph_cases world id (·.connect node reader)
      (Graph.connect_empty node reader)
      (fun other => Graph.connect_cases (world.graph id) node reader other)
      (fun other _ old => ⟨rfl, rfl, Or.inl rfl⟩) other
    refine ⟨step, eq, fun old => ?_⟩
    obtain ⟨outline, standing, dependencies⟩ := permitted old
    refine ⟨outline, standing, dependencies.imp_right fun ⟨same, added⟩ => ⟨?_, added⟩⟩
    rw [same]
    exact reading
  next => exact ⟨fun old => old, by simp, fun old => ⟨rfl, rfl, Or.inl rfl⟩⟩

/-- A computed counts as computing, forgets what it read, and starts to track its reads. -/
def enter (world : World κ ν σ) (id : NodeId) (reactor : ReactorId) : World κ ν σ :=
  (((world.modifyComputed id ({ · with computing := true })).mapGraph reactor
    (·.unsubscribe id)).record (.started id)).modifyReactor reactor (·.pushFrame (.tracked id))

/-- A computed stops tracking its reads and no longer counts as computing. -/
def leave (world : World κ ν σ) (id : NodeId) (reactor : ReactorId) (panicked : Bool) :
    World κ ν σ :=
  ((world.modifyReactor reactor Reactor.popFrame).record (.ended id panicked)).modifyComputed id
    ({ · with computing := false })

@[simp] theorem value?_enter (world : World κ ν σ) (id other : NodeId) (reactor : ReactorId) :
    (world.enter id reactor).value? other = world.value? other :=
  value?_computing world id true other

@[simp] theorem value?_leave (world : World κ ν σ) (id other : NodeId) (reactor : ReactorId)
    (panicked : Bool) : (world.leave id reactor panicked).value? other = world.value? other :=
  value?_computing _ id false other

@[simp] theorem node?_leave (world : World κ ν σ) (id other : NodeId) (reactor : ReactorId)
    (panicked : Bool) : (world.leave id reactor panicked).node? other = world.node? other := by
  unfold leave
  rw [node?_computing, node?_record, node?_popFrame]

/-- Entering an evaluation empties the dependencies of its node; marks and versions stay. -/
theorem enter_cases {world : World κ ν σ} {id : NodeId} {cell : Cell κ ν}
    (known : world.cell? id = some cell) (other : NodeId) :
    ∃ step : Node → Node,
      (world.enter id cell.reactor).node? other = (world.node? other).map step ∧
      ∀ old, (step old).outline = old.outline ∧ (step old).standing = old.standing ∧
        (step old).dependencies = if other = id then [] else old.dependencies := by
  unfold enter
  rw [node?_pushFrame, node?_record]
  obtain ⟨step, eq, permitted⟩ := mapGraph_cases
    (world.modifyComputed id ({ · with computing := true })) cell.reactor (·.unsubscribe id) rfl
    (fun other => Graph.unsubscribe_cases _ id other) (fun other away old => ⟨rfl, rfl, by
      rw [if_neg]
      intro same
      subst same
      unfold modifyComputed at away
      rw [cell?_modifyCell, if_pos rfl, known] at away
      refine away _ rfl ?_
      cases cell <;> rfl⟩) other
  refine ⟨step, ?_, permitted⟩
  rw [eq, node?_computing]

theorem skeleton_leave_enter {world inner : World κ ν σ} {id : NodeId} {reactor : ReactorId}
    (idle : (world.computed? id).any Computed.computing = false)
    (same : inner.skeleton = (world.enter id reactor).skeleton) (panicked : Bool) :
    (inner.leave id reactor panicked).skeleton = world.skeleton := by
  have idle' : (world.skeleton.computed? id).any Computed.computing = false := by
    unfold computed? at idle ⊢
    rw [skeleton_cell?]
    cases found : world.cell? id with
    | none => rfl
    | some cell =>
      rw [found] at idle
      cases cell <;> exact idle
  unfold leave enter at *
  rw [skeleton_computing, skeleton_record, skeleton_popFrame, same, skeleton_pushFrame,
    skeleton_record, skeleton_mapGraph, skeleton_computing, popFrame_pushFrame, stopComputing _ _ idle']

theorem cell?_enter (world : World κ ν σ) (id other : NodeId) (reactor : ReactorId) :
    (world.enter id reactor).cell? other =
      if other = id then (world.cell? id).map fun
        | .computed state => .computed { state with computing := true }
        | cell => cell
      else world.cell? other := by
  exact cell?_modifyCell world id other _

theorem reader?_enter {world : World κ ν σ} {id : NodeId} {cell : Cell κ ν}
    (known : world.cell? id = some cell) {node : Node} (live : world.node? id = some node) :
    (world.enter id cell.reactor).reader? cell.reactor = some id := by
  rw [node?_eq known] at live
  unfold reader? enter
  rw [reactor?_modifyReactor, if_pos rfl]
  have lifted : ((world.modifyComputed id ({ · with computing := true })).mapGraph cell.reactor
      (·.unsubscribe id)).reactor? cell.reactor =
        (world.reactor? cell.reactor).map (·.mapGraph (·.unsubscribe id)) := by
    unfold mapGraph
    rw [reactor?_modifyReactor, if_pos rfl]
    rfl
  show (Option.map _ (reactor? (mapGraph _ cell.reactor _) cell.reactor)).bind _ = _
  rw [lifted]
  unfold graph at live
  cases found : world.reactor? cell.reactor with
  | none =>
    rw [found] at live
    cases live
  | some reactor => rfl

/-- Whether a computed is being evaluated. -/
def inProgress (world : World κ ν σ) (id : NodeId) : Bool :=
  (world.computed? id).any Computed.computing

theorem inProgress_of_skeleton {world after : World κ ν σ}
    (same : after.skeleton = world.skeleton) (id : NodeId) :
    after.inProgress id = world.inProgress id := by
  have bare : ∀ world : World κ ν σ, world.skeleton.inProgress id = world.inProgress id := by
    intro world
    unfold inProgress computed?
    rw [skeleton_cell?]
    cases world.cell? id with
    | none => rfl
    | some cell => cases cell <;> rfl
  rw [← bare, same, bare]

theorem inProgress_enter {world : World κ ν σ} {id : NodeId} {state : Computed κ ν}
    (known : world.cell? id = some (.computed state)) (owner : ReactorId) (other : NodeId) :
    (world.enter id owner).inProgress other = (decide (other = id) || world.inProgress other) := by
  unfold inProgress computed?
  rw [cell?_enter]
  by_cases same : other = id
  · subst same
    rw [if_pos rfl, known]
    simp
  · rw [if_neg same]
    simp [same]

theorem inProgress_leave (world : World κ ν σ) (id : NodeId) (owner : ReactorId)
    (panicked : Bool) {other : NodeId} (apart : other ≠ id) :
    (world.leave id owner panicked).inProgress other = world.inProgress other := by
  have cells : (world.leave id owner panicked).cell? other = world.cell? other := by
    unfold leave modifyComputed
    rw [cell?_modifyCell, if_neg apart]
    rfl
  unfold inProgress computed?
  rw [cells]

theorem inProgress_hold (world : World κ ν σ) (id other : NodeId) :
    (world.hold (.node id)).inProgress other = world.inProgress other := by
  unfold inProgress computed? hold
  dsimp only
  rw [cell?_modifyCell]
  by_cases same : other = id
  · subst same
    rw [if_pos rfl]
    cases world.cell? other with
    | none => rfl
    | some cell => cases cell <;> rfl
  · rw [if_neg same]

private theorem keepValue_cases {world : World κ ν σ} {id : NodeId} {state : Computed κ ν}
    (known : world.cell? id = some (.computed state)) (value : ν) (other : NodeId) :
    (((world.modifyComputed id ({ · with value := some value })).mapGraph state.reactor
      (·.modify id fun node => node.bump.markClean)).value? other =
        if other = id then some value else world.value? other) ∧
    ((world.modifyComputed id ({ · with value := some value })).mapGraph state.reactor
      (·.modify id fun node => node.bump.markClean)).node? other =
        if other = id then (world.node? id).map fun node => node.bump.markClean
        else world.node? other := by
  have known' : (world.modifyComputed id ({ · with value := some value })).cell? id =
      some (.computed { state with value := some value }) := by
    unfold modifyComputed
    rw [cell?_modifyCell, if_pos rfl, known]
    rfl
  constructor
  · rw [value?_mapGraph]
    split
    next here =>
      rw [here, value?_eq known']
      rfl
    next apart =>
      unfold value? modifyComputed
      rw [cell?_modifyCell, if_neg apart]
  · have kept : ∀ node : Node, (node.bump.markClean).id = node.id := fun _ => rfl
    have modified := node?_mapGraph_modify known' kept other
    rwa [node?_keepValue, node?_keepValue] at modified

private theorem looked_value {world : World κ ν σ} {id : NodeId} {state : Computed κ ν}
    (known : world.cell? id = some (.computed state)) :
    ((world.computed? id).map Computed.value).join = state.value := by
  unfold computed?
  rw [known]
  rfl

theorem settleValue_of_same [BEq ν] [LawfulBEq ν] {world : World κ ν σ} {id : NodeId}
    {state : Computed κ ν} (known : world.cell? id = some (.computed state)) {value : ν}
    (same : state.value = some value) (computed : Computed κ ν) :
    world.settleValue id computed value =
      world.mapGraph computed.reactor (·.modify id Node.markClean) := by
  unfold settleValue
  rw [looked_value known, same]
  simp only [beq_self_eq_true, if_true]

theorem settleValue_of_different [BEq ν] [LawfulBEq ν] {world : World κ ν σ} {id : NodeId}
    {state : Computed κ ν} (known : world.cell? id = some (.computed state)) {value : ν}
    (different : state.value ≠ some value) (computed : Computed κ ν) :
    world.settleValue id computed value =
      ((world.modifyComputed id ({ · with value := some value })).mapGraph computed.reactor
        (·.modify id fun node => node.bump.markClean)).record (.changed id value) := by
  unfold settleValue
  rw [looked_value known]
  cases old : state.value with
  | none => rfl
  | some previous =>
    have apart : (previous == value) = false := by
      rw [old] at different
      simpa using different
    simp only [apart, Bool.false_eq_true, if_false]

/-- A settled value is either the same as before or kept as a change. -/
theorem settleValue_eq_or [BEq ν] (world : World κ ν σ) (id : NodeId)
    (computed : Computed κ ν) (value : ν) :
    world.settleValue id computed value =
        world.mapGraph computed.reactor (·.modify id Node.markClean) ∨
      world.settleValue id computed value =
        (((world.modifyComputed id ({ · with value := some value })).mapGraph computed.reactor
          (·.modify id fun node => node.bump.markClean)).record (.changed id value)) := by
  unfold settleValue
  extract_lets same
  by_cases kept : same = true
  · exact Or.inl (if_pos kept)
  · exact Or.inr (if_neg kept)

/-- Settling a value moves the mark and the version of its node alone; the node becomes clean. -/
theorem settleValue_nodes [BEq ν] {world : World κ ν σ} {id : NodeId} {state computed : Computed κ ν}
    (known : world.cell? id = some (.computed state)) (owner : computed.reactor = state.reactor)
    (value : ν) :
    (world.settleValue id computed value).skeleton = world.skeleton ∧
    ∃ step : Node → Node,
      (∀ other, (world.settleValue id computed value).node? other =
        if other = id then (world.node? id).map step else world.node? other) ∧
      ∀ old, (step old).outline = old.outline ∧ (step old).freshness = .clean ∧
        (step old).dependencies = old.dependencies := by
  rcases settleValue_eq_or world id computed value with same | different
  · have kept : ∀ node : Node, node.markClean.id = node.id := fun _ => rfl
    rw [same, owner]
    exact ⟨skeleton_mapGraph _ _ _, Node.markClean, node?_mapGraph_modify known kept,
      fun _ => ⟨rfl, rfl, rfl⟩⟩
  · rw [different, owner]
    exact ⟨by rw [skeleton_record, skeleton_mapGraph, skeleton_keepValue],
      fun node => node.bump.markClean, fun other => (keepValue_cases known value other).2,
      fun _ => ⟨rfl, rfl, rfl⟩⟩

/-- A settled value is kept, and its node is clean. -/
theorem settleValue_cases [BEq ν] [LawfulBEq ν] {world : World κ ν σ} {id : NodeId}
    {state computed : Computed κ ν} (known : world.cell? id = some (.computed state))
    (owner : computed.reactor = state.reactor) (value : ν) :
    (world.settleValue id computed value).skeleton = world.skeleton ∧
    (∀ other, (world.settleValue id computed value).value? other =
      if other = id then some value else world.value? other) ∧
    ∃ step : Node → Node,
      (∀ other, (world.settleValue id computed value).node? other =
        if other = id then (world.node? id).map step else world.node? other) ∧
      ∀ old, (step old).outline = old.outline ∧ (step old).freshness = .clean ∧
        (step old).dependencies = old.dependencies := by
  obtain ⟨skeleton, nodes⟩ := settleValue_nodes known owner value
  refine ⟨skeleton, fun other => ?_, nodes⟩
  by_cases same : state.value = some value
  · rw [settleValue_of_same known same, value?_mapGraph]
    split
    next here =>
      rw [here, value?_eq known]
      exact same
    next => rfl
  · rw [settleValue_of_different known same, owner]
    exact (keepValue_cases known value other).1

/-- What an evaluation leaves, from what its closure gave and left. -/
def afterEvaluation [BEq ν] (inner : World κ ν σ) (id : NodeId) (computed : Computed κ ν) :
    Except Panic ν → Except Panic Unit × World κ ν σ
  | .ok value => (.ok (), (inner.leave id computed.reactor false).settleValue id computed value)
  | .error panic =>
    (.error panic,
      (inner.leave id computed.reactor true).mapGraph computed.reactor
        (·.modify id Node.markDirty))

end World

theorem evaluate_of [BEq ν] {program : Program κ ν σ} {engine : Engine κ ν σ}
    {world inner : World κ ν σ} {id : NodeId} {computed : Computed κ ν} {result : Except Panic ν}
    (idle : (world.computed? id).any Computed.computing = false)
    (ran : (program.compute computed.body).run engine (world.enter id computed.reactor) =
      some (result, inner)) :
    evaluate program engine id computed world = some (inner.afterEvaluation id computed result) := by
  have framed : (runInFrame computed.reactor (.tracked id)
      ((program.compute computed.body).run engine)).attempt
        (((world.modifyComputed id ({ · with computing := true })).mapGraph computed.reactor
          (·.unsubscribe id)).record (.started id)) =
      some (.ok result, inner.modifyReactor computed.reactor Reactor.popFrame) :=
    Run.attempt_of (Run.thenAlways_modify_of ran _)
  have bodied : runBody computed.reactor id ((program.compute computed.body).run engine)
      ((world.modifyComputed id ({ · with computing := true })).mapGraph computed.reactor
        (·.unsubscribe id)) =
      some (.ok result, (inner.modifyReactor computed.reactor Reactor.popFrame).record
        (.ended id (!result.isOk))) := by
    unfold runBody
    rw [Run.modify_bind, Run.bind_of_ok framed]
    rfl
  unfold evaluate
  rw [Run.world_bind, idle]
  simp only [Bool.false_eq_true, if_false]
  rw [Run.modify_bind, Run.modify_bind, Run.bind_of_ok bodied, Run.modify_bind]
  cases result with
  | ok value => rfl
  | error panic => rfl

theorem evaluate_of_none [BEq ν] {program : Program κ ν σ} {engine : Engine κ ν σ}
    {world : World κ ν σ} {id : NodeId} {computed : Computed κ ν}
    (idle : (world.computed? id).any Computed.computing = false)
    (ran : (program.compute computed.body).run engine (world.enter id computed.reactor) = none) :
    evaluate program engine id computed world = none := by
  have bodied : runBody computed.reactor id ((program.compute computed.body).run engine)
      ((world.modifyComputed id ({ · with computing := true })).mapGraph computed.reactor
        (·.unsubscribe id)) = none := by
    unfold runBody
    rw [Run.modify_bind]
    exact Run.bind_of_none (Run.attempt_of_none (Run.thenAlways_of_none ran _)) _
  unfold evaluate
  rw [Run.world_bind, idle]
  simp only [Bool.false_eq_true, if_false]
  rw [Run.modify_bind, Run.modify_bind, Run.bind_of_none bodied]

end ReactiveTree
