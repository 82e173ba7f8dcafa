import ReactiveTree.Proofs.Reactive.Steady

/-! # Top-level operations keep a world steady

One lemma for each operation: it comes to an end without a panic, and what it leaves is steady. A
notification pass has no effects to visit here, so it only moves marks.
-/

namespace ReactiveTree

variable {κ ν σ : Type} {world after : World κ ν σ}

namespace World

theorem shift_record (world : World κ ν σ) (event : Event κ ν) :
    world.Shift (world.record event) :=
  ⟨fun _ => relOption_refl .same _, fun _ => relOption_refl Node.Weakened.refl _, fun _ => rfl,
    Nat.le_refl _⟩

theorem shift_modifyReactor (world : World κ ν σ) (id : ReactorId) {change : Reactor → Reactor}
    (kept : ∀ state, world.reactor? id = some state →
      (change state).graph = state.graph ∧ (change state).reader? = state.reader?) :
    world.Shift (world.modifyReactor id change) := by
  refine ⟨fun other => relOption_refl .same _, fun other => ?_, fun other => ?_, ?_⟩
  · rw [node?_modifyReactor world id fun state found => (kept state found).1]
    exact relOption_refl Node.Weakened.refl _
  · unfold reader?
    rw [reactor?_modifyReactor]
    split
    next same =>
      subst same
      cases found : world.reactor? other with
      | none => rfl
      | some state => exact (kept state found).2
    next => rfl
  · exact Nat.le_of_eq (List.length_modify ..).symm

theorem shift_mapGraph (world : World κ ν σ) (id : ReactorId) {change : Graph → Graph}
    (weakened : ∀ node, Option.Rel Node.Weakened ((world.graph id).node? node)
      ((change (world.graph id)).node? node)) :
    world.Shift (world.mapGraph id change) := by
  have graphs : ∀ owner node, Option.Rel Node.Weakened ((world.graph owner).node? node)
      (((world.mapGraph id change).graph owner).node? node) := by
    intro owner node
    cases found : world.reactor? id with
    | none =>
      have same : (world.mapGraph id change).graph owner = world.graph owner := by
        unfold graph mapGraph
        rw [reactor?_modifyReactor]
        split
        next here => rw [here, found]; rfl
        next => rfl
      rw [same]
      exact relOption_refl Node.Weakened.refl _
    | some state =>
      by_cases here : owner = id
      · subst here
        have changed : (world.mapGraph owner change).graph owner = change (world.graph owner) := by
          unfold graph mapGraph
          rw [reactor?_modifyReactor, if_pos rfl, found]
          rfl
        rw [changed]
        exact weakened node
      · have same : (world.mapGraph id change).graph owner = world.graph owner := by
          unfold graph mapGraph
          rw [reactor?_modifyReactor, if_neg here]
        rw [same]
        exact relOption_refl Node.Weakened.refl _
  refine ⟨fun other => relOption_refl .same _, fun other => ?_, fun other => ?_, ?_⟩
  · unfold node?
    rw [cell?_mapGraph]
    cases world.cell? other with
    | none => exact .none
    | some cell => exact graphs cell.reactor other
  · unfold reader? mapGraph
    rw [reactor?_modifyReactor]
    split
    next same =>
      subst same
      cases world.reactor? other <;> rfl
    next => rfl
  · exact Nat.le_of_eq (List.length_modify ..).symm

theorem shift_write (world : World κ ν σ) (id : NodeId) (value : ν) :
    world.Shift (world.modifySignal id fun signal => { signal with value }) := by
  refine ⟨fun other => ?_, fun other => ?_, fun _ => rfl, Nat.le_refl _⟩
  · unfold modifySignal
    rw [cell?_modifyCell]
    split
    next same =>
      subst same
      cases world.cell? other with
      | none => exact .none
      | some cell =>
        cases cell with
        | signal state => exact .some (.written state value)
        | computed state => exact .some (.same _)
        | effect state => exact .some (.same _)
    next => exact relOption_refl .same _
  · have same : (world.modifySignal id fun signal => { signal with value }).node? other =
        world.node? other :=
      node?_modifyCell world id (fun cell => by cases cell <;> rfl) other
    rw [same]
    exact relOption_refl Node.Weakened.refl _

theorem shift_bump (world : World κ ν σ) (owner : ReactorId) (id : NodeId) :
    world.Shift (world.mapGraph owner (·.modify id Node.bump)) := by
  apply shift_mapGraph
  intro node
  have kept : ∀ node : Node, node.bump.id = node.id := fun _ => rfl
  rw [Graph.node?_modify _ kept]
  split
  next same =>
    subst same
    cases (world.graph owner).node? node with
    | none => exact .none
    | some old => exact .some ⟨rfl, rfl, fun dirty => dirty⟩
  next => exact relOption_refl Node.Weakened.refl _

end World

section

variable {engine : Engine κ ν σ}

/-- Without effects a pass visits nothing. -/
private theorem planPass_effectless (effectless : ∀ id, world.effect? id = none)
    (owner : ReactorId) (sources : List NodeId) :
    (world.planPass owner sources).1 = [] ∧ world.Shift (world.planPass owner sources).2 := by
  constructor
  · unfold World.planPass
    dsimp only
    refine List.filterMap_eq_nil_iff.mpr fun id _ => ?_
    have absent : (world.mapGraph owner fun _ => ((world.graph owner).propagate sources).2).effect?
        id = none := effectless id
    split
    next found =>
      rw [absent] at found
      cases found
    next => rfl
  · unfold World.planPass
    dsimp only
    refine world.shift_mapGraph owner fun node => ?_
    have marked := Graph.markedFrom_propagate (world.graph owner) sources node
    revert marked
    generalize (world.graph owner).node? node = old
    generalize ((world.graph owner).propagate sources).2.node? node = new
    intro marked
    cases marked with
    | none => exact .none
    | some holds => exact .some holds.weakened

theorem notify_effectless (engine : Engine κ ν σ)
    (effectless : ∀ id, world.effect? id = none) (owner : ReactorId) (sources : List NodeId) :
    ∃ after, notify engine owner sources world = some (.ok (), after) ∧ world.Shift after := by
  have effectless' : ∀ id, (world.record (.passStarted owner sources)).effect? id = none := effectless
  obtain ⟨nothing, shift⟩ := planPass_effectless effectless' owner sources
  refine ⟨((world.record (.passStarted owner sources)).planPass owner sources).2.record
    (.passEnded owner), ?_,
    (world.shift_record _).trans (shift.trans (World.shift_record _ _))⟩
  unfold notify
  rw [Run.modify_bind, Run.update_bind, nothing]
  rfl

theorem storeValue_effectless (engine : Engine κ ν σ)
    (effectless : ∀ id, world.effect? id = none) (owner : ReactorId) (id : NodeId) (value : ν) :
    ∃ after, storeValue engine owner id value world = some (.ok (), after) ∧
      world.Shift after := by
  have written : world.Shift (((world.modifySignal id fun signal => { signal with value }).mapGraph
      owner (·.modify id Node.bump)).record (.changed id value)) :=
    ((world.shift_write id value).trans (World.shift_bump _ owner id)).trans
      (World.shift_record _ _)
  unfold storeValue
  rw [Run.modify_bind, Run.world_bind]
  revert written
  generalize ((world.modifySignal id fun signal => { signal with value }).mapGraph
      owner (·.modify id Node.bump)).record (.changed id value) = stored
  intro written
  cases found : stored.reactor? owner with
  | none => exact ⟨stored, rfl, written⟩
  | some state =>
    by_cases batched : 0 < state.depth
    · refine ⟨stored.modifyReactor owner (·.postpone id), ?_,
        written.trans (World.shift_modifyReactor _ _ fun _ _ => ⟨rfl, rfl⟩)⟩
      dsimp only
      rw [if_pos batched]
      rfl
    · obtain ⟨after, ran, shift⟩ := notify_effectless engine
        (written.effectless effectless) owner [id]
      refine ⟨after, ?_, written.trans shift⟩
      dsimp only
      rw [if_neg batched]
      exact ran

/-- A write of a live signal comes to an end and shifts the world. -/
theorem writeSignal_effectless [BEq ν] (quiet : world.Quiet) {id : NodeId} {signal : Signal ν}
    (known : world.signal? id = some signal) (value : ν) :
    ∃ after, writeSignal engine id value world = some (.ok (), after) ∧ world.Shift after := by
  have live : signal.destroyed = false := quiet.lasting id signal known
  have noted : world.noteWrite signal.reactor id = world.record (.wrote id none) := by
    have nobody : (world.reactor? signal.reactor).bind Reactor.reader? = none :=
      quiet.unread signal.reactor
    unfold World.noteWrite
    rw [nobody]
  have shift := world.shift_record (.wrote id none)
  unfold writeSignal
  rw [Run.world_bind, known]
  have allowed : requireLive signal id "write" world = some (.ok (), world) := by
    unfold requireLive
    rw [live]
    rfl
  dsimp only
  rw [Run.bind_of_ok allowed, Run.modify_bind, noted, Run.world_bind]
  by_cases same : signal.value == value
  · rw [if_pos same]
    exact ⟨_, rfl, shift⟩
  · rw [if_neg same]
    split
    next => exact ⟨_, rfl, shift.trans (World.shift_record _ _)⟩
    next =>
      obtain ⟨after, ran, shift'⟩ := storeValue_effectless engine
        (shift.effectless quiet.effectless) signal.reactor id value
      exact ⟨after, ran, shift.trans shift'⟩

theorem closeBatch_effectless (effectless : ∀ id, world.effect? id = none) (owner : ReactorId) :
    ∃ after, closeBatch engine owner world = some (.ok (), after) ∧ world.Shift after := by
  have ending : ∀ (pending : List NodeId) (middle : World κ ν σ), world.Shift middle →
      ∃ after, (if pending ≠ [] then notify engine owner pending else Pure.pure () :
        Run κ ν σ Unit) middle = some (.ok (), after) ∧ world.Shift after := by
    intro pending middle shift
    by_cases empty : pending = []
    · rw [if_neg (not_not_intro empty)]
      exact ⟨middle, rfl, shift⟩
    · rw [if_pos empty]
      obtain ⟨after, ran, shift'⟩ := notify_effectless engine
        (shift.effectless effectless) owner pending
      exact ⟨after, ran, shift.trans shift'⟩
  unfold closeBatch
  rw [Run.update_bind]
  cases found : world.reactor? owner with
  | none => exact ending [] world (World.Shift.refl world)
  | some state =>
    refine ending _ _ (world.shift_modifyReactor owner fun state' found' => ?_)
    rw [found] at found'
    cases found'
    unfold Reactor.closeBatch
    split <;> exact ⟨rfl, rfl⟩

end

end ReactiveTree
