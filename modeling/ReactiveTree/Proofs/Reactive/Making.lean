import ReactiveTree.Proofs.Reactive.Operations

/-! # Making nodes

A new cell takes the next number and a node of its own in the graph of its reactor; every other cell
and node is as before, and a steady world stays steady.
-/

namespace ReactiveTree

variable {κ ν σ : Type} {chart : Chart} {program : Program κ ν σ} {world after : World κ ν σ}

namespace World

/-- The number that the next cell takes. -/
def nextId (world : World κ ν σ) : NodeId :=
  ⟨world.cells.length⟩

theorem cell?_nextId (world : World κ ν σ) : world.cell? world.nextId = none :=
  List.getElem?_eq_none (Nat.le_refl _)

theorem cell?_addCell (world : World κ ν σ) (cell : Cell κ ν) (kind : NodeKind) (other : NodeId) :
    (world.addCell cell kind).2.cell? other =
      if other = world.nextId then some cell else world.cell? other := by
  show (world.cells ++ [cell])[other.index]? = _
  split
  next same =>
    rw [same]
    exact List.getElem?_concat_length
  next apart =>
    have away : other.index ≠ world.cells.length := fun same => apart (NodeId.ext same)
    rcases Nat.lt_or_gt_of_ne away with before | beyond
    · rw [List.getElem?_append_left before]
      rfl
    · unfold cell?
      rw [List.getElem?_append_right (Nat.le_of_lt beyond), List.getElem?_eq_none_iff.mpr (by
        simp only [List.length_singleton]; omega), List.getElem?_eq_none_iff.mpr (by omega)]

theorem graph_addCell (world : World κ ν σ) (cell : Cell κ ν) (kind : NodeKind)
    (owned : (world.reactor? cell.reactor).isSome) (other : ReactorId) :
    (world.addCell cell kind).2.graph other =
      if other = cell.reactor then (world.graph other).insert (.new world.nextId kind)
      else world.graph other := by
  obtain ⟨state, found⟩ := Option.isSome_iff_exists.mp owned
  have found' : ({ world with cells := world.cells ++ [cell] } : World κ ν σ).reactor?
      cell.reactor = some state := found
  show (((({ world with cells := world.cells ++ [cell] } : World κ ν σ).modifyReactor cell.reactor
    (·.mapGraph (·.insert (.new world.nextId kind)))).reactor? other).map
      Reactor.graph).getD .empty = _
  rw [reactor?_modifyReactor]
  split
  next same =>
    subst same
    rw [found']
    unfold graph
    rw [found]
    rfl
  next => rfl

theorem node?_addCell (world : World κ ν σ) (cell : Cell κ ν) (kind : NodeKind)
    (owned : (world.reactor? cell.reactor).isSome) (other : NodeId) :
    (world.addCell cell kind).2.node? other =
      if other = world.nextId then some (.new world.nextId kind) else world.node? other := by
  unfold node?
  rw [cell?_addCell]
  split
  next same =>
    rw [Option.bind_some, graph_addCell world cell kind owned, if_pos rfl, Graph.node?_insert]
    exact if_pos same
  next apart =>
    congr 1
    funext cell'
    rw [graph_addCell world cell kind owned]
    split
    next =>
      rw [Graph.node?_insert]
      exact if_neg apart
    next => rfl

theorem value?_addCell (world : World κ ν σ) (cell : Cell κ ν) (kind : NodeKind) (other : NodeId) :
    (world.addCell cell kind).2.value? other =
      if other = world.nextId then cell.value? else world.value? other := by
  unfold value?
  rw [cell?_addCell]
  split <;> rfl

theorem reader?_addCell (world : World κ ν σ) (cell : Cell κ ν) (kind : NodeKind)
    (other : ReactorId) : (world.addCell cell kind).2.reader? other = world.reader? other := by
  show ((({ world with cells := world.cells ++ [cell] } : World κ ν σ).modifyReactor cell.reactor
    (·.mapGraph (·.insert (.new world.nextId kind)))).reactor? other).bind Reactor.reader? = _
  rw [reactor?_modifyReactor]
  unfold reader?
  split
  next same =>
    subst same
    show ((world.reactor? cell.reactor).map _).bind _ = _
    cases world.reactor? cell.reactor <;> rfl
  next => rfl

/-- What holds of a new cell and of every old one holds of every cell. -/
theorem forall_addCell {cell : Cell κ ν} {kind : NodeKind} (property : NodeId → Cell κ ν → Prop)
    (new : property world.nextId cell)
    (old : ∀ id state, world.cell? id = some state → property id state) (id : NodeId)
    (state : Cell κ ν) (found : (world.addCell cell kind).2.cell? id = some state) :
    property id state := by
  rw [cell?_addCell] at found
  split at found
  next same =>
    cases found
    rwa [same]
  next => exact old id state found

/-- A new cell that is neither an effect nor at work leaves a quiet world quiet. -/
theorem Quiet.addCell (quiet : world.Quiet) (cell : Cell κ ν) (kind : NodeKind)
    (idle : ∀ state, cell = .computed state → state.computing = false)
    (lasting : ∀ state, cell = .signal state → state.destroyed = false)
    (passive : cell.kind ≠ .effect) : (world.addCell cell kind).2.Quiet := by
  refine ⟨fun id computed found => ?_, fun id => ?_, fun id signal found => ?_, fun id => ?_⟩
  · refine forall_addCell (fun _ state => ∀ computed, state = .computed computed →
      computed.computing = false) idle (fun id state known computed same => ?_) id _
      (computed?_eq_some_iff.mp found) computed rfl
    exact quiet.idle id computed (computed?_eq_some_iff.mpr (same ▸ known))
  · rw [reader?_addCell, quiet.unread]
  · unfold signal? at found
    split at found
    next state present =>
      cases found
      refine forall_addCell (fun _ state => ∀ signal, state = .signal signal →
        signal.destroyed = false) lasting (fun id state known signal same => ?_) id _ present
        signal rfl
      refine quiet.lasting id signal ?_
      rw [same] at known
      simp only [signal?, known]
    next => cases found
  · unfold effect?
    split
    next state present =>
      refine (forall_addCell (fun _ state => state.kind ≠ .effect) passive
        (fun id state known kind => ?_) id _ present rfl).elim
      have absent := quiet.effectless id
      cases state with
      | signal => cases kind
      | computed => cases kind
      | effect =>
        unfold effect? at absent
        rw [known] at absent
        cases absent
    next => rfl

/-- A new cell that fits the chart and the program leaves a steady world steady. -/
theorem Steady.addCell (steady : world.Steady chart program) (cell : Cell κ ν)
    (owned : (world.reactor? cell.reactor).isSome)
    (home : chart.home world.nextId = some cell.reactor)
    (body : ∀ code, cell.code? = some code →
      (program.compute code).OnlyReads (chart.Admits world.nextId))
    (held : 0 < cell.holders) (idle : ∀ state, cell = .computed state → state.computing = false)
    (lasting : ∀ state, cell = .signal state → state.destroyed = false)
    (passive : cell.kind ≠ .effect) : (world.addCell cell cell.kind).2.Steady chart program := by
  have cells := world.cell?_addCell cell cell.kind
  have nodes := world.node?_addCell cell cell.kind owned
  have values := world.value?_addCell cell cell.kind
  have kept : ∀ id state, world.cell? id = some state →
      (world.addCell cell cell.kind).2.cell? id = some state := by
    intro id state found
    rw [cells, if_neg, found]
    rintro rfl
    rw [cell?_nextId] at found
    cases found
  refine ⟨steady.toQuiet.addCell cell cell.kind idle lasting passive, ⟨?_, ?_, ?_, ?_, ?_⟩, ?_⟩
  · exact forall_addCell _ home steady.wired.home
  · intro id state code found
    exact forall_addCell (fun id state => state.code? = some code →
      (program.compute code).OnlyReads (chart.Admits id)) (body code)
      (fun id state known => steady.wired.body id state code known) id state found
  · exact forall_addCell _ (fun _ => held) steady.wired.held
  · intro id state node found
    rw [nodes]
    refine forall_addCell (fun id state => (if id = world.nextId then
      some (.new world.nextId cell.kind) else world.node? id) = some node →
        node.kind = state.kind) ?_ ?_ id state found
    · rw [if_pos rfl]
      rintro ⟨⟩
      rfl
    · intro id state known live
      rw [if_neg] at live
      · exact steady.wired.kind id state node known live
      · rintro rfl
        rw [cell?_nextId] at known
        cases known
  · intro id state found derived
    rw [nodes]
    split
    next => exact ⟨_, rfl⟩
    next apart =>
      rw [cells, if_neg apart] at found
      exact steady.wired.live id state found derived
  · intro id node found derived
    rw [nodes] at found
    split at found
    next =>
      cases found
      refine ⟨fun marked => (marked ?_).elim, fun dependency member => nomatch member⟩
      have kind : cell.kind = .derived := derived
      simp [Node.new, kind]
    next apart =>
      obtain ⟨valued, below⟩ := steady.consistent id node found derived
      rw [values, if_neg apart]
      refine ⟨valued, fun dependency member => ?_⟩
      obtain ⟨lower, owner, state, known⟩ := below dependency member
      exact ⟨lower, owner, state, kept dependency state known⟩

theorem making_addCell (world : World κ ν σ) (cell : Cell κ ν) (kind : NodeKind) :
    (world.addCell cell kind).2.cells.map Cell.making =
      world.cells.map Cell.making ++ [cell.making] :=
  List.map_append

theorem making_of_skeleton (same : after.skeleton = world.skeleton) :
    after.cells.map Cell.making = world.cells.map Cell.making := by
  have bare : ∀ world : World κ ν σ,
      world.skeleton.cells.map Cell.making = world.cells.map Cell.making := by
    intro world
    show (world.cells.map Cell.bare).map Cell.making = _
    rw [List.map_map]
    congr 1
    funext cell
    cases cell <;> rfl
  rw [← bare, same, bare]

theorem reactors_of_skeleton (same : after.skeleton = world.skeleton) :
    after.reactors.length = world.reactors.length := by
  have bare : ∀ world : World κ ν σ, world.skeleton.reactors.length = world.reactors.length :=
    fun _ => List.length_map ..
  rw [← bare, same, bare]

theorem reactors_addCell (world : World κ ν σ) (cell : Cell κ ν) (kind : NodeKind) :
    (world.addCell cell kind).2.reactors.length = world.reactors.length :=
  List.length_modify ..

/-- A reactor is either as before or the new one. -/
theorem reactor?_newReactor (world : World κ ν σ) (settings : Settings) (id : ReactorId) :
    ({ world with reactors := world.reactors ++ [.new settings] } : World κ ν σ).reactor? id =
        world.reactor? id ∨
      world.reactor? id = none ∧
        ({ world with reactors := world.reactors ++ [.new settings] } : World κ ν σ).reactor? id =
          some (.new settings) := by
  unfold reactor?
  dsimp only
  rw [List.getElem?_append]
  split
  next => exact Or.inl rfl
  next beyond =>
    rw [List.getElem?_eq_none (Nat.le_of_not_lt beyond), List.getElem?_singleton]
    split
    next => exact Or.inr ⟨rfl, rfl⟩
    next => exact Or.inl rfl

theorem graph_newReactor (world : World κ ν σ) (settings : Settings) (id : ReactorId) :
    ({ world with reactors := world.reactors ++ [.new settings] } : World κ ν σ).graph id =
      world.graph id := by
  unfold graph
  rcases reactor?_newReactor world settings id with same | ⟨none, new⟩
  · rw [same]
  · rw [none, new]
    rfl

theorem shift_newReactor (world : World κ ν σ) (settings : Settings) :
    world.Shift { world with reactors := world.reactors ++ [.new settings] } := by
  refine ⟨fun _ => relOption_refl .same _, fun id => ?_, fun id => ?_, ?_⟩
  · have same : ({ world with reactors := world.reactors ++ [.new settings] } :
        World κ ν σ).node? id = world.node? id := by
      show (world.cell? id).bind _ = (world.cell? id).bind _
      congr 1
      funext cell
      rw [graph_newReactor]
    rw [same]
    exact relOption_refl Node.Weakened.refl _
  · unfold reader?
    rcases reactor?_newReactor world settings id with same | ⟨none, new⟩
    · rw [same]
    · rw [none, new]
      rfl
  · rw [List.length_append]
    exact Nat.le_add_right _ _

/-- A reactor of that number exists. -/
theorem reactor?_isSome {id : ReactorId} (known : id.index < world.reactors.length) :
    (world.reactor? id).isSome := by
  unfold reactor?
  rw [List.getElem?_eq_getElem known]
  rfl

theorem shift_holdReactor (world : World κ ν σ) (id : ReactorId) :
    world.Shift (world.hold (.reactor id)) :=
  world.shift_modifyReactor id fun _ _ => ⟨rfl, rfl⟩

theorem shift_report (world : World κ ν σ) (id : ReactorId) (failure : ReactiveFailure) :
    world.Shift (world.report id failure) := by
  unfold report
  split
  next =>
    split
    next => exact world.shift_record _
    next => exact Shift.refl world
  next => exact Shift.refl world

end World

end ReactiveTree
