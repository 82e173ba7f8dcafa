import ReactiveTree.Proofs.Graph.Edges
import ReactiveTree.Reactive.Handles

/-! # Views of a world

A world is looked at through the live node of a cell, the value of a computed, the computation that
a reactor's reads are recorded for, and the skeleton: everything else that bringing computeds up to
date has to leave as it was. Each change of a world is described by what it does to these views.
-/

namespace ReactiveTree

/-- A reactor without its graph. -/
def Reactor.bare (reactor : Reactor) : Reactor :=
  { reactor with graph := .empty }

namespace Cell

variable {κ ν : Type}

/-- The value that a computed has kept. -/
def value? : Cell κ ν → Option ν
  | .computed state => state.value
  | _ => none

/-- The code of a computed. -/
def code? : Cell κ ν → Option κ
  | .computed state => some state.body
  | _ => none

/-- A cell without the value that a computed has kept. -/
def bare : Cell κ ν → Cell κ ν
  | .computed state => .computed { state with value := none }
  | cell => cell

/-- The kind of node that goes with a cell. -/
def kind : Cell κ ν → NodeKind
  | .signal _ => .source
  | .computed _ => .derived
  | .effect _ => .effect

@[simp] theorem bare_reactor (cell : Cell κ ν) : cell.bare.reactor = cell.reactor := by
  cases cell <;> rfl

@[simp] theorem bare_kind (cell : Cell κ ν) : cell.bare.kind = cell.kind := by
  cases cell <;> rfl

@[simp] theorem withHolders_reactor (cell : Cell κ ν) (holders : Nat) :
    (cell.withHolders holders).reactor = cell.reactor := by
  cases cell <;> rfl

@[simp] theorem withHolders_value? (cell : Cell κ ν) (holders : Nat) :
    (cell.withHolders holders).value? = cell.value? := by
  cases cell <;> rfl

@[simp] theorem withHolders_kind (cell : Cell κ ν) (holders : Nat) :
    (cell.withHolders holders).kind = cell.kind := by
  cases cell <;> rfl

theorem bare_withHolders (cell : Cell κ ν) (holders : Nat) :
    (cell.withHolders holders).bare = cell.bare.withHolders holders := by
  cases cell <;> rfl

@[simp] theorem bare_holders (cell : Cell κ ν) : cell.bare.holders = cell.holders := by
  cases cell <;> rfl

theorem withHolders_self (cell : Cell κ ν) : cell.withHolders cell.holders = cell := by
  cases cell <;> rfl

@[simp] theorem withHolders_withHolders (cell : Cell κ ν) (first second : Nat) :
    (cell.withHolders first).withHolders second = cell.withHolders second := by
  cases cell <;> rfl

@[simp] theorem withHolders_holders (cell : Cell κ ν) (holders : Nat) :
    (cell.withHolders holders).holders = holders := by
  cases cell <;> rfl

end Cell

namespace World

variable {κ ν σ : Type}

/-- The value that a computed has kept. -/
def value? (world : World κ ν σ) (id : NodeId) : Option ν :=
  (world.cell? id).bind Cell.value?

/-- The computation that reads in a reactor are recorded for. -/
def reader? (world : World κ ν σ) (id : ReactorId) : Option NodeId :=
  (world.reactor? id).bind Reactor.reader?

/-- A world without its graphs, the values of its computeds and its past. -/
def skeleton (world : World κ ν σ) : World κ ν σ :=
  { world with
    reactors := world.reactors.map Reactor.bare
    cells := world.cells.map Cell.bare
    past := [] }

/-- Two worlds in which every look-up gives the same are the same. -/
theorem ext_of_lookups {world other : World κ ν σ}
    (reactors : ∀ id, world.reactor? id = other.reactor? id)
    (cells : ∀ id, world.cell? id = other.cell? id) (mounts : world.mounts = other.mounts)
    (documents : world.documents = other.documents) (past : world.past = other.past)
    (user : world.user = other.user) : world = other := by
  obtain ⟨reactors₁, cells₁, mounts₁, documents₁, past₁, user₁⟩ := world
  obtain ⟨reactors₂, cells₂, mounts₂, documents₂, past₂, user₂⟩ := other
  have sameReactors : reactors₁ = reactors₂ := List.ext_getElem? fun index => reactors ⟨index⟩
  have sameCells : cells₁ = cells₂ := List.ext_getElem? fun index => cells ⟨index⟩
  dsimp only at mounts documents past user
  subst sameReactors sameCells mounts documents past user
  rfl

@[simp] theorem skeleton_reactor? (world : World κ ν σ) (id : ReactorId) :
    world.skeleton.reactor? id = (world.reactor? id).map Reactor.bare :=
  List.getElem?_map

@[simp] theorem skeleton_cell? (world : World κ ν σ) (id : NodeId) :
    world.skeleton.cell? id = (world.cell? id).map Cell.bare :=
  List.getElem?_map

@[simp] theorem skeleton_record (world : World κ ν σ) (event : Event κ ν) :
    (world.record event).skeleton = world.skeleton :=
  rfl

theorem skeleton_modifyReactor (world : World κ ν σ) (id : ReactorId) {change : Reactor → Reactor}
    (commutes : ∀ reactor, (change reactor).bare = change reactor.bare) :
    (world.modifyReactor id change).skeleton = world.skeleton.modifyReactor id change := by
  refine ext_of_lookups ?_ (fun _ => rfl) rfl rfl rfl rfl
  intro other
  rw [skeleton_reactor?, reactor?_modifyReactor, reactor?_modifyReactor, skeleton_reactor?,
    skeleton_reactor?]
  split
  next => simp [Option.map_map, Function.comp_def, commutes]
  next => rfl

theorem skeleton_modifyReactor_of_bare (world : World κ ν σ) (id : ReactorId)
    {change : Reactor → Reactor} (hidden : ∀ reactor, (change reactor).bare = reactor.bare) :
    (world.modifyReactor id change).skeleton = world.skeleton := by
  refine ext_of_lookups ?_ (fun _ => rfl) rfl rfl rfl rfl
  intro other
  rw [skeleton_reactor?, reactor?_modifyReactor, skeleton_reactor?]
  split
  next same => simp [Option.map_map, Function.comp_def, hidden, same]
  next => rfl

@[simp] theorem skeleton_mapGraph (world : World κ ν σ) (id : ReactorId) (change : Graph → Graph) :
    (world.mapGraph id change).skeleton = world.skeleton :=
  skeleton_modifyReactor_of_bare world id fun _ => rfl

theorem skeleton_modifyCell (world : World κ ν σ) (id : NodeId) {change : Cell κ ν → Cell κ ν}
    (commutes : ∀ cell, (change cell).bare = change cell.bare) :
    (world.modifyCell id change).skeleton = world.skeleton.modifyCell id change := by
  refine ext_of_lookups (fun _ => rfl) ?_ rfl rfl rfl rfl
  intro other
  rw [skeleton_cell?, cell?_modifyCell, cell?_modifyCell, skeleton_cell?, skeleton_cell?]
  split
  next => simp [Option.map_map, Function.comp_def, commutes]
  next => rfl

theorem skeleton_modifyCell_of_bare (world : World κ ν σ) (id : NodeId)
    {change : Cell κ ν → Cell κ ν} (hidden : ∀ cell, (change cell).bare = cell.bare) :
    (world.modifyCell id change).skeleton = world.skeleton := by
  refine ext_of_lookups (fun _ => rfl) ?_ rfl rfl rfl rfl
  intro other
  rw [skeleton_cell?, cell?_modifyCell, skeleton_cell?]
  split
  next same => simp [Option.map_map, Function.comp_def, hidden, same]
  next => rfl

theorem skeleton_pushFrame (world : World κ ν σ) (id : ReactorId) (frame : Frame) :
    (world.modifyReactor id (·.pushFrame frame)).skeleton =
      world.skeleton.modifyReactor id (·.pushFrame frame) :=
  skeleton_modifyReactor world id fun _ => rfl

theorem skeleton_popFrame (world : World κ ν σ) (id : ReactorId) :
    (world.modifyReactor id Reactor.popFrame).skeleton =
      world.skeleton.modifyReactor id Reactor.popFrame :=
  skeleton_modifyReactor world id fun _ => rfl

theorem skeleton_computing (world : World κ ν σ) (id : NodeId) (computing : Bool) :
    (world.modifyComputed id ({ · with computing })).skeleton =
      world.skeleton.modifyComputed id ({ · with computing }) :=
  skeleton_modifyCell world id fun cell => by cases cell <;> rfl

@[simp] theorem skeleton_keepValue (world : World κ ν σ) (id : NodeId) (value : Option ν) :
    (world.modifyComputed id ({ · with value })).skeleton = world.skeleton :=
  skeleton_modifyCell_of_bare world id fun cell => by cases cell <;> rfl

theorem skeleton_lose (world : World κ ν σ) (id : NodeId) :
    (world.lose (.node id)).skeleton = world.skeleton.lose (.node id) :=
  skeleton_modifyCell world id fun cell => by rw [Cell.bare_withHolders, Cell.bare_holders]

theorem popFrame_pushFrame (world : World κ ν σ) (id : ReactorId) (frame : Frame) :
    (world.modifyReactor id (·.pushFrame frame)).modifyReactor id Reactor.popFrame = world := by
  refine ext_of_lookups ?_ (fun _ => rfl) rfl rfl rfl rfl
  intro other
  rw [reactor?_modifyReactor, reactor?_modifyReactor, reactor?_modifyReactor, if_pos rfl,
    Option.map_map]
  split
  next same => exact (congrFun Option.map_id _).trans (by rw [same]; rfl)
  next => rfl

theorem lose_hold (world : World κ ν σ) (id : NodeId) :
    (world.hold (.node id)).lose (.node id) = world := by
  refine ext_of_lookups (fun _ => rfl) ?_ rfl rfl rfl rfl
  intro other
  unfold hold lose
  dsimp only
  rw [cell?_modifyCell, cell?_modifyCell, cell?_modifyCell, if_pos rfl, Option.map_map]
  split
  next same =>
    subst same
    cases world.cell? other with
    | none => rfl
    | some cell => simp [Cell.withHolders_self]
  next => rfl

theorem stopComputing (world : World κ ν σ) (id : NodeId)
    (idle : (world.computed? id).any Computed.computing = false) :
    (world.modifyComputed id ({ · with computing := true })).modifyComputed id
      ({ · with computing := false }) = world := by
  refine ext_of_lookups (fun _ => rfl) ?_ rfl rfl rfl rfl
  intro other
  unfold modifyComputed
  rw [cell?_modifyCell, cell?_modifyCell, cell?_modifyCell, if_pos rfl, Option.map_map]
  split
  next same =>
    subst same
    unfold computed? at idle
    cases found : world.cell? other with
    | none => rfl
    | some cell =>
      cases cell with
      | signal => rfl
      | effect => rfl
      | computed computed =>
        rw [found] at idle
        have : computed.computing = false := idle
        simp [← this]
  next => rfl

theorem node?_eq {world : World κ ν σ} {id : NodeId} {cell : Cell κ ν}
    (known : world.cell? id = some cell) :
    world.node? id = (world.graph cell.reactor).node? id := by
  simp only [node?, known, Option.bind_some]

theorem computed?_eq_some_iff {world : World κ ν σ} {id : NodeId} {state : Computed κ ν} :
    world.computed? id = some state ↔ world.cell? id = some (.computed state) := by
  unfold computed?
  cases world.cell? id with
  | none => simp
  | some cell => cases cell <;> simp

theorem signal?_eq_some_iff {world : World κ ν σ} {id : NodeId} {state : Signal ν} :
    world.signal? id = some state ↔ world.cell? id = some (.signal state) := by
  unfold signal?
  cases world.cell? id with
  | none => simp
  | some cell => cases cell <;> simp

theorem effect?_eq_some_iff {world : World κ ν σ} {id : NodeId} {state : Effect κ} :
    world.effect? id = some state ↔ world.cell? id = some (.effect state) := by
  unfold effect?
  cases world.cell? id with
  | none => simp
  | some cell => cases cell <;> simp

theorem value?_eq {world : World κ ν σ} {id : NodeId} {cell : Cell κ ν}
    (known : world.cell? id = some cell) : world.value? id = cell.value? := by
  simp only [value?, known, Option.bind_some]

@[simp] theorem cell?_mapGraph (world : World κ ν σ) (id : ReactorId) (change : Graph → Graph)
    (other : NodeId) : (world.mapGraph id change).cell? other = world.cell? other :=
  rfl

@[simp] theorem cell?_modifyReactor (world : World κ ν σ) (id : ReactorId)
    (change : Reactor → Reactor) (other : NodeId) :
    (world.modifyReactor id change).cell? other = world.cell? other :=
  rfl

@[simp] theorem cell?_record (world : World κ ν σ) (event : Event κ ν) (id : NodeId) :
    (world.record event).cell? id = world.cell? id :=
  rfl

@[simp] theorem value?_mapGraph (world : World κ ν σ) (id : ReactorId) (change : Graph → Graph)
    (other : NodeId) : (world.mapGraph id change).value? other = world.value? other :=
  rfl

@[simp] theorem value?_modifyReactor (world : World κ ν σ) (id : ReactorId)
    (change : Reactor → Reactor) (other : NodeId) :
    (world.modifyReactor id change).value? other = world.value? other :=
  rfl

@[simp] theorem value?_record (world : World κ ν σ) (event : Event κ ν) (id : NodeId) :
    (world.record event).value? id = world.value? id :=
  rfl

@[simp] theorem node?_record (world : World κ ν σ) (event : Event κ ν) (id : NodeId) :
    (world.record event).node? id = world.node? id :=
  rfl

theorem value?_modifyCell (world : World κ ν σ) (id : NodeId) {change : Cell κ ν → Cell κ ν}
    (kept : ∀ cell, (change cell).value? = cell.value?) (other : NodeId) :
    (world.modifyCell id change).value? other = world.value? other := by
  unfold value?
  rw [cell?_modifyCell]
  split
  next same =>
    subst same
    cases world.cell? other with
    | none => rfl
    | some cell => exact kept cell
  next => rfl

theorem node?_modifyCell (world : World κ ν σ) (id : NodeId) {change : Cell κ ν → Cell κ ν}
    (kept : ∀ cell, (change cell).reactor = cell.reactor) (other : NodeId) :
    (world.modifyCell id change).node? other = world.node? other := by
  unfold node?
  rw [cell?_modifyCell]
  split
  next same =>
    subst same
    cases world.cell? other with
    | none => rfl
    | some cell =>
      show (world.graph (change cell).reactor).node? other = _
      rw [kept]
      rfl
  next => rfl

theorem graph_modifyReactor (world : World κ ν σ) (id : ReactorId) {change : Reactor → Reactor}
    (kept : ∀ reactor, world.reactor? id = some reactor → (change reactor).graph = reactor.graph)
    (other : ReactorId) : (world.modifyReactor id change).graph other = world.graph other := by
  unfold graph
  rw [reactor?_modifyReactor]
  split
  next same =>
    subst same
    cases found : world.reactor? other with
    | none => rfl
    | some reactor => exact kept reactor found
  next => rfl

theorem node?_modifyReactor (world : World κ ν σ) (id : ReactorId) {change : Reactor → Reactor}
    (kept : ∀ reactor, world.reactor? id = some reactor → (change reactor).graph = reactor.graph)
    (other : NodeId) : (world.modifyReactor id change).node? other = world.node? other := by
  unfold node?
  rw [cell?_modifyReactor]
  congr 1
  funext cell
  rw [graph_modifyReactor world id kept]

theorem graph_mapGraph (world : World κ ν σ) (id : ReactorId) {change : Graph → Graph}
    (bare : change .empty = .empty) (other : ReactorId) :
    (world.mapGraph id change).graph other =
      if other = id then change (world.graph id) else world.graph other := by
  unfold mapGraph graph
  rw [reactor?_modifyReactor]
  split
  next same =>
    subst same
    cases world.reactor? other with
    | none => exact bare.symm
    | some reactor => rfl
  next => rfl

theorem node?_mapGraph (world : World κ ν σ) (id : ReactorId) {change : Graph → Graph}
    (bare : change .empty = .empty) {other : NodeId} {cell : Cell κ ν}
    (known : world.cell? other = some cell) :
    (world.mapGraph id change).node? other =
      if cell.reactor = id then (change (world.graph id)).node? other
      else world.node? other := by
  have known' : (world.mapGraph id change).cell? other = some cell := known
  rw [node?_eq known', node?_eq known, graph_mapGraph world id bare]
  split <;> rfl

/-- A change of one node is seen at that node alone. -/
theorem node?_mapGraph_modify {world : World κ ν σ} {id : NodeId} {cell : Cell κ ν}
    (known : world.cell? id = some cell) {change : Node → Node}
    (kept : ∀ node, (change node).id = node.id) (other : NodeId) :
    (world.mapGraph cell.reactor (·.modify id change)).node? other =
      if other = id then (world.node? id).map change else world.node? other := by
  cases found : world.cell? other with
  | none =>
    have apart : other ≠ id := by
      intro same
      rw [same, known] at found
      cases found
    rw [if_neg apart]
    simp only [node?, cell?_mapGraph, found, Option.bind_none]
  | some cell' =>
    rw [node?_mapGraph world cell.reactor rfl found, Graph.node?_modify _ kept, node?_eq known]
    split
    next same =>
      split
      next => rfl
      next => rw [node?_eq found, same]
    next elsewhere =>
      have apart : other ≠ id := by
        intro same
        rw [same, known] at found
        cases found
        exact elsewhere rfl
      rw [if_neg apart]

@[simp] theorem node?_pushFrame (world : World κ ν σ) (id : ReactorId) (frame : Frame)
    (other : NodeId) :
    (world.modifyReactor id (·.pushFrame frame)).node? other = world.node? other := by
  apply node?_modifyReactor
  intro reactor _
  rfl

@[simp] theorem node?_popFrame (world : World κ ν σ) (id : ReactorId) (other : NodeId) :
    (world.modifyReactor id Reactor.popFrame).node? other = world.node? other := by
  apply node?_modifyReactor
  intro reactor _
  rfl

@[simp] theorem node?_computing (world : World κ ν σ) (id : NodeId) (computing : Bool)
    (other : NodeId) :
    (world.modifyComputed id ({ · with computing })).node? other = world.node? other :=
  node?_modifyCell world id (fun cell => by cases cell <;> rfl) other

@[simp] theorem node?_keepValue (world : World κ ν σ) (id : NodeId) (value : Option ν)
    (other : NodeId) :
    (world.modifyComputed id ({ · with value })).node? other = world.node? other :=
  node?_modifyCell world id (fun cell => by cases cell <;> rfl) other

@[simp] theorem value?_computing (world : World κ ν σ) (id : NodeId) (computing : Bool)
    (other : NodeId) :
    (world.modifyComputed id ({ · with computing })).value? other = world.value? other :=
  value?_modifyCell world id (fun cell => by cases cell <;> rfl) other

@[simp] theorem node?_hold (world : World κ ν σ) (id other : NodeId) :
    (world.hold (.node id)).node? other = world.node? other :=
  node?_modifyCell world id (fun cell => cell.withHolders_reactor _) other

@[simp] theorem value?_hold (world : World κ ν σ) (id other : NodeId) :
    (world.hold (.node id)).value? other = world.value? other :=
  value?_modifyCell world id (fun cell => cell.withHolders_value? _) other

@[simp] theorem node?_lose (world : World κ ν σ) (id other : NodeId) :
    (world.lose (.node id)).node? other = world.node? other :=
  node?_modifyCell world id (fun cell => cell.withHolders_reactor _) other

@[simp] theorem value?_lose (world : World κ ν σ) (id other : NodeId) :
    (world.lose (.node id)).value? other = world.value? other :=
  value?_modifyCell world id (fun cell => cell.withHolders_value? _) other

/-- A handle that is not the last one is given back without further effect. -/
theorem drop_eq_lose {world : World κ ν σ} {id : NodeId}
    (held : world.holdersOf (.node id) ≠ 1) :
    world.drop (.node id) = world.lose (.node id) := by
  unfold drop dropAll
  simp only [held, if_false]
  unfold dropAll
  rfl

end World

end ReactiveTree
