import ReactiveTree.Proofs.Graph.Waking
import ReactiveTree.Proofs.Reactive.Making

/-! # Worlds whose readers are listed

In a world every active effect has to be listed by what it reads, unless a pass still owes it a
visit, and so has every computed that is not dirty. Each change of a world is judged by what it does
to this.
-/

namespace ReactiveTree

variable {κ ν σ : Type}

namespace Cell

/-- How often an active effect has run. -/
def turn? : Cell κ ν → Option Nat
  | .effect state => if state.active then some state.runs else none
  | _ => none

/-- Where a cell's node is, and of which kind. -/
def place (cell : Cell κ ν) : ReactorId × NodeKind :=
  (cell.reactor, cell.kind)

/-- What the listing of readers depends on. -/
def face (cell : Cell κ ν) : ReactorId × NodeKind × Option Nat :=
  (cell.reactor, cell.kind, cell.turn?)

@[simp] theorem withHolders_face (cell : Cell κ ν) (holders : Nat) :
    (cell.withHolders holders).face = cell.face := by
  cases cell <;> rfl

end Cell

theorem Reactor.closeBatch_kept (state : Reactor) : state.closeBatch.2.graph = state.graph ∧
    state.closeBatch.2.chains = state.chains ∧ state.closeBatch.2.holders = state.holders := by
  unfold Reactor.closeBatch
  split <;> exact ⟨rfl, rfl, rfl⟩

/-- What is still to be done before every reader is listed, and what may be relied on meanwhile. -/
structure Tally where
  /-- Effects that a pass still has to visit, each with how often it had run. -/
  owed : List (NodeId × Nat)
  /-- Computeds that have to be listed even when they are dirty. -/
  dirty : NodeId → Prop
  /-- Cells that are known to be there. -/
  known : NodeId → ReactorId × NodeKind → Prop

namespace Tally

/-- Nothing is owed, and nothing is asked for besides. -/
def none : Tally :=
  ⟨[], fun _ => False, fun _ _ => False⟩

/-- One computed more has to be listed even when it is dirty. -/
def insisting (tally : Tally) (id : NodeId) : Tally :=
  { tally with dirty := fun other => other = id ∨ tally.dirty other }

/-- No visit of one effect is owed any more. -/
def clearing (tally : Tally) (id : NodeId) : Tally :=
  { tally with owed := tally.owed.filter fun entry => entry.1 ≠ id }

/-- One cell more is known to be there. -/
def knowing (tally : Tally) (id : NodeId) (place : ReactorId × NodeKind) : Tally :=
  { tally with known := fun other place' => other = id ∧ place' = place ∨ tally.known other place' }

end Tally

namespace World

/-- How often an active effect has run. -/
def turn? (world : World κ ν σ) (id : NodeId) : Option Nat :=
  (world.cell? id).bind Cell.turn?

/-- The readers that have to be listed. -/
def demand (world : World κ ν σ) (tally : Tally) : Demand where
  effects id := ∃ runs, world.turn? id = some runs ∧ (id, runs) ∉ tally.owed
  dirty := tally.dirty

/-- Every node is that of a cell, reads nodes of cells only, and is an effect without dependencies
if its reactor is dead. -/
structure Housed (world : World κ ν σ) : Prop where
  home : ∀ owner id node, (world.graph owner).node? id = some node →
    ∃ cell, world.cell? id = some cell ∧ cell.reactor = owner ∧ cell.kind = node.kind
  reads : ∀ owner id node, (world.graph owner).node? id = some node →
    ∀ read ∈ node.dependencies, (world.cell? read).isSome
  dead : ∀ owner, world.isAlive owner = false → ∀ id node,
    (world.graph owner).node? id = some node → node.kind = .effect ∧ node.dependencies = []

/-- Every reader is listed by what it reads, as far as the tally asks for it. -/
structure Listed (world : World κ ν σ) (tally : Tally) : Prop extends world.Housed where
  known : ∀ id place, tally.known id place → ∃ cell, world.cell? id = some cell ∧ cell.place = place
  lists : ∀ owner, (world.graph owner).Lists (world.demand tally)

variable {world after : World κ ν σ} {tally tally' : Tally}

theorem initial_listed (user : σ) : (initial user : World κ ν σ).Listed .none where
  home _ _ _ found := nomatch found
  reads _ _ _ found := nomatch found
  dead _ _ _ _ found := nomatch found
  known _ _ none := none.elim
  lists _ := Graph.lists_empty _

theorem Housed.change (housed : world.Housed)
    (cells : ∀ id cell, world.cell? id = some cell →
      ∃ cell', after.cell? id = some cell' ∧ cell'.reactor = cell.reactor ∧ cell'.kind = cell.kind)
    (alive : ∀ owner, world.isAlive owner = true →
      after.isAlive owner = true ∨ after.graph owner = .empty)
    (nodes : ∀ owner id node, (after.graph owner).node? id = some node →
      ∃ old, (world.graph owner).node? id = some old ∧ node.kind = old.kind ∧
        ∀ read ∈ node.dependencies,
          read ∈ old.dependencies ∨ world.isAlive owner = true ∧ (world.cell? read).isSome) :
    after.Housed where
  home owner id node found := by
    obtain ⟨old, was, kind, _⟩ := nodes owner id node found
    obtain ⟨cell, known, reactor, kind'⟩ := housed.home owner id old was
    obtain ⟨cell', known', reactor', kind''⟩ := cells id cell known
    exact ⟨cell', known', reactor'.trans reactor, kind''.trans (kind'.trans kind.symm)⟩
  reads owner id node found read member := by
    obtain ⟨old, was, _, fewer⟩ := nodes owner id node found
    have known : (world.cell? read).isSome :=
      (fewer read member).elim (housed.reads owner id old was read) And.right
    obtain ⟨cell, known⟩ := Option.isSome_iff_exists.mp known
    obtain ⟨cell', known', _⟩ := cells read cell known
    rw [known']
    rfl
  dead owner dead id node found := by
    obtain ⟨old, was, kind, fewer⟩ := nodes owner id node found
    have dead' : world.isAlive owner = false := by
      rw [← Bool.not_eq_true]
      intro living
      rcases alive owner living with still | emptied
      · rw [dead] at still
        cases still
      · rw [emptied] at found
        cases found
    obtain ⟨isEffect, nothing⟩ := housed.dead owner dead' id old was
    refine ⟨kind.trans isEffect, List.eq_nil_iff_forall_not_mem.mpr fun read member => ?_⟩
    rcases fewer read member with before | ⟨living, _⟩
    · rw [nothing] at before
      cases before
    · rw [dead'] at living
      cases living

/-- A visit of an effect that was stopped or has run meanwhile is owed no longer. -/
theorem Listed.lapse (listed : world.Listed tally)
    (owed : ∀ id runs, (id, runs) ∈ tally.owed → world.turn? id = some runs →
      (id, runs) ∈ tally'.owed)
    (dirty : ∀ id, tally'.dirty id → tally.dirty id)
    (known : ∀ id place, tally'.known id place → tally.known id place) : world.Listed tally' where
  toHoused := listed.toHoused
  known id place holds := listed.known id place (known id place holds)
  lists owner := (listed.lists owner).mono
    (fun id ⟨runs, turn, absent⟩ => ⟨runs, turn, fun member => absent (owed id runs member turn)⟩)
    dirty

theorem Listed.mono (listed : world.Listed tally) (owed : ∀ entry ∈ tally.owed, entry ∈ tally'.owed)
    (dirty : ∀ id, tally'.dirty id → tally.dirty id)
    (known : ∀ id place, tally'.known id place → tally.known id place) : world.Listed tally' :=
  listed.lapse (fun _ _ member _ => owed _ member) dirty known

theorem Listed.of_insisting {id : NodeId} (listed : world.Listed (tally.insisting id)) :
    world.Listed tally :=
  listed.mono (fun _ member => member) (fun _ => Or.inr) fun _ _ holds => holds

theorem Listed.of_clearing {id : NodeId} (listed : world.Listed (tally.clearing id)) :
    world.Listed tally :=
  listed.mono (fun _ member => List.mem_of_mem_filter member) (fun _ holds => holds)
    fun _ _ holds => holds

theorem Listed.of_knowing {id : NodeId} {place : ReactorId × NodeKind}
    (listed : world.Listed (tally.knowing id place)) : world.Listed tally :=
  listed.mono (fun _ member => member) (fun _ holds => holds) fun _ _ => Or.inr

theorem Listed.knowing (listed : world.Listed tally) {id : NodeId} {cell : Cell κ ν}
    (found : world.cell? id = some cell) : world.Listed (tally.knowing id cell.place) := by
  refine ⟨listed.toHoused, fun other place holds => ?_, listed.lists⟩
  rcases holds with ⟨rfl, rfl⟩ | before
  · exact ⟨cell, found, rfl⟩
  · exact listed.known other place before

/-- A reader that is not dirty is listed already. -/
theorem Listed.insisting (listed : world.Listed tally) {id : NodeId}
    (doubtful : ∀ owner node, (world.graph owner).node? id = some node → node.freshness ≠ .dirty) :
    world.Listed (tally.insisting id) := by
  refine ⟨listed.toHoused, listed.known, fun owner reader node found wanted => ?_⟩
  by_cases same : reader = id
  · subst same
    refine listed.lists owner reader node found ?_
    unfold Demand.Wants at wanted ⊢
    cases kind : node.kind with
    | source =>
      rw [kind] at wanted
      exact wanted
    | derived => exact fun dirty => absurd dirty (doubtful owner node found)
    | effect =>
      rw [kind] at wanted
      exact wanted
  · exact listed.lists owner reader node found
      (wanted.mono (fun holds => holds) fun holds => holds.resolve_left same)

/-- A change of cells, in which an effect that has to be listed had to be listed before. -/
theorem Listed.of_cells (listed : world.Listed tally)
    (cells : ∀ id, Option.Rel (fun cell cell' => cell'.reactor = cell.reactor ∧
      cell'.kind = cell.kind ∧ ∀ runs, cell'.turn? = some runs → (id, runs) ∉ tally.owed →
        ∃ runs', cell.turn? = some runs' ∧ (id, runs') ∉ tally.owed)
      (world.cell? id) (after.cell? id))
    (graphs : ∀ owner, after.graph owner = world.graph owner)
    (alive : ∀ owner, world.isAlive owner = true → after.isAlive owner = true) :
    after.Listed tally where
  toHoused := listed.toHoused.change (fun id cell found => by
      have related := cells id
      rw [found] at related
      revert related
      generalize after.cell? id = after?
      intro related
      cases related with
      | some holds => exact ⟨_, rfl, holds.1, holds.2.1⟩)
    (fun owner living => Or.inl (alive owner living)) fun owner id node found => by
      rw [graphs] at found
      exact ⟨node, found, rfl, fun _ member => Or.inl member⟩
  known id place holds := by
    obtain ⟨cell, found, same⟩ := listed.known id place holds
    have related := cells id
    rw [found] at related
    revert related
    generalize after.cell? id = after?
    intro related
    cases related with
    | some holds => exact ⟨_, rfl, (Prod.ext holds.1 holds.2.1).trans same⟩
  lists owner := by
    rw [graphs]
    refine (listed.lists owner).mono (fun id ⟨runs, turn, absent⟩ => ?_) fun _ holds => holds
    obtain ⟨cell', found, turn⟩ := Option.bind_eq_some_iff.mp turn
    have related := cells id
    rw [found] at related
    obtain ⟨cell, was, _, _, turned⟩ := relOption_some related
    obtain ⟨runs', turn', absent'⟩ := turned runs turn absent
    exact ⟨runs', Option.bind_eq_some_iff.mpr ⟨cell, was, turn'⟩, absent'⟩

theorem Listed.of_faces (listed : world.Listed tally)
    (cells : ∀ id, (after.cell? id).map Cell.face = (world.cell? id).map Cell.face)
    (graphs : ∀ owner, after.graph owner = world.graph owner)
    (alive : ∀ owner, world.isAlive owner = true → after.isAlive owner = true) :
    after.Listed tally := by
  refine listed.of_cells (fun id => ?_) graphs alive
  have same := cells id
  revert same
  generalize world.cell? id = old
  generalize after.cell? id = new
  intro same
  cases new with
  | none =>
    cases old with
    | none => exact .none
    | some => cases same
  | some new =>
    cases old with
    | none => cases same
    | some old =>
      have faces : new.face = old.face := Option.some.inj same
      have rest : (new.kind, new.turn?) = (old.kind, old.turn?) := congrArg Prod.snd faces
      refine .some ⟨congrArg Prod.fst faces, congrArg Prod.fst rest, fun runs turn absent => ?_⟩
      exact ⟨runs, (congrArg Prod.snd rest).symm.trans turn, absent⟩

theorem Listed.modifyCell (listed : world.Listed tally) (id : NodeId)
    {change : Cell κ ν → Cell κ ν} (kept : ∀ cell, (change cell).face = cell.face) :
    (world.modifyCell id change).Listed tally := by
  refine listed.of_faces (fun other => ?_) (fun _ => rfl) fun _ living => living
  rw [cell?_modifyCell]
  split
  next same =>
    subst same
    cases world.cell? other with
    | none => rfl
    | some cell => exact congrArg some (kept cell)
  next => rfl

theorem isAlive_modifyReactor {id : ReactorId} {change : Reactor → Reactor}
    (alive : ∀ reactor, world.reactor? id = some reactor → reactor.isAlive = true →
      (change reactor).isAlive = true)
    {other : ReactorId} (living : world.isAlive other = true) :
    (world.modifyReactor id change).isAlive other = true := by
  unfold isAlive at living ⊢
  rw [reactor?_modifyReactor]
  split
  next same =>
    subst same
    cases found : world.reactor? other with
    | none =>
      rw [found] at living
      cases living
    | some state =>
      rw [found] at living
      exact alive state found living
  next => exact living

theorem isAlive_mapGraph {id other : ReactorId} {change : Graph → Graph}
    (living : world.isAlive other = true) : (world.mapGraph id change).isAlive other = true := by
  refine isAlive_modifyReactor (fun reactor _ living => ?_) living
  exact living

theorem Listed.modifyReactor (listed : world.Listed tally) (id : ReactorId)
    {change : Reactor → Reactor}
    (graph : ∀ reactor, world.reactor? id = some reactor → (change reactor).graph = reactor.graph)
    (alive : ∀ reactor, world.reactor? id = some reactor → reactor.isAlive = true →
      (change reactor).isAlive = true) :
    (world.modifyReactor id change).Listed tally :=
  listed.of_faces (fun _ => rfl) (graph_modifyReactor world id graph)
    fun _ living => isAlive_modifyReactor alive living

/-- A change of what a reactor keeps besides its graph and its handles. -/
theorem Listed.modifyRecords (listed : world.Listed tally) (id : ReactorId)
    {change : Reactor → Reactor} (kept : ∀ reactor, (change reactor).graph = reactor.graph ∧
      (change reactor).holders = reactor.holders) :
    (world.modifyReactor id change).Listed tally := by
  refine listed.modifyReactor id (fun reactor _ => (kept reactor).1) fun state _ living => ?_
  unfold Reactor.isAlive at living ⊢
  rwa [(kept state).2]

theorem Listed.closeBatch (listed : world.Listed tally) {owner : ReactorId} {state : Reactor}
    (found : world.reactor? owner = some state) :
    (world.modifyReactor owner fun _ => state.closeBatch.2).Listed tally := by
  obtain ⟨graph, _, holders⟩ := state.closeBatch_kept
  refine listed.modifyReactor owner (fun other found' => ?_) fun other found' living => ?_
  · cases Option.some.inj (found.symm.trans found')
    exact graph
  · cases Option.some.inj (found.symm.trans found')
    unfold Reactor.isAlive at living ⊢
    rwa [holders]

theorem Listed.record (listed : world.Listed tally) (event : Event κ ν) :
    (world.record event).Listed tally :=
  listed.of_faces (fun _ => rfl) (fun _ => rfl) fun _ living => living

theorem Listed.report (listed : world.Listed tally) (id : ReactorId) (failure : ReactiveFailure) :
    (world.report id failure).Listed tally := by
  unfold World.report
  split
  next =>
    split
    next => exact listed.record _
    next => exact listed
  next => exact listed

theorem Listed.hold (listed : world.Listed tally) (handle : Handle) :
    (world.hold handle).Listed tally := by
  cases handle with
  | reactor id =>
    refine listed.modifyReactor id (fun _ _ => rfl) fun state _ _ => ?_
    exact decide_eq_true (Nat.succ_pos state.holders)
  | node id => exact listed.modifyCell id fun cell => cell.withHolders_face _

theorem Listed.foldl_hold {α : Type} (listed : world.Listed tally) (members : List α)
    (handle : α → Handle) :
    (members.foldl (fun world member => world.hold (handle member)) world).Listed tally := by
  induction members generalizing world with
  | nil => exact listed
  | cons member rest ih => exact ih (listed.hold (handle member))

theorem Listed.modifySignal (listed : world.Listed tally) (id : NodeId)
    {change : Signal ν → Signal ν} (kept : ∀ state, (change state).reactor = state.reactor) :
    (world.modifySignal id change).Listed tally := by
  refine listed.modifyCell id fun cell => ?_
  cases cell with
  | signal state => exact congrArg (·, NodeKind.source, none) (kept state)
  | computed => rfl
  | effect => rfl

theorem Listed.modifyComputed (listed : world.Listed tally) (id : NodeId)
    {change : Computed κ ν → Computed κ ν}
    (kept : ∀ state, (change state).reactor = state.reactor) :
    (world.modifyComputed id change).Listed tally := by
  refine listed.modifyCell id fun cell => ?_
  cases cell with
  | signal => rfl
  | computed state => exact congrArg (·, NodeKind.derived, none) (kept state)
  | effect => rfl

/-- A change of one effect that has to be listed only if it had to be before. -/
private theorem Listed.changeEffect (listed : world.Listed tally) (id : NodeId)
    {change : Effect κ → Effect κ} (home : ∀ state, (change state).reactor = state.reactor)
    (turns : ∀ state, world.cell? id = some (.effect state) → (change state).active = true →
      (id, (change state).runs) ∉ tally.owed → state.active = true ∧ (id, state.runs) ∉ tally.owed) :
    (world.modifyEffect id change).Listed tally := by
  have same : ∀ (other : NodeId) (cell : Cell κ ν), cell.reactor = cell.reactor ∧
      cell.kind = cell.kind ∧ ∀ runs, cell.turn? = some runs → (other, runs) ∉ tally.owed →
        ∃ runs', cell.turn? = some runs' ∧ (other, runs') ∉ tally.owed :=
    fun _ _ => ⟨rfl, rfl, fun runs turn absent => ⟨runs, turn, absent⟩⟩
  refine listed.of_cells (fun other => ?_) (fun _ => rfl) fun _ living => living
  unfold World.modifyEffect
  rw [cell?_modifyCell]
  split
  next here =>
    subst here
    cases found : world.cell? other with
    | none => exact .none
    | some cell =>
      refine .some ?_
      cases cell with
      | signal => exact same other _
      | computed => exact same other _
      | effect state =>
        refine ⟨home state, rfl, fun runs turn absent => ⟨state.runs, ?_⟩⟩
        change (if (change state).active then some (change state).runs else none) = some runs at turn
        split at turn
        next active =>
          cases turn
          obtain ⟨active', absent'⟩ := turns state found active absent
          exact ⟨if_pos active', absent'⟩
        next => cases turn
  next => exact relOption_refl (same other) _

theorem Listed.modifyEffect (listed : world.Listed tally) (id : NodeId)
    {change : Effect κ → Effect κ} (kept : ∀ state, (change state).reactor = state.reactor ∧
      (change state).active = state.active ∧ (change state).runs = state.runs) :
    (world.modifyEffect id change).Listed tally := by
  refine listed.changeEffect id (fun state => (kept state).1) fun state _ active absent => ?_
  rw [(kept state).2.1] at active
  rw [(kept state).2.2] at absent
  exact ⟨active, absent⟩

/-- An effect that is stopped need not be listed. -/
theorem Listed.deactivate (listed : world.Listed tally) (id : NodeId) :
    (world.modifyEffect id ({ · with active := false })).Listed tally :=
  listed.changeEffect id (fun _ => rfl) fun _ _ active => nomatch active

/-- An effect to which no visit is owed may have run once more. -/
theorem Listed.countRun (listed : world.Listed tally) {id : NodeId}
    (free : ∀ entry ∈ tally.owed, entry.1 ≠ id) :
    (world.modifyEffect id fun effect => { effect with runs := effect.runs + 1 }).Listed tally :=
  listed.changeEffect id (fun _ => rfl) fun _ _ active _ =>
    ⟨active, fun member => free _ member rfl⟩

/-- An effect that has run once more may be owed a visit. -/
theorem Listed.countOwed (listed : world.Listed tally) (id : NodeId) : ∃ owed,
    (world.modifyEffect id fun effect => { effect with runs := effect.runs + 1 }).Listed
      { tally with owed } := by
  cases found : world.effect? id with
  | none =>
    refine ⟨tally.owed, listed.changeEffect id (fun _ => rfl) fun state known => ?_⟩
    rw [effect?_eq_some_iff.mpr known] at found
    cases found
  | some effect =>
    have more : world.Listed { tally with owed := (id, effect.runs + 1) :: tally.owed } :=
      listed.mono (fun _ member => List.mem_cons_of_mem _ member) (fun _ holds => holds)
        fun _ _ holds => holds
    refine ⟨_, more.changeEffect id (fun _ => rfl) fun state known _ absent => ?_⟩
    rw [effect?_eq_some_iff.mp found] at known
    cases known
    exact absurd List.mem_cons_self absent

/-- A change of one graph that keeps readers listed, in which a new dependency is on a cell. -/
theorem Listed.mapGraph (listed : world.Listed tally) (owner : ReactorId) {change : Graph → Graph}
    (bare : change .empty = .empty)
    (nodes : ∀ id node, (change (world.graph owner)).node? id = some node →
      ∃ old, (world.graph owner).node? id = some old ∧ node.kind = old.kind ∧
        ∀ read ∈ node.dependencies,
          read ∈ old.dependencies ∨ world.isAlive owner = true ∧ (world.cell? read).isSome)
    (known : ∀ id place, tally'.known id place → tally.known id place)
    (lists : (change (world.graph owner)).Lists (world.demand tally'))
    (others : ∀ other, other ≠ owner → (world.graph other).Lists (world.demand tally')) :
    (world.mapGraph owner change).Listed tally' where
  toHoused := by
    refine listed.toHoused.change (fun _ cell found => ⟨cell, found, rfl, rfl⟩)
      (fun _ living => Or.inl (isAlive_mapGraph living)) fun other id node found => ?_
    rw [graph_mapGraph world owner bare] at found
    split at found
    next same =>
      subst same
      exact nodes id node found
    next => exact ⟨node, found, rfl, fun _ member => Or.inl member⟩
  known id place holds := listed.known id place (known id place holds)
  lists other := by
    rw [graph_mapGraph world owner bare]
    split
    next => exact lists
    next apart => exact others other apart

/-- A change at one node that is listed no less than before. -/
theorem Listed.modifyNode (listed : world.Listed tally) (owner : ReactorId) (id : NodeId)
    {change : Node → Node}
    (kept : ∀ node, (change node).id = node.id ∧ (change node).dependencies = node.dependencies ∧
      (change node).dependents = node.dependents)
    (kind : ∀ node, (change node).kind = node.kind)
    (wanted : ∀ node, (world.demand tally).Wants id (change node) →
      (world.demand tally).Wants id node) :
    (world.mapGraph owner (·.modify id change)).Listed tally := by
  refine listed.mapGraph owner rfl (fun other node found => ?_) (fun _ _ holds => holds)
    ((listed.lists owner).modify id kept wanted) fun other _ => listed.lists other
  obtain ⟨old, was, rfl | ⟨rfl, rfl⟩⟩ := Graph.modify_cases (fun node => (kept node).1) found
  · exact ⟨node, was, rfl, fun _ member => Or.inl member⟩
  · exact ⟨old, was, kind old, fun _ member => Or.inl ((kept old).2.1 ▸ member)⟩

theorem Listed.bump (listed : world.Listed tally) (owner : ReactorId) (id : NodeId) :
    (world.mapGraph owner (·.modify id Node.bump)).Listed tally :=
  listed.modifyNode owner id (fun _ => ⟨rfl, rfl, rfl⟩) (fun _ => rfl) fun _ wanted => wanted

/-- Whatever becomes of the mark of a computed that has to be listed in any case. -/
theorem Listed.remark (listed : world.Listed tally) (owner : ReactorId) {id : NodeId}
    (kept : tally.dirty id) {change : Node → Node}
    (edges : ∀ node, (change node).id = node.id ∧ (change node).dependencies = node.dependencies ∧
      (change node).dependents = node.dependents)
    (kinds : ∀ node, (change node).kind = node.kind) :
    (world.mapGraph owner (·.modify id change)).Listed tally := by
  refine listed.modifyNode owner id edges kinds fun node wanted => ?_
  unfold Demand.Wants at wanted ⊢
  rw [kinds] at wanted
  cases kind : node.kind with
  | source =>
    rw [kind] at wanted
    exact wanted
  | derived => exact fun _ => kept
  | effect =>
    rw [kind] at wanted
    exact wanted

theorem Listed.noteWrite (listed : world.Listed tally) (owner : ReactorId) (source : NodeId) :
    (world.noteWrite owner source).Listed tally := by
  unfold World.noteWrite
  split
  next writer _ =>
    have noted : (world.mapGraph owner (·.noteWrite source writer)).Listed tally := by
      refine listed.mapGraph owner rfl (fun id node found => ?_) (fun _ _ holds => holds)
        ((listed.lists owner).noteWrite source writer) fun other _ => listed.lists other
      obtain ⟨old, was, kind, dependencies⟩ := Graph.noteWrite_cases found
      exact ⟨old, was, kind, fun _ member => Or.inl (dependencies ▸ member)⟩
    exact noted.record _
  next => exact listed.record _

/-- A tracked read lists the reader. -/
theorem Listed.noteRead (listed : world.Listed tally) {read : NodeId} {cell : Cell κ ν}
    (found : world.cell? read = some cell) (readable : cell.kind ≠ .effect) :
    (world.noteRead cell.reactor read).Listed tally := by
  unfold World.noteRead
  split
  next reader _ =>
    refine Listed.record ?_ _
    have bare : (fun graph : Graph => graph.connect read reader) .empty = .empty :=
      Graph.connect_empty read reader
    refine listed.mapGraph cell.reactor bare (fun id node present => ?_) (fun _ _ holds => holds)
      ((listed.lists cell.reactor).connect read reader) fun other _ => listed.lists other
    by_cases live : (world.graph cell.reactor).contains read
    · have living : world.isAlive cell.reactor = true := by
        rw [← Bool.not_eq_false]
        intro dead
        obtain ⟨node', live'⟩ := Option.isSome_iff_exists.mp live
        obtain ⟨cell', found', _, kind⟩ := listed.home _ read node' live'
        rw [found] at found'
        cases found'
        exact readable (kind.trans (listed.dead _ dead read node' live').1)
      obtain ⟨step, eq, kept⟩ := Graph.connect_cases (world.graph cell.reactor) read reader id
      rw [eq] at present
      obtain ⟨old, was, rfl⟩ := Option.map_eq_some_iff.mp present
      obtain ⟨outline, _, dependencies⟩ := kept old
      refine ⟨old, was, Node.kind_of_outline outline, fun other member => ?_⟩
      rcases dependencies with same | ⟨_, added⟩
      · exact Or.inl (same ▸ member)
      · rw [added] at member
        refine (mem_addLast.mp member).imp_right fun same => ⟨living, ?_⟩
        rw [same, found]
        rfl
    · have same : (world.graph cell.reactor).connect read reader = world.graph cell.reactor :=
        if_pos (Or.inr (Or.inl live))
      rw [same] at present
      exact ⟨node, present, rfl, fun _ member => Or.inl member⟩
  next => exact listed.record _

private theorem demand_clearing (world : World κ ν σ) (tally : Tally) (id : NodeId) {other : NodeId}
    (demanded : (world.demand ((tally.insisting id).clearing id)).effects other) :
    ((world.demand tally).adding id).effects other := by
  obtain ⟨runs, turn, absent⟩ := demanded
  by_cases same : other = id
  · exact Or.inl same
  · exact Or.inr ⟨runs, turn, fun member =>
      absent (List.mem_filter.mpr ⟨member, decide_eq_true same⟩)⟩

/-- A change of one graph after which one reader more is listed. -/
private theorem Listed.mapGraph_adding (listed : world.Listed tally) {id : NodeId} {cell : Cell κ ν}
    (found : world.cell? id = some cell) {change : Graph → Graph} (bare : change .empty = .empty)
    (nodes : ∀ id node, (change (world.graph cell.reactor)).node? id = some node →
      ∃ old, (world.graph cell.reactor).node? id = some old ∧ node.kind = old.kind ∧
        node.dependencies ⊆ old.dependencies)
    (lists : (change (world.graph cell.reactor)).Lists ((world.demand tally).adding id)) :
    (world.mapGraph cell.reactor change).Listed ((tally.insisting id).clearing id) := by
  refine listed.mapGraph cell.reactor bare (fun id node present => ?_) (fun _ _ holds => holds)
    (lists.mono (fun _ => demand_clearing world tally id) fun _ holds => holds)
    fun other apart => ?_
  · obtain ⟨old, was, kind, fewer⟩ := nodes id node present
    exact ⟨old, was, kind, fun _ member => Or.inl (fewer member)⟩
  · intro reader node present wanted
    have away : reader ≠ id := by
      rintro rfl
      obtain ⟨cell', found', owner, _⟩ := listed.home other reader node present
      rw [found] at found'
      cases found'
      exact apart owner.symm
    have wanted' : ((world.demand tally).adding id).Wants reader node :=
      wanted.mono (fun demanded => demand_clearing world tally id demanded) fun holds => holds
    exact listed.lists other reader node present (wanted'.of_adding away)

/-- A reader that forgets what it reads is listed. -/
theorem Listed.unsubscribe (listed : world.Listed tally) {id : NodeId} {cell : Cell κ ν}
    (found : world.cell? id = some cell) :
    (world.mapGraph cell.reactor (·.unsubscribe id)).Listed ((tally.insisting id).clearing id) := by
  refine listed.mapGraph_adding found rfl (fun other node present => ?_)
    ((listed.lists cell.reactor).unsubscribe id)
  obtain ⟨step, eq, kept⟩ := Graph.unsubscribe_cases (world.graph cell.reactor) id other
  rw [eq] at present
  obtain ⟨old, was, rfl⟩ := Option.map_eq_some_iff.mp present
  obtain ⟨outline, _, dependencies⟩ := kept old
  refine ⟨old, was, Node.kind_of_outline outline, fun read member => ?_⟩
  rw [dependencies] at member
  split at member
  next => cases member
  next => exact member

/-- A reader that is put back is listed. -/
theorem Listed.resubscribe (listed : world.Listed tally) {id : NodeId} {cell : Cell κ ν}
    (found : world.cell? id = some cell) :
    (world.mapGraph cell.reactor (·.resubscribe id)).Listed ((tally.insisting id).clearing id) := by
  refine listed.mapGraph_adding found rfl (fun other node present => ?_)
    ((listed.lists cell.reactor).resubscribe id)
  obtain ⟨old, was, kind, _, dependencies⟩ := Graph.resubscribe_cases present
  exact ⟨old, was, kind, fun _ member => dependencies ▸ member⟩

/-- A reader in a dead reactor is listed. -/
theorem Listed.of_dead (listed : world.Listed tally) {id : NodeId} {cell : Cell κ ν}
    (found : world.cell? id = some cell) (dead : world.isAlive cell.reactor = false) :
    world.Listed ((tally.insisting id).clearing id) where
  toHoused := listed.toHoused
  known := listed.known
  lists owner := by
    intro reader node present wanted read source member
    have away : reader ≠ id := by
      rintro rfl
      obtain ⟨cell', found', owner, _⟩ := listed.home owner reader node present
      rw [found] at found'
      cases found'
      subst owner
      rw [(listed.dead _ dead reader node present).2] at member
      cases member
    have wanted' : ((world.demand tally).adding id).Wants reader node :=
      wanted.mono (fun demanded => demand_clearing world tally id demanded) fun holds => holds
    exact listed.lists owner reader node present (wanted'.of_adding away) read source member

end World

end ReactiveTree
