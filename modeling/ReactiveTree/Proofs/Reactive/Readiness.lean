import ReactiveTree.Proofs.Reactive.Steps

/-! # Worlds that are ready for a refresh

`Ready` gathers what an evaluation relies on: cells that fit the chart and the program, marks and
edges that fit together, and no evaluation under way further down. `UpToDate` compares the values
with a table of answers. `Progress` is a drift that leaves the skeleton alone and keeps all of this.
-/

namespace ReactiveTree

variable {κ ν σ : Type}

/-- The inputs that a refresh of a node checks before it keeps the value. -/
def Node.unchecked (node : Node) : List NodeId :=
  if node.freshness = .doubtful then node.dependencies else []

theorem Node.unchecked_subset (node : Node) {id : NodeId} (member : id ∈ node.unchecked) :
    id ∈ node.dependencies := by
  unfold Node.unchecked at member
  split at member
  next => exact member
  next => cases member

namespace Cell

/-- What a cell is, apart from a kept value, a running evaluation and its handles. -/
def essence : Cell κ ν → Cell κ ν
  | .signal state => .signal { state with holders := 0 }
  | .computed state => .computed { state with value := none, computing := false, holders := 0 }
  | .effect state => .effect { state with holders := 0 }

/-- A cell goes on as the same cell, held at least as often. -/
def Continues (before after : Cell κ ν) : Prop :=
  after.essence = before.essence ∧ before.holders ≤ after.holders

theorem Continues.refl (cell : Cell κ ν) : cell.Continues cell :=
  ⟨rfl, Nat.le_refl _⟩

theorem essence_bare (cell : Cell κ ν) : cell.bare.essence = cell.essence := by
  cases cell <;> rfl

theorem continues_of_bare {before after : Cell κ ν} (same : after.bare = before.bare) :
    before.Continues after := by
  constructor
  · rw [← essence_bare, same, essence_bare]
  · have holders : after.holders = before.holders := by
      rw [← bare_holders after, same, bare_holders]
    exact Nat.le_of_eq holders.symm

theorem Continues.reactor {before after : Cell κ ν} (continues : before.Continues after) :
    after.reactor = before.reactor := by
  have hidden : ∀ cell : Cell κ ν, cell.essence.reactor = cell.reactor := by
    intro cell
    cases cell <;> rfl
  rw [← hidden, continues.1, hidden]

theorem Continues.kind {before after : Cell κ ν} (continues : before.Continues after) :
    after.kind = before.kind := by
  have hidden : ∀ cell : Cell κ ν, cell.essence.kind = cell.kind := by
    intro cell
    cases cell <;> rfl
  rw [← hidden, continues.1, hidden]

theorem Continues.code? {before after : Cell κ ν} (continues : before.Continues after) :
    after.code? = before.code? := by
  have hidden : ∀ cell : Cell κ ν, cell.essence.code? = cell.code? := by
    intro cell
    cases cell <;> rfl
  rw [← hidden, continues.1, hidden]

/-- A cell plays the part that it has played, held at least as often; a signal may have been
written. -/
structure Alike (before after : Cell κ ν) : Prop where
  reactor : after.reactor = before.reactor
  kind : after.kind = before.kind
  code? : after.code? = before.code?
  holders : before.holders ≤ after.holders

theorem Continues.alike {before after : Cell κ ν} (continues : before.Continues after) :
    before.Alike after :=
  ⟨continues.reactor, continues.kind, continues.code?, continues.2⟩

end Cell

namespace World

/-- Every cell goes on, and there are no others. -/
def Continues (world after : World κ ν σ) : Prop :=
  ∀ id, Option.Rel Cell.Continues (world.cell? id) (after.cell? id)

theorem Continues.before {world after : World κ ν σ} (continues : world.Continues after)
    {id : NodeId} {cell : Cell κ ν} (found : after.cell? id = some cell) :
    ∃ old, world.cell? id = some old ∧ old.Continues cell := by
  have related := continues id
  rw [found] at related
  cases present : world.cell? id with
  | none =>
    rw [present] at related
    cases related
  | some old =>
    rw [present] at related
    cases related with
    | some goes => exact ⟨old, rfl, goes⟩

theorem Continues.after {world after : World κ ν σ} (continues : world.Continues after)
    {id : NodeId} {cell : Cell κ ν} (found : world.cell? id = some cell) :
    ∃ new, after.cell? id = some new ∧ cell.Continues new := by
  have related := continues id
  rw [found] at related
  cases present : after.cell? id with
  | none =>
    rw [present] at related
    cases related
  | some new =>
    rw [present] at related
    cases related with
    | some goes => exact ⟨new, rfl, goes⟩

theorem Continues.known {world after : World κ ν σ} (continues : world.Continues after)
    (id : NodeId) (cell : Cell κ ν) (found : world.cell? id = some cell) :
    ∃ new, after.cell? id = some new := by
  obtain ⟨new, present, _⟩ := continues.after found
  exact ⟨new, present⟩

theorem Continues.computed {world after : World κ ν σ} (continues : world.Continues after)
    {id : NodeId} {state : Computed κ ν} (known : world.cell? id = some (.computed state)) :
    ∃ state', after.cell? id = some (.computed state') ∧ state'.reactor = state.reactor ∧
      state'.body = state.body := by
  obtain ⟨new, present, goes⟩ := continues.after known
  cases new with
  | signal state' => cases goes.kind
  | effect state' => cases goes.kind
  | computed state' => exact ⟨state', present, goes.reactor, Option.some.inj goes.code?⟩

theorem continues_of_skeleton {world after : World κ ν σ}
    (same : after.skeleton = world.skeleton) : world.Continues after := by
  intro id
  have bare : (after.cell? id).map Cell.bare = (world.cell? id).map Cell.bare := by
    rw [← skeleton_cell?, same, skeleton_cell?]
  cases found : world.cell? id with
  | none =>
    rw [found] at bare
    rw [Option.map_eq_none_iff.mp bare]
    exact Option.Rel.none
  | some cell =>
    rw [found] at bare
    obtain ⟨new, present, equal⟩ := Option.map_eq_some_iff.mp bare
    rw [present]
    exact Option.Rel.some (Cell.continues_of_bare equal)

/-- An evaluation is in progress if it was. -/
theorem computing_of_skeleton {world after : World κ ν σ} (same : after.skeleton = world.skeleton)
    {id : NodeId} {computed : Computed κ ν} (found : after.computed? id = some computed) :
    ∃ old, world.computed? id = some old ∧ old.computing = computed.computing := by
  have bare : (after.cell? id).map Cell.bare = (world.cell? id).map Cell.bare := by
    rw [← skeleton_cell?, same, skeleton_cell?]
  rw [computed?_eq_some_iff.mp found] at bare
  obtain ⟨old, known, equal⟩ := Option.map_eq_some_iff.mp bare.symm
  cases old with
  | signal state => cases equal
  | effect state => cases equal
  | computed state =>
    have kept : (Cell.computed state : Cell κ ν).bare = (Cell.computed computed).bare := equal
    simp only [Cell.bare, Cell.computed.injEq, Computed.mk.injEq] at kept
    exact ⟨state, computed?_eq_some_iff.mpr known, kept.2.2.2.1⟩

private theorem continues_modifyCell (world : World κ ν σ) (id : NodeId)
    {change : Cell κ ν → Cell κ ν} (goes : ∀ cell : Cell κ ν, Cell.Continues cell (change cell)) :
    world.Continues (world.modifyCell id change) := by
  intro other
  rw [cell?_modifyCell]
  split
  next same =>
    subst same
    cases world.cell? other with
    | none => exact Option.Rel.none
    | some cell => exact Option.Rel.some (goes cell)
  next =>
    cases world.cell? other with
    | none => exact Option.Rel.none
    | some cell => exact Option.Rel.some (Cell.Continues.refl cell)

theorem continues_hold (world : World κ ν σ) (id : NodeId) :
    world.Continues (world.hold (.node id)) := by
  apply continues_modifyCell
  intro cell
  constructor
  · cases cell <;> rfl
  · rw [Cell.withHolders_holders]
    exact Nat.le_succ _

/-- The handle of a node that is held besides is not the last one. -/
theorem holdersOf_ne_one {world after : World κ ν σ} {id : NodeId} {cell : Cell κ ν}
    (known : world.cell? id = some cell) (held : 0 < cell.holders)
    (same : after.skeleton = (world.hold (.node id)).skeleton) : after.holdersOf (.node id) ≠ 1 := by
  have taken : (world.hold (.node id)).cell? id =
      some (cell.withHolders (cell.holders + 1)) := by
    unfold hold
    dsimp only
    rw [cell?_modifyCell, if_pos rfl, known]
    rfl
  obtain ⟨new, present, _, more⟩ := (continues_of_skeleton same).after taken
  rw [Cell.withHolders_holders] at more
  show ((after.cell? id).map Cell.holders).getD 0 ≠ 1
  rw [present, Option.map_some, Option.getD_some]
  omega

theorem continues_enter (world : World κ ν σ) (id : NodeId) (reactor : ReactorId) :
    world.Continues (world.enter id reactor) := by
  refine continues_modifyCell world id ?_
  intro cell
  cases cell <;> exact ⟨rfl, Nat.le_refl _⟩

theorem continues_leave (world : World κ ν σ) (id : NodeId) (reactor : ReactorId)
    (panicked : Bool) : world.Continues (world.leave id reactor panicked) := by
  refine continues_modifyCell world id ?_
  intro cell
  cases cell <;> exact ⟨rfl, Nat.le_refl _⟩

/-- The cells of a world fit the chart and the program, and every computed is held and live. -/
structure Wired (world : World κ ν σ) (chart : Chart) (program : Program κ ν σ) : Prop where
  home : ∀ id cell, world.cell? id = some cell → chart.home id = some cell.reactor
  body : ∀ id cell code, world.cell? id = some cell → cell.code? = some code →
    (program.compute code).OnlyReads (chart.Admits id)
  held : ∀ id cell, world.cell? id = some cell → cell.kind = .derived → 0 < cell.holders
  kind : ∀ id cell node, world.cell? id = some cell → world.node? id = some node →
    node.kind = cell.kind
  live : ∀ id cell, world.cell? id = some cell → cell.kind = .derived →
    ∃ node, world.node? id = some node

/-- A computed that is not dirty has a value, and computeds have read known nodes of their own
reactor below themselves. -/
def Consistent (world : World κ ν σ) (chart : Chart) : Prop :=
  ∀ id node, world.node? id = some node → node.kind = .derived →
    (node.freshness ≠ .dirty → world.value? id ≠ none) ∧
    ∀ dependency ∈ node.dependencies, chart.rank dependency < chart.rank id ∧
      chart.home dependency = chart.home id ∧ ∃ cell, world.cell? dependency = some cell

/-- No computed below a rank is being evaluated. -/
def Idle (world : World κ ν σ) (chart : Chart) (bound : Nat) : Prop :=
  ∀ id computed, world.computed? id = some computed → chart.rank id < bound →
    computed.computing = false

/-- Computeds below a rank can be brought up to date. -/
structure Ready (world : World κ ν σ) (chart : Chart) (program : Program κ ν σ) (bound : Nat) :
    Prop where
  wired : world.Wired chart program
  consistent : world.Consistent chart
  idle : world.Idle chart bound

/-- What a refresh of a node gives when computeds have the answers of a table. -/
def refreshed (world : World κ ν σ) (truth : NodeId → Except Panic ν) (id : NodeId) :
    Except Panic Unit :=
  if (world.computed? id).isSome then (truth id).map fun _ => () else .ok ()

/-- What refreshing nodes one by one gives: the first failure, if there is one. -/
def refreshedAll (world : World κ ν σ) (truth : NodeId → Except Panic ν) :
    List NodeId → Except Panic Unit
  | [] => .ok ()
  | id :: rest => (world.refreshed truth id).bind fun _ => world.refreshedAll truth rest

/-- What a computed shows that is not dirty, after inputs were checked: a failure of an input, or
the value that it has kept. -/
def shown? (world : World κ ν σ) (truth : NodeId → Except Panic ν) (inputs : List NodeId)
    (id : NodeId) : Option (Except Panic ν) :=
  match world.refreshedAll truth inputs with
  | .error panic => some (.error panic)
  | .ok () => (world.value? id).map .ok

/-- If a node belongs to a computed that is neither dirty nor being evaluated, that shows its
answer. -/
def Shows (world : World κ ν σ) (truth : NodeId → Except Panic ν) (id : NodeId) (node : Node) :
    Prop :=
  node.kind = .derived → world.inProgress id = false → node.freshness ≠ .dirty →
    world.shown? truth node.unchecked id = some (truth id)

/-- The table of answers is right, and every computed below a level that is neither dirty nor being
evaluated shows its answer. -/
structure UpToDate (world : World κ ν σ) (chart : Chart) (program : Program κ ν σ)
    (truth : NodeId → Except Panic ν) (level : Nat) : Prop where
  solves : world.Solves program truth
  shows : ∀ id node, chart.rank id < level → world.node? id = some node →
    world.Shows truth id node

section

variable {world after : World κ ν σ} {chart : Chart} {program : Program κ ν σ}
variable {truth : NodeId → Except Panic ν} {level bound bound' : Nat}

theorem Wired.of_alike (wired : world.Wired chart program)
    (cells : ∀ id cell, after.cell? id = some cell →
      ∃ old, world.cell? id = some old ∧ old.Alike cell)
    (outline : ∀ id, (after.node? id).map Node.outline = (world.node? id).map Node.outline) :
    after.Wired chart program where
  home id cell found := by
    obtain ⟨old, known, alike⟩ := cells id cell found
    rw [alike.reactor]
    exact wired.home id old known
  body id cell code found coded := by
    obtain ⟨old, known, alike⟩ := cells id cell found
    exact wired.body id old code known (alike.code?.symm.trans coded)
  held id cell found derived := by
    obtain ⟨old, known, alike⟩ := cells id cell found
    exact Nat.lt_of_lt_of_le (wired.held id old known (alike.kind.symm.trans derived)) alike.holders
  kind id cell node found live := by
    obtain ⟨old, known, alike⟩ := cells id cell found
    have same := outline id
    rw [live] at same
    obtain ⟨node', present, equal⟩ := Option.map_eq_some_iff.mp same.symm
    rw [← Node.kind_of_outline equal, alike.kind]
    exact wired.kind id old node' known present
  live id cell found derived := by
    obtain ⟨old, known, alike⟩ := cells id cell found
    obtain ⟨node, present⟩ := wired.live id old known (alike.kind.symm.trans derived)
    have same := outline id
    rw [present] at same
    obtain ⟨node', live, _⟩ := Option.map_eq_some_iff.mp same
    exact ⟨node', live⟩

theorem Wired.of_continues (wired : world.Wired chart program) (continues : world.Continues after)
    (outline : ∀ id, (after.node? id).map Node.outline = (world.node? id).map Node.outline) :
    after.Wired chart program := by
  refine wired.of_alike (fun id cell found => ?_) outline
  obtain ⟨old, known, goes⟩ := continues.before found
  exact ⟨old, known, goes.alike⟩

/-- Only computeds have derived nodes. -/
theorem Wired.computed_of_derived (wired : world.Wired chart program) {id : NodeId} {node : Node}
    (live : world.node? id = some node) (derived : node.kind = .derived) :
    ∃ state, world.cell? id = some (.computed state) := by
  cases known : world.cell? id with
  | none =>
    rw [node?, known] at live
    cases live
  | some cell =>
    have kind := (wired.kind id cell node known live).symm.trans derived
    cases cell with
    | signal state => cases kind
    | effect state => cases kind
    | computed state => exact ⟨state, rfl⟩

theorem Idle.mono (idle : world.Idle chart bound') (le : bound ≤ bound') :
    world.Idle chart bound :=
  fun id computed found below => idle id computed found (Nat.lt_of_lt_of_le below le)

theorem Idle.inProgress (idle : world.Idle chart bound) {id : NodeId}
    (below : chart.rank id < bound) : world.inProgress id = false := by
  unfold World.inProgress
  cases known : world.computed? id with
  | none => rfl
  | some state => exact idle id state known below

theorem Idle.of_skeleton (idle : world.Idle chart bound) (same : after.skeleton = world.skeleton) :
    after.Idle chart bound := by
  intro id computed found below
  obtain ⟨old, known, kept⟩ := computing_of_skeleton same found
  rw [← kept]
  exact idle id old known below

theorem Consistent.of_same (consistent : world.Consistent chart)
    (nodes : ∀ id, after.node? id = world.node? id)
    (values : ∀ id, after.value? id = world.value? id)
    (known : ∀ id cell, world.cell? id = some cell → ∃ new, after.cell? id = some new) :
    after.Consistent chart := by
  intro id node found derived
  rw [nodes] at found
  obtain ⟨valued, below⟩ := consistent id node found derived
  refine ⟨by rwa [values], fun dependency member => ?_⟩
  obtain ⟨lower, home, cell, present⟩ := below dependency member
  exact ⟨lower, home, known dependency cell present⟩

theorem answerBy_of_continues (continues : world.Continues after)
    (upstream : NodeId → Except Panic ν) (id : NodeId) :
    after.answerBy program upstream id = world.answerBy program upstream id := by
  have related := continues id
  unfold answerBy
  cases found : world.cell? id with
  | none =>
    rw [found] at related
    cases present : after.cell? id with
    | none => rfl
    | some new =>
      rw [present] at related
      cases related
  | some cell =>
    obtain ⟨new, present, same, _⟩ := continues.after found
    rw [present]
    cases cell with
    | signal state =>
      cases new with
      | signal state' =>
        simp only [Cell.essence, Cell.signal.injEq, Signal.mk.injEq] at same
        simp only [same.2.1, same.2.2.1]
      | computed => cases same
      | effect => cases same
    | computed state =>
      cases new with
      | signal => cases same
      | computed state' =>
        simp only [Cell.essence, Cell.computed.injEq, Computed.mk.injEq] at same
        simp only [same.2.1]
      | effect => cases same
    | effect state =>
      cases new with
      | signal => cases same
      | computed => cases same
      | effect => rfl

theorem refreshed_of_derived {id : NodeId} {cell : Cell κ ν} (known : world.cell? id = some cell)
    (derived : cell.kind = .derived) :
    world.refreshed truth id = (truth id).map fun _ => () := by
  cases cell with
  | signal state => cases derived
  | effect state => cases derived
  | computed state =>
    unfold refreshed
    rw [computed?_eq_some_iff.mpr known]
    rfl

/-- A computed fails to be refreshed with the failure that it has. -/
theorem truth_of_refreshed_error {id : NodeId} {cell : Cell κ ν}
    (known : world.cell? id = some cell) (derived : cell.kind = .derived) {panic : Panic}
    (failed : world.refreshed truth id = .error panic) : truth id = .error panic := by
  rw [refreshed_of_derived known derived] at failed
  cases answer : truth id with
  | ok value =>
    rw [answer] at failed
    cases failed
  | error failure =>
    rw [answer] at failed
    cases failed
    rfl

theorem Continues.isComputed (continues : world.Continues after) (id : NodeId) :
    (after.computed? id).isSome = (world.computed? id).isSome := by
  have related := continues id
  unfold computed?
  revert related
  generalize world.cell? id = old
  generalize after.cell? id = new
  intro related
  cases related with
  | none => rfl
  | @some old new goes =>
    have kind := goes.kind
    cases old <;> cases new <;> first | rfl | cases kind

theorem shown?_of_failure {input id : NodeId} {rest : List NodeId} {panic : Panic}
    (failed : world.refreshed truth input = .error panic) :
    world.shown? truth (input :: rest) id = some (.error panic) := by
  unfold shown? refreshedAll
  rw [failed]
  rfl

theorem shown?_of_refreshed {input id : NodeId} {rest : List NodeId}
    (done : world.refreshed truth input = .ok ()) :
    world.shown? truth (input :: rest) id = world.shown? truth rest id := by
  unfold shown?
  rw [refreshedAll, done]
  rfl

section

variable (computeds : ∀ id, (after.computed? id).isSome = (world.computed? id).isSome)
include computeds

theorem refreshed_of_same (id : NodeId) : after.refreshed truth id = world.refreshed truth id := by
  unfold refreshed
  rw [computeds]

theorem refreshedAll_of_same (ids : List NodeId) :
    after.refreshedAll truth ids = world.refreshedAll truth ids := by
  induction ids with
  | nil => rfl
  | cons id rest ih => simp only [refreshedAll, refreshed_of_same computeds, ih]

/-- What is shown depends on the value and on which nodes are computeds. -/
theorem shown?_of_same {id : NodeId} (inputs : List NodeId)
    (value : after.value? id = world.value? id) :
    after.shown? truth inputs id = world.shown? truth inputs id := by
  unfold shown?
  rw [refreshedAll_of_same computeds, value]

theorem Shows.of_same {id : NodeId} {old node : Node} (shows : world.Shows truth id old)
    (outline : node.outline = old.outline) (standing : node.standing = old.standing)
    (value : after.value? id = world.value? id)
    (running : world.inProgress id = true → after.inProgress id = true)
    (same : node.kind = .derived → after.inProgress id = false →
      node.dependencies = old.dependencies) : after.Shows truth id node := by
  intro derived idle usable
  have mark : node.freshness = old.freshness := congrArg Prod.fst standing
  have unchecked : node.unchecked = old.unchecked := by
    unfold Node.unchecked
    rw [mark, same derived idle]
  rw [shown?_of_same computeds _ value, unchecked]
  refine shows ((Node.kind_of_outline outline).symm.trans derived) ?_
    fun dirty => usable (mark.trans dirty)
  exact Bool.eq_false_iff.mpr fun was => Bool.eq_false_iff.mp idle (running was)

end

/-- A clean node shows the value that it has kept. -/
theorem shows_of_clean {id : NodeId} {node : Node} (clean : node.freshness = .clean) {value : ν}
    (kept : world.value? id = some value) (right : truth id = .ok value) :
    world.Shows truth id node := by
  intro _ _ _
  unfold shown? Node.unchecked
  rw [clean, right, kept]
  rfl

theorem Solves.of_continues (solves : world.Solves program truth)
    (continues : world.Continues after) : after.Solves program truth := by
  intro id
  rw [answerBy_of_continues continues]
  exact solves id

theorem UpToDate.of_same (upToDate : world.UpToDate chart program truth level)
    (nodes : ∀ id, after.node? id = world.node? id)
    (values : ∀ id, after.value? id = world.value? id) (continues : world.Continues after)
    (progress : ∀ id, after.inProgress id = world.inProgress id) :
    after.UpToDate chart program truth level where
  solves := upToDate.solves.of_continues continues
  shows id node low found :=
    (upToDate.shows id node low ((nodes id).symm.trans found)).of_same continues.isComputed rfl rfl
      (values id) (fun was => (progress id).trans was) fun _ _ => rfl

theorem reader?_of_skeleton (same : after.skeleton = world.skeleton) (id : ReactorId) :
    after.reader? id = world.reader? id := by
  have bare : ∀ world : World κ ν σ, world.skeleton.reader? id = world.reader? id := by
    intro world
    unfold reader?
    rw [skeleton_reactor?]
    cases world.reactor? id <;> rfl
  rw [← bare, same, bare]

end

end World

end ReactiveTree
