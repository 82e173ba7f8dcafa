import ReactiveTree.Proofs.Reactive.Evaluating
import ReactiveTree.Proofs.Reactive.History

/-! # Evaluations inside evaluations

Here closures may read one another in any pattern, and computeds may read themselves. While some
computeds are at work, each of them leads to whatever is read next; that is what `World.Nested`
keeps, whether runs come to an end or not. A refresh that starts at a doubtful computed does not ask
whether the computed is at work already, and it need not ask where no doubtful computed leads to
itself: `World.Guarded` is that condition, and all levels of nesting keep it.
-/

namespace ReactiveTree

variable {κ ν σ : Type}

/-- The closure of one node may read another, itself or through the closures of what it reads. -/
abbrev LeadsTo (program : Program κ ν σ) (nodes : List (Making κ)) (reader node : NodeId) : Prop :=
  Relation.TransGen (MayRead program nodes) reader node

namespace World

/-- Nodes have read what they lead to, and nothing else. -/
def Led (world : World κ ν σ) (program : Program κ ν σ) (nodes : List (Making κ)) : Prop :=
  ∀ id node, world.node? id = some node →
    ∀ dependency ∈ node.dependencies, LeadsTo program nodes id dependency

/-- The cells are as they were made, and reads are recorded only for computeds at work, among which
are all that are being evaluated. -/
structure Nested (world : World κ ν σ) (program : Program κ ν σ) (nodes : List (Making κ))
    (stack : List NodeId) : Prop where
  made : ∀ id cell, world.cell? id = some cell → nodes[id.index]? = some cell.making
  held : ∀ id cell, world.cell? id = some cell → cell.kind = .derived → 0 < cell.holders
  readers : ∀ owner reader, world.reader? owner = some reader → reader ∈ stack
  evaluated : ∀ id, world.inProgress id → id ∈ stack
  led : world.Led program nodes

/-- No doubtful computed leads to itself, and computeds at work that lead to themselves are dirty and
are being evaluated. -/
structure Guarded (world : World κ ν σ) (program : Program κ ν σ) (nodes : List (Making κ))
    (stack : List NodeId) : Prop where
  nodup : stack.Nodup
  known : ∀ id ∈ stack, id.index < nodes.length
  undoubted : ∀ id node, world.node? id = some node → node.freshness = .doubtful →
    ¬ LeadsTo program nodes id id
  engaged : ∀ id ∈ stack, LeadsTo program nodes id id →
    world.inProgress id ∧ ∃ node, world.node? id = some node ∧ node.freshness = .dirty

end World

/-- Nodes may have read more of what they lead to, and those that are not at work may have taken a
mark other than doubt. -/
def Edits (program : Program κ ν σ) (nodes : List (Making κ)) (stack : List NodeId)
    (world after : World κ ν σ) : Prop :=
  ∀ id, ∃ step : Node → Node, after.node? id = (world.node? id).map step ∧ ∀ old,
    (∀ dependency ∈ (step old).dependencies,
      dependency ∈ old.dependencies ∨ LeadsTo program nodes id dependency) ∧
    ((step old).freshness = old.freshness ∨ id ∉ stack ∧ (step old).freshness ≠ .doubtful)

section

variable {program : Program κ ν σ} {nodes : List (Making κ)} {stack : List NodeId}
variable {world after inner : World κ ν σ} {id : NodeId}

theorem Edits.of_same (same : ∀ id, after.node? id = world.node? id) :
    Edits program nodes stack world after :=
  fun id => ⟨fun old => old, by rw [same]; simp, fun _ => ⟨fun _ => Or.inl, Or.inl rfl⟩⟩

theorem World.Led.edits (led : world.Led program nodes)
    (edits : Edits program nodes stack world after) : after.Led program nodes := by
  intro id node found dependency member
  obtain ⟨step, eq, kept⟩ := edits id
  rw [eq] at found
  obtain ⟨old, present, rfl⟩ := Option.map_eq_some_iff.mp found
  exact ((kept old).1 dependency member).elim (led id old present dependency) fun leads => leads

theorem World.Guarded.edits (guarded : world.Guarded program nodes stack)
    (edits : Edits program nodes stack world after)
    (progress : ∀ id ∈ stack, after.inProgress id = world.inProgress id) :
    after.Guarded program nodes stack where
  nodup := guarded.nodup
  known := guarded.known
  undoubted := by
    intro id node found doubtful
    obtain ⟨step, eq, kept⟩ := edits id
    rw [eq] at found
    obtain ⟨old, present, rfl⟩ := Option.map_eq_some_iff.mp found
    rcases (kept old).2 with same | ⟨_, other⟩
    · exact guarded.undoubted id old present (same.symm.trans doubtful)
    · exact absurd doubtful other
  engaged := by
    intro id member around
    obtain ⟨computing, node, live, dirty⟩ := guarded.engaged id member around
    obtain ⟨step, eq, kept⟩ := edits id
    refine ⟨by rwa [progress id member], step node, by rw [eq, live, Option.map_some], ?_⟩
    exact ((kept node).2.resolve_right fun idle => idle.1 member).trans dirty

theorem edits_noteRead {owner : ReactorId} {id : NodeId}
    (leads : ∀ reader, world.reader? owner = some reader → LeadsTo program nodes reader id) :
    Edits program nodes stack world (world.noteRead owner id) := by
  intro other
  obtain ⟨step, eq, kept⟩ := world.noteRead_cases owner id other
  refine ⟨step, eq, fun old => ⟨fun dependency member => ?_, ?_⟩⟩
  · rcases (kept old).2.2 with same | ⟨reading, added⟩
    · exact Or.inl (same ▸ member)
    · rw [added, mem_addLast] at member
      refine member.imp_right fun same => ?_
      rw [same]
      exact leads other reading
  · exact Or.inl (congrArg Prod.fst (kept old).2.1)

theorem edits_enter {id : NodeId} {state : Computed κ ν}
    (known : world.cell? id = some (.computed state)) :
    Edits program nodes stack world (world.enter id state.reactor) := by
  intro other
  obtain ⟨step, eq, kept⟩ := World.enter_cases known other
  refine ⟨step, eq, fun old => ⟨fun dependency member => Or.inl ?_, ?_⟩⟩
  · rw [(kept old).2.2] at member
    split at member
    next => cases member
    next => exact member
  · exact Or.inl (congrArg Prod.fst (kept old).2.1)

/-- A change at one node that is not at work, which leaves it without doubt. -/
theorem edits_single {id : NodeId} (idle : id ∉ stack) {step : Node → Node}
    (nodes' : ∀ other, after.node? other =
      if other = id then (world.node? id).map step else world.node? other)
    (kept : ∀ old, (step old).dependencies = old.dependencies ∧ (step old).freshness ≠ .doubtful) :
    Edits program nodes stack world after := by
  intro other
  by_cases same : other = id
  · subst same
    refine ⟨step, by rw [nodes', if_pos rfl], fun old => ⟨fun dependency member => ?_, ?_⟩⟩
    · exact Or.inl ((kept old).1 ▸ member)
    · exact Or.inr ⟨idle, (kept old).2⟩
  · exact ⟨fun old => old, by rw [nodes', if_neg same]; simp,
      fun _ => ⟨fun _ => Or.inl, Or.inl rfl⟩⟩

theorem World.reader?_enter_cases {id : NodeId} {owner owner' : ReactorId} {reader : NodeId}
    (read : (world.enter id owner).reader? owner' = some reader) :
    reader = id ∨ world.reader? owner' = some reader := by
  have bare : (world.enter id owner).reader? owner' =
      if owner' = owner then (world.reactor? owner).map (fun _ => id)
      else world.reader? owner' := by
    unfold enter reader?
    rw [reactor?_modifyReactor]
    show (if owner' = owner then Option.map _ (reactor? (mapGraph _ owner _) owner)
      else reactor? (mapGraph _ owner _) owner').bind Reactor.reader? = _
    unfold mapGraph
    rw [reactor?_modifyReactor, reactor?_modifyReactor, if_pos rfl]
    split
    next =>
      show (Option.map _ (Option.map _ (world.reactor? owner))).bind _ = _
      cases world.reactor? owner <;> rfl
    next => rfl
  rw [bare] at read
  split at read
  next =>
    obtain ⟨_, _, same⟩ := Option.map_eq_some_iff.mp read
    exact Or.inl same.symm
  next => exact Or.inr read

/-- The skeleton is as before, and nodes have read what they lead to. -/
structure Kept (program : Program κ ν σ) (nodes : List (Making κ)) (world after : World κ ν σ) :
    Prop where
  skeleton : after.skeleton = world.skeleton
  led : after.Led program nodes

theorem World.Nested.of_continues {stack' : List NodeId}
    (nested : world.Nested program nodes stack) (continues : world.Continues after)
    (readers : ∀ owner reader, after.reader? owner = some reader → reader ∈ stack')
    (evaluated : ∀ id, after.inProgress id → id ∈ stack') (led : after.Led program nodes) :
    after.Nested program nodes stack' := by
  refine ⟨fun id cell found => ?_, fun id cell found derived => ?_, readers, evaluated, led⟩
  · obtain ⟨old, known, goes⟩ := continues.before found
    rw [nested.made id old known]
    unfold Cell.making
    rw [goes.reactor, goes.code?]
  · obtain ⟨old, known, goes⟩ := continues.before found
    exact Nat.lt_of_lt_of_le (nested.held id old known (goes.kind.symm.trans derived)) goes.2

theorem World.Nested.kept (nested : world.Nested program nodes stack)
    (kept : Kept program nodes world after) : after.Nested program nodes stack := by
  refine nested.of_continues (World.continues_of_skeleton kept.skeleton)
    (fun owner reader read => ?_) (fun id progress => ?_) kept.led
  · rw [World.reader?_of_skeleton kept.skeleton] at read
    exact nested.readers owner reader read
  · rw [World.inProgress_of_skeleton kept.skeleton] at progress
    exact nested.evaluated id progress

/-- More computeds may be counted among those at work. -/
theorem World.Nested.push (nested : world.Nested program nodes stack) :
    world.Nested program nodes (id :: stack) :=
  { nested with
    readers := fun owner reader read => List.mem_cons_of_mem _ (nested.readers owner reader read)
    evaluated := fun other computing => List.mem_cons_of_mem _ (nested.evaluated other computing) }

/-- A computed that does not lead to itself may be counted among those at work. -/
theorem World.Guarded.push (guarded : world.Guarded program nodes stack)
    (nested : world.Nested program nodes stack) {cell : Cell κ ν}
    (known : world.cell? id = some cell) (apart : id ∉ stack)
    (once : ¬ LeadsTo program nodes id id) : world.Guarded program nodes (id :: stack) where
  nodup := List.nodup_cons.mpr ⟨apart, guarded.nodup⟩
  known := List.forall_mem_cons.mpr
    ⟨(List.getElem?_eq_some_iff.mp (nested.made id cell known)).1, guarded.known⟩
  undoubted := guarded.undoubted
  engaged := List.forall_mem_cons.mpr ⟨fun around => absurd around once, guarded.engaged⟩

theorem World.Guarded.tail (guarded : world.Guarded program nodes (id :: stack)) :
    world.Guarded program nodes stack :=
  ⟨guarded.nodup.of_cons, fun other member => guarded.known other (List.mem_cons_of_mem _ member),
    guarded.undoubted, fun other member => guarded.engaged other (List.mem_cons_of_mem _ member)⟩

/-- Entering an evaluation puts its computed to work. -/
theorem World.Nested.enter {state : Computed κ ν}
    (nested : world.Nested program nodes stack)
    (known : world.cell? id = some (.computed state)) :
    (world.enter id state.reactor).Nested program nodes (id :: stack) := by
  have entering : Edits program nodes stack world
      (world.enter id state.reactor) := edits_enter known
  refine nested.of_continues (World.continues_enter world id state.reactor)
    (fun owner reader read => ?_) (fun other computing => ?_) (nested.led.edits entering)
  · rcases World.reader?_enter_cases read with rfl | read
    · exact List.mem_cons_self
    · exact List.mem_cons_of_mem _ (nested.readers owner reader read)
  · rw [World.inProgress_enter known, Bool.or_eq_true, decide_eq_true_eq] at computing
    exact List.mem_cons.mpr (computing.imp_right (nested.evaluated other))

/-- A world stays guarded when a computed that was not at work is entered, if it is dirty or does not
lead to itself. -/
theorem World.Guarded.enter {state : Computed κ ν}
    (guarded : world.Guarded program nodes stack) (nested : world.Nested program nodes stack)
    (known : world.cell? id = some (.computed state)) (apart : id ∉ stack)
    (dirty : LeadsTo program nodes id id →
      ∃ node, world.node? id = some node ∧ node.freshness = .dirty) :
    (world.enter id state.reactor).Guarded program nodes (id :: stack) := by
  have entering : ∀ stack, Edits program nodes stack world
      (world.enter id state.reactor) := fun _ => edits_enter known
  have inProgress := World.inProgress_enter known state.reactor
  have others := guarded.edits (entering stack) fun other member => by
    have away : other ≠ id := fun same => apart (same ▸ member)
    rw [inProgress, decide_eq_false away, Bool.false_or]
  refine ⟨List.nodup_cons.mpr ⟨apart, guarded.nodup⟩, fun other member => ?_, others.undoubted,
    fun other member around => ?_⟩
  · rcases List.mem_cons.mp member with rfl | member
    · exact (List.getElem?_eq_some_iff.mp (nested.made other _ known)).1
    · exact guarded.known other member
  · rcases List.mem_cons.mp member with rfl | member
    · obtain ⟨node, live, mark⟩ := dirty around
      obtain ⟨step, same, kept⟩ := entering [other] other
      have marked := (kept node).2.resolve_right fun idle => idle.1 List.mem_cons_self
      exact ⟨by rw [inProgress]; simp, step node, by rw [same, live, Option.map_some],
        marked.trans mark⟩
    · exact others.engaged other member around

/-- After its closure an evaluation leaves, and makes edits at its own node alone. -/
theorem afterEvaluation_edits [BEq ν] {state computed : Computed κ ν}
    (known : inner.cell? id = some (.computed state)) (owner : computed.reactor = state.reactor)
    (idle : id ∉ stack) (given : Except Panic ν) :
    Edits program nodes stack inner (inner.afterEvaluation id computed given).2 ∧
      ∃ panicked, (inner.afterEvaluation id computed given).2.skeleton =
        (inner.leave id computed.reactor panicked).skeleton := by
  have left : ∀ panicked, ∃ state', computed.reactor = state'.reactor ∧
      (inner.leave id computed.reactor panicked).cell? id = some (.computed state') := by
    intro panicked
    obtain ⟨state', known', owner', _⟩ :=
      (World.continues_leave inner id computed.reactor panicked).computed known
    exact ⟨state', owner.trans owner'.symm, known'⟩
  have nodes' : ∀ panicked other,
      (inner.leave id computed.reactor panicked).node? other = inner.node? other :=
    fun panicked other => World.node?_leave inner id other _ _
  cases given with
  | ok value =>
    obtain ⟨state', owner', known'⟩ := left false
    obtain ⟨skeleton, step, changes, kept⟩ := World.settleValue_nodes known' owner' value
    simp only [nodes'] at changes
    refine ⟨edits_single idle changes fun old => ⟨(kept old).2.2, ?_⟩, false, skeleton⟩
    rw [(kept old).2.1]
    decide
  | error panic =>
    obtain ⟨state', owner', known'⟩ := left true
    have kept : ∀ node : Node, node.markDirty.id = node.id := fun _ => rfl
    have changes := World.node?_mapGraph_modify known' kept
    rw [show (Cell.computed state' : Cell κ ν).reactor = computed.reactor from
      owner'.symm] at changes
    simp only [nodes'] at changes
    exact ⟨edits_single idle changes fun _ => ⟨rfl, fun doubtful => nomatch doubtful⟩, true,
      World.skeleton_mapGraph _ _ _⟩

end

end ReactiveTree
