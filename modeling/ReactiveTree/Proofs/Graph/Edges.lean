import ReactiveTree.Graph.Invalidation

/-! # What an operation on the graph leaves alone

Subscribing, unsubscribing and marking never change what a node is, how often its value has changed
or which writes it is part of; only marks and edges move, and each operation moves those of few
nodes. The lemmas here say so node by node.
-/

namespace ReactiveTree

section

variable {α : Type} {relation : α → α → Prop}

theorem relOption_refl (reflexive : ∀ value, relation value value) (value? : Option α) :
    Option.Rel relation value? value? := by
  cases value? with
  | none => exact .none
  | some value => exact .some (reflexive value)

theorem relOption_trans
    (transitive : ∀ first second third, relation first second → relation second third →
      relation first third) {first second third : Option α}
    (start : Option.Rel relation first second) (finish : Option.Rel relation second third) :
    Option.Rel relation first third := by
  cases start with
  | none => exact finish
  | some related =>
    cases finish with
    | some related' => exact .some (transitive _ _ _ related related')

theorem relOption_some {first? : Option α} {second : α}
    (related : Option.Rel relation first? (some second)) :
    ∃ first, first? = some first ∧ relation first second := by
  cases related with
  | some holds => exact ⟨_, rfl, holds⟩

end

namespace Node

/-- A node without its marks, its version and its read edges. -/
def outline (node : Node) : Node :=
  { node with freshness := .clean, version := 0, dependencies := [], dependents := [] }

/-- The mark and the version of a node. -/
def standing (node : Node) : Freshness × Nat :=
  (node.freshness, node.version)

theorem kind_of_outline {node other : Node} (same : node.outline = other.outline) :
    node.kind = other.kind := by
  have kinds : node.outline.kind = other.outline.kind := by rw [same]
  exact kinds

end Node

namespace Graph

@[simp] theorem node?_empty (id : NodeId) : empty.node? id = none :=
  rfl

theorem node?_connect (graph : Graph) (read reader other : NodeId) :
    (graph.connect read reader).node? other =
      if read = reader ∨ ¬ graph.contains read ∨ ¬ graph.contains reader then graph.node? other
      else if other = reader then (graph.node? reader).map (·.addDependency read)
      else if other = read then (graph.node? read).map (·.addDependent reader)
      else graph.node? other := by
  unfold connect
  split
  next => rfl
  next usable =>
    have apart : read ≠ reader := fun same => usable (Or.inl same)
    have kept : ∀ node : Node, (node.addDependency read).id = node.id := fun _ => rfl
    have kept' : ∀ node : Node, (node.addDependent reader).id = node.id := fun _ => rfl
    rw [node?_modify _ kept, node?_modify _ kept', node?_modify _ kept', if_neg apart.symm]

theorem connect_empty (read reader : NodeId) : empty.connect read reader = empty := by
  unfold connect
  rw [if_pos]
  exact Or.inr (Or.inl Bool.false_ne_true)

/-- A subscription changes edges only, and dependencies only those of the reader. -/
theorem connect_cases (graph : Graph) (read reader other : NodeId) :
    ∃ change : Node → Node,
      (graph.connect read reader).node? other = (graph.node? other).map change ∧
      ∀ node, (change node).outline = node.outline ∧ (change node).standing = node.standing ∧
        ((change node).dependencies = node.dependencies ∨
          other = reader ∧ (change node).dependencies = addLast node.dependencies read) := by
  rw [node?_connect]
  split
  next => exact ⟨id, by simp, fun node => ⟨rfl, rfl, Or.inl rfl⟩⟩
  next =>
    split
    next same =>
      subst same
      exact ⟨(·.addDependency read), rfl, fun node => ⟨rfl, rfl, Or.inr ⟨rfl, rfl⟩⟩⟩
    next =>
      split
      next same =>
        subst same
        exact ⟨(·.addDependent reader), rfl, fun node => ⟨rfl, rfl, Or.inl rfl⟩⟩
      next => exact ⟨id, by simp, fun node => ⟨rfl, rfl, Or.inl rfl⟩⟩

theorem node?_unsubscribe (graph : Graph) (id other : NodeId) :
    (graph.unsubscribe id).node? other =
      ((if other = id then (graph.node? id).map Node.dropDependencies else graph.node? other).map
        fun node => if node.id ∈ graph.dependenciesOf id then node.removeDependent id else node) := by
  unfold unsubscribe
  have kept : ∀ node : Node, (node.dropDependencies).id = node.id := fun _ => rfl
  rw [node?_mapNodes _ (by intro node; split <;> rfl), node?_modify _ kept]

/-- Unsubscribing a node empties its dependencies; otherwise it changes dependents only. -/
theorem unsubscribe_cases (graph : Graph) (id other : NodeId) :
    ∃ change : Node → Node,
      (graph.unsubscribe id).node? other = (graph.node? other).map change ∧
      ∀ node, (change node).outline = node.outline ∧ (change node).standing = node.standing ∧
        (change node).dependencies = if other = id then [] else node.dependencies := by
  rw [node?_unsubscribe]
  by_cases same : other = id
  · subst same
    refine ⟨fun node => if node.id ∈ graph.dependenciesOf other then
      node.dropDependencies.removeDependent other else node.dropDependencies, ?_, ?_⟩
    · rw [if_pos rfl, Option.map_map]
      rfl
    · intro node
      simp only [if_true]
      split <;> exact ⟨rfl, rfl, rfl⟩
  · refine ⟨fun node => if node.id ∈ graph.dependenciesOf id then
      node.removeDependent id else node, ?_, ?_⟩
    · rw [if_neg same]
    · intro node
      simp only [if_neg same]
      split <;> exact ⟨rfl, rfl, rfl⟩

/-- A node after it was marked, perhaps, and gave up its dependents, perhaps: only its freshness
and its dependents may differ, and no dirty node becomes fresher. -/
def MarkedFrom (before after : Node) : Prop :=
  after.outline = before.outline ∧ after.version = before.version ∧
    after.dependencies = before.dependencies ∧
    (after.freshness = before.freshness ∨ after.freshness = .dirty ∨
      before.freshness = .clean ∧ after.freshness = .doubtful)

theorem MarkedFrom.refl (node : Node) : MarkedFrom node node :=
  ⟨rfl, rfl, rfl, Or.inl rfl⟩

theorem MarkedFrom.trans {first second third : Node} (start : MarkedFrom first second)
    (finish : MarkedFrom second third) : MarkedFrom first third := by
  obtain ⟨outline, version, dependencies, mark⟩ := start
  obtain ⟨outline', version', dependencies', mark'⟩ := finish
  refine ⟨outline'.trans outline, version'.trans version, dependencies'.trans dependencies, ?_⟩
  rcases mark' with same | dirty | ⟨clean, doubtful⟩
  · rwa [same]
  · exact Or.inr (Or.inl dirty)
  · rcases mark with same | dirty | ⟨_, doubtful'⟩
    · exact Or.inr (Or.inr ⟨same ▸ clean, doubtful⟩)
    · rw [clean] at dirty
      cases dirty
    · rw [clean] at doubtful'
      cases doubtful'

private theorem markedFrom_markDoubtful (node : Node) : MarkedFrom node node.markDoubtful := by
  refine ⟨rfl, rfl, rfl, ?_⟩
  cases mark : node.freshness <;> simp [Node.markDoubtful, Freshness.doubt, mark]

theorem markedFrom_invalidate (graph : Graph) (source id : NodeId) :
    Option.Rel MarkedFrom (graph.node? id) ((graph.invalidate source).2.node? id) := by
  have kept : ∀ node : Node, (node.dropDependents).id = node.id := fun _ => rfl
  have dropped : Option.Rel MarkedFrom (graph.node? id)
      ((graph.modify source Node.dropDependents).node? id) := by
    rw [node?_modify _ kept]
    split
    next same =>
      subst same
      cases graph.node? id with
      | none => exact Option.Rel.none
      | some node => exact Option.Rel.some ⟨rfl, rfl, rfl, Or.inl rfl⟩
    next => exact relOption_refl MarkedFrom.refl _
  unfold invalidate
  dsimp only
  rw [node?_mapNodes _ (by intro node; split; rfl; split <;> rfl)]
  refine relOption_trans (fun _ _ _ start finish => start.trans finish) dropped ?_
  cases (graph.modify source Node.dropDependents).node? id with
  | none => exact Option.Rel.none
  | some node =>
    refine Option.Rel.some ?_
    dsimp only
    split
    next => exact ⟨rfl, rfl, rfl, Or.inr (Or.inl rfl)⟩
    next =>
      split
      next => exact markedFrom_markDoubtful node
      next => exact MarkedFrom.refl node

theorem markedFrom_invalidateAll (graph : Graph) (sources : List NodeId) (id : NodeId) :
    Option.Rel MarkedFrom (graph.node? id) ((graph.invalidateAll sources).2.node? id) := by
  induction sources generalizing graph with
  | nil => exact relOption_refl MarkedFrom.refl _
  | cons source rest ih =>
    unfold invalidateAll
    split
    next =>
      exact relOption_trans (fun _ _ _ start finish => start.trans finish)
        (markedFrom_invalidate graph source id) (ih _)
    next => exact ih graph

/-- Marking what changed sources reach moves marks and dependents, nothing else. -/
theorem markedFrom_propagate (graph : Graph) (sources : List NodeId) (id : NodeId) :
    Option.Rel MarkedFrom (graph.node? id) ((graph.propagate sources).2.node? id) :=
  markedFrom_invalidateAll graph sources id

end Graph

end ReactiveTree
