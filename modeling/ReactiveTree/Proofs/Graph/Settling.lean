import ReactiveTree.Proofs.Graph.Waking

/-! # Clean nodes that read clean ones

In a settled graph a clean computed reads no computed that is not clean. Operations that leave marks
alone keep it settled, and so does marking what a changed source reaches, as long as the computeds
that are not dirty are listed by what they read: whoever reads a marked node is met through it.
-/

namespace ReactiveTree

namespace Graph

/-- A read of a node leaves no doubt: it is not live, not derived or clean. -/
def Firm (graph : Graph) (id : NodeId) : Prop :=
  ∀ node, graph.node? id = some node → node.kind = .derived → node.freshness = .clean

/-- Clean computeds read no computeds but clean ones. -/
def Settled (graph : Graph) : Prop :=
  ∀ id node, graph.node? id = some node → node.kind = .derived → node.freshness = .clean →
    ∀ read ∈ node.dependencies, graph.Firm read

/-- Computeds come with the marks that they had, and clean ones with no more dependencies. -/
def SameMarks (graph after : Graph) : Prop :=
  ∀ id node, after.node? id = some node → node.kind = .derived →
    ∃ old, graph.node? id = some old ∧ old.kind = .derived ∧ old.freshness = node.freshness ∧
      (node.freshness = .clean → node.dependencies ⊆ old.dependencies)

variable {graph after : Graph} {demand : Demand} {source id : NodeId}

/-- A node that is firm stays so where it keeps its kind and does not lose a clean mark. -/
theorem Firm.of_node (firm : graph.Firm id)
    (kept : Option.Rel (fun old new : Node => new.kind = old.kind ∧
      (old.freshness = .clean → new.freshness = .clean)) (graph.node? id) (after.node? id)) :
    after.Firm id := by
  intro node found derived
  rw [found] at kept
  obtain ⟨old, was, kind, clean⟩ := relOption_some kept
  exact clean (firm old was (kind.symm.trans derived))

theorem settled_empty : empty.Settled :=
  fun _ _ found => nomatch found

theorem Settled.of_sameMarks (settled : graph.Settled) (same : graph.SameMarks after) :
    after.Settled := by
  intro id node found derived clean read member source present derived'
  obtain ⟨old, was, kind, mark, fewer⟩ := same id node found derived
  obtain ⟨before, known, kind', mark', _⟩ := same read source present derived'
  rw [← mark']
  exact settled id old was kind (mark.trans clean) read (fewer clean member) before known kind'

theorem SameMarks.refl (graph : Graph) : graph.SameMarks graph :=
  fun _ node found derived => ⟨node, found, derived, rfl, fun _ _ member => member⟩

theorem SameMarks.empty (graph : Graph) : graph.SameMarks .empty :=
  fun _ _ found => nomatch found

theorem SameMarks.modify (graph : Graph) (id : NodeId) {change : Node → Node}
    (kept : ∀ node, (change node).id = node.id ∧ (change node).kind = node.kind ∧
      (change node).freshness = node.freshness ∧ (change node).dependencies = node.dependencies) :
    graph.SameMarks (graph.modify id change) := by
  intro other node found derived
  obtain ⟨old, was, rfl | ⟨_, rfl⟩⟩ := modify_cases (fun node => (kept node).1) found
  · exact ⟨node, was, derived, rfl, fun _ _ member => member⟩
  · obtain ⟨_, kind, mark, dependencies⟩ := kept old
    exact ⟨old, was, kind.symm.trans derived, mark.symm, fun _ _ member => dependencies ▸ member⟩

theorem SameMarks.trans {middle : Graph} (start : graph.SameMarks middle)
    (finish : middle.SameMarks after) : graph.SameMarks after := by
  intro id node found derived
  obtain ⟨between, present, kind, mark, fewer⟩ := finish id node found derived
  obtain ⟨old, was, kind', mark', fewer'⟩ := start id between present kind
  exact ⟨old, was, kind', mark'.trans mark,
    fun clean _ member => fewer' (mark.trans clean) (fewer clean member)⟩

theorem SameMarks.noteWrite (graph : Graph) (source effect : NodeId) :
    graph.SameMarks (graph.noteWrite source effect) := by
  unfold Graph.noteWrite
  split
  next =>
    have written : graph.SameMarks (graph.modify source (·.addWriter effect)) :=
      .modify graph source fun _ => ⟨rfl, rfl, rfl, rfl⟩
    exact written.trans (.modify _ effect fun _ => ⟨rfl, rfl, rfl, rfl⟩)
  next => exact .refl graph

theorem SameMarks.remove (graph : Graph) (id : NodeId) : graph.SameMarks (graph.remove id) := by
  intro other node found derived
  obtain ⟨_, old, was, kind, mark, fewer, _⟩ := remove_cases found
  exact ⟨old, was, kind.symm.trans derived, mark.symm, fun _ => fewer⟩

theorem SameMarks.resubscribe (graph : Graph) (id : NodeId) :
    graph.SameMarks (graph.resubscribe id) := by
  intro other node found derived
  obtain ⟨old, was, kind, mark, dependencies⟩ := resubscribe_cases found
  exact ⟨old, was, kind.symm.trans derived, mark.symm, fun _ _ member => dependencies ▸ member⟩

theorem SameMarks.unsubscribe (graph : Graph) (id : NodeId) :
    graph.SameMarks (graph.unsubscribe id) := by
  intro other node found derived
  obtain ⟨change, eq, kept⟩ := unsubscribe_cases graph id other
  rw [eq] at found
  obtain ⟨old, was, rfl⟩ := Option.map_eq_some_iff.mp found
  obtain ⟨outline, standing, dependencies⟩ := kept old
  refine ⟨old, was, (Node.kind_of_outline outline).symm.trans derived,
    (congrArg Prod.fst standing).symm, fun _ read member => ?_⟩
  rw [dependencies] at member
  split at member
  next => cases member
  next => exact member

/-- A read of a reader that is no clean computed. -/
theorem SameMarks.connect (graph : Graph) (read : NodeId) {reader : NodeId}
    (stale : ∀ node, graph.node? reader = some node → node.kind = .derived →
      node.freshness ≠ .clean) : graph.SameMarks (graph.connect read reader) := by
  intro other node found derived
  obtain ⟨change, eq, kept⟩ := connect_cases graph read reader other
  rw [eq] at found
  obtain ⟨old, was, rfl⟩ := Option.map_eq_some_iff.mp found
  obtain ⟨outline, standing, dependencies⟩ := kept old
  have kind := (Node.kind_of_outline outline).symm.trans derived
  have mark := (congrArg Prod.fst standing).symm
  refine ⟨old, was, kind, mark, fun clean _ member => ?_⟩
  rcases dependencies with same | ⟨rfl, _⟩
  · exact same ▸ member
  · exact absurd (mark.trans clean) (stale old was kind)

/-- A new node is unknown to every reader. -/
theorem Settled.insert (settled : graph.Settled)
    (fresh : ∀ reader node, graph.node? reader = some node → id ∉ node.dependencies)
    (kind : NodeKind) : (graph.insert (.new id kind)).Settled := by
  intro reader node found derived clean read member source present derived'
  rw [node?_insert] at found present
  split at found
  next =>
    cases found
    cases member
  next =>
    split at present
    next same =>
      have same' : read = id := same
      rw [same'] at member
      exact absurd member (fresh reader node found)
    next => exact settled reader node found derived clean read member source present derived'

/-- A node that reads nothing in doubt may become clean. -/
theorem Settled.renew (settled : graph.Settled) {change : Node → Node}
    (kept : ∀ node, (change node).id = node.id ∧ (change node).kind = node.kind ∧
      (change node).freshness = .clean ∧ (change node).dependencies = node.dependencies)
    (firm : ∀ node, graph.node? id = some node → ∀ read ∈ node.dependencies, graph.Firm read) :
    (graph.modify id change).Settled := by
  intro reader node found derived clean read member source present derived'
  have before : graph.Firm read := by
    obtain ⟨old, was, rfl | ⟨rfl, rfl⟩⟩ := modify_cases (fun node => (kept node).1) found
    · exact settled reader node was derived clean read member
    · exact firm old was read ((kept old).2.2.2 ▸ member)
  obtain ⟨old, was, rfl | ⟨_, rfl⟩⟩ := modify_cases (fun node => (kept node).1) present
  · exact before source was derived'
  · exact (kept old).2.2.1

/-- A node that is not clean may become dirty. -/
theorem Settled.spoil (settled : graph.Settled)
    (stale : ∀ node, graph.node? id = some node → node.freshness ≠ .clean) :
    (graph.modify id Node.markDirty).Settled := by
  intro reader node found derived clean read member source present derived'
  have kept : ∀ node : Node, node.markDirty.id = node.id := fun _ => rfl
  obtain ⟨old, was, rfl | ⟨_, rfl⟩⟩ := modify_cases kept found
  · have firm := settled reader node was derived clean read member
    obtain ⟨before, known, rfl | ⟨rfl, rfl⟩⟩ := modify_cases kept present
    · exact firm source known derived'
    · exact absurd (firm before known derived') (stale before known)
  · cases clean

/-- The computeds that a changed source reaches. -/
def met (graph : Graph) (source : NodeId) : List NodeId :=
  (graph.modify source Node.dropDependents).downstream
    ((graph.modify source Node.dropDependents).ofKind .derived (graph.dependentsOf source)) []

/-- A node that is still clean was clean and not met; one that is not met keeps its mark. -/
theorem freshness_invalidate {node : Node}
    (found : (graph.invalidate source).2.node? id = some node) :
    ∃ old, graph.node? id = some old ∧
      (node.freshness = .clean → old.freshness = .clean ∧ id ∉ graph.met source) ∧
      (id ∉ graph.met source → node.freshness = old.freshness) := by
  have kept : ∀ node : Node, node.dropDependents.id = node.id := fun _ => rfl
  have closed := (graph.modify source Node.dropDependents).downstream_closed
    ((graph.modify source Node.dropDependents).ofKind .derived (graph.dependentsOf source)) []
  unfold invalidate at found
  dsimp only at found
  rw [node?_mapNodes _ (by intro node; split; rfl; split <;> rfl)] at found
  obtain ⟨middle, was, rfl⟩ := Option.map_eq_some_iff.mp found
  have name : middle.id = id := node?_id was
  have unmarked : ∃ old, graph.node? id = some old ∧ middle.freshness = old.freshness := by
    obtain ⟨old, known, rfl | ⟨_, rfl⟩⟩ := modify_cases kept was
    · exact ⟨middle, known, rfl⟩
    · exact ⟨old, known, rfl⟩
  obtain ⟨old, known, mark⟩ := unmarked
  refine ⟨old, known, ?_⟩
  rw [name]
  split
  next direct =>
    have reached : id ∈ graph.met source :=
      closed.2.1 id direct (contains_of_kind? (mem_ofKind.mp direct).2)
    exact ⟨nofun, fun away => absurd reached away⟩
  next =>
    split
    next reached =>
      refine ⟨fun clean => ?_, fun away => absurd reached away⟩
      change middle.freshness.doubt = .clean at clean
      cases before : middle.freshness <;> rw [before] at clean <;> cases clean
    next away => exact ⟨fun clean => ⟨mark.symm.trans clean, away⟩, fun _ => mark⟩

/-- A computed that reads one that is met is met as well. -/
theorem met_of_reads {reader : NodeId} {node read : Node} (met : id ∈ graph.met source)
    (apart : id ≠ source) (present : graph.node? id = some read) (listed : reader ∈ read.dependents)
    (found : graph.node? reader = some node) (derived : node.kind = .derived) :
    reader ∈ graph.met source := by
  have closed := (graph.modify source Node.dropDependents).downstream_closed
    ((graph.modify source Node.dropDependents).ofKind .derived (graph.dependentsOf source)) []
  refine closed.2.2 id met List.not_mem_nil reader (mem_ofKind.mpr ⟨?_, ?_⟩)
  · rw [dependentsOf_dropDependents graph apart, dependentsOf, present]
    exact listed
  · rw [kind?_dropDependents, kind?, found, ← derived]
    rfl

/-- Marking keeps a graph settled in which clean computeds are listed. -/
theorem Settled.invalidate (settled : graph.Settled) (lists : graph.Lists demand)
    (source : NodeId) : (graph.invalidate source).2.Settled := by
  intro reader node found derived clean read member other present derived'
  obtain ⟨old, was, ⟨outline, _, dependencies, _⟩, _, dirtied⟩ := invalidate_cases found
  obtain ⟨old', was', unmarked, _⟩ := freshness_invalidate found
  cases Option.some.inj (was.symm.trans was')
  obtain ⟨clean', away⟩ := unmarked clean
  have kind := (Node.kind_of_outline outline).symm.trans derived
  rw [dependencies] at member
  obtain ⟨before, known, ⟨outline', _⟩, _⟩ := invalidate_cases present
  obtain ⟨before', known', _, unmet⟩ := freshness_invalidate present
  cases Option.some.inj (known.symm.trans known')
  have kind' := (Node.kind_of_outline outline').symm.trans derived'
  have wanted : demand.Wants reader old := by
    unfold Demand.Wants
    rw [kind]
    intro dirty
    rw [clean'] at dirty
    cases dirty
  have listed := lists reader old was wanted read before member known
  rw [unmet fun met => ?_]
  · exact settled reader old was kind clean' read member before known kind'
  by_cases same : read = source
  · subst same
    have direct : reader ∈ graph.dependentsOf read := by
      rw [dependentsOf, known]
      exact listed
    rw [dirtied direct kind] at clean
    cases clean
  · exact away (met_of_reads met same known listed was kind)

theorem Settled.propagate (settled : graph.Settled) (lists : graph.Lists demand)
    (plain : ∀ id, ¬ demand.dirty id) (sources : List NodeId) :
    (graph.propagate sources).2.Settled := by
  show (graph.invalidateAll sources).2.Settled
  induction sources generalizing graph demand with
  | nil => exact settled
  | cons source rest ih =>
    rw [Graph.invalidateAll]
    split
    next => exact ih (settled.invalidate lists source) (lists.invalidate plain source) plain
    next => exact ih settled lists plain

end Graph

end ReactiveTree
