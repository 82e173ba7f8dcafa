import ReactiveTree.Proofs.Graph.Edges

/-! # Readers that are listed by what they read

A read is recorded on both of its ends. Marking a changed source takes the readers off the source
alone, and so a reader may be left with a dependency that does not list it. `Lists` says which
readers are not; each operation on the graph is judged by what it does to these.
-/

namespace ReactiveTree

/-- Which readers have to be listed, apart from the computeds that are not dirty. -/
structure Demand where
  effects : NodeId → Prop
  /-- Computeds that have to be listed even when they are dirty. -/
  dirty : NodeId → Prop

namespace Demand

/-- A node is a reader that has to be listed. -/
def Wants (demand : Demand) (id : NodeId) (node : Node) : Prop :=
  match node.kind with
  | .source => False
  | .derived => node.freshness = .dirty → demand.dirty id
  | .effect => demand.effects id

/-- One reader more. -/
def adding (demand : Demand) (id : NodeId) : Demand where
  effects other := other = id ∨ demand.effects other
  dirty other := other = id ∨ demand.dirty other

/-- Some effects less. -/
def besides (demand : Demand) (ids : List NodeId) : Demand where
  effects id := demand.effects id ∧ id ∉ ids
  dirty := demand.dirty

variable {demand demand' : Demand} {id id' : NodeId} {node other : Node}

theorem wants_congr (kind : node.kind = other.kind) (mark : node.freshness = other.freshness) :
    demand.Wants id node ↔ demand.Wants id other := by
  unfold Wants
  rw [kind, mark]

theorem Wants.mono (wants : demand'.Wants id node)
    (effects : demand'.effects id → demand.effects id)
    (dirty : demand'.dirty id → demand.dirty id) : demand.Wants id node := by
  unfold Wants at wants ⊢
  cases kind : node.kind with
  | source =>
    rw [kind] at wants
    exact wants
  | derived =>
    rw [kind] at wants
    exact fun mark => dirty (wants mark)
  | effect =>
    rw [kind] at wants
    exact effects wants

theorem Wants.of_adding (wants : (demand.adding id).Wants id' node) (apart : id' ≠ id) :
    demand.Wants id' node :=
  wants.mono (fun holds => holds.resolve_left apart) fun holds => holds.resolve_left apart

end Demand

namespace Graph

/-- Every reader in demand is among the dependents of what it reads, as far as that is live. -/
def Lists (graph : Graph) (demand : Demand) : Prop :=
  ∀ reader node, graph.node? reader = some node → demand.Wants reader node →
    ∀ read source, read ∈ node.dependencies → graph.node? read = some source →
      reader ∈ source.dependents

variable {graph after : Graph} {demand demand' : Demand}

theorem lists_empty (demand : Demand) : empty.Lists demand :=
  fun _ _ found => nomatch found

theorem Lists.mono (lists : graph.Lists demand)
    (effects : ∀ id, demand'.effects id → demand.effects id)
    (dirty : ∀ id, demand'.dirty id → demand.dirty id) : graph.Lists demand' :=
  fun reader node found wanted =>
    lists reader node found (wanted.mono (effects reader) (dirty reader))

/-- A change that takes dependencies away keeps readers listed, unless it takes a reader in demand
off something that it still reads. -/
theorem Lists.of_nodes (lists : graph.Lists demand)
    (nodes : ∀ id node, after.node? id = some node → ∃ old, graph.node? id = some old ∧
      (demand'.Wants id node → demand.Wants id old) ∧ node.dependencies ⊆ old.dependencies)
    (listed : ∀ read source old reader node, after.node? read = some source →
      graph.node? read = some old → after.node? reader = some node → demand'.Wants reader node →
      read ∈ node.dependencies → reader ∈ old.dependents → reader ∈ source.dependents) :
    after.Lists demand' := by
  intro reader node found wanted read source member present
  obtain ⟨old, was, wanted', fewer⟩ := nodes reader node found
  obtain ⟨before, known, _⟩ := nodes read source present
  exact listed read source before reader node present known found wanted member
    (lists reader old was (wanted' wanted) read before (fewer member) known)

/-- Where a node comes from when one node is changed. -/
theorem modify_cases {id other : NodeId} {change : Node → Node}
    (kept : ∀ node, (change node).id = node.id) {node : Node}
    (found : (graph.modify id change).node? other = some node) :
    ∃ old, graph.node? other = some old ∧ (node = old ∨ other = id ∧ node = change old) := by
  rw [node?_modify _ kept] at found
  split at found
  next same =>
    subst same
    obtain ⟨old, was, rfl⟩ := Option.map_eq_some_iff.mp found
    exact ⟨old, was, Or.inr ⟨rfl, rfl⟩⟩
  next => exact ⟨node, found, Or.inl rfl⟩

/-- A change of marks, versions and labels at one node. -/
theorem Lists.modify (lists : graph.Lists demand) (id : NodeId) {change : Node → Node}
    (kept : ∀ node, (change node).id = node.id ∧ (change node).dependencies = node.dependencies ∧
      (change node).dependents = node.dependents)
    (wanted : ∀ node, demand.Wants id (change node) → demand.Wants id node) :
    (graph.modify id change).Lists demand := by
  refine lists.of_nodes (fun other node found => ?_)
    fun read source old reader node present was _ _ _ member => ?_
  · obtain ⟨old, was, rfl | ⟨rfl, rfl⟩⟩ := modify_cases (fun node => (kept node).1) found
    · exact ⟨node, was, fun wants => wants, fun _ member => member⟩
    · exact ⟨old, was, wanted old, fun _ member => (kept old).2.1 ▸ member⟩
  · obtain ⟨old', was', rfl | ⟨rfl, rfl⟩⟩ := modify_cases (fun node => (kept node).1) present
    · rw [was] at was'
      cases was'
      exact member
    · rw [was] at was'
      cases was'
      rwa [(kept old).2.2]

/-- A read lists the reader. -/
theorem Lists.connect (lists : graph.Lists demand) (read reader : NodeId) :
    (graph.connect read reader).Lists demand := by
  by_cases blocked : read = reader ∨ ¬ graph.contains read ∨ ¬ graph.contains reader
  · have same : graph.connect read reader = graph := if_pos blocked
    rw [same]
    exact lists
  have apart : read ≠ reader := fun same => blocked (Or.inl same)
  intro other node found wanted dependency source member present
  rw [node?_connect, if_neg blocked] at found present
  have before : ∃ old, graph.node? other = some old ∧ demand.Wants other old ∧
      (dependency ∈ old.dependencies ∨ other = reader ∧ dependency = read) := by
    split at found
    next same =>
      subst same
      obtain ⟨old, was, rfl⟩ := Option.map_eq_some_iff.mp found
      exact ⟨old, was, wanted, (mem_addLast.mp member).imp_right fun now => ⟨rfl, now⟩⟩
    next =>
      split at found
      next same =>
        subst same
        obtain ⟨old, was, rfl⟩ := Option.map_eq_some_iff.mp found
        exact ⟨old, was, wanted, Or.inl member⟩
      next => exact ⟨node, found, wanted, Or.inl member⟩
  have listed : ∃ old, graph.node? dependency = some old ∧
      (∀ reader ∈ old.dependents, reader ∈ source.dependents) ∧
      (dependency = read → reader ∈ source.dependents) := by
    split at present
    next same =>
      subst same
      obtain ⟨old, was, rfl⟩ := Option.map_eq_some_iff.mp present
      exact ⟨old, was, fun _ still => still, fun same => absurd same.symm apart⟩
    next =>
      split at present
      next same =>
        subst same
        obtain ⟨old, was, rfl⟩ := Option.map_eq_some_iff.mp present
        exact ⟨old, was, fun _ still => mem_addLast.mpr (Or.inl still),
          fun _ => mem_addLast.mpr (Or.inr rfl)⟩
      next elsewhere =>
        exact ⟨source, present, fun _ still => still, fun same => absurd same elsewhere⟩
  obtain ⟨old, was, wanted', depends⟩ := before
  obtain ⟨known, found', still, now⟩ := listed
  rcases depends with earlier | ⟨rfl, rfl⟩
  · exact still _ (lists other old was wanted' dependency known earlier found')
  · exact now rfl

/-- A node that forgets what it reads is listed wherever it has to be. -/
theorem Lists.unsubscribe (lists : graph.Lists demand) (id : NodeId) :
    (graph.unsubscribe id).Lists (demand.adding id) := by
  intro reader node found wanted read source member present
  obtain ⟨change, eq, kept⟩ := unsubscribe_cases graph id reader
  rw [eq] at found
  obtain ⟨old, was, rfl⟩ := Option.map_eq_some_iff.mp found
  obtain ⟨outline, standing, dependencies⟩ := kept old
  rw [dependencies] at member
  split at member
  next => cases member
  next apart =>
    have listed : ∃ old, graph.node? read = some old ∧
        ∀ reader ∈ old.dependents, reader ≠ id → reader ∈ source.dependents := by
      rw [node?_unsubscribe] at present
      obtain ⟨middle, was, rfl⟩ := Option.map_eq_some_iff.mp present
      have dropped : ∃ old, graph.node? read = some old ∧ middle.dependents = old.dependents := by
        split at was
        next same =>
          subst same
          obtain ⟨old, known, rfl⟩ := Option.map_eq_some_iff.mp was
          exact ⟨old, known, rfl⟩
        next => exact ⟨middle, was, rfl⟩
      obtain ⟨old, was, same⟩ := dropped
      refine ⟨old, was, fun reader still apart => ?_⟩
      rw [← same] at still
      split
      next => exact (List.mem_erase_of_ne apart).mpr still
      next => exact still
    obtain ⟨known, found', still⟩ := listed
    have wanted' := (Demand.wants_congr (Node.kind_of_outline outline)
      (congrArg Prod.fst standing)).mp (wanted.of_adding apart)
    exact still _ (lists reader old was wanted' read known member found') apart

theorem resubscribe_cases {id other : NodeId} {node : Node}
    (found : (graph.resubscribe id).node? other = some node) :
    ∃ old, graph.node? other = some old ∧ node.kind = old.kind ∧
      node.freshness = old.freshness ∧ node.dependencies = old.dependencies := by
  unfold Graph.resubscribe at found
  rw [node?_mapNodes _ (by intro node; split <;> rfl)] at found
  obtain ⟨old, was, rfl⟩ := Option.map_eq_some_iff.mp found
  refine ⟨old, was, ?_⟩
  split <;> exact ⟨rfl, rfl, rfl⟩

/-- A node that is put back is listed wherever it has to be. -/
theorem Lists.resubscribe (lists : graph.Lists demand) (id : NodeId) :
    (graph.resubscribe id).Lists (demand.adding id) := by
  have kept : ∀ node : Node, (if node.id ∈ graph.dependenciesOf id then node.addDependent id
      else node).id = node.id := by
    intro node
    split <;> rfl
  intro reader node found wanted read source member present
  have listed : ∃ old, graph.node? read = some old ∧
      (∀ reader ∈ old.dependents, reader ∈ source.dependents) ∧
      (read ∈ graph.dependenciesOf id → id ∈ source.dependents) := by
    rw [Graph.resubscribe, node?_mapNodes graph kept] at present
    obtain ⟨old, was, rfl⟩ := Option.map_eq_some_iff.mp present
    refine ⟨old, was, fun _ still => ?_, fun isRead => ?_⟩
    · split
      next => exact mem_addLast.mpr (Or.inl still)
      next => exact still
    · rw [if_pos (by rwa [node?_id was])]
      exact mem_addLast.mpr (Or.inr rfl)
  obtain ⟨old, was, kind, mark, dependencies⟩ := resubscribe_cases found
  obtain ⟨known, found', still, now⟩ := listed
  rw [dependencies] at member
  by_cases apart : reader = id
  · subst apart
    refine now ?_
    unfold dependenciesOf
    rwa [was]
  · have wanted' := (Demand.wants_congr kind mark).mp (wanted.of_adding apart)
    exact still _ (lists reader old was wanted' read known member found')

theorem Lists.noteWrite (lists : graph.Lists demand) (source effect : NodeId) :
    (graph.noteWrite source effect).Lists demand := by
  unfold Graph.noteWrite
  split
  next =>
    have read : (graph.modify source (·.addWriter effect)).Lists demand :=
      lists.modify source (fun _ => ⟨rfl, rfl, rfl⟩) fun _ wanted => wanted
    exact read.modify effect (fun _ => ⟨rfl, rfl, rfl⟩) fun _ wanted => wanted
  next => exact lists

theorem noteWrite_cases {source effect id : NodeId} {node : Node}
    (found : (graph.noteWrite source effect).node? id = some node) :
    ∃ old, graph.node? id = some old ∧ node.kind = old.kind ∧
      node.dependencies = old.dependencies := by
  unfold Graph.noteWrite at found
  split at found
  next =>
    have writes : ∀ node : Node, (node.addWrite source).id = node.id := fun _ => rfl
    have writers : ∀ node : Node, (node.addWriter effect).id = node.id := fun _ => rfl
    obtain ⟨middle, found, rest⟩ := modify_cases writes found
    obtain ⟨old, was, rest'⟩ := modify_cases writers found
    refine ⟨old, was, ?_⟩
    rcases rest with rfl | ⟨_, rfl⟩ <;> rcases rest' with rfl | ⟨_, rfl⟩ <;> exact ⟨rfl, rfl⟩
  next => exact ⟨node, found, rfl, rfl⟩

theorem node?_filter (graph : Graph) (id other : NodeId) :
    Graph.node? ⟨graph.nodes.filter fun node => node.id ≠ id⟩ other =
      if other = id then none else graph.node? other := by
  unfold node?
  by_cases same : other = id
  · subst same
    rw [if_pos rfl, List.find?_eq_none]
    intro node member is
    exact of_decide_eq_true (List.mem_filter.mp member).2 (of_decide_eq_true is)
  · rw [if_neg same, List.find?_filter]
    congr 1
    funext node
    by_cases is : node.id = other
    · simp [is, same]
    · simp [is]

/-- What is left of a node when another one is removed. -/
theorem remove_cases {id other : NodeId} {node : Node}
    (found : (graph.remove id).node? other = some node) :
    other ≠ id ∧ ∃ old, graph.node? other = some old ∧ node.kind = old.kind ∧
      node.freshness = old.freshness ∧ node.dependencies ⊆ old.dependencies ∧
      ∀ reader ∈ old.dependents, reader ≠ id → reader ∈ node.dependents := by
  unfold Graph.remove at found
  split at found
  next absent =>
    refine ⟨fun same => ?_, node, found, rfl, rfl, fun _ member => member, fun _ still _ => still⟩
    rw [same, absent] at found
    cases found
  next gone _ =>
    change (Graph.mapNodes ⟨graph.nodes.filter fun node => node.id ≠ id⟩ _).node? other = _ at found
    rw [node?_mapNodes _ (by intro node; rfl), node?_filter] at found
    split at found
    next => cases found
    next apart =>
      obtain ⟨old, was, rfl⟩ := Option.map_eq_some_iff.mp found
      refine ⟨apart, old, was, rfl, rfl, fun dependency member => ?_, fun reader still away => ?_⟩
      · dsimp only at member
        split at member
        next => exact List.mem_of_mem_erase member
        next => exact member
      · dsimp only
        split
        next => exact (List.mem_erase_of_ne away).mpr still
        next => exact still

theorem Lists.remove (lists : graph.Lists demand) (id : NodeId) :
    (graph.remove id).Lists demand := by
  refine lists.of_nodes (fun other node found => ?_) fun read source old reader node present was
    found _ _ member => ?_
  · obtain ⟨_, old, was, kind, mark, fewer, _⟩ := remove_cases found
    exact ⟨old, was, (Demand.wants_congr kind mark).mp, fewer⟩
  · obtain ⟨_, old', was', _, _, _, still⟩ := remove_cases present
    rw [was] at was'
    cases was'
    exact still reader member (remove_cases found).1

/-- A new node reads nothing and is read by nobody. -/
theorem Lists.insert (lists : graph.Lists demand) {id : NodeId}
    (fresh : ∀ reader node, graph.node? reader = some node → id ∉ node.dependencies)
    (kind : NodeKind) : (graph.insert (.new id kind)).Lists demand := by
  intro reader node found wanted read source member present
  rw [node?_insert] at found present
  split at found
  next =>
    cases found
    cases member
  next =>
    split at present
    next same =>
      have same' : read = id := same
      rw [same'] at member
      exact absurd member (fresh reader node found)
    next => exact lists reader node found wanted read source member present

end Graph

end ReactiveTree
