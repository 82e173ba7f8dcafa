import ReactiveTree.Proofs.Graph.Mirroring

/-! # What a removal leaves behind

A removed node is taken out of the sets of the nodes that its own sets name. Writes are recorded at both
ends, and whoever lists a reader is read by it; so of these sets nothing is overlooked. But a change
that is marked takes the readers off a node and leaves it among what they read: until they read it
again, a removal does not find them, and they go on to name a node that is gone.
-/

namespace ReactiveTree.Graph

variable {graph : Graph} {id : NodeId}

/-- A removed node goes from the sets of whoever is named at it, and the others stay as they are. -/
theorem setOf_remove (distinct : graph.Distinct) {set mirror : Node → List NodeId}
    (without : ∀ node : Node, node.Distinct → (set node).Nodup)
    (erases : ∀ node gone : Node, set (node.without gone) =
      if node.id ∈ mirror gone then (set node).erase gone.id else set node)
    {other : NodeId} (apart : other ≠ id) :
    (graph.remove id).setOf set other =
      if other ∈ graph.setOf mirror id then (graph.setOf set other).filter (· ≠ id)
      else graph.setOf set other := by
  cases found : graph.node? id with
  | none =>
    have same : graph.remove id = graph := by
      unfold Graph.remove
      rw [found]
    have nothing : graph.setOf mirror id = [] := by
      unfold setOf
      rw [found]
      rfl
    simp [same, nothing]
  | some gone =>
    have mirrored : graph.setOf mirror id = mirror gone := by
      unfold setOf
      rw [found]
      rfl
    rw [mirrored]
    unfold setOf
    rw [node?_remove found, if_neg apart]
    cases live : graph.node? other with
    | none => simp
    | some node =>
      have erased : (set node).erase id = (set node).filter (· ≠ id) := by
        rw [(without node (distinct node (node?_mem live))).erase_eq_filter id]
        exact List.filter_congr fun member _ => by by_cases same : member = id <;> simp [same]
      simp [erases, node?_id live, node?_id found, erased]

/-- If everything that names the node is named at it, the node goes from every set. -/
theorem setOf_remove_of_mirrored (distinct : graph.Distinct) {set mirror : Node → List NodeId}
    (without : ∀ node : Node, node.Distinct → (set node).Nodup)
    (erases : ∀ node gone : Node, set (node.without gone) =
      if node.id ∈ mirror gone then (set node).erase gone.id else set node)
    {other : NodeId} (apart : other ≠ id)
    (mirrored : id ∈ graph.setOf set other → other ∈ graph.setOf mirror id) :
    (graph.remove id).setOf set other = (graph.setOf set other).filter (· ≠ id) := by
  rw [setOf_remove distinct without erases apart]
  split
  next => rfl
  next unnamed =>
    refine (List.filter_eq_self.mpr fun member listed => ?_).symm
    simp only [ne_eq, decide_not, Bool.not_eq_eq_eq_not, Bool.not_true, decide_eq_false_iff_not]
    rintro rfl
    exact unnamed (mirrored listed)

theorem setOf_remove_self (graph : Graph) (set : Node → List NodeId) (id : NodeId) :
    (graph.remove id).setOf set id = [] := by
  unfold setOf
  cases found : graph.node? id with
  | none =>
    unfold Graph.remove
    rw [found]
    simp [found]
  | some gone =>
    rw [node?_remove found, if_pos rfl]
    rfl

/-- The operation marks no change of the node. -/
def Edit.Spares (id : NodeId) : Edit → Prop
  | .propagate sources => id ∉ sources
  | _ => True

/-- A graph built by operations that mark no change of the node. -/
inductive BuiltSparing (id : NodeId) : Graph → Prop where
  | empty : BuiltSparing id .empty
  | edit {graph : Graph} (built : BuiltSparing id graph) (step : Edit) (fits : step.Fits graph)
    (spares : step.Spares id) : BuiltSparing id (graph.edit step)

/-- Whatever depends on the node is listed by it. -/
def ListsReaders (graph : Graph) (id : NodeId) : Prop :=
  ∀ reader, id ∈ graph.dependenciesOf reader → reader ∈ graph.dependentsOf id

theorem BuiltSparing.built (sparing : BuiltSparing id graph) : Built graph := by
  induction sparing with
  | empty => exact .empty
  | edit _ step fits _ ih => exact ih.edit step fits

namespace ListsReaders

/-- Nothing depends on a new name, since nobody would list it. -/
theorem insert (lists : graph.ListsReaders id) {new : NodeId} (fresh : graph.contains new = false)
    (kind : NodeKind) : (graph.insert (.new new kind)).ListsReaders id := by
  have dependents : (graph.insert (.new new kind)).dependentsOf id =
      if id = new then [] else graph.dependentsOf id :=
    graph.setOf_insert (.new new kind) rfl id
  have dependencies (reader : NodeId) : (graph.insert (.new new kind)).dependenciesOf reader =
      if reader = new then [] else graph.dependenciesOf reader :=
    graph.setOf_insert (.new new kind) rfl reader
  intro reader depends
  rw [dependencies] at depends
  split at depends
  next => cases depends
  next =>
    have listed := lists reader depends
    have old : id ≠ new := by
      rintro rfl
      have live := contains_of_mem_setOf listed
      rw [fresh] at live
      cases live
    rwa [dependents, if_neg old]

theorem remove (lists : graph.ListsReaders id) (distinct : graph.Distinct) (gone : NodeId) :
    (graph.remove gone).ListsReaders id := by
  intro reader depends
  have depends' : reader ≠ gone ∧ id ∈ graph.dependenciesOf reader ∧
      ¬ (reader ∈ graph.dependentsOf gone ∧ id = gone) :=
    (mem_setOf_remove distinct gone (fun _ holds => holds.dependencies) fun _ _ => rfl).mp depends
  obtain ⟨stays, old, kept⟩ := depends'
  have listed := lists reader old
  have apart : id ≠ gone := by
    rintro rfl
    exact kept ⟨listed, rfl⟩
  exact (mem_dependentsOf_remove_of_ne graph stays apart).mpr listed

theorem connect (lists : graph.ListsReaders id) (read reader : NodeId) :
    (graph.connect read reader).ListsReaders id := by
  intro other depends
  rw [mem_dependentsOf_connect]
  rcases (mem_dependenciesOf_connect read reader).mp depends with old | ⟨connects, rfl, rfl⟩
  · exact Or.inl (lists other old)
  · exact Or.inr ⟨connects, rfl, rfl⟩

theorem disconnect (lists : graph.ListsReaders id) (distinct : graph.Distinct)
    (read reader : NodeId) : (graph.disconnect read reader).ListsReaders id := by
  intro other depends
  obtain ⟨old, kept⟩ := (mem_dependenciesOf_disconnect distinct read reader).mp depends
  rw [mem_dependentsOf_disconnect distinct]
  exact ⟨lists other old, fun gone => kept gone.symm⟩

theorem unsubscribe (lists : graph.ListsReaders id) (distinct : graph.Distinct) (other : NodeId) :
    (graph.unsubscribe other).ListsReaders id := by
  intro reader depends
  rw [dependenciesOf_unsubscribe_eq_ite] at depends
  split at depends
  next => cases depends
  next apart =>
    exact (mem_dependentsOf_unsubscribe distinct other).mpr
      ⟨lists reader depends, fun gone => apart gone.2⟩

theorem resubscribe (lists : graph.ListsReaders id) (other : NodeId) :
    (graph.resubscribe other).ListsReaders id := by
  intro reader depends
  rw [dependenciesOf_resubscribe] at depends
  exact (mem_dependentsOf_resubscribe other).mpr (Or.inl (lists reader depends))

theorem propagate (lists : graph.ListsReaders id) {sources : List NodeId} (spared : id ∉ sources) :
    (graph.propagate sources).2.ListsReaders id := by
  intro reader depends
  rw [dependenciesOf_propagate] at depends
  rw [dependentsOf_propagate, if_neg spared]
  exact lists reader depends

/-- A change at one node that does not concern reads. -/
theorem modify (lists : graph.ListsReaders id) (other : NodeId) (change : Node → Node)
    (kept : ∀ node, (change node).id = node.id ∧ (change node).dependencies = node.dependencies ∧
      (change node).dependents = node.dependents) : (graph.modify other change).ListsReaders id := by
  have dependents : (graph.modify other change).dependentsOf id = graph.dependentsOf id :=
    graph.setOf_modify_of_same other change Node.dependents
      (fun node => ⟨(kept node).1, (kept node).2.2⟩) id
  have dependencies (reader : NodeId) :
      (graph.modify other change).dependenciesOf reader = graph.dependenciesOf reader :=
    graph.setOf_modify_of_same other change Node.dependencies
      (fun node => ⟨(kept node).1, (kept node).2.1⟩) reader
  intro reader depends
  rw [dependencies] at depends
  rw [dependents]
  exact lists reader depends

theorem noteWrite (lists : graph.ListsReaders id) (source effect : NodeId) :
    (graph.noteWrite source effect).ListsReaders id := by
  unfold Graph.noteWrite
  split
  next =>
    have written := lists.modify source (·.addWriter effect) fun _ => ⟨rfl, rfl, rfl⟩
    exact written.modify effect (·.addWrite source) fun _ => ⟨rfl, rfl, rfl⟩
  next => exact lists

theorem edit (lists : graph.ListsReaders id) (built : Built graph) {step : Edit}
    (fits : step.Fits graph) (spares : step.Spares id) :
    (graph.edit step).ListsReaders id := by
  cases step with
  | insert new kind => exact lists.insert fits kind
  | remove gone => exact lists.remove built.distinct gone
  | connect read reader => exact lists.connect read reader
  | disconnect read reader => exact lists.disconnect built.distinct read reader
  | unsubscribe other => exact lists.unsubscribe built.distinct other
  | resubscribe other => exact lists.resubscribe other
  | noteWrite source effect => exact lists.noteWrite source effect
  | propagate sources => exact lists.propagate spares
  | retouch other => exact lists.modify other _ fun _ => ⟨rfl, rfl, rfl⟩

end ListsReaders

theorem BuiltSparing.listsReaders (sparing : BuiltSparing id graph) : graph.ListsReaders id := by
  induction sparing with
  | empty => exact fun _ depends => (List.not_mem_nil depends).elim
  | edit sparing _ fits spares ih => exact ih.edit sparing.built fits spares

/-- However the graph was built, a removed node is out of every set of readers and of writes, and what
else these sets name keeps its order. The readers that it listed lose it from what they read in the same
way. Exactly those that read it and were not listed name it still. -/
theorem remove_forgets (built : Built graph) (id : NodeId) :
    (∀ other, other ≠ id →
      (graph.remove id).dependentsOf other = (graph.dependentsOf other).filter (· ≠ id) ∧
      (graph.remove id).writersOf other = (graph.writersOf other).filter (· ≠ id) ∧
      (graph.remove id).writesOf other = (graph.writesOf other).filter (· ≠ id) ∧
      (graph.remove id).dependenciesOf other =
        if other ∈ graph.dependentsOf id then (graph.dependenciesOf other).filter (· ≠ id)
        else graph.dependenciesOf other) ∧
    (∀ other, id ∉ (graph.remove id).dependentsOf other ∧ id ∉ (graph.remove id).writersOf other ∧
      id ∉ (graph.remove id).writesOf other) ∧
    (∀ other, id ∈ (graph.remove id).dependenciesOf other ↔
      id ∈ graph.dependenciesOf other ∧ other ∉ graph.dependentsOf id) ∧
    (BuiltSparing id graph → ∀ other, id ∉ (graph.remove id).dependenciesOf other) := by
  have distinct := built.distinct
  have dependents {other : NodeId} (apart : other ≠ id) : (graph.remove id).dependentsOf other =
      (graph.dependentsOf other).filter (· ≠ id) :=
    setOf_remove_of_mirrored distinct (fun _ holds => holds.dependents) (fun _ _ => rfl) apart
      (built.readsMirrored.listed other id)
  have writers {other : NodeId} (apart : other ≠ id) : (graph.remove id).writersOf other =
      (graph.writersOf other).filter (· ≠ id) :=
    setOf_remove_of_mirrored distinct (fun _ holds => holds.writers) (fun _ _ => rfl) apart
      (built.writesMirrored.noted other id).mp
  have writes {other : NodeId} (apart : other ≠ id) : (graph.remove id).writesOf other =
      (graph.writesOf other).filter (· ≠ id) :=
    setOf_remove_of_mirrored distinct (fun _ holds => holds.writes) (fun _ _ => rfl) apart
      (built.writesMirrored.noted id other).mpr
  have dependencies {other : NodeId} (apart : other ≠ id) :
      (graph.remove id).dependenciesOf other =
        if other ∈ graph.dependentsOf id then (graph.dependenciesOf other).filter (· ≠ id)
        else graph.dependenciesOf other :=
    setOf_remove distinct (fun _ holds => holds.dependencies) (fun _ _ => rfl) apart
  have left (other : NodeId) : id ∈ (graph.remove id).dependenciesOf other ↔
      id ∈ graph.dependenciesOf other ∧ other ∉ graph.dependentsOf id := by
    by_cases apart : other = id
    · subst apart
      have gone : (graph.remove other).dependenciesOf other = [] :=
        setOf_remove_self graph Node.dependencies other
      simp [gone, built.readsMirrored.apart other]
    · rw [dependencies apart]
      split <;> simp [*]
  refine ⟨fun other apart => ⟨dependents apart, writers apart, writes apart, dependencies apart⟩,
    fun other => ?_, left, fun sparing other named => ?_⟩
  · by_cases apart : other = id
    · subst apart
      have gone (set : Node → List NodeId) : other ∉ (graph.remove other).setOf set other := by
        rw [setOf_remove_self]
        exact List.not_mem_nil
      exact ⟨gone Node.dependents, gone Node.writers, gone Node.writes⟩
    · rw [dependents apart, writers apart, writes apart]
      simp
  · obtain ⟨depends, unlisted⟩ := (left other).mp named
    exact unlisted (sparing.listsReaders other depends)

/-- An effect that has read two sources, the first of which then changes. -/
def changedSource : Graph :=
  [.insert ⟨0⟩ .source, .insert ⟨1⟩ .effect, .insert ⟨2⟩ .source, .connect ⟨0⟩ ⟨1⟩, .connect ⟨2⟩ ⟨1⟩,
    .propagate [⟨0⟩]].foldl edit empty

theorem builtSparing_changedSource : BuiltSparing ⟨2⟩ changedSource := by
  have start : BuiltSparing ⟨2⟩ empty := .empty
  have nodes := ((start.edit (.insert ⟨0⟩ .source) rfl trivial).edit
    (.insert ⟨1⟩ .effect) rfl trivial).edit (.insert ⟨2⟩ .source) rfl trivial
  have reads := (nodes.edit (.connect ⟨0⟩ ⟨1⟩) trivial trivial).edit
    (.connect ⟨2⟩ ⟨1⟩) trivial trivial
  have spared : (⟨2⟩ : NodeId) ∉ [(⟨0⟩ : NodeId)] := by decide
  exact reads.edit (.propagate [⟨0⟩]) trivial spared

theorem remove_forgets_changedSource :
    Built changedSource ∧ ⟨0⟩ ∈ changedSource.dependenciesOf ⟨1⟩ ∧
      ⟨1⟩ ∉ changedSource.dependentsOf ⟨0⟩ ∧
      ⟨0⟩ ∈ (changedSource.remove ⟨0⟩).dependenciesOf ⟨1⟩ ∧
      BuiltSparing ⟨2⟩ changedSource ∧ ⟨2⟩ ∈ changedSource.dependenciesOf ⟨1⟩ ∧
      ⟨2⟩ ∉ (changedSource.remove ⟨2⟩).dependenciesOf ⟨1⟩ := by
  have sparing := builtSparing_changedSource
  have forgets := remove_forgets sparing.built
  have depends : ⟨0⟩ ∈ changedSource.dependenciesOf ⟨1⟩ := by decide +kernel
  have unlisted : ⟨1⟩ ∉ changedSource.dependentsOf ⟨0⟩ := by decide +kernel
  refine ⟨sparing.built, depends, unlisted, ?_, sparing, by decide +kernel, ?_⟩
  · exact ((forgets ⟨0⟩).2.2.1 ⟨1⟩).mpr ⟨depends, unlisted⟩
  · exact (forgets ⟨2⟩).2.2.2 sparing ⟨1⟩

/-- The effect goes on to name the source that is gone. -/
theorem removed_source_still_named : ¬ ∀ graph : Graph, Built graph → ∀ id other,
    id ∉ (graph.remove id).dependenciesOf other := by
  intro forgotten
  apply forgotten changedSource builtSparing_changedSource.built ⟨0⟩ ⟨1⟩
  decide +kernel

end ReactiveTree.Graph
