import ReactiveTree.Proofs.Graph.Waking

/-! # Who writes what

The graph keeps for every signal the effects that have written it, and for every effect the signals
that it has written. Nothing takes a name out of these records but the end of the node it names; so
what was once recorded on both sides stays so as long as both nodes are live.
-/

namespace ReactiveTree.Graph

/-- As long as both are live, the effect is among the writers of the source, and the source among what
the effect writes. -/
def Inscribed (source writer : NodeId) (graph : Graph) : Prop :=
  ∀ node, graph.node? source = some node → ∀ effect, graph.node? writer = some effect →
    effect.kind = .effect → writer ∈ node.writers ∧ source ∈ effect.writes

/-- Where both nodes are live they were before, and they have kept one another. -/
def KeepsWrites (source writer : NodeId) (graph after : Graph) : Prop :=
  ∀ node effect, after.node? source = some node → after.node? writer = some effect →
    ∃ old old', graph.node? source = some old ∧ graph.node? writer = some old' ∧
      old'.kind = effect.kind ∧ (writer ∈ old.writers → writer ∈ node.writers) ∧
        (source ∈ old'.writes → source ∈ effect.writes)

variable {source writer : NodeId} {graph middle after : Graph}

theorem Inscribed.keep (inscribed : graph.Inscribed source writer)
    (keeps : KeepsWrites source writer graph after) : after.Inscribed source writer := by
  intro node live effect live' kind
  obtain ⟨old, old', was, was', kinds, writers, writes⟩ := keeps node effect live live'
  obtain ⟨listed, listed'⟩ := inscribed old was old' was' (kinds.trans kind)
  exact ⟨writers listed, writes listed'⟩

namespace KeepsWrites

theorem refl (graph : Graph) : KeepsWrites source writer graph graph :=
  fun node effect live live' => ⟨node, effect, live, live', rfl, fun member => member,
    fun member => member⟩

theorem trans (start : KeepsWrites source writer graph middle)
    (finish : KeepsWrites source writer middle after) : KeepsWrites source writer graph after := by
  intro node effect live live'
  obtain ⟨between, between', known, known', kind, writers, writes⟩ := finish node effect live live'
  obtain ⟨old, old', was, was', kind', writers', writes'⟩ := start between between' known known'
  exact ⟨old, old', was, was', kind'.trans kind, fun member => writers (writers' member),
    fun member => writes (writes' member)⟩

theorem empty (graph : Graph) : KeepsWrites source writer graph .empty :=
  fun _ _ live => nomatch live

/-- A change of nodes in place that drops no writer and no write. -/
theorem mapNodes (graph : Graph) {change : Node → Node}
    (kept : ∀ node, (change node).id = node.id ∧ (change node).kind = node.kind ∧
      node.writers ⊆ (change node).writers ∧ node.writes ⊆ (change node).writes) :
    KeepsWrites source writer graph (graph.mapNodes change) := by
  intro node effect live live'
  rw [node?_mapNodes graph fun node => (kept node).1] at live live'
  obtain ⟨old, was, rfl⟩ := Option.map_eq_some_iff.mp live
  obtain ⟨old', was', rfl⟩ := Option.map_eq_some_iff.mp live'
  obtain ⟨_, kind, _, writes⟩ := kept old'
  obtain ⟨_, _, writers, _⟩ := kept old
  exact ⟨old, old', was, was', kind.symm, fun member => writers member, fun member => writes member⟩

theorem modify (graph : Graph) (other : NodeId) {change : Node → Node}
    (kept : ∀ node, (change node).id = node.id ∧ (change node).kind = node.kind ∧
      node.writers ⊆ (change node).writers ∧ node.writes ⊆ (change node).writes) :
    KeepsWrites source writer graph (graph.modify other change) := by
  refine .mapNodes graph fun node => ?_
  split
  next => exact kept node
  next => exact ⟨rfl, rfl, List.Subset.refl _, List.Subset.refl _⟩

theorem connect (graph : Graph) (read reader : NodeId) :
    KeepsWrites source writer graph (graph.connect read reader) := by
  unfold Graph.connect
  split
  next => exact .refl graph
  next =>
    have listed : KeepsWrites source writer graph (graph.modify read (·.addDependent reader)) :=
      .modify graph read fun _ => ⟨rfl, rfl, List.Subset.refl _, List.Subset.refl _⟩
    exact listed.trans (.modify _ reader fun _ => ⟨rfl, rfl, List.Subset.refl _, List.Subset.refl _⟩)

theorem unsubscribe (graph : Graph) (id : NodeId) :
    KeepsWrites source writer graph (graph.unsubscribe id) := by
  have dropped : KeepsWrites source writer graph (graph.modify id Node.dropDependencies) :=
    .modify graph id fun _ => ⟨rfl, rfl, List.Subset.refl _, List.Subset.refl _⟩
  refine dropped.trans (.mapNodes _ fun node => ?_)
  split <;> exact ⟨rfl, rfl, List.Subset.refl _, List.Subset.refl _⟩

theorem resubscribe (graph : Graph) (id : NodeId) :
    KeepsWrites source writer graph (graph.resubscribe id) := by
  refine .mapNodes graph fun node => ?_
  split <;> exact ⟨rfl, rfl, List.Subset.refl _, List.Subset.refl _⟩

theorem noteWrite (graph : Graph) (other effect : NodeId) :
    KeepsWrites source writer graph (graph.noteWrite other effect) := by
  unfold Graph.noteWrite
  split
  next =>
    have added : ∀ (members : List NodeId) (member : NodeId), members ⊆ addLast members member :=
      fun _ _ _ known => mem_addLast.mpr (Or.inl known)
    have written : KeepsWrites source writer graph (graph.modify other (·.addWriter effect)) :=
      .modify graph other fun _ => ⟨rfl, rfl, added _ _, List.Subset.refl _⟩
    exact written.trans (.modify _ effect fun _ => ⟨rfl, rfl, List.Subset.refl _, added _ _⟩)
  next => exact .refl graph

theorem insert (graph : Graph) {id : NodeId} (kind : NodeKind) (apart : source ≠ id)
    (apart' : writer ≠ id) : KeepsWrites source writer graph (graph.insert (.new id kind)) := by
  have other : source ≠ (Node.new id kind).id := apart
  have other' : writer ≠ (Node.new id kind).id := apart'
  intro node effect live live'
  rw [node?_insert, if_neg other] at live
  rw [node?_insert, if_neg other'] at live'
  exact ⟨node, effect, live, live', rfl, fun member => member, fun member => member⟩

/-- A node leaves the graph, and its name the records of the others. -/
theorem remove (graph : Graph) (id : NodeId) :
    KeepsWrites source writer graph (graph.remove id) := by
  unfold Graph.remove
  split
  next => exact .refl graph
  next gone _ =>
    intro node effect live live'
    change (Graph.mapNodes ⟨graph.nodes.filter fun node => node.id ≠ id⟩ _).node? _ = _ at live live'
    rw [node?_mapNodes _ (by intro node; rfl), node?_filter] at live live'
    split at live
    next => cases live
    next apart =>
      split at live'
      next => cases live'
      next apart' =>
        obtain ⟨old, was, rfl⟩ := Option.map_eq_some_iff.mp live
        obtain ⟨old', was', rfl⟩ := Option.map_eq_some_iff.mp live'
        refine ⟨old, old', was, was', rfl, fun member => ?_, fun member => ?_⟩
        · dsimp only
          split
          next => exact (List.mem_erase_of_ne apart').mpr member
          next => exact member
        · dsimp only
          split
          next => exact (List.mem_erase_of_ne apart).mpr member
          next => exact member

/-- Marks do not count. -/
theorem of_marked (marked : ∀ id, Option.Rel MarkedFrom (graph.node? id) (after.node? id)) :
    KeepsWrites source writer graph after := by
  intro node effect live live'
  have first := marked source
  have second := marked writer
  rw [live] at first
  rw [live'] at second
  obtain ⟨old, was, holds⟩ := relOption_some first
  obtain ⟨old', was', holds'⟩ := relOption_some second
  have writers : node.outline.writers = old.outline.writers := by rw [holds.1]
  have writes : effect.outline.writes = old'.outline.writes := by rw [holds'.1]
  refine ⟨old, old', was, was', (Node.kind_of_outline holds'.1).symm,
    fun member => ?_, fun member => ?_⟩
  · show writer ∈ node.outline.writers
    rw [writers]
    exact member
  · show source ∈ effect.outline.writes
    rw [writes]
    exact member

end KeepsWrites

/-- A write of a live source by a live effect is recorded on both sides. -/
theorem inscribed_noteWrite (graph : Graph) (source writer : NodeId) :
    (graph.noteWrite source writer).Inscribed source writer := by
  intro node live effect live' kind
  unfold Graph.noteWrite at live live'
  have writing : ∀ node : Node, (node.addWrite source).id = node.id := fun _ => rfl
  have written : ∀ node : Node, (node.addWriter writer).id = node.id := fun _ => rfl
  split at live
  next holds =>
    rw [if_pos holds] at live'
    constructor
    · obtain ⟨old, was, same⟩ := modify_cases writing live
      rw [node?_modify _ written, if_pos rfl] at was
      obtain ⟨before, _, rfl⟩ := Option.map_eq_some_iff.mp was
      have member : writer ∈ addLast before.writers writer := mem_addLast.mpr (Or.inr rfl)
      rcases same with rfl | ⟨_, rfl⟩ <;> exact member
    · rw [node?_modify _ writing, if_pos rfl] at live'
      obtain ⟨before, _, rfl⟩ := Option.map_eq_some_iff.mp live'
      have member : source ∈ addLast before.writes source := mem_addLast.mpr (Or.inr rfl)
      exact member
  next fails =>
    rw [if_neg fails] at live'
    refine absurd ⟨?_, ?_⟩ fails
    · rw [kind?, live', ← kind]
      rfl
    · rw [contains, live]
      rfl

end ReactiveTree.Graph
