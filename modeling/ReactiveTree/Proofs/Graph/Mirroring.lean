import ReactiveTree.Proofs.Graph.Membership

/-! # Edge sets that mirror one another

Who reads and who writes what is recorded at both ends, and the operations edit the records one side at
a time. Marking a changed source empties the list of its readers and leaves them what they read; so
reads are mirrored in one direction, from whoever lists a reader to the reader. Writes are mirrored in
both. This holds of every graph that the operations build, whatever names they are given.
-/

namespace ReactiveTree.Graph

/-- An operation on the sets of nodes. -/
inductive Edit where
  | insert (id : NodeId) (kind : NodeKind)
  | remove (id : NodeId)
  | connect (read reader : NodeId)
  | disconnect (read reader : NodeId)
  | unsubscribe (id : NodeId)
  | resubscribe (id : NodeId)
  | noteWrite (source effect : NodeId)
  | propagate (sources : List NodeId)
  /-- Whatever else is set at a node: its mark, its version and its label. -/
  | retouch (id : NodeId) (freshness : Freshness) (version : Nat) (label : Option String)

def edit (graph : Graph) : Edit → Graph
  | .insert id kind => graph.insert (.new id kind)
  | .remove id => graph.remove id
  | .connect read reader => graph.connect read reader
  | .disconnect read reader => graph.disconnect read reader
  | .unsubscribe id => graph.unsubscribe id
  | .resubscribe id => graph.resubscribe id
  | .noteWrite source effect => graph.noteWrite source effect
  | .propagate sources => (graph.propagate sources).2
  | .retouch id freshness version label =>
    graph.modify id fun node => { node with freshness, version, label }

/-- A node is inserted under a new name; every other operation takes any names at all. -/
def Edit.Fits (graph : Graph) : Edit → Prop
  | .insert id _ => graph.contains id = false
  | _ => True

/-- A graph that a sequence of operations has built. -/
inductive Built : Graph → Prop where
  | empty : Built .empty
  | edit {graph : Graph} (built : Built graph) (step : Edit) (fits : step.Fits graph) :
    Built (graph.edit step)

/-- Whoever is listed as a reader depends on what lists it, and nothing depends on itself. -/
structure ReadsMirrored (graph : Graph) : Prop where
  listed : ∀ read reader, reader ∈ graph.dependentsOf read → read ∈ graph.dependenciesOf reader
  apart : ∀ id, id ∉ graph.dependenciesOf id

/-- Writers and writes are two records of the same writes, and only effects write. -/
structure WritesMirrored (graph : Graph) : Prop where
  noted : ∀ source writer, writer ∈ graph.writersOf source ↔ source ∈ graph.writesOf writer
  effects : ∀ source writer, source ∈ graph.writesOf writer → graph.kind? writer = some .effect

variable {graph after : Graph}

namespace ReadsMirrored

theorem congr (mirrored : graph.ReadsMirrored)
    (dependents : ∀ id, after.dependentsOf id ⊆ graph.dependentsOf id)
    (dependencies : ∀ id, after.dependenciesOf id = graph.dependenciesOf id) :
    after.ReadsMirrored := by
  refine ⟨fun read reader listed => ?_, fun id => ?_⟩
  · rw [dependencies]
    exact mirrored.listed read reader (dependents read listed)
  · rw [dependencies]
    exact mirrored.apart id

/-- A new node reads nothing, and nothing that is listed has its name. -/
theorem insert (mirrored : graph.ReadsMirrored) {id : NodeId} (fresh : graph.contains id = false)
    (kind : NodeKind) : (graph.insert (.new id kind)).ReadsMirrored := by
  have dependents (read : NodeId) : (graph.insert (.new id kind)).dependentsOf read =
      if read = id then [] else graph.dependentsOf read :=
    graph.setOf_insert (.new id kind) rfl read
  have dependencies (reader : NodeId) : (graph.insert (.new id kind)).dependenciesOf reader =
      if reader = id then [] else graph.dependenciesOf reader :=
    graph.setOf_insert (.new id kind) rfl reader
  refine ⟨fun read reader listed => ?_, fun other depends => ?_⟩
  · rw [dependents] at listed
    rw [dependencies]
    split at listed
    next => cases listed
    next =>
      have depends := mirrored.listed read reader listed
      have old : reader ≠ id := by
        rintro rfl
        have live := contains_of_mem_setOf depends
        rw [fresh] at live
        cases live
      rwa [if_neg old]
  · rw [dependencies] at depends
    split at depends
    next => cases depends
    next => exact mirrored.apart other depends

/-- A removed node is listed by nothing but what it reads, and is taken off that. -/
theorem remove (mirrored : graph.ReadsMirrored) (distinct : graph.Distinct) (id : NodeId) :
    (graph.remove id).ReadsMirrored := by
  have dependents {read reader : NodeId} : reader ∈ (graph.remove id).dependentsOf read ↔
      read ≠ id ∧ reader ∈ graph.dependentsOf read ∧
        ¬ (read ∈ graph.dependenciesOf id ∧ reader = id) :=
    mem_setOf_remove distinct id (fun _ holds => holds.dependents) fun _ _ => rfl
  have dependencies {read reader : NodeId} : read ∈ (graph.remove id).dependenciesOf reader ↔
      reader ≠ id ∧ read ∈ graph.dependenciesOf reader ∧
        ¬ (reader ∈ graph.dependentsOf id ∧ read = id) :=
    mem_setOf_remove distinct id (fun _ holds => holds.dependencies) fun _ _ => rfl
  refine ⟨fun read reader listed => ?_, fun other depends => ?_⟩
  · obtain ⟨here, listed, kept⟩ := dependents.mp listed
    have depends := mirrored.listed read reader listed
    refine dependencies.mpr ⟨?_, depends, fun gone => here gone.2⟩
    rintro rfl
    exact kept ⟨depends, rfl⟩
  · exact mirrored.apart other (dependencies.mp depends).2.1

theorem connect (mirrored : graph.ReadsMirrored) (read reader : NodeId) :
    (graph.connect read reader).ReadsMirrored := by
  refine ⟨fun id member listed => ?_, fun id depends => ?_⟩
  · rw [mem_dependenciesOf_connect]
    rcases (mem_dependentsOf_connect read reader).mp listed with old | ⟨connects, rfl, rfl⟩
    · exact Or.inl (mirrored.listed id member old)
    · exact Or.inr ⟨connects, rfl, rfl⟩
  · rcases (mem_dependenciesOf_connect read reader).mp depends with old | ⟨connects, rfl, same⟩
    · exact mirrored.apart id old
    · exact connects.1 same.symm

theorem disconnect (mirrored : graph.ReadsMirrored) (distinct : graph.Distinct)
    (read reader : NodeId) : (graph.disconnect read reader).ReadsMirrored := by
  refine ⟨fun id member listed => ?_, fun id depends => ?_⟩
  · obtain ⟨old, kept⟩ := (mem_dependentsOf_disconnect distinct read reader).mp listed
    rw [mem_dependenciesOf_disconnect distinct]
    exact ⟨mirrored.listed id member old, fun gone => kept gone.symm⟩
  · exact mirrored.apart id ((mem_dependenciesOf_disconnect distinct read reader).mp depends).1

/-- A node that forgets what it reads was listed nowhere else. -/
theorem unsubscribe (mirrored : graph.ReadsMirrored) (distinct : graph.Distinct) (id : NodeId) :
    (graph.unsubscribe id).ReadsMirrored := by
  refine ⟨fun read reader listed => ?_, fun other depends => ?_⟩
  · obtain ⟨old, kept⟩ := (mem_dependentsOf_unsubscribe distinct id).mp listed
    have depends := mirrored.listed read reader old
    rw [dependenciesOf_unsubscribe_eq_ite, if_neg]
    · exact depends
    · rintro rfl
      exact kept ⟨depends, rfl⟩
  · rw [dependenciesOf_unsubscribe_eq_ite] at depends
    split at depends
    next => cases depends
    next => exact mirrored.apart other depends

theorem resubscribe (mirrored : graph.ReadsMirrored) (id : NodeId) :
    (graph.resubscribe id).ReadsMirrored := by
  refine ⟨fun read reader listed => ?_, fun other => ?_⟩
  · rw [dependenciesOf_resubscribe]
    rcases (mem_dependentsOf_resubscribe id).mp listed with old | ⟨⟨depends, _⟩, rfl⟩
    · exact mirrored.listed read reader old
    · exact depends
  · rw [dependenciesOf_resubscribe]
    exact mirrored.apart other

/-- A change at one node that does not concern reads. -/
theorem modify (mirrored : graph.ReadsMirrored) (id : NodeId) (change : Node → Node)
    (kept : ∀ node, (change node).id = node.id ∧ (change node).dependencies = node.dependencies ∧
      (change node).dependents = node.dependents) : (graph.modify id change).ReadsMirrored := by
  have dependents (other : NodeId) :
      (graph.modify id change).dependentsOf other = graph.dependentsOf other :=
    graph.setOf_modify_of_same id change Node.dependents
      (fun node => ⟨(kept node).1, (kept node).2.2⟩) other
  refine mirrored.congr (fun other member listed => ?_) (graph.setOf_modify_of_same id change
    Node.dependencies fun node => ⟨(kept node).1, (kept node).2.1⟩)
  rwa [dependents] at listed

theorem noteWrite (mirrored : graph.ReadsMirrored) (source effect : NodeId) :
    (graph.noteWrite source effect).ReadsMirrored := by
  unfold Graph.noteWrite
  split
  next =>
    have written := mirrored.modify source (·.addWriter effect) fun _ => ⟨rfl, rfl, rfl⟩
    exact written.modify effect (·.addWrite source) fun _ => ⟨rfl, rfl, rfl⟩
  next => exact mirrored

/-- Marking a changed source only takes readers off it. -/
theorem propagate (mirrored : graph.ReadsMirrored) (sources : List NodeId) :
    (graph.propagate sources).2.ReadsMirrored :=
  mirrored.congr (graph.dependentsOf_propagate_subset sources)
    (graph.dependenciesOf_propagate sources)

theorem edit (mirrored : graph.ReadsMirrored) (distinct : graph.Distinct) {step : Edit}
    (fits : step.Fits graph) : (graph.edit step).ReadsMirrored := by
  cases step with
  | insert id kind => exact mirrored.insert fits kind
  | remove id => exact mirrored.remove distinct id
  | connect read reader => exact mirrored.connect read reader
  | disconnect read reader => exact mirrored.disconnect distinct read reader
  | unsubscribe id => exact mirrored.unsubscribe distinct id
  | resubscribe id => exact mirrored.resubscribe id
  | noteWrite source effect => exact mirrored.noteWrite source effect
  | propagate sources => exact mirrored.propagate sources
  | retouch id => exact mirrored.modify id _ fun _ => ⟨rfl, rfl, rfl⟩

end ReadsMirrored

namespace WritesMirrored

theorem congr (mirrored : graph.WritesMirrored)
    (same : ∀ id, after.writeSets id = graph.writeSets id) : after.WritesMirrored := by
  refine ⟨fun source writer => ?_, fun source writer noted => ?_⟩
  · rw [writersOf_of_writeSets (same source), writesOf_of_writeSets (same writer)]
    exact mirrored.noted source writer
  · rw [writesOf_of_writeSets (same writer)] at noted
    rw [kind?_of_writeSets (same writer)]
    exact mirrored.effects source writer noted

theorem insert (mirrored : graph.WritesMirrored) {id : NodeId} (fresh : graph.contains id = false)
    (kind : NodeKind) : (graph.insert (.new id kind)).WritesMirrored := by
  have writers (source : NodeId) : (graph.insert (.new id kind)).writersOf source =
      if source = id then [] else graph.writersOf source :=
    graph.setOf_insert (.new id kind) rfl source
  have writes (writer : NodeId) : (graph.insert (.new id kind)).writesOf writer =
      if writer = id then [] else graph.writesOf writer :=
    graph.setOf_insert (.new id kind) rfl writer
  -- Neither record of an old node has the new name in it.
  have old {source writer : NodeId} (noted : writer ∈ graph.writersOf source) :
      source ≠ id ∧ writer ≠ id := by
    constructor
    · rintro rfl
      have live := contains_of_mem_setOf noted
      rw [fresh] at live
      cases live
    · rintro rfl
      have live := contains_of_mem_setOf ((mirrored.noted source writer).mp noted)
      rw [fresh] at live
      cases live
  refine ⟨fun source writer => ?_, fun source writer noted => ?_⟩
  · rw [writers, writes]
    constructor
    · intro noted
      split at noted
      next => cases noted
      next => rwa [if_neg (old noted).2, ← mirrored.noted]
    · intro noted
      split at noted
      next => cases noted
      next =>
        rw [← mirrored.noted] at noted
        rwa [if_neg (old noted).1]
  · rw [writes] at noted
    split at noted
    next => cases noted
    next apart =>
      have kept : (graph.insert (.new id kind)).node? writer = graph.node? writer :=
        (graph.node?_insert (.new id kind) writer).trans (if_neg apart)
      unfold kind?
      rw [kept]
      exact mirrored.effects source writer noted

theorem remove (mirrored : graph.WritesMirrored) (distinct : graph.Distinct) (id : NodeId) :
    (graph.remove id).WritesMirrored := by
  have writers {source writer : NodeId} : writer ∈ (graph.remove id).writersOf source ↔
      source ≠ id ∧ writer ∈ graph.writersOf source ∧
        ¬ (source ∈ graph.writesOf id ∧ writer = id) :=
    mem_setOf_remove distinct id (fun _ holds => holds.writers) fun _ _ => rfl
  have writes {source writer : NodeId} : source ∈ (graph.remove id).writesOf writer ↔
      writer ≠ id ∧ source ∈ graph.writesOf writer ∧
        ¬ (writer ∈ graph.writersOf id ∧ source = id) :=
    mem_setOf_remove distinct id (fun _ holds => holds.writes) fun _ _ => rfl
  refine ⟨fun source writer => ?_, fun source writer noted => ?_⟩
  · rw [writers, writes]
    constructor
    · rintro ⟨here, noted, kept⟩
      have noted' := (mirrored.noted source writer).mp noted
      refine ⟨?_, noted', fun gone => here gone.2⟩
      rintro rfl
      exact kept ⟨noted', rfl⟩
    · rintro ⟨here, noted', kept⟩
      have noted := (mirrored.noted source writer).mpr noted'
      refine ⟨?_, noted, fun gone => here gone.2⟩
      rintro rfl
      exact kept ⟨noted, rfl⟩
  · obtain ⟨apart, noted, _⟩ := writes.mp noted
    have known := mirrored.effects source writer noted
    unfold kind?
    cases found : graph.node? id with
    | none =>
      have same : graph.remove id = graph := by
        unfold Graph.remove
        rw [found]
      rwa [same]
    | some gone =>
      rw [node?_remove found, if_neg apart, Option.map_map]
      exact known

/-- A write is noted at both ends, or at neither. -/
theorem noteWrite (mirrored : graph.WritesMirrored) (source effect : NodeId) :
    (graph.noteWrite source effect).WritesMirrored := by
  refine ⟨fun id writer => ?_, fun id writer noted => ?_⟩
  · rw [mem_writersOf_noteWrite, mem_writesOf_noteWrite, mirrored.noted]
    exact or_congr Iff.rfl (and_congr Iff.rfl and_comm)
  · rw [kind?_noteWrite]
    rcases (mem_writesOf_noteWrite source effect).mp noted with old | ⟨notes, rfl, _⟩
    · exact mirrored.effects id writer old
    · exact notes.1

theorem edit (mirrored : graph.WritesMirrored) (distinct : graph.Distinct) {step : Edit}
    (fits : step.Fits graph) : (graph.edit step).WritesMirrored := by
  cases step with
  | insert id kind => exact mirrored.insert fits kind
  | remove id => exact mirrored.remove distinct id
  | connect read reader => exact mirrored.congr (graph.writeSets_connect read reader)
  | disconnect read reader => exact mirrored.congr (graph.writeSets_disconnect read reader)
  | unsubscribe id => exact mirrored.congr (graph.writeSets_unsubscribe id)
  | resubscribe id => exact mirrored.congr (graph.writeSets_resubscribe id)
  | noteWrite source effect => exact mirrored.noteWrite source effect
  | propagate sources => exact mirrored.congr (graph.writeSets_propagate sources)
  | retouch id =>
    exact mirrored.congr (graph.writeSets_modify id _ fun _ => ⟨rfl, rfl, rfl, rfl⟩)

end WritesMirrored

/-- No operation makes a set name anything twice. -/
theorem Distinct.edit (distinct : graph.Distinct) (step : Edit) : (graph.edit step).Distinct := by
  cases step with
  | insert id kind => exact distinct.insert id kind
  | remove id => exact distinct.remove id
  | connect read reader => exact distinct.connect read reader
  | disconnect read reader => exact distinct.disconnect read reader
  | unsubscribe id => exact distinct.unsubscribe id
  | resubscribe id => exact distinct.resubscribe id
  | noteWrite source effect => exact distinct.noteWrite source effect
  | propagate sources => exact distinct.propagate sources
  | retouch id => exact distinct.modify id fun _ holds => { holds with }

theorem Built.distinct (built : Built graph) : graph.Distinct := by
  induction built with
  | empty => exact fun _ member => nomatch member
  | edit _ step _ ih => exact ih.edit step

theorem Built.readsMirrored (built : Built graph) : graph.ReadsMirrored := by
  induction built with
  | empty => exact ⟨fun _ _ listed => (List.not_mem_nil listed).elim, fun _ => List.not_mem_nil⟩
  | edit built _ fits ih => exact ih.edit built.distinct fits

theorem Built.writesMirrored (built : Built graph) : graph.WritesMirrored := by
  induction built with
  | empty =>
    exact ⟨fun _ _ => iff_of_false List.not_mem_nil List.not_mem_nil,
      fun _ _ noted => (List.not_mem_nil noted).elim⟩
  | edit built _ fits ih => exact ih.edit built.distinct fits

/-- In whatever order nodes come and go and reads, writes and changes are recorded, readers that are
listed depend on what lists them, the two records of every write agree, and no set repeats a name. -/
theorem edge_sets_mirrored (built : Built graph) :
    (∀ read reader, reader ∈ graph.dependentsOf read →
      graph.contains reader ∧ reader ≠ read ∧ read ∈ graph.dependenciesOf reader) ∧
    (∀ source writer, writer ∈ graph.writersOf source ↔ source ∈ graph.writesOf writer) ∧
    (∀ source writer, writer ∈ graph.writersOf source →
      graph.contains source ∧ graph.contains writer ∧ graph.kind? writer = some .effect) ∧
    ∀ id, (graph.dependenciesOf id).Nodup ∧ (graph.dependentsOf id).Nodup ∧
      (graph.writersOf id).Nodup ∧ (graph.writesOf id).Nodup := by
  have distinct := built.distinct
  refine ⟨fun read reader listed => ?_, built.writesMirrored.noted, fun source writer noted => ?_,
    fun id => ⟨nodup_setOf distinct (fun _ holds => holds.dependencies) id,
      nodup_setOf distinct (fun _ holds => holds.dependents) id,
      nodup_setOf distinct (fun _ holds => holds.writers) id,
      nodup_setOf distinct (fun _ holds => holds.writes) id⟩⟩
  · have depends := built.readsMirrored.listed read reader listed
    refine ⟨contains_of_mem_setOf depends, ?_, depends⟩
    rintro rfl
    exact built.readsMirrored.apart reader depends
  · have noted' := (built.writesMirrored.noted source writer).mp noted
    exact ⟨contains_of_mem_setOf noted, contains_of_mem_setOf noted',
      built.writesMirrored.effects source writer noted'⟩

/-- An effect that reads what it writes, put back on the list of its source after a change. -/
def feedback : Graph :=
  [.insert ⟨0⟩ .source, .insert ⟨1⟩ .effect, .connect ⟨0⟩ ⟨1⟩, .noteWrite ⟨0⟩ ⟨1⟩, .propagate [⟨0⟩],
    .resubscribe ⟨1⟩].foldl edit empty

theorem edge_sets_mirrored_feedback :
    Built feedback ∧ ⟨1⟩ ∈ feedback.dependentsOf ⟨0⟩ ∧ feedback.contains ⟨1⟩ ∧
      (⟨1⟩ : NodeId) ≠ ⟨0⟩ ∧ ⟨0⟩ ∈ feedback.dependenciesOf ⟨1⟩ := by
  have nodes : Built ((empty.edit (.insert ⟨0⟩ .source)).edit (.insert ⟨1⟩ .effect)) :=
    (Built.empty.edit (.insert ⟨0⟩ .source) rfl).edit (.insert ⟨1⟩ .effect) rfl
  have built : Built feedback :=
    (((nodes.edit (.connect ⟨0⟩ ⟨1⟩) trivial).edit (.noteWrite ⟨0⟩ ⟨1⟩) trivial).edit
      (.propagate [⟨0⟩]) trivial).edit (.resubscribe ⟨1⟩) trivial
  have listed : ⟨1⟩ ∈ feedback.dependentsOf ⟨0⟩ := by decide +kernel
  exact ⟨built, listed, (edge_sets_mirrored built).1 ⟨0⟩ ⟨1⟩ listed⟩

end ReactiveTree.Graph
