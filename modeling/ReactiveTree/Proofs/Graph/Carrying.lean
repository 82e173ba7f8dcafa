import ReactiveTree.Proofs.Graph.Listing

/-! # What a node carries over

Reads, writes and marks leave every node its version and what it reads. Only a node that forgets its
reads loses them, and a node that leaves the graph is lost to all of its readers.
-/

namespace ReactiveTree

theorem relOption_mono {α : Type} {relation weaker : α → α → Prop}
    (implies : ∀ first second, relation first second → weaker first second) {first second : Option α}
    (related : Option.Rel relation first second) : Option.Rel weaker first second := by
  cases related with
  | none => exact .none
  | some holds => exact .some (implies _ _ holds)

theorem relOption_isSome {α : Type} {relation : α → α → Prop} {first second : Option α}
    (related : Option.Rel relation first second) : second.isSome = first.isSome := by
  cases related <;> rfl

/-- A node keeps its version and what it reads. -/
def Node.Carries (before after : Node) : Prop :=
  after.version = before.version ∧ before.dependencies ⊆ after.dependencies

theorem Node.Carries.refl (node : Node) : node.Carries node :=
  ⟨rfl, fun _ member => member⟩

theorem Node.Carries.trans {first second third : Node} (start : first.Carries second)
    (finish : second.Carries third) : first.Carries third :=
  ⟨finish.1.trans start.1, fun _ member => finish.2 (start.2 member)⟩

namespace Graph

variable {graph : Graph}

/-- A change at one node. -/
theorem relOption_modify {relation : Node → Node → Prop} (reflexive : ∀ node, relation node node)
    (graph : Graph) (id : NodeId) (change : Node → Node) (kept : ∀ node, (change node).id = node.id)
    {other : NodeId} (changed : other = id → ∀ node, relation node (change node)) :
    Option.Rel relation (graph.node? other) ((graph.modify id change).node? other) := by
  rw [node?_modify _ kept]
  split
  next same =>
    subst same
    cases graph.node? other with
    | none => exact .none
    | some node => exact .some (changed rfl node)
  next => exact relOption_refl reflexive _

theorem carries_connect (graph : Graph) (read reader id : NodeId) :
    Option.Rel Node.Carries (graph.node? id) ((graph.connect read reader).node? id) := by
  obtain ⟨step, eq, kept⟩ := connect_cases graph read reader id
  rw [eq]
  cases graph.node? id with
  | none => exact .none
  | some old =>
    obtain ⟨_, standing, dependencies⟩ := kept old
    refine .some ⟨congrArg Prod.snd standing, fun other member => ?_⟩
    rcases dependencies with same | ⟨_, added⟩
    · exact same ▸ member
    · rw [added]
      exact mem_addLast.mpr (Or.inl member)

/-- After a read the reader depends on what it read, unless that is gone. -/
theorem connect_adds {graph : Graph} {read reader : NodeId} (apart : read ≠ reader) {node : Node}
    (found : (graph.connect read reader).node? reader = some node) :
    read ∈ node.dependencies ∨ (graph.connect read reader).node? read = none := by
  rw [node?_connect] at found
  split at found
  next blocked =>
    refine Or.inr ?_
    rw [node?_connect, if_pos blocked]
    refine Option.not_isSome_iff_eq_none.mp fun live => ?_
    rcases blocked with same | absent | absent
    · exact apart same
    · exact absent live
    · refine absent ?_
      unfold contains
      rw [found]
      rfl
  next =>
    rw [if_pos rfl] at found
    obtain ⟨old, _, rfl⟩ := Option.map_eq_some_iff.mp found
    exact Or.inl (mem_addLast.mpr (Or.inr rfl))

theorem carries_noteWrite (graph : Graph) (source effect id : NodeId) :
    Option.Rel Node.Carries (graph.node? id) ((graph.noteWrite source effect).node? id) := by
  unfold Graph.noteWrite
  split
  next =>
    have written : Option.Rel Node.Carries (graph.node? id)
        ((graph.modify source (·.addWriter effect)).node? id) :=
      relOption_modify Node.Carries.refl graph source (·.addWriter effect) (fun _ => rfl)
        fun _ node => .refl node
    have writing : Option.Rel Node.Carries ((graph.modify source (·.addWriter effect)).node? id)
        (((graph.modify source (·.addWriter effect)).modify effect (·.addWrite source)).node? id) :=
      relOption_modify Node.Carries.refl _ effect (·.addWrite source) (fun _ => rfl)
        fun _ node => .refl node
    refine relOption_trans (fun first second third => ?_) written writing
    exact Node.Carries.trans
  next => exact relOption_refl Node.Carries.refl _

theorem carries_resubscribe (graph : Graph) (id other : NodeId) :
    Option.Rel Node.Carries (graph.node? other) ((graph.resubscribe id).node? other) := by
  unfold Graph.resubscribe
  rw [node?_mapNodes _ fun node => by split <;> rfl]
  cases graph.node? other with
  | none => exact .none
  | some old =>
    refine .some ?_
    dsimp only
    split <;> exact Node.Carries.refl old

theorem carries_propagate (graph : Graph) (sources : List NodeId) (id : NodeId) :
    Option.Rel Node.Carries (graph.node? id) ((graph.propagate sources).2.node? id) := by
  refine relOption_mono (fun _ _ mark => ?_) (markedFrom_propagate graph sources id)
  obtain ⟨_, version, dependencies, _⟩ := mark
  exact ⟨version, fun _ member => dependencies ▸ member⟩

/-- A removed node is gone. -/
theorem node?_remove_self (graph : Graph) (id : NodeId) : (graph.remove id).node? id = none :=
  Option.eq_none_iff_forall_ne_some.mpr fun _ found => (remove_cases found).1 rfl

/-- What is left of a node keeps its version, and reads the removed node no longer. -/
theorem remove_keeps {id other : NodeId} {node : Node}
    (found : (graph.remove id).node? other = some node) :
    other ≠ id ∧ ∃ old, graph.node? other = some old ∧ node.version = old.version ∧
      ∀ read ∈ old.dependencies, read ∈ node.dependencies ∨ read = id := by
  have apart := (remove_cases found).1
  refine ⟨apart, ?_⟩
  unfold Graph.remove at found
  split at found
  next => exact ⟨node, found, rfl, fun _ member => Or.inl member⟩
  next gone _ =>
    change (Graph.mapNodes ⟨graph.nodes.filter fun node => node.id ≠ id⟩ _).node? other = _ at found
    rw [node?_mapNodes _ (by intro node; rfl), node?_filter, if_neg apart] at found
    obtain ⟨old, was, rfl⟩ := Option.map_eq_some_iff.mp found
    refine ⟨old, was, rfl, fun read member => ?_⟩
    by_cases same : read = id
    · exact Or.inr same
    · refine Or.inl ?_
      dsimp only
      split
      next => exact (List.mem_erase_of_ne same).mpr member
      next => exact member

theorem remove_contains {id other : NodeId} (apart : other ≠ id)
    (live : (graph.node? other).isSome) : ((graph.remove id).node? other).isSome := by
  unfold Graph.remove
  split
  next => exact live
  next gone _ =>
    change ((Graph.mapNodes ⟨graph.nodes.filter fun node => node.id ≠ id⟩ _).node? other).isSome
    rw [node?_mapNodes _ (by intro node; rfl), node?_filter, if_neg apart, Option.isSome_map]
    exact live

theorem contains_mapNodes (graph : Graph) {change : Node → Node}
    (kept : ∀ node, (change node).id = node.id) (id : NodeId) :
    (graph.mapNodes change).contains id = graph.contains id := by
  unfold contains
  rw [node?_mapNodes _ kept, Option.isSome_map]

theorem contains_modify (graph : Graph) (id : NodeId) (change : Node → Node)
    (kept : ∀ node, (change node).id = node.id) (other : NodeId) :
    (graph.modify id change).contains other = graph.contains other :=
  contains_mapNodes graph (fun node => by split <;> simp [kept]) other

@[simp] theorem contains_connect (graph : Graph) (read reader id : NodeId) :
    (graph.connect read reader).contains id = graph.contains id := by
  unfold connect
  split
  next => rfl
  next =>
    exact (contains_modify _ reader (·.addDependency read) (fun _ => rfl) id).trans
      (contains_modify graph read (·.addDependent reader) (fun _ => rfl) id)

@[simp] theorem contains_unsubscribe (graph : Graph) (id other : NodeId) :
    (graph.unsubscribe id).contains other = graph.contains other :=
  (contains_mapNodes _ (fun node => by split <;> rfl) other).trans
    (contains_modify graph id Node.dropDependencies (fun _ => rfl) other)

@[simp] theorem contains_resubscribe (graph : Graph) (id other : NodeId) :
    (graph.resubscribe id).contains other = graph.contains other :=
  contains_mapNodes graph (fun node => by split <;> rfl) other

@[simp] theorem contains_noteWrite (graph : Graph) (source effect id : NodeId) :
    (graph.noteWrite source effect).contains id = graph.contains id := by
  unfold noteWrite
  split
  next =>
    exact (contains_modify _ effect (·.addWrite source) (fun _ => rfl) id).trans
      (contains_modify graph source (·.addWriter effect) (fun _ => rfl) id)
  next => rfl

@[simp] theorem contains_propagate (graph : Graph) (sources : List NodeId) (id : NodeId) :
    (graph.propagate sources).2.contains id = graph.contains id :=
  relOption_isSome (markedFrom_propagate graph sources id)

theorem contains_remove (graph : Graph) {id other : NodeId} (apart : other ≠ id) :
    (graph.remove id).contains other = graph.contains other := by
  unfold contains
  cases live : ((graph.remove id).node? other).isSome with
  | true =>
    obtain ⟨node, found⟩ := Option.isSome_iff_exists.mp live
    obtain ⟨_, old, was, _⟩ := remove_keeps found
    rw [was]
    rfl
  | false =>
    cases was : (graph.node? other).isSome with
    | false => rfl
    | true =>
      rw [remove_contains apart was] at live
      cases live

end Graph

end ReactiveTree
