import ReactiveTree.Proofs.Graph.Retaining

/-! # Who is in which set

A node has four sets. For every operation, the lemmas here say exactly who is in a set afterwards, and
that no set ever names anything twice; only because of this does taking a name out of a set leave none
of it behind.
-/

namespace ReactiveTree

/-- No set of the node names anything twice. -/
structure Node.Distinct (node : Node) : Prop where
  dependencies : node.dependencies.Nodup
  dependents : node.dependents.Nodup
  writers : node.writers.Nodup
  writes : node.writes.Nodup

/-- What is left of a node when another one is gone. -/
def Node.without (node gone : Node) : Node :=
  { node with
    dependents :=
      if node.id ∈ gone.dependencies then node.dependents.erase gone.id else node.dependents
    dependencies :=
      if node.id ∈ gone.dependents then node.dependencies.erase gone.id else node.dependencies
    writes := if node.id ∈ gone.writers then node.writes.erase gone.id else node.writes
    writers := if node.id ∈ gone.writes then node.writers.erase gone.id else node.writers }

namespace Graph

/-- The sources that an effect has written; none for an unknown one. -/
def writesOf (graph : Graph) (id : NodeId) : List NodeId :=
  ((graph.node? id).map Node.writes).getD []

def Distinct (graph : Graph) : Prop :=
  ∀ node ∈ graph.nodes, node.Distinct

variable {graph after : Graph}

/-- One of the sets of a node; empty for an unknown one. -/
def setOf (graph : Graph) (set : Node → List NodeId) (id : NodeId) : List NodeId :=
  ((graph.node? id).map set).getD []

section

variable {set : Node → List NodeId} {id member : NodeId}

theorem mem_setOf :
    member ∈ graph.setOf set id ↔ ∃ node, graph.node? id = some node ∧ member ∈ set node := by
  unfold setOf
  cases graph.node? id with
  | none => simp
  | some node => simp

theorem contains_of_mem_setOf (listed : member ∈ graph.setOf set id) : graph.contains id := by
  obtain ⟨node, live, -⟩ := mem_setOf.mp listed
  rw [contains, live]
  rfl

/-- What a change leaves alone at every node. -/
theorem map_node?_mapNodes {α : Type} (graph : Graph) (change : Node → Node) {view : Node → α}
    (kept : ∀ node, (change node).id = node.id ∧ view (change node) = view node) (id : NodeId) :
    ((graph.mapNodes change).node? id).map view = (graph.node? id).map view := by
  rw [node?_mapNodes graph fun node => (kept node).1, Option.map_map]
  congr 1
  funext node
  exact (kept node).2

theorem map_node?_modify {α : Type} (graph : Graph) (other : NodeId) (change : Node → Node)
    {view : Node → α} (kept : ∀ node, (change node).id = node.id ∧ view (change node) = view node)
    (id : NodeId) : ((graph.modify other change).node? id).map view = (graph.node? id).map view := by
  refine graph.map_node?_mapNodes _ (fun node => ?_) id
  split
  next => exact kept node
  next => exact ⟨rfl, rfl⟩

theorem setOf_mapNodes_of_same (graph : Graph) (change : Node → Node) (set : Node → List NodeId)
    (kept : ∀ node, (change node).id = node.id ∧ set (change node) = set node) (id : NodeId) :
    (graph.mapNodes change).setOf set id = graph.setOf set id :=
  congrArg (·.getD []) (graph.map_node?_mapNodes change kept id)

theorem setOf_modify_of_same (graph : Graph) (other : NodeId) (change : Node → Node)
    (set : Node → List NodeId)
    (kept : ∀ node, (change node).id = node.id ∧ set (change node) = set node) (id : NodeId) :
    (graph.modify other change).setOf set id = graph.setOf set id :=
  congrArg (·.getD []) (graph.map_node?_modify other change kept id)

/-- A member stays in the sets that a change lets it stay in, and comes into no other. -/
theorem mem_setOf_mapNodes_of_iff (graph : Graph) (change : Node → Node)
    (kept : ∀ node, (change node).id = node.id ∧ (member ∈ set (change node) ↔ member ∈ set node))
    (id : NodeId) : member ∈ (graph.mapNodes change).setOf set id ↔ member ∈ graph.setOf set id := by
  unfold setOf
  rw [node?_mapNodes graph fun node => (kept node).1]
  cases graph.node? id with
  | none => rfl
  | some node => exact (kept node).2

/-- The nodes of some names are changed. -/
theorem setOf_mapNodes_if (graph : Graph) (chosen : NodeId → Prop) [DecidablePred chosen]
    (change : Node → Node) (kept : ∀ node, (change node).id = node.id) (set : Node → List NodeId)
    (id : NodeId) :
    (graph.mapNodes fun node => if chosen node.id then change node else node).setOf set id =
      if chosen id then graph.setOf (fun node => set (change node)) id else graph.setOf set id := by
  unfold setOf
  rw [node?_mapNodes _ fun node => by split <;> simp [kept]]
  cases live : graph.node? id with
  | none => simp
  | some node =>
    have name := node?_id live
    by_cases changed : chosen id <;> simp [name, changed]

/-- The nodes of some names get a new member in one of their sets. -/
theorem mem_setOf_added (graph : Graph) (chosen : NodeId → Prop) [DecidablePred chosen]
    (change : Node → Node) (added : NodeId)
    (adds : ∀ node, (change node).id = node.id ∧ set (change node) = addLast (set node) added) :
    member ∈ (graph.mapNodes fun node => if chosen node.id then change node else node).setOf set id ↔
      member ∈ graph.setOf set id ∨ (chosen id ∧ graph.contains id) ∧ member = added := by
  rw [setOf_mapNodes_if graph chosen change fun node => (adds node).1]
  unfold setOf contains
  cases graph.node? id with
  | none => simp
  | some node => by_cases changed : chosen id <;> simp [changed, (adds node).2]

/-- The nodes of some names lose a member of one of their sets. -/
theorem mem_setOf_erased (graph : Graph) (chosen : NodeId → Prop) [DecidablePred chosen]
    (change : Node → Node) (erased : NodeId)
    (erases : ∀ node, (change node).id = node.id ∧ set (change node) = (set node).erase erased)
    (distinct : (graph.setOf set id).Nodup) :
    member ∈ (graph.mapNodes fun node => if chosen node.id then change node else node).setOf set id ↔
      member ∈ graph.setOf set id ∧ ¬ (chosen id ∧ member = erased) := by
  rw [setOf_mapNodes_if graph chosen change fun node => (erases node).1]
  unfold setOf at distinct ⊢
  cases live : graph.node? id with
  | none => simp
  | some node =>
    rw [live] at distinct
    have erase : member ∈ (set node).erase erased ↔ member ≠ erased ∧ member ∈ set node :=
      distinct.mem_erase_iff
    by_cases changed : chosen id <;> simp [changed, (erases node).2, erase, and_comm]

end

theorem nodup_setOf (distinct : graph.Distinct) {set : Node → List NodeId}
    (without : ∀ node : Node, node.Distinct → (set node).Nodup) (id : NodeId) :
    (graph.setOf set id).Nodup := by
  unfold setOf
  cases live : graph.node? id with
  | none => exact List.nodup_nil
  | some node => exact without node (distinct node (node?_mem live))

namespace Distinct

theorem mapNodes (distinct : graph.Distinct) {change : Node → Node}
    (kept : ∀ node : Node, node.Distinct → (change node).Distinct) :
    (graph.mapNodes change).Distinct := by
  intro node member
  obtain ⟨old, was, rfl⟩ := List.mem_map.mp member
  exact kept old (distinct old was)

theorem modify (distinct : graph.Distinct) (id : NodeId) {change : Node → Node}
    (kept : ∀ node : Node, node.Distinct → (change node).Distinct) :
    (graph.modify id change).Distinct := by
  refine distinct.mapNodes fun node holds => ?_
  split
  next => exact kept node holds
  next => exact holds

theorem insert (distinct : graph.Distinct) (id : NodeId) (kind : NodeKind) :
    (graph.insert (.new id kind)).Distinct := by
  have plain : (Node.new id kind).Distinct :=
    ⟨List.nodup_nil, List.nodup_nil, List.nodup_nil, List.nodup_nil⟩
  unfold Graph.insert
  split
  next => exact distinct.modify _ fun _ _ => plain
  next =>
    intro node member
    rcases List.mem_append.mp member with old | new
    · exact distinct node old
    · rw [List.mem_singleton.mp new]
      exact plain

theorem remove (distinct : graph.Distinct) (id : NodeId) : (graph.remove id).Distinct := by
  unfold Graph.remove
  split
  next => exact distinct
  next gone _ =>
    have erased {members : List NodeId} (holds : members.Nodup) (chosen : Prop)
        [Decidable chosen] : (if chosen then members.erase id else members).Nodup := by
      split
      next => exact holds.erase id
      next => exact holds
    have left : Graph.Distinct ⟨graph.nodes.filter fun node => node.id ≠ id⟩ :=
      fun node member => distinct node (List.mem_filter.mp member).1
    exact left.mapNodes fun node holds => ⟨erased holds.dependencies _, erased holds.dependents _,
      erased holds.writers _, erased holds.writes _⟩

theorem connect (distinct : graph.Distinct) (read reader : NodeId) :
    (graph.connect read reader).Distinct := by
  unfold Graph.connect
  split
  next => exact distinct
  next =>
    have listed : (graph.modify read (·.addDependent reader)).Distinct :=
      distinct.modify read fun node holds =>
        { holds with dependents := nodup_addLast holds.dependents reader }
    exact listed.modify reader fun node holds =>
      { holds with dependencies := nodup_addLast holds.dependencies read }

theorem disconnect (distinct : graph.Distinct) (read reader : NodeId) :
    (graph.disconnect read reader).Distinct := by
  have dropped : (graph.modify read (·.removeDependent reader)).Distinct :=
    distinct.modify read fun node holds =>
      { holds with dependents := holds.dependents.erase reader }
  exact dropped.modify reader fun node holds =>
    { holds with dependencies := holds.dependencies.erase read }

theorem unsubscribe (distinct : graph.Distinct) (id : NodeId) :
    (graph.unsubscribe id).Distinct := by
  have dropped : (graph.modify id Node.dropDependencies).Distinct :=
    distinct.modify id fun node holds => { holds with dependencies := List.nodup_nil }
  refine dropped.mapNodes fun node holds => ?_
  split
  next => exact { holds with dependents := holds.dependents.erase id }
  next => exact holds

theorem resubscribe (distinct : graph.Distinct) (id : NodeId) :
    (graph.resubscribe id).Distinct := by
  refine distinct.mapNodes fun node holds => ?_
  split
  next => exact { holds with dependents := nodup_addLast holds.dependents id }
  next => exact holds

theorem noteWrite (distinct : graph.Distinct) (source effect : NodeId) :
    (graph.noteWrite source effect).Distinct := by
  unfold Graph.noteWrite
  split
  next =>
    have written : (graph.modify source (·.addWriter effect)).Distinct :=
      distinct.modify source fun node holds =>
        { holds with writers := nodup_addLast holds.writers effect }
    exact written.modify effect fun node holds =>
      { holds with writes := nodup_addLast holds.writes source }
  next => exact distinct

theorem invalidate (distinct : graph.Distinct) (source : NodeId) :
    (graph.invalidate source).2.Distinct := by
  have dropped : (graph.modify source Node.dropDependents).Distinct :=
    distinct.modify source fun node holds => { holds with dependents := List.nodup_nil }
  refine dropped.mapNodes fun node holds => ?_
  split
  next => exact { holds with }
  next =>
    split
    next => exact { holds with }
    next => exact holds

theorem propagate (distinct : graph.Distinct) (sources : List NodeId) :
    (graph.propagate sources).2.Distinct := by
  show (graph.invalidateAll sources).2.Distinct
  induction sources generalizing graph with
  | nil => exact distinct
  | cons source rest ih =>
    rw [Graph.invalidateAll]
    split
    next => exact ih (distinct.invalidate source)
    next => exact ih distinct

end Distinct

section

variable {id member : NodeId}

/-- A read of the one by the other is recorded. -/
def Connects (graph : Graph) (read reader : NodeId) : Prop :=
  read ≠ reader ∧ graph.contains read ∧ graph.contains reader

theorem connect_of_connects {read reader : NodeId} (connects : graph.Connects read reader) :
    graph.connect read reader =
      (graph.modify read (·.addDependent reader)).modify reader (·.addDependency read) := by
  obtain ⟨apart, live, live'⟩ := connects
  refine if_neg ?_
  rintro (same | absent | absent)
  · exact apart same
  · exact absent live
  · exact absent live'

theorem connect_of_not_connects {read reader : NodeId} (blocked : ¬ graph.Connects read reader) :
    graph.connect read reader = graph := by
  refine if_pos (Decidable.byContradiction fun usable => blocked ?_)
  simpa [Connects] using usable

theorem mem_dependentsOf_connect (read reader : NodeId) :
    member ∈ (graph.connect read reader).dependentsOf id ↔
      member ∈ graph.dependentsOf id ∨
        graph.Connects read reader ∧ id = read ∧ member = reader := by
  by_cases connects : graph.Connects read reader
  · have same : (graph.connect read reader).dependentsOf id =
        (graph.modify read (·.addDependent reader)).dependentsOf id := by
      rw [connect_of_connects connects]
      exact setOf_modify_of_same _ reader (·.addDependency read) Node.dependents
        (fun _ => ⟨rfl, rfl⟩) id
    have listed : member ∈ (graph.modify read (·.addDependent reader)).dependentsOf id ↔
        member ∈ graph.dependentsOf id ∨ (id = read ∧ graph.contains id) ∧ member = reader :=
      mem_setOf_added graph (· = read) (·.addDependent reader) reader fun _ => ⟨rfl, rfl⟩
    rw [same, listed]
    refine or_congr Iff.rfl ⟨fun ⟨⟨here, _⟩, holds⟩ => ⟨connects, here, holds⟩, ?_⟩
    rintro ⟨_, rfl, holds⟩
    exact ⟨⟨rfl, connects.2.1⟩, holds⟩
  · rw [connect_of_not_connects connects]
    simp [connects]

theorem mem_dependenciesOf_connect (read reader : NodeId) :
    member ∈ (graph.connect read reader).dependenciesOf id ↔
      member ∈ graph.dependenciesOf id ∨
        graph.Connects read reader ∧ id = reader ∧ member = read := by
  by_cases connects : graph.Connects read reader
  · have same : (graph.modify read (·.addDependent reader)).dependenciesOf id =
        graph.dependenciesOf id :=
      graph.setOf_modify_of_same read (·.addDependent reader) Node.dependencies
        (fun _ => ⟨rfl, rfl⟩) id
    have depends : member ∈ (graph.connect read reader).dependenciesOf id ↔
        member ∈ (graph.modify read (·.addDependent reader)).dependenciesOf id ∨
          (id = reader ∧ (graph.modify read (·.addDependent reader)).contains id) ∧
            member = read := by
      rw [connect_of_connects connects]
      exact mem_setOf_added _ (· = reader) (·.addDependency read) read fun _ => ⟨rfl, rfl⟩
    rw [depends, same, contains_modify graph read (·.addDependent reader) fun _ => rfl]
    refine or_congr Iff.rfl ⟨fun ⟨⟨here, _⟩, holds⟩ => ⟨connects, here, holds⟩, ?_⟩
    rintro ⟨_, rfl, holds⟩
    exact ⟨⟨rfl, connects.2.2⟩, holds⟩
  · rw [connect_of_not_connects connects]
    simp [connects]

theorem mem_dependentsOf_disconnect (distinct : graph.Distinct) (read reader : NodeId) :
    member ∈ (graph.disconnect read reader).dependentsOf id ↔
      member ∈ graph.dependentsOf id ∧ ¬ (id = read ∧ member = reader) := by
  have same : (graph.disconnect read reader).dependentsOf id =
      (graph.modify read (·.removeDependent reader)).dependentsOf id :=
    setOf_modify_of_same _ reader (·.removeDependency read) Node.dependents
      (fun _ => ⟨rfl, rfl⟩) id
  rw [same]
  exact mem_setOf_erased graph (· = read) (·.removeDependent reader) reader (fun _ => ⟨rfl, rfl⟩)
    (nodup_setOf distinct (fun _ holds => holds.dependents) id)

theorem mem_dependenciesOf_disconnect (distinct : graph.Distinct) (read reader : NodeId) :
    member ∈ (graph.disconnect read reader).dependenciesOf id ↔
      member ∈ graph.dependenciesOf id ∧ ¬ (id = reader ∧ member = read) := by
  have same : (graph.modify read (·.removeDependent reader)).dependenciesOf id =
      graph.dependenciesOf id :=
    graph.setOf_modify_of_same read (·.removeDependent reader) Node.dependencies
      (fun _ => ⟨rfl, rfl⟩) id
  rw [← same]
  refine mem_setOf_erased _ (· = reader) (·.removeDependency read) read (fun _ => ⟨rfl, rfl⟩) ?_
  show (Graph.dependenciesOf _ id).Nodup
  rw [same]
  exact nodup_setOf distinct (fun _ holds => holds.dependencies) id

theorem dependenciesOf_unsubscribe_eq_ite (graph : Graph) (other id : NodeId) :
    (graph.unsubscribe other).dependenciesOf id =
      if id = other then [] else graph.dependenciesOf id := by
  have same : (graph.unsubscribe other).dependenciesOf id =
      (graph.modify other Node.dropDependencies).dependenciesOf id := by
    refine setOf_mapNodes_of_same _ _ Node.dependencies (fun node => ?_) id
    split <;> exact ⟨rfl, rfl⟩
  have dropped : (graph.modify other Node.dropDependencies).dependenciesOf id =
      if id = other then graph.setOf (fun _ => []) id else graph.dependenciesOf id :=
    graph.setOf_mapNodes_if (· = other) Node.dropDependencies (fun _ => rfl) Node.dependencies id
  have nothing : graph.setOf (fun _ => []) id = [] := by
    unfold setOf
    cases graph.node? id <;> rfl
  rw [same, dropped, nothing]

theorem mem_dependentsOf_unsubscribe (distinct : graph.Distinct) (other : NodeId) :
    member ∈ (graph.unsubscribe other).dependentsOf id ↔
      member ∈ graph.dependentsOf id ∧ ¬ (id ∈ graph.dependenciesOf other ∧ member = other) := by
  have same : (graph.modify other Node.dropDependencies).dependentsOf id = graph.dependentsOf id :=
    graph.setOf_modify_of_same other Node.dropDependencies Node.dependents
      (fun _ => ⟨rfl, rfl⟩) id
  rw [← same]
  refine mem_setOf_erased _ (· ∈ graph.dependenciesOf other) (·.removeDependent other) other
    (fun _ => ⟨rfl, rfl⟩) ?_
  show (Graph.dependentsOf _ id).Nodup
  rw [same]
  exact nodup_setOf distinct (fun _ holds => holds.dependents) id

/-- What another node forgets. -/
theorem mem_dependentsOf_unsubscribe_of_ne (graph : Graph) {other : NodeId} (apart : member ≠ other) :
    member ∈ (graph.unsubscribe other).dependentsOf id ↔ member ∈ graph.dependentsOf id := by
  have same : (graph.modify other Node.dropDependencies).dependentsOf id = graph.dependentsOf id :=
    graph.setOf_modify_of_same other Node.dropDependencies Node.dependents
      (fun _ => ⟨rfl, rfl⟩) id
  rw [← same]
  refine mem_setOf_mapNodes_of_iff _ _ (fun node => ?_) id
  split
  next => exact ⟨rfl, List.mem_erase_of_ne apart⟩
  next => exact ⟨rfl, Iff.rfl⟩

theorem dependenciesOf_resubscribe (graph : Graph) (other id : NodeId) :
    (graph.resubscribe other).dependenciesOf id = graph.dependenciesOf id := by
  refine graph.setOf_mapNodes_of_same _ Node.dependencies (fun node => ?_) id
  split <;> exact ⟨rfl, rfl⟩

theorem mem_dependentsOf_resubscribe (other : NodeId) :
    member ∈ (graph.resubscribe other).dependentsOf id ↔
      member ∈ graph.dependentsOf id ∨
        (id ∈ graph.dependenciesOf other ∧ graph.contains id) ∧ member = other :=
  mem_setOf_added graph (· ∈ graph.dependenciesOf other) (·.addDependent other) other
    fun _ => ⟨rfl, rfl⟩

/-- A changed source gives up its readers; nothing else loses any. -/
theorem dependentsOf_invalidate_eq_ite (graph : Graph) (source id : NodeId) :
    (graph.invalidate source).2.dependentsOf id =
      if id = source then [] else graph.dependentsOf id := by
  have same : (graph.invalidate source).2.dependentsOf id =
      (graph.modify source Node.dropDependents).dependentsOf id := by
    refine setOf_mapNodes_of_same _ _ Node.dependents (fun node => ?_) id
    split
    next => exact ⟨rfl, rfl⟩
    next => split <;> exact ⟨rfl, rfl⟩
  have dropped : (graph.modify source Node.dropDependents).dependentsOf id =
      if id = source then graph.setOf (fun _ => []) id else graph.dependentsOf id :=
    graph.setOf_mapNodes_if (· = source) Node.dropDependents (fun _ => rfl) Node.dependents id
  have nothing : graph.setOf (fun _ => []) id = [] := by
    unfold setOf
    cases graph.node? id <;> rfl
  rw [same, dropped, nothing]

theorem dependenciesOf_propagate (graph : Graph) (sources : List NodeId) (id : NodeId) :
    (graph.propagate sources).2.dependenciesOf id = graph.dependenciesOf id :=
  dependenciesOf_of_marked (markedFrom_propagate graph sources id)

/-- The changed sources give up their readers; nothing else loses any. -/
theorem dependentsOf_propagate (graph : Graph) (sources : List NodeId) (id : NodeId) :
    (graph.propagate sources).2.dependentsOf id =
      if id ∈ sources then [] else graph.dependentsOf id := by
  show (graph.invalidateAll sources).2.dependentsOf id = _
  induction sources generalizing graph with
  | nil => rfl
  | cons source rest ih =>
    rw [Graph.invalidateAll]
    by_cases here : id = source
    · subst here
      rw [if_pos List.mem_cons_self]
      split
      next =>
        refine (ih (graph.invalidate id).2).trans ?_
        rw [dependentsOf_invalidate_eq_ite, if_pos rfl, ite_self]
      next unknown =>
        have nobody : graph.dependentsOf id = [] := by
          refine List.eq_nil_iff_forall_not_mem.mpr fun reader listed => ?_
          exact unknown (contains_of_mem_dependentsOf listed)
        rw [ih graph, nobody, ite_self]
    · simp only [List.mem_cons, here, false_or]
      split
      next =>
        refine (ih (graph.invalidate source).2).trans ?_
        rw [dependentsOf_invalidate_eq_ite, if_neg here]
      next => exact ih graph

theorem dependentsOf_propagate_subset (graph : Graph) (sources : List NodeId) (id : NodeId) :
    (graph.propagate sources).2.dependentsOf id ⊆ graph.dependentsOf id := by
  rw [dependentsOf_propagate]
  split
  next => exact List.nil_subset _
  next => exact List.Subset.refl _

theorem setOf_insert (graph : Graph) (node : Node) {set : Node → List NodeId}
    (plain : set node = []) (id : NodeId) :
    (graph.insert node).setOf set id = if id = node.id then [] else graph.setOf set id := by
  unfold setOf
  rw [node?_insert]
  split <;> simp [plain]

theorem node?_remove {id : NodeId} {gone : Node} (found : graph.node? id = some gone)
    (other : NodeId) :
    (graph.remove id).node? other =
      if other = id then none else (graph.node? other).map (·.without gone) := by
  have name := node?_id found
  subst name
  unfold Graph.remove
  rw [found]
  show (Graph.mapNodes ⟨graph.nodes.filter fun node => node.id ≠ gone.id⟩
    (·.without gone)).node? other = _
  rw [node?_mapNodes _ (by intro node; rfl), node?_filter]
  split <;> rfl

/-- A reader that stays is listed where it was by the nodes that stay. -/
theorem mem_dependentsOf_remove_of_ne (graph : Graph) {other : NodeId} (apart : member ≠ other)
    (apart' : id ≠ other) :
    member ∈ (graph.remove other).dependentsOf id ↔ member ∈ graph.dependentsOf id := by
  cases found : graph.node? other with
  | none =>
    unfold Graph.remove
    rw [found]
  | some gone =>
    unfold dependentsOf
    rw [node?_remove found, if_neg apart']
    cases graph.node? id with
    | none => rfl
    | some node =>
      have erased : member ∈ (node.without gone).dependents ↔ member ∈ node.dependents := by
        unfold Node.without
        rw [← node?_id found] at apart
        dsimp only
        split
        next => exact List.mem_erase_of_ne apart
        next => exact Iff.rfl
      exact erased

/-- A removed node is taken out of the sets of the nodes that its own sets name. -/
theorem mem_setOf_remove (distinct : graph.Distinct) (other : NodeId) {set mirror : Node → List NodeId}
    (without : ∀ node : Node, node.Distinct → (set node).Nodup)
    (erases : ∀ node gone : Node, set (node.without gone) =
      if node.id ∈ mirror gone then (set node).erase gone.id else set node) :
    member ∈ (graph.remove other).setOf set id ↔
      id ≠ other ∧ member ∈ graph.setOf set id ∧
        ¬ (id ∈ graph.setOf mirror other ∧ member = other) := by
  cases found : graph.node? other with
  | none =>
    have same : graph.remove other = graph := by
      unfold Graph.remove
      rw [found]
    have nothing : graph.setOf mirror other = [] := by
      unfold setOf
      rw [found]
      rfl
    rw [same, nothing]
    constructor
    · intro listed
      refine ⟨fun here => ?_, listed, fun holds => List.not_mem_nil holds.1⟩
      rw [here, mem_setOf, found] at listed
      obtain ⟨_, absent, _⟩ := listed
      cases absent
    · exact fun holds => holds.2.1
  | some gone =>
    have name := node?_id found
    have mirrored : graph.setOf mirror other = mirror gone := by
      unfold setOf
      rw [found]
      rfl
    rw [mirrored]
    by_cases here : id = other
    · unfold setOf
      rw [node?_remove found]
      simp [here]
    · unfold setOf
      rw [node?_remove found, if_neg here]
      cases live : graph.node? id with
      | none => simp
      | some node =>
        have erase : member ∈ (set node).erase gone.id ↔ member ≠ gone.id ∧ member ∈ set node :=
          (without node (distinct node (node?_mem live))).mem_erase_iff
        rw [name] at erase
        by_cases listed : id ∈ mirror gone <;>
          simp [erases, node?_id live, listed, here, erase, name, and_comm]

end

section

variable {id member : NodeId}

/-- A write of the one by the other is recorded. -/
def Notes (graph : Graph) (source effect : NodeId) : Prop :=
  graph.kind? effect = some .effect ∧ graph.contains source

theorem mem_writersOf_noteWrite (source effect : NodeId) :
    member ∈ (graph.noteWrite source effect).writersOf id ↔
      member ∈ graph.writersOf id ∨ graph.Notes source effect ∧ id = source ∧ member = effect := by
  by_cases notes : graph.Notes source effect
  · have noted : graph.noteWrite source effect =
        (graph.modify source (·.addWriter effect)).modify effect (·.addWrite source) := if_pos notes
    have same : (graph.noteWrite source effect).writersOf id =
        (graph.modify source (·.addWriter effect)).writersOf id := by
      rw [noted]
      exact setOf_modify_of_same _ effect (·.addWrite source) Node.writers (fun _ => ⟨rfl, rfl⟩) id
    have written : member ∈ (graph.modify source (·.addWriter effect)).writersOf id ↔
        member ∈ graph.writersOf id ∨ (id = source ∧ graph.contains id) ∧ member = effect :=
      mem_setOf_added graph (· = source) (·.addWriter effect) effect fun _ => ⟨rfl, rfl⟩
    rw [same, written]
    refine or_congr Iff.rfl ⟨fun ⟨⟨here, _⟩, holds⟩ => ⟨notes, here, holds⟩, ?_⟩
    rintro ⟨_, rfl, holds⟩
    exact ⟨⟨rfl, notes.2⟩, holds⟩
  · have same : graph.noteWrite source effect = graph := if_neg notes
    rw [same]
    simp [notes]

theorem mem_writesOf_noteWrite (source effect : NodeId) :
    member ∈ (graph.noteWrite source effect).writesOf id ↔
      member ∈ graph.writesOf id ∨ graph.Notes source effect ∧ id = effect ∧ member = source := by
  by_cases notes : graph.Notes source effect
  · have noted : graph.noteWrite source effect =
        (graph.modify source (·.addWriter effect)).modify effect (·.addWrite source) := if_pos notes
    have same : (graph.modify source (·.addWriter effect)).writesOf id = graph.writesOf id :=
      graph.setOf_modify_of_same source (·.addWriter effect) Node.writes (fun _ => ⟨rfl, rfl⟩) id
    have writes : member ∈ (graph.noteWrite source effect).writesOf id ↔
        member ∈ (graph.modify source (·.addWriter effect)).writesOf id ∨
          (id = effect ∧ (graph.modify source (·.addWriter effect)).contains id) ∧
            member = source := by
      rw [noted]
      exact mem_setOf_added _ (· = effect) (·.addWrite source) source fun _ => ⟨rfl, rfl⟩
    rw [writes, same, contains_modify graph source (·.addWriter effect) fun _ => rfl]
    refine or_congr Iff.rfl ⟨fun ⟨⟨here, _⟩, holds⟩ => ⟨notes, here, holds⟩, ?_⟩
    rintro ⟨_, rfl, holds⟩
    exact ⟨⟨rfl, contains_of_kind? notes.1⟩, holds⟩
  · have same : graph.noteWrite source effect = graph := if_neg notes
    rw [same]
    simp [notes]

end

theorem dependentsOf_noteWrite (graph : Graph) (source effect id : NodeId) :
    (graph.noteWrite source effect).dependentsOf id = graph.dependentsOf id := by
  unfold Graph.noteWrite
  split
  next =>
    exact (setOf_modify_of_same _ effect (·.addWrite source) Node.dependents
      (fun _ => ⟨rfl, rfl⟩) id).trans (graph.setOf_modify_of_same source (·.addWriter effect)
        Node.dependents (fun _ => ⟨rfl, rfl⟩) id)
  next => rfl

theorem kind?_noteWrite (graph : Graph) (source effect id : NodeId) :
    (graph.noteWrite source effect).kind? id = graph.kind? id := by
  unfold Graph.noteWrite
  split
  next =>
    exact (map_node?_modify _ effect (·.addWrite source) (fun _ => ⟨rfl, rfl⟩) id).trans
      (graph.map_node?_modify source (·.addWriter effect) (fun _ => ⟨rfl, rfl⟩) id)
  next => rfl

/-- The sets of a node that record writes, with its kind. -/
def writeSets (graph : Graph) (id : NodeId) : Option (NodeKind × List NodeId × List NodeId) :=
  (graph.node? id).map fun node => (node.kind, node.writers, node.writes)

theorem writersOf_of_writeSets {id : NodeId} (same : after.writeSets id = graph.writeSets id) :
    after.writersOf id = graph.writersOf id := by
  have eq := congrArg (fun sets => (sets.map fun sets => sets.2.1).getD []) same
  unfold writeSets at eq
  rwa [Option.map_map, Option.map_map] at eq

theorem writesOf_of_writeSets {id : NodeId} (same : after.writeSets id = graph.writeSets id) :
    after.writesOf id = graph.writesOf id := by
  have eq := congrArg (fun sets => (sets.map fun sets => sets.2.2).getD []) same
  unfold writeSets at eq
  rwa [Option.map_map, Option.map_map] at eq

theorem kind?_of_writeSets {id : NodeId} (same : after.writeSets id = graph.writeSets id) :
    after.kind? id = graph.kind? id := by
  have eq := congrArg (Option.map Prod.fst) same
  unfold writeSets at eq
  rwa [Option.map_map, Option.map_map] at eq

/-- A change of nodes in place that keeps their records of writes. -/
theorem writeSets_mapNodes (graph : Graph) (change : Node → Node)
    (kept : ∀ node, (change node).id = node.id ∧ (change node).kind = node.kind ∧
      (change node).writers = node.writers ∧ (change node).writes = node.writes) (id : NodeId) :
    (graph.mapNodes change).writeSets id = graph.writeSets id := by
  refine graph.map_node?_mapNodes change (fun node => ?_) id
  obtain ⟨name, kind, writers, writes⟩ := kept node
  exact ⟨name, by rw [kind, writers, writes]⟩

theorem writeSets_modify (graph : Graph) (other : NodeId) (change : Node → Node)
    (kept : ∀ node, (change node).id = node.id ∧ (change node).kind = node.kind ∧
      (change node).writers = node.writers ∧ (change node).writes = node.writes) (id : NodeId) :
    (graph.modify other change).writeSets id = graph.writeSets id := by
  refine graph.writeSets_mapNodes _ (fun node => ?_) id
  split
  next => exact kept node
  next => exact ⟨rfl, rfl, rfl, rfl⟩

theorem writeSets_connect (graph : Graph) (read reader id : NodeId) :
    (graph.connect read reader).writeSets id = graph.writeSets id := by
  unfold Graph.connect
  split
  next => rfl
  next =>
    exact (writeSets_modify _ reader (·.addDependency read) (fun _ => ⟨rfl, rfl, rfl, rfl⟩) id).trans
      (graph.writeSets_modify read (·.addDependent reader) (fun _ => ⟨rfl, rfl, rfl, rfl⟩) id)

theorem writeSets_disconnect (graph : Graph) (read reader id : NodeId) :
    (graph.disconnect read reader).writeSets id = graph.writeSets id :=
  (writeSets_modify _ reader (·.removeDependency read) (fun _ => ⟨rfl, rfl, rfl, rfl⟩) id).trans
    (graph.writeSets_modify read (·.removeDependent reader) (fun _ => ⟨rfl, rfl, rfl, rfl⟩) id)

theorem writeSets_unsubscribe (graph : Graph) (other id : NodeId) :
    (graph.unsubscribe other).writeSets id = graph.writeSets id := by
  refine (writeSets_mapNodes _ _ (fun node => ?_) id).trans
    (graph.writeSets_modify other Node.dropDependencies (fun _ => ⟨rfl, rfl, rfl, rfl⟩) id)
  split <;> exact ⟨rfl, rfl, rfl, rfl⟩

theorem writeSets_resubscribe (graph : Graph) (other id : NodeId) :
    (graph.resubscribe other).writeSets id = graph.writeSets id := by
  refine graph.writeSets_mapNodes _ (fun node => ?_) id
  split <;> exact ⟨rfl, rfl, rfl, rfl⟩

theorem writeSets_propagate (graph : Graph) (sources : List NodeId) (id : NodeId) :
    (graph.propagate sources).2.writeSets id = graph.writeSets id := by
  have marked := markedFrom_propagate graph sources id
  unfold writeSets
  revert marked
  generalize graph.node? id = old
  generalize (graph.propagate sources).2.node? id = new
  intro marked
  cases marked with
  | none => rfl
  | some holds =>
    have outlines := congrArg (fun node : Node => (node.kind, node.writers, node.writes)) holds.1
    exact congrArg some outlines

end Graph

end ReactiveTree
