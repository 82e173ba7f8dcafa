import ReactiveTree.Proofs.Graph.Carrying
import ReactiveTree.Proofs.Graph.Waking

/-! # What the graph retains of one node's reads

A node that is being evaluated or run adds to what it reads. Whatever else happens to the graph in
the meantime retains what is on record: as far as nodes last, the node goes on reading what it has
read, nothing more, and stays listed where it was. Marking alone takes it off the changed sources, and
the effects that are met there are to be visited.
-/

namespace ReactiveTree

/-- Taking out a member that is dropped anyway. -/
theorem filter_erase {α : Type} [DecidableEq α] {keep : α → Bool} {member : α}
    (dropped : keep member = false) (members : List α) :
    (members.erase member).filter keep = members.filter keep := by
  induction members with
  | nil => rfl
  | cons head rest ih =>
    by_cases same : head = member
    · subst same
      rw [List.erase_cons_head, List.filter_cons_of_neg (by rw [dropped]; exact Bool.false_ne_true)]
    · rw [List.erase_cons_tail (by simpa using same), List.filter_cons, List.filter_cons, ih]

namespace Graph

/-- What a node reads stays the same as far as it lasts, and where it is listed by a lasting node that
is known, it stays listed. -/
structure Retains (lasting : NodeId → Bool) (known : NodeId → Prop) (id : NodeId)
    (graph after : Graph) : Prop where
  kind : after.kind? id = graph.kind? id
  reads : (after.dependenciesOf id).filter lasting = (graph.dependenciesOf id).filter lasting
  listed : ∀ read, lasting read = true → known read → id ∈ graph.dependentsOf read →
    id ∈ after.dependentsOf read

/-- Every lasting node that a node reads lists it. -/
def Heeds (graph : Graph) (lasting : NodeId → Bool) (id : NodeId) : Prop :=
  ∀ read ∈ graph.dependenciesOf id, lasting read = true → id ∈ graph.dependentsOf read

variable {lasting : NodeId → Bool} {known : NodeId → Prop} {id : NodeId} {graph middle after : Graph}

theorem contains_of_mem_dependentsOf {read : NodeId} (member : id ∈ graph.dependentsOf read) :
    graph.contains read = true := by
  unfold dependentsOf at member
  unfold contains
  cases found : graph.node? read with
  | none =>
    rw [found] at member
    cases member
  | some node => rfl

namespace Retains

theorem refl (graph : Graph) : Retains lasting known id graph graph :=
  ⟨rfl, rfl, fun _ _ _ member => member⟩

theorem trans (start : Retains lasting known id graph middle)
    (finish : Retains lasting known id middle after) : Retains lasting known id graph after :=
  ⟨finish.kind.trans start.kind, finish.reads.trans start.reads, fun read lasts knows member =>
    finish.listed read lasts knows (start.listed read lasts knows member)⟩

/-- A change of nodes in place that drops no dependent of the name. -/
theorem mapNodes (graph : Graph) {change : Node → Node}
    (kept : ∀ node, (change node).id = node.id ∧ (change node).kind = node.kind)
    (reads : ∀ node, node.id = id → (change node).dependencies = node.dependencies)
    (listed : ∀ node, id ∈ node.dependents → id ∈ (change node).dependents) :
    Retains lasting known id graph (graph.mapNodes change) := by
  have found : ∀ other, (graph.mapNodes change).node? other = (graph.node? other).map change :=
    node?_mapNodes graph fun node => (kept node).1
  refine ⟨?_, ?_, fun read _ _ member => ?_⟩
  · unfold kind?
    rw [found, Option.map_map]
    congr 1
    funext node
    exact (kept node).2
  · unfold dependenciesOf
    rw [found]
    cases was : graph.node? id with
    | none => rfl
    | some node => exact congrArg (List.filter lasting) (reads node (node?_id was))
  · unfold dependentsOf at member ⊢
    rw [found]
    cases was : graph.node? read with
    | none =>
      rw [was] at member
      cases member
    | some node =>
      rw [was] at member
      exact listed node member

/-- A change of one node that leaves its edges alone. -/
theorem modify (graph : Graph) (other : NodeId) {change : Node → Node}
    (kept : ∀ node, (change node).id = node.id ∧ (change node).kind = node.kind ∧
      (change node).dependencies = node.dependencies ∧
        (change node).dependents = node.dependents) :
    Retains lasting known id graph (graph.modify other change) := by
  refine .mapNodes graph (fun node => ?_) (fun node _ => ?_) fun node member => ?_
  · split
    next => exact ⟨(kept node).1, (kept node).2.1⟩
    next => exact ⟨rfl, rfl⟩
  · split
    next => exact (kept node).2.2.1
    next => rfl
  · split
    next => rwa [(kept node).2.2.2]
    next => exact member

/-- A read of another node. -/
theorem connect (graph : Graph) (read : NodeId) {reader : NodeId} (apart : reader ≠ id) :
    Retains lasting known id graph (graph.connect read reader) := by
  unfold Graph.connect
  split
  next => exact .refl graph
  next =>
    have listed : Retains lasting known id graph (graph.modify read (·.addDependent reader)) := by
      refine .mapNodes graph (fun node => ?_) (fun node _ => ?_) fun node member => ?_
      · split <;> exact ⟨rfl, rfl⟩
      · split <;> rfl
      · split
        next => exact mem_addLast.mpr (Or.inl member)
        next => exact member
    refine listed.trans (.mapNodes _ (fun node => ?_) (fun node own => ?_) fun node member => ?_)
    · split <;> exact ⟨rfl, rfl⟩
    · rw [if_neg fun same => apart (same.symm.trans own)]
    · split <;> exact member

/-- Another node forgets what it reads. -/
theorem unsubscribe (graph : Graph) {other : NodeId} (apart : other ≠ id) :
    Retains lasting known id graph (graph.unsubscribe other) := by
  have forgotten : Retains lasting known id graph (graph.modify other Node.dropDependencies) := by
    refine .mapNodes graph (fun node => ?_) (fun node own => ?_) fun node member => ?_
    · split <;> exact ⟨rfl, rfl⟩
    · rw [if_neg fun same => apart (same.symm.trans own)]
    · split <;> exact member
  refine forgotten.trans (.mapNodes _ (fun node => ?_) (fun node _ => ?_) fun node member => ?_)
  · split <;> exact ⟨rfl, rfl⟩
  · split <;> rfl
  · split
    next => exact (List.mem_erase_of_ne apart.symm).mpr member
    next => exact member

theorem resubscribe (graph : Graph) (other : NodeId) :
    Retains lasting known id graph (graph.resubscribe other) := by
  refine .mapNodes graph (fun node => ?_) (fun node _ => ?_) fun node member => ?_
  · split <;> exact ⟨rfl, rfl⟩
  · split <;> rfl
  · split
    next => exact mem_addLast.mpr (Or.inl member)
    next => exact member

theorem noteWrite (graph : Graph) (source effect : NodeId) :
    Retains lasting known id graph (graph.noteWrite source effect) := by
  unfold Graph.noteWrite
  split
  next =>
    have written : Retains lasting known id graph (graph.modify source (·.addWriter effect)) :=
      .modify graph source fun _ => ⟨rfl, rfl, rfl, rfl⟩
    exact written.trans (.modify _ effect fun _ => ⟨rfl, rfl, rfl, rfl⟩)
  next => exact .refl graph

/-- A new node, which is not known yet. -/
theorem insert (graph : Graph) {node : Node} (apart : node.id ≠ id) (new : ¬ known node.id) :
    Retains lasting known id graph (graph.insert node) := by
  have own : (graph.insert node).node? id = graph.node? id := by
    rw [node?_insert, if_neg apart.symm]
  refine ⟨by rw [kind?, own, kind?], by rw [dependenciesOf, own, dependenciesOf],
    fun read _ knows member => ?_⟩
  have other : read ≠ node.id := fun same => new (same ▸ knows)
  unfold dependentsOf at member ⊢
  rwa [node?_insert, if_neg other]

/-- Another node leaves, which does not last. -/
theorem remove (graph : Graph) {other : NodeId} (apart : other ≠ id) (leaves : lasting other = false) :
    Retains lasting known id graph (graph.remove other) := by
  cases found : graph.node? other with
  | none =>
    have same : graph.remove other = graph := by
      unfold Graph.remove
      rw [found]
    rw [same]
    exact .refl graph
  | some gone =>
    have left : ∀ name, name ≠ other → ∃ change : Node → Node,
        (graph.remove other).node? name = (graph.node? name).map change ∧
        ∀ node, (change node).kind = node.kind ∧
          (change node).dependencies.filter lasting = node.dependencies.filter lasting ∧
            (id ∈ node.dependents → id ∈ (change node).dependents) := by
      intro name away
      unfold Graph.remove
      rw [found]
      change ∃ change, (Graph.mapNodes ⟨graph.nodes.filter fun node => node.id ≠ other⟩ _).node? name
        = _ ∧ _
      refine ⟨_, by
        rw [node?_mapNodes _ (by intro node; rfl), node?_filter, if_neg away], fun node => ?_⟩
      refine ⟨rfl, ?_, fun member => ?_⟩
      · dsimp only
        split
        next => exact filter_erase leaves _
        next => rfl
      · dsimp only
        split
        next => exact (List.mem_erase_of_ne apart.symm).mpr member
        next => exact member
    refine ⟨?_, ?_, fun read lasts _ member => ?_⟩
    · obtain ⟨change, after, kept⟩ := left id apart.symm
      unfold kind?
      rw [after, Option.map_map]
      congr 1
      funext node
      exact (kept node).1
    · obtain ⟨change, after, kept⟩ := left id apart.symm
      unfold dependenciesOf
      rw [after]
      cases graph.node? id with
      | none => rfl
      | some node => exact (kept node).2.1
    · have away : read ≠ other := by
        rintro rfl
        rw [leaves] at lasts
        cases lasts
      obtain ⟨change, after, kept⟩ := left read away
      unfold dependentsOf at member ⊢
      rw [after]
      cases was : graph.node? read with
      | none =>
        rw [was] at member
        cases member
      | some node =>
        rw [was] at member
        exact (kept node).2.2 member

end Retains

/-- What is retained stays heeded. -/
theorem Heeds.retain (heeds : graph.Heeds lasting id) (retains : Retains lasting known id graph after)
    (knows : ∀ read ∈ graph.dependenciesOf id, lasting read = true → known read) :
    after.Heeds lasting id := by
  intro read member lasts
  have reads : read ∈ (after.dependenciesOf id).filter lasting := List.mem_filter.mpr ⟨member, lasts⟩
  rw [retains.reads] at reads
  have was := (List.mem_filter.mp reads).1
  exact retains.listed read lasts (knows read was lasts) (heeds read was lasts)

/-- A node that reads nothing. -/
theorem dependenciesOf_unsubscribe (graph : Graph) : (graph.unsubscribe id).dependenciesOf id = [] := by
  obtain ⟨change, found, kept⟩ := unsubscribe_cases graph id id
  unfold dependenciesOf
  rw [found]
  cases graph.node? id with
  | none => rfl
  | some node => exact (kept node).2.2.trans (if_pos rfl)

theorem dependenciesOf_connect (graph : Graph) {read : NodeId} (present : graph.contains read = true)
    (live : graph.contains id = true) : (graph.connect read id).dependenciesOf id =
      if read = id then graph.dependenciesOf id else addLast (graph.dependenciesOf id) read := by
  unfold dependenciesOf
  rw [node?_connect]
  by_cases same : read = id
  · rw [if_pos (Or.inl same), if_pos same]
  · obtain ⟨node, found⟩ := Option.isSome_iff_exists.mp live
    have usable : ¬ (read = id ∨ ¬ graph.contains read ∨ ¬ graph.contains id) := by
      rintro (equal | absent | absent)
      · exact same equal
      · exact absent present
      · exact absent live
    rw [if_neg usable, if_pos rfl, if_neg same, found]
    rfl

theorem dependenciesOf_connect_cases (graph : Graph) (read reader id : NodeId) :
    (graph.connect read reader).dependenciesOf id = graph.dependenciesOf id ∨
      (graph.connect read reader).dependenciesOf id = addLast (graph.dependenciesOf id) read := by
  obtain ⟨change, found, kept⟩ := connect_cases graph read reader id
  unfold dependenciesOf
  rw [found]
  cases graph.node? id with
  | none => exact Or.inl rfl
  | some node => exact (kept node).2.2.imp_right And.right

theorem kind?_connect (graph : Graph) (read reader id : NodeId) :
    (graph.connect read reader).kind? id = graph.kind? id := by
  obtain ⟨change, found, kept⟩ := connect_cases graph read reader id
  unfold kind?
  rw [found, Option.map_map]
  congr 1
  funext node
  exact Node.kind_of_outline (kept node).1

/-- A node that the reader subscribes to lists it, and so do those that did before. -/
theorem Heeds.connect (heeds : graph.Heeds lasting id) (read : NodeId) :
    (graph.connect read id).Heeds lasting id := by
  intro other member lasts
  have was : other ∈ graph.dependenciesOf id → id ∈ graph.dependentsOf other :=
    fun member => heeds other member lasts
  unfold dependenciesOf at member was
  unfold dependentsOf at was ⊢
  rw [node?_connect] at member ⊢
  split at member
  next blocked =>
    rw [if_pos blocked]
    exact was member
  next usable =>
    rw [if_neg usable]
    rw [not_or, not_or, Classical.not_not, Classical.not_not] at usable
    obtain ⟨apart, present, live⟩ := usable
    obtain ⟨reader, found⟩ := Option.isSome_iff_exists.mp live
    obtain ⟨source, found'⟩ := Option.isSome_iff_exists.mp present
    rw [if_pos rfl, found] at member
    rw [found] at was
    rcases mem_addLast.mp member with old | rfl
    · split
      next same =>
        subst same
        have listed := was old
        rw [found] at listed ⊢
        exact listed
      next =>
        split
        next same =>
          subst same
          rw [found']
          exact mem_addLast.mpr (Or.inr rfl)
        next => exact was old
    · rw [if_neg apart, if_pos rfl, found']
      exact mem_addLast.mpr (Or.inr rfl)

/-- Subscribing again makes every live node that is read list the reader. -/
theorem heeds_resubscribe (graph : Graph)
    (present : ∀ read ∈ graph.dependenciesOf id, lasting read = true → graph.contains read = true) :
    (graph.resubscribe id).Heeds lasting id := by
  intro read member lasts
  have found : ∀ other, (graph.resubscribe id).node? other = (graph.node? other).map fun node =>
      if node.id ∈ graph.dependenciesOf id then node.addDependent id else node :=
    node?_mapNodes graph fun node => by split <;> rfl
  have was : read ∈ graph.dependenciesOf id := by
    unfold dependenciesOf at member ⊢
    rw [found] at member
    cases own : graph.node? id with
    | none =>
      rw [own] at member
      cases member
    | some node =>
      rw [own] at member
      change read ∈ (if node.id ∈ graph.dependenciesOf id then node.addDependent id
        else node).dependencies at member
      split at member <;> exact member
  obtain ⟨source, live⟩ := Option.isSome_iff_exists.mp (present read was lasts)
  unfold dependentsOf
  rw [found, live]
  change id ∈ (if source.id ∈ graph.dependenciesOf id then source.addDependent id
    else source).dependents
  rw [node?_id live, if_pos was]
  exact mem_addLast.mpr (Or.inr rfl)

theorem dependenciesOf_of_marked
    (marked : Option.Rel MarkedFrom (graph.node? id) (after.node? id)) :
    after.dependenciesOf id = graph.dependenciesOf id := by
  unfold dependenciesOf
  revert marked
  generalize graph.node? id = old
  generalize after.node? id = new
  intro marked
  cases marked with
  | none => rfl
  | some holds => exact holds.2.2.1

/-- Marking what a source reaches takes an effect off the source only when it meets the effect. -/
theorem dependentsOf_invalidate {source read : NodeId} (isEffect : graph.kind? id = some .effect)
    (listed : id ∈ graph.dependentsOf read) :
    id ∈ (graph.invalidate source).2.dependentsOf read ∨ id ∈ (graph.invalidate source).1.direct := by
  by_cases same : read = source
  · exact Or.inr (mem_direct_invalidate (same ▸ listed) isEffect)
  · refine Or.inl ?_
    have marked := markedFrom_invalidate graph source read
    obtain ⟨old, was⟩ := Option.isSome_iff_exists.mp (contains_of_mem_dependentsOf listed)
    rw [was] at marked
    cases left : (graph.invalidate source).2.node? read with
    | none =>
      rw [left] at marked
      cases marked
    | some node =>
      obtain ⟨old', was', _, kept, _⟩ := invalidate_cases left
      cases was.symm.trans was'
      unfold dependentsOf at listed ⊢
      rw [was] at listed
      rw [left]
      change id ∈ node.dependents
      rwa [kept same]

/-- Marking takes an effect off the changed sources only, and then it is to be visited. -/
theorem Heeds.invalidateAll (heeds : graph.Heeds lasting id) (isEffect : graph.kind? id = some .effect)
    (sources : List NodeId) : (graph.invalidateAll sources).2.Heeds lasting id ∨
      id ∈ (graph.invalidateAll sources).1.flatMap Reach.direct := by
  induction sources generalizing graph with
  | nil => exact Or.inl heeds
  | cons source rest ih =>
    unfold Graph.invalidateAll
    split
    next =>
      by_cases met : id ∈ (graph.invalidate source).1.direct
      · exact Or.inr (List.mem_flatMap.mpr ⟨_, List.mem_cons_self, met⟩)
      · have kept : (graph.invalidate source).2.Heeds lasting id := by
          intro read member lasts
          rw [dependenciesOf_of_marked (markedFrom_invalidate graph source id)] at member
          exact (dependentsOf_invalidate isEffect (heeds read member lasts)).resolve_right met
        refine (ih kept ((kind?_invalidate graph source id).trans isEffect)).imp_right fun later => ?_
        obtain ⟨reach, member, direct⟩ := List.mem_flatMap.mp later
        exact List.mem_flatMap.mpr ⟨reach, List.mem_cons_of_mem _ member, direct⟩
    next => exact ih heeds isEffect

end Graph

end ReactiveTree
