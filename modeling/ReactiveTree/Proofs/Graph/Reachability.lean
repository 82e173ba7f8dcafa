import Mathlib
import ReactiveTree.Proofs.Graph.Membership
import ReactiveTree.Proofs.Graph.Scheduling

/-! # A change marks what can be reached

The search downstream of a changed source finds the derived nodes that can be reached from it and no
others. So one invalidation meets exactly the effects that can be reached, dirties the direct derived
readers, doubts the derived nodes further down, and takes the dependents off the source. A second
source is then invalidated in a graph in which only the first one has lost its readers; as a source
is never passed through, it reaches what it reached before. By induction on the listed sources a
whole marking is reachability in the graph as it was.
-/

namespace ReactiveTree

theorem Reach.meets_iff {reach : Reach} {effect : NodeId} :
    reach.meets effect = true ↔ effect ∈ reach.direct ++ reach.indirect := by
  rw [Reach.meets, decide_eq_true_eq, List.mem_append]

namespace Graph

variable {graph after : Graph} {source id : NodeId} {sources : List NodeId}

/-- What holds of the direct readers, and of the readers of derived nodes of which it holds, holds of
everything that can be reached. -/
theorem Reaches.closed {read reader : NodeId} (path : graph.Reaches read reader)
    (holds : NodeId → Prop) (direct : ∀ other ∈ graph.dependentsOf read, holds other)
    (closed : ∀ middle, holds middle → graph.kind? middle = some .derived →
      ∀ other ∈ graph.dependentsOf middle, holds other) : holds reader := by
  induction path with
  | direct listed => exact direct _ listed
  | through listed derived _ ih => exact ih (closed _ (direct _ listed) derived)

/-- Reachability depends on the kinds of nodes, and on who reads the start and the derived nodes. -/
theorem Reaches.congr_derived {read reader : NodeId} (path : graph.Reaches read reader)
    (kinds : ∀ id, after.kind? id = graph.kind? id)
    (start : after.dependentsOf read = graph.dependentsOf read)
    (inner : ∀ id, graph.kind? id = some .derived →
      after.dependentsOf id = graph.dependentsOf id) : after.Reaches read reader := by
  induction path with
  | direct listed => exact .direct (start ▸ listed)
  | through listed derived _ ih =>
    exact .through (start ▸ listed) ((kinds _).trans derived) (ih (inner _ derived))

/-- From a node without readers nothing can be reached. -/
theorem not_reaches_of_dependentsOf_eq_nil {read reader : NodeId}
    (nobody : graph.dependentsOf read = []) : ¬ graph.Reaches read reader := by
  intro path
  cases path with
  | direct listed =>
    rw [nobody] at listed
    cases listed
  | through listed =>
    rw [nobody] at listed
    cases listed

theorem dependentsOf_of_not_contains (unknown : ¬ graph.contains id) :
    graph.dependentsOf id = [] := by
  refine List.eq_nil_iff_forall_not_mem.mpr fun reader listed => ?_
  exact unknown (contains_of_mem_dependentsOf listed)

theorem contains_of_mem_nodes {node : Node} (live : node ∈ graph.nodes) :
    graph.contains node.id :=
  List.find?_isSome.mpr ⟨node, live, decide_eq_true rfl⟩

/-- The search stays among what is closed under derived dependents. -/
theorem downstream_subset (holds : NodeId → Prop) (pending seen : List NodeId)
    (start : ∀ id ∈ pending, holds id) (old : ∀ id ∈ seen, holds id)
    (closed : ∀ id, holds id → ∀ other ∈ graph.ofKind .derived (graph.dependentsOf id),
      holds other) : ∀ id ∈ graph.downstream pending seen, holds id := by
  induction pending, seen using Graph.downstream.induct graph with
  | case1 seen =>
    rw [downstream]
    exact old
  | case2 seen id rest known ih =>
    rw [downstream, if_pos known]
    exact ih (fun other later => start other (List.mem_cons_of_mem _ later)) old
  | case3 seen id rest fresh absent ih =>
    have next := ih (fun other later => start other (List.mem_cons_of_mem _ later)) old
    rw [downstream, if_neg fresh]
    split
    next => exact next
    next node live =>
      rw [absent] at live
      cases live
  | case4 seen id rest fresh node live ih =>
    have here : holds id := start id List.mem_cons_self
    rw [downstream, if_neg fresh]
    split
    next absent =>
      rw [live] at absent
      cases absent
    next node' live' =>
      rw [live] at live'
      cases live'
      refine ih (fun other member => ?_) (fun other member => ?_)
      · rcases List.mem_append.mp member with listed | later
        · refine closed id here other ?_
          rwa [dependentsOf, live]
        · exact start other (List.mem_cons_of_mem _ later)
      · rcases List.mem_cons.mp member with rfl | before
        · exact here
        · exact old other before

section

variable (plain : graph.kind? source ≠ some .derived)

include plain

/-- A source is not passed through: taking its dependents leaves those of every derived node. -/
theorem dependentsOf_dropDependents_of_derived (derived : graph.kind? id = some .derived) :
    (graph.modify source Node.dropDependents).dependentsOf id = graph.dependentsOf id :=
  dependentsOf_dropDependents graph fun same => plain (same ▸ derived)

/-- Downstream of a source lie the derived nodes that can be reached from it. -/
theorem mem_downstream_iff (id : NodeId) :
    id ∈ (graph.modify source Node.dropDependents).downstream
        ((graph.modify source Node.dropDependents).ofKind .derived (graph.dependentsOf source)) [] ↔
      graph.kind? id = some .derived ∧ graph.Reaches source id := by
  have kinds := kind?_dropDependents graph source
  constructor
  · intro found
    refine downstream_subset (fun id => graph.kind? id = some .derived ∧ graph.Reaches source id)
      _ [] (fun id pending => ?_)
      (fun id none => absurd none List.not_mem_nil) (fun id holds other listed => ?_) id found
    · obtain ⟨listed, derived⟩ := mem_ofKind.mp pending
      exact ⟨(kinds id).symm.trans derived, .direct listed⟩
    · obtain ⟨listed, derived⟩ := mem_ofKind.mp listed
      rw [dependentsOf_dropDependents_of_derived plain holds.1] at listed
      exact ⟨(kinds other).symm.trans derived, holds.2.snoc holds.1 listed⟩
  · rintro ⟨derived, path⟩
    obtain ⟨-, found, closed⟩ := (graph.modify source Node.dropDependents).downstream_closed
      ((graph.modify source Node.dropDependents).ofKind .derived (graph.dependentsOf source)) []
    refine path.closed (fun id => graph.kind? id = some .derived → id ∈ _)
      (fun other listed derived => ?_) (fun middle holds isDerived other listed derived => ?_) derived
    · have known := (kinds other).trans derived
      exact found other (mem_ofKind.mpr ⟨listed, known⟩) (contains_of_kind? known)
    · refine closed middle (holds isDerived) List.not_mem_nil other (mem_ofKind.mpr ⟨?_, ?_⟩)
      · rwa [dependentsOf_dropDependents_of_derived plain isDerived]
      · exact (kinds other).trans derived

/-- One invalidation meets the effects that can be reached from the source. -/
theorem meets_invalidate_iff {effect : NodeId} :
    (graph.invalidate source).1.meets effect = true ↔
      graph.kind? effect = some .effect ∧ graph.Reaches source effect := by
  have kinds := kind?_dropDependents graph source effect
  rw [Reach.meets_iff]
  constructor
  · intro met
    rcases List.mem_append.mp met with direct | indirect
    · obtain ⟨listed, isEffect⟩ := mem_ofKind.mp direct
      exact ⟨kinds.symm.trans isEffect, .direct listed⟩
    · obtain ⟨listed, isEffect⟩ := mem_ofKind.mp indirect
      obtain ⟨middle, reached, listed⟩ := List.mem_flatMap.mp listed
      obtain ⟨derived, path⟩ := (mem_downstream_iff plain middle).mp reached
      rw [dependentsOf_dropDependents_of_derived plain derived] at listed
      exact ⟨kinds.symm.trans isEffect, path.snoc derived listed⟩
  · rintro ⟨isEffect, path⟩
    exact meets_of_reaches plain isEffect path

/-- In what an invalidation leaves, every other source reaches what it reached before. -/
theorem reaches_invalidate_iff {other reader : NodeId} :
    (graph.invalidate source).2.Reaches other reader ↔
      other ≠ source ∧ graph.Reaches other reader := by
  have inner : ∀ id, graph.kind? id = some .derived →
      (graph.invalidate source).2.dependentsOf id = graph.dependentsOf id := by
    intro id derived
    rw [dependentsOf_invalidate_eq_ite, if_neg]
    exact fun same => plain (same ▸ derived)
  by_cases same : other = source
  · subst same
    have nobody : (graph.invalidate other).2.dependentsOf other = [] := by
      rw [dependentsOf_invalidate_eq_ite, if_pos rfl]
    simp [not_reaches_of_dependentsOf_eq_nil nobody]
  · have start : (graph.invalidate source).2.dependentsOf other = graph.dependentsOf other := by
      rw [dependentsOf_invalidate_eq_ite, if_neg same]
    constructor
    · intro path
      refine ⟨same, path.congr_derived (fun id => (kind?_invalidate graph source id).symm) start.symm
        fun id derived => (inner id ?_).symm⟩
      rwa [kind?_invalidate] at derived
    · rintro ⟨-, path⟩
      exact path.congr_derived (kind?_invalidate graph source) start inner

end

theorem mem_direct_invalidate_iff {effect : NodeId} :
    effect ∈ (graph.invalidate source).1.direct ↔
      effect ∈ graph.dependentsOf source ∧ graph.kind? effect = some .effect := by
  rw [← kind?_dropDependents graph source effect]
  exact mem_ofKind

/-- A derived node that reads one of the changed sources. -/
def Dirties (graph : Graph) (sources : List NodeId) (id : NodeId) : Prop :=
  graph.kind? id = some .derived ∧ ∃ source ∈ sources, id ∈ graph.dependentsOf source

/-- A derived node that can be reached from one of the changed sources. -/
def Doubts (graph : Graph) (sources : List NodeId) (id : NodeId) : Prop :=
  graph.kind? id = some .derived ∧ ∃ source ∈ sources, graph.Reaches source id

open Classical in
/-- A node as the changed sources leave it: dirty when it is a derived reader of one of them, in
doubt when it is derived and lies further down, and without dependents when it is listed. -/
noncomputable def marked (graph : Graph) (sources : List NodeId) (node : Node) : Node :=
  { node with
    freshness :=
      if graph.Dirties sources node.id then .dirty
      else if graph.Doubts sources node.id then node.freshness.doubt
      else node.freshness
    dependents := if node.id ∈ sources then [] else node.dependents }

theorem mapNodes_congr {first second : Node → Node}
    (same : ∀ node ∈ graph.nodes, first node = second node) :
    graph.mapNodes first = graph.mapNodes second :=
  congrArg Graph.mk (List.map_congr_left same)

theorem mapNodes_mapNodes (first second : Node → Node) :
    (graph.mapNodes first).mapNodes second = graph.mapNodes fun node => second (first node) :=
  congrArg Graph.mk List.map_map

theorem dirties_singleton :
    graph.Dirties [source] id ↔ graph.kind? id = some .derived ∧ id ∈ graph.dependentsOf source := by
  simp [Dirties]

theorem doubts_singleton :
    graph.Doubts [source] id ↔ graph.kind? id = some .derived ∧ graph.Reaches source id := by
  simp [Doubts]

theorem marked_nil (node : Node) : graph.marked [] node = node := by
  simp [marked, Dirties, Doubts]

/-- A node that is not known marks nothing. -/
theorem marked_cons_of_not_contains (unknown : ¬ graph.contains source) {node : Node}
    (live : node ∈ graph.nodes) :
    graph.marked (source :: sources) node = graph.marked sources node := by
  classical
  have nobody := dependentsOf_of_not_contains unknown
  have apart : node.id ≠ source := fun same => unknown (same ▸ contains_of_mem_nodes live)
  have dirties : graph.Dirties (source :: sources) node.id ↔ graph.Dirties sources node.id := by
    simp [Dirties, nobody]
  have doubts : graph.Doubts (source :: sources) node.id ↔ graph.Doubts sources node.id := by
    simp [Doubts, not_reaches_of_dependentsOf_eq_nil nobody]
  simp [marked, dirties, doubts, apart]

/-- One invalidation leaves the marks of its source. -/
theorem invalidate_eq_mapNodes (plain : graph.kind? source ≠ some .derived) :
    (graph.invalidate source).2 = graph.mapNodes (graph.marked [source]) := by
  classical
  have kinds := kind?_dropDependents graph source
  unfold invalidate
  dsimp only
  refine (mapNodes_mapNodes _ _).trans (mapNodes_congr fun node _ => ?_)
  have name : (if node.id = source then node.dropDependents else node).id = node.id := by
    split <;> rfl
  have dirties : node.id ∈ (graph.modify source Node.dropDependents).ofKind .derived
      (graph.dependentsOf source) ↔ graph.Dirties [source] node.id := by
    rw [mem_ofKind, kinds, dirties_singleton, and_comm]
  have doubts := (mem_downstream_iff plain node.id).trans doubts_singleton.symm
  rw [name]
  simp only [dirties, doubts, marked, List.mem_singleton]
  by_cases dirty : graph.Dirties [source] node.id <;>
    by_cases doubtful : graph.Doubts [source] node.id <;>
      simp only [dirty, doubtful, if_true, if_false] <;> split <;> rfl

/-- The marks of further sources, added to those of a first one. -/
theorem marked_cons (plain : graph.kind? source ≠ some .derived) (node : Node) :
    (graph.invalidate source).2.marked sources (graph.marked [source] node) =
      graph.marked (source :: sources) node := by
  classical
  have dirties : graph.Dirties (source :: sources) node.id ↔
      graph.Dirties [source] node.id ∨ (graph.invalidate source).2.Dirties sources node.id := by
    simp only [Dirties, kind?_invalidate, dependentsOf_invalidate_eq_ite, List.mem_cons]
    grind
  have doubts : graph.Doubts (source :: sources) node.id ↔
      graph.Doubts [source] node.id ∨ (graph.invalidate source).2.Doubts sources node.id := by
    simp only [Doubts, kind?_invalidate, reaches_invalidate_iff plain, List.mem_cons]
    grind
  have dependents : (if node.id ∈ sources then [] else
      if node.id = source then [] else node.dependents) =
        if node.id ∈ source :: sources then [] else node.dependents := by
    simp only [List.mem_cons]
    grind
  unfold marked
  simp only [dirties, doubts, ← dependents, List.mem_singleton]
  by_cases dirty : graph.Dirties [source] node.id <;>
    by_cases doubtful : graph.Doubts [source] node.id <;>
      simp only [dirty, doubtful, true_or, false_or, if_true, if_false] <;>
        split <;> cases node.freshness <;> simp [Freshness.doubt]

theorem invalidateAll_eq_mapNodes (plain : ∀ source ∈ sources, graph.kind? source ≠ some .derived) :
    (graph.invalidateAll sources).2 = graph.mapNodes (graph.marked sources) := by
  induction sources generalizing graph with
  | nil =>
    rw [invalidateAll, mapNodes, List.map_congr_left fun node _ => graph.marked_nil node,
      List.map_id']
  | cons source rest ih =>
    obtain ⟨here, later⟩ := List.forall_mem_cons.mp plain
    rw [invalidateAll]
    split
    next =>
      refine (ih fun other listed => ?_).trans ?_
      · rw [kind?_invalidate]
        exact later other listed
      · rw [invalidate_eq_mapNodes here, mapNodes_mapNodes, ← invalidate_eq_mapNodes here]
        exact mapNodes_congr fun node _ => marked_cons here node
    next unknown =>
      rw [ih later]
      exact mapNodes_congr fun node live => (marked_cons_of_not_contains unknown live).symm

section

variable {effect : NodeId} (plain : ∀ source ∈ sources, graph.kind? source ≠ some .derived)
  (isEffect : graph.kind? effect = some .effect)

include plain isEffect

open Classical in
/-- The sources whose invalidation meets an effect are those that reach it, each at its first
turn: when it comes again, it has lost its dependents. -/
theorem sources_meeting_eq :
    ((graph.invalidateAll sources).1.filter fun reach => reach.meets effect).map Reach.source =
      (sources.filter fun source => graph.Reaches source effect).eraseDups := by
  induction sources generalizing graph with
  | nil => rfl
  | cons source rest ih =>
    obtain ⟨here, later⟩ := List.forall_mem_cons.mp plain
    rw [invalidateAll]
    split
    next =>
      have rest_eq := @ih (graph.invalidate source).2
        (fun other listed => by rw [kind?_invalidate]; exact later other listed)
        ((kind?_invalidate graph source effect).trans isEffect)
      have meets : (graph.invalidate source).1.meets effect = true ↔ graph.Reaches source effect :=
        (meets_invalidate_iff here).trans (and_iff_right isEffect)
      simp only [reaches_invalidate_iff here] at rest_eq
      by_cases path : graph.Reaches source effect
      · simp only [List.filter_cons, meets.mpr path, path, decide_true, if_true, List.map_cons,
          List.eraseDups_cons, rest_eq, List.filter_filter]
        congr 2
        exact List.filter_congr fun other _ => by
          rw [Bool.decide_and, decide_not, Bool.beq_eq_decide_eq]
      · have missed : (graph.invalidate source).1.meets effect = false := by
          simpa [path] using meets
        simp only [List.filter_cons, missed, path, decide_false, Bool.false_eq_true, if_false,
          rest_eq]
        congr 1
        exact List.filter_congr fun other _ => decide_eq_decide.mpr
          (and_iff_right_of_imp fun path' same => path (same ▸ path'))
    next unknown =>
      have nobody := dependentsOf_of_not_contains unknown
      rw [ih later isEffect, List.filter_cons, if_neg]
      simpa using not_reaches_of_dependentsOf_eq_nil nobody

/-- An effect is met directly by the sources that it reads. -/
theorem any_direct_iff :
    (∃ reach ∈ (graph.invalidateAll sources).1, effect ∈ reach.direct) ↔
      ∃ source ∈ sources, effect ∈ graph.dependentsOf source := by
  induction sources generalizing graph with
  | nil => simp [invalidateAll]
  | cons source rest ih =>
    obtain ⟨here, later⟩ := List.forall_mem_cons.mp plain
    rw [invalidateAll]
    split
    next =>
      have rest_iff := @ih (graph.invalidate source).2
        (fun other listed => by rw [kind?_invalidate]; exact later other listed)
        ((kind?_invalidate graph source effect).trans isEffect)
      simp only [List.mem_cons, exists_eq_or_imp, rest_iff, mem_direct_invalidate_iff, isEffect,
        and_true, dependentsOf_invalidate_eq_ite]
      grind
    next unknown =>
      simp [ih later isEffect, dependentsOf_of_not_contains unknown]

/-- An effect is met when some source reaches it. -/
theorem exists_meets_iff :
    (∃ reach ∈ (graph.invalidateAll sources).1, reach.meets effect = true) ↔
      ∃ source ∈ sources, graph.Reaches source effect := by
  classical
  have same (source : NodeId) := congrArg (source ∈ ·) (sources_meeting_eq plain isEffect)
  simp only [List.mem_map, List.mem_filter, List.mem_eraseDups, eq_iff_iff, decide_eq_true_eq] at same
  constructor
  · rintro ⟨reach, listed, meets⟩
    exact ⟨reach.source, (same _).mp ⟨reach, ⟨listed, meets⟩, rfl⟩⟩
  · rintro ⟨source, path⟩
    obtain ⟨reach, listed, -⟩ := (same source).mpr path
    exact ⟨reach, listed⟩

end

/-- Names are sorted by their numbers. -/
theorem pairwise_sortIds {ids : List NodeId} (distinct : ids.Nodup) :
    ((sortIds ids).map NodeId.index).Pairwise (· < ·) := by
  have sorted : (sortIds ids).Pairwise fun left right => left.index ≤ right.index := by
    have ordered : (sortIds ids).Pairwise fun left right => decide (left.index ≤ right.index) :=
      List.pairwise_mergeSort (by grind) (by grind) ids
    exact ordered.imp of_decide_eq_true
  have once : (sortIds ids).Nodup := (List.mergeSort_perm ids _).nodup_iff.mpr distinct
  rw [List.pairwise_map]
  refine (sorted.and once).imp fun {left right} both => ?_
  exact Nat.lt_of_le_of_ne both.1 fun same => both.2 (NodeId.ext same)

open Classical in
/-- Marking changed sources is reachability. It wakes, oldest first, the effects that can be reached
from a listed source along dependents through derived nodes; for certain those that read a listed
source; on account of exactly the sources that reach them, as listed. Derived readers of a listed
source become dirty, derived nodes further down doubtful unless they are dirty, the listed sources
lose their dependents, and all else is as it was. -/
theorem propagate_eq_reachability (graph : Graph) (sources : List NodeId)
    (plain : ∀ source ∈ sources, graph.contains source → graph.kind? source = some .source) :
    ((graph.propagate sources).1.map fun wakeup => wakeup.effect.index).Pairwise (· < ·) ∧
      (∀ effect, effect ∈ (graph.propagate sources).1.map Wakeup.effect ↔
        graph.kind? effect = some .effect ∧ ∃ source ∈ sources, graph.Reaches source effect) ∧
      (∀ wakeup ∈ (graph.propagate sources).1,
        (wakeup.certain = true ↔ ∃ source ∈ sources, wakeup.effect ∈ graph.dependentsOf source) ∧
        wakeup.causes =
          (sources.filter fun source => graph.Reaches source wakeup.effect).eraseDups) ∧
      (graph.propagate sources).2 = graph.mapNodes (graph.marked sources) := by
  have below : ∀ source ∈ sources, graph.kind? source ≠ some .derived := by
    intro source listed derived
    have known := plain source listed (contains_of_kind? derived)
    rw [derived] at known
    cases known
  have once (ids : List NodeId) : ids.eraseDups.Nodup :=
    addAll_nil_eq_eraseDups ids ▸ nodup_addAll List.nodup_nil ids
  have effects : ∀ effect, effect ∈ (graph.propagate sources).1.map Wakeup.effect ↔
      ∃ reach ∈ (graph.invalidateAll sources).1, reach.meets effect = true := by
    intro effect
    simp only [Reach.meets_iff]
    unfold propagate Wakeup.ofReaches
    dsimp only
    rw [List.map_map, show Wakeup.effect ∘ _ = id from rfl, List.map_id, sortIds,
      (List.mergeSort_perm _ _).mem_iff, mem_addAll, or_iff_right List.not_mem_nil, List.mem_flatMap]
  refine ⟨?_, fun effect => ?_, fun wakeup woken => ?_, invalidateAll_eq_mapNodes below⟩
  · unfold propagate Wakeup.ofReaches
    dsimp only
    rw [List.map_map]
    exact pairwise_sortIds (nodup_addAll List.nodup_nil _)
  · rw [effects]
    constructor
    · rintro ⟨reach, listed, meets⟩
      have isEffect := kind?_of_met listed (Reach.meets_iff.mp meets)
      exact ⟨isEffect, (exists_meets_iff below isEffect).mp ⟨reach, listed, meets⟩⟩
    · rintro ⟨isEffect, path⟩
      exact (exists_meets_iff below isEffect).mpr path
  · have isEffect := kind?_of_mem_propagate woken
    obtain ⟨effect, -, rfl⟩ := List.mem_map.mp woken
    constructor
    · rw [← any_direct_iff below isEffect]
      simp
    · have same := sources_meeting_eq below isEffect
      rw [← same]
      refine addAll_of_nodup ?_
      rw [List.nil_append, same]
      exact once _

/-- Two sources over a cycle of two derived nodes, with a third one behind it. Effects read a source
itself, the third derived node, or a source that does not change; one reader is not known. -/
def braid : Graph where
  nodes :=
    [{ Node.new ⟨0⟩ .source with dependents := [⟨2⟩, ⟨4⟩, ⟨30⟩] },
      { Node.new ⟨1⟩ .source with dependents := [⟨6⟩, ⟨3⟩, ⟨4⟩] },
      { Node.new ⟨2⟩ .derived with dependents := [⟨3⟩], freshness := .clean },
      { Node.new ⟨3⟩ .derived with dependents := [⟨2⟩, ⟨7⟩], freshness := .clean },
      Node.new ⟨4⟩ .effect,
      Node.new ⟨5⟩ .effect,
      Node.new ⟨6⟩ .effect,
      { Node.new ⟨7⟩ .derived with dependents := [⟨5⟩], freshness := .clean },
      { Node.new ⟨8⟩ .source with dependents := [⟨9⟩] },
      Node.new ⟨9⟩ .effect]

/-- The second source comes first and once more at the end; one listed name is unknown. Both sources
are causes of the effect behind the cycle, and the effect on the silent source is not reached. -/
theorem propagate_braid :
    (∀ source ∈ [⟨1⟩, ⟨40⟩, ⟨0⟩, ⟨1⟩], braid.contains source → braid.kind? source = some .source) ∧
      (braid.propagate [⟨1⟩, ⟨40⟩, ⟨0⟩, ⟨1⟩]).1 =
        [⟨⟨4⟩, true, [⟨1⟩, ⟨0⟩]⟩, ⟨⟨5⟩, false, [⟨1⟩, ⟨0⟩]⟩, ⟨⟨6⟩, true, [⟨1⟩]⟩] ∧
      ((braid.propagate [⟨1⟩, ⟨40⟩, ⟨0⟩, ⟨1⟩]).2.nodes.map Node.freshness).drop 2 =
        [.dirty, .dirty, .dirty, .dirty, .dirty, .doubtful, .clean, .dirty] ∧
      (∃ source ∈ [⟨1⟩, ⟨40⟩, ⟨0⟩, ⟨1⟩], braid.Reaches source ⟨5⟩) ∧
      (¬ ∃ source ∈ [⟨1⟩, ⟨40⟩, ⟨0⟩, ⟨1⟩], braid.Reaches source ⟨9⟩) ∧
      (braid.propagate [⟨1⟩, ⟨40⟩, ⟨0⟩, ⟨1⟩]).2 =
        braid.mapNodes (braid.marked [⟨1⟩, ⟨40⟩, ⟨0⟩, ⟨1⟩]) := by
  have plain : ∀ source ∈ [⟨1⟩, ⟨40⟩, ⟨0⟩, ⟨1⟩], braid.contains source →
      braid.kind? source = some .source := by decide
  obtain ⟨-, woken, -, marks⟩ := propagate_eq_reachability braid [⟨1⟩, ⟨40⟩, ⟨0⟩, ⟨1⟩] plain
  have wakeups : (braid.propagate [⟨1⟩, ⟨40⟩, ⟨0⟩, ⟨1⟩]).1 =
      [⟨⟨4⟩, true, [⟨1⟩, ⟨0⟩]⟩, ⟨⟨5⟩, false, [⟨1⟩, ⟨0⟩]⟩, ⟨⟨6⟩, true, [⟨1⟩]⟩] := by cbv
  refine ⟨plain, wakeups, by cbv, ((woken ⟨5⟩).mp ?_).2, fun path => ?_, marks⟩
  · rw [wakeups]
    decide
  · have listed := (woken ⟨9⟩).mpr ⟨by decide, path⟩
    rw [wakeups] at listed
    revert listed
    decide

end Graph

end ReactiveTree
