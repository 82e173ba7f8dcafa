import ReactiveTree.Graph.Ordering
import ReactiveTree.Proofs.Graph.Listing

/-! # Whom a change wakes

Marking a changed source meets every effect that can be reached from it along dependents through
derived nodes, and takes only those readers off the source that are marked dirty or woken for
certain.
-/

namespace ReactiveTree

namespace Graph

theorem mem_ofKind {graph : Graph} {kind : NodeKind} {ids : List NodeId} {id : NodeId} :
    id ∈ graph.ofKind kind ids ↔ id ∈ ids ∧ graph.kind? id = some kind := by
  unfold ofKind
  rw [List.mem_filter, decide_eq_true_eq]

theorem contains_of_kind? {graph : Graph} {id : NodeId} {kind : NodeKind}
    (known : graph.kind? id = some kind) : graph.contains id := by
  obtain ⟨node, live, -⟩ := Option.map_eq_some_iff.mp known
  rw [contains, live]
  rfl

/-- A reader is met along dependents, through derived nodes. -/
inductive Reaches (graph : Graph) : NodeId → NodeId → Prop where
  | direct {read reader : NodeId} (listed : reader ∈ graph.dependentsOf read) :
    Reaches graph read reader
  | through {read middle reader : NodeId} (listed : middle ∈ graph.dependentsOf read)
    (derived : graph.kind? middle = some .derived) (rest : Reaches graph middle reader) :
    Reaches graph read reader

/-- A node is read, by the reader itself or through derived nodes that satisfy a condition. -/
inductive Reads (graph : Graph) (passing : Node → Prop) : NodeId → NodeId → Prop where
  | itself {reader read : NodeId} {node : Node} (live : graph.node? reader = some node)
    (listed : read ∈ node.dependencies) : Reads graph passing reader read
  | through {reader middle read : NodeId} {node between : Node}
    (live : graph.node? reader = some node) (listed : middle ∈ node.dependencies)
    (present : graph.node? middle = some between) (derived : between.kind = .derived)
    (passes : passing between) (rest : Reads graph passing middle read) :
    Reads graph passing reader read

/-- A chain of two reads. -/
theorem Reads.pair {graph : Graph} {passing : Node → Prop} {reader middle read : NodeId}
    {between : Node} (listed : middle ∈ graph.dependenciesOf reader)
    (present : graph.node? middle = some between) (derived : between.kind = .derived)
    (passes : passing between) (listed' : read ∈ between.dependencies) :
    graph.Reads passing reader read := by
  unfold dependenciesOf at listed
  cases live : graph.node? reader with
  | none =>
    rw [live] at listed
    cases listed
  | some node =>
    rw [live] at listed
    exact .through live listed present derived passes (.itself present listed')

theorem Reads.contains {graph : Graph} {passing : Node → Prop} {reader read : NodeId}
    (path : graph.Reads passing reader read) : graph.contains reader := by
  cases path with
  | itself live => rw [Graph.contains, live]; rfl
  | through live => rw [Graph.contains, live]; rfl

theorem Reaches.snoc {graph : Graph} {read middle reader : NodeId}
    (path : graph.Reaches read middle) (derived : graph.kind? middle = some .derived)
    (listed : reader ∈ graph.dependentsOf middle) : graph.Reaches read reader := by
  induction path with
  | direct first => exact .through first derived (.direct listed)
  | through first between _ ih => exact .through first between (ih derived listed)

/-- Where readers are listed, a reader in demand can be reached from what it reads through readers
in demand. -/
theorem Lists.reaches {graph : Graph} {demand : Demand} {passing : Node → Prop}
    (lists : graph.Lists demand)
    (between : ∀ id node, node.kind = .derived → passing node → demand.Wants id node)
    {reader read : NodeId} {source : Node} (path : graph.Reads passing reader read)
    (live : graph.node? read = some source)
    (wanted : ∀ node, graph.node? reader = some node → demand.Wants reader node) :
    graph.Reaches read reader := by
  have listed : ∀ {reader middle : NodeId} {node other : Node}, graph.node? reader = some node →
      demand.Wants reader node → middle ∈ node.dependencies → graph.node? middle = some other →
      reader ∈ graph.dependentsOf middle := by
    intro reader middle node other found wanted member present
    rw [dependentsOf, present]
    exact lists reader node found wanted middle other member present
  induction path with
  | itself found member => exact .direct (listed found (wanted _ found) member live)
  | through found member present derived passes _ ih =>
    refine (ih live fun node found' => ?_).snoc ?_ (listed found (wanted _ found) member present)
    · rw [present] at found'
      cases found'
      exact between _ _ derived passes
    · rw [kind?, present, ← derived]
      rfl

/-- The search keeps what it has seen, finds what is pending and goes on to the derived dependents
of what it finds. -/
theorem downstream_closed (graph : Graph) (pending seen : List NodeId) :
    seen ⊆ graph.downstream pending seen ∧
      (∀ id ∈ pending, graph.contains id → id ∈ graph.downstream pending seen) ∧
      ∀ id ∈ graph.downstream pending seen, id ∉ seen →
        ∀ other ∈ graph.ofKind .derived (graph.dependentsOf id),
          other ∈ graph.downstream pending seen := by
  induction pending, seen using Graph.downstream.induct graph with
  | case1 seen =>
    rw [downstream]
    refine ⟨fun _ member => member, fun _ member => ?_, fun id member fresh => absurd member fresh⟩
    cases member
  | case2 seen id rest old ih =>
    rw [downstream, if_pos old]
    obtain ⟨kept, found, closed⟩ := ih
    refine ⟨kept, fun other member live => ?_, closed⟩
    rcases List.mem_cons.mp member with rfl | later
    · exact kept old
    · exact found other later live
  | case3 seen id rest fresh absent ih =>
    rw [downstream, if_neg fresh]
    split
    next =>
      obtain ⟨kept, found, closed⟩ := ih
      refine ⟨kept, fun other member live => ?_, closed⟩
      rcases List.mem_cons.mp member with rfl | later
      · rw [contains, absent] at live
        cases live
      · exact found other later live
    next node live =>
      rw [absent] at live
      cases live
  | case4 seen id rest fresh node live ih =>
    rw [downstream, if_neg fresh]
    split
    next absent =>
      rw [live] at absent
      cases absent
    next node' live' =>
      rw [live] at live'
      cases live'
      obtain ⟨kept, found, closed⟩ := ih
      refine ⟨fun other member => kept (List.mem_cons_of_mem _ member), fun other member live => ?_,
        fun other member unseen next listed => ?_⟩
      · rcases List.mem_cons.mp member with rfl | later
        · exact kept List.mem_cons_self
        · exact found other (List.mem_append_right _ later) live
      · by_cases same : other = id
        · subst same
          rw [dependentsOf, live] at listed
          exact found next (List.mem_append_left _ listed)
            (contains_of_kind? (mem_ofKind.mp listed).2)
        · refine closed other member (fun before => ?_) next listed
          rcases List.mem_cons.mp before with rfl | before
          · exact same rfl
          · exact unseen before

/-- Everything that can be reached from what the search finds depends on it. -/
private theorem mem_flatMap_downstream {graph before : Graph} {pending : List NodeId}
    {read reader : NodeId} (path : before.Reaches read reader)
    (same : ∀ id, before.kind? id = some .derived → graph.dependentsOf id = before.dependentsOf id)
    (kinds : ∀ id, graph.kind? id = before.kind? id)
    (derived : before.kind? read = some .derived) (found : read ∈ graph.downstream pending []) :
    reader ∈ (graph.downstream pending []).flatMap graph.dependentsOf := by
  induction path with
  | direct listed =>
    exact List.mem_flatMap.mpr ⟨_, found, by rwa [same _ derived]⟩
  | through listed derived' rest ih =>
    refine ih derived' ?_
    refine (graph.downstream_closed pending []).2.2 _ found (List.not_mem_nil) _ ?_
    rw [mem_ofKind, kinds, same _ derived]
    exact ⟨listed, derived'⟩

section

variable {graph : Graph} {source id : NodeId}

theorem kind?_dropDependents (graph : Graph) (source id : NodeId) :
    (graph.modify source Node.dropDependents).kind? id = graph.kind? id := by
  have kept : ∀ node : Node, node.dropDependents.id = node.id := fun _ => rfl
  unfold kind?
  rw [node?_modify _ kept]
  split
  next same =>
    subst same
    cases graph.node? id <;> rfl
  next => rfl

theorem dependentsOf_dropDependents (graph : Graph) {source id : NodeId}
    (apart : id ≠ source) :
    (graph.modify source Node.dropDependents).dependentsOf id = graph.dependentsOf id := by
  have kept : ∀ node : Node, node.dropDependents.id = node.id := fun _ => rfl
  unfold dependentsOf
  rw [node?_modify _ kept, if_neg apart]

/-- A changed source meets every effect that can be reached from it. -/
theorem meets_of_reaches {effect : NodeId} (plain : graph.kind? source ≠ some .derived)
    (isEffect : graph.kind? effect = some .effect) (path : graph.Reaches source effect) :
    effect ∈ (graph.invalidate source).1.direct ++ (graph.invalidate source).1.indirect := by
  have kinds := kind?_dropDependents graph source
  have same : ∀ id, graph.kind? id = some .derived →
      (graph.modify source Node.dropDependents).dependentsOf id = graph.dependentsOf id :=
    fun id derived => dependentsOf_dropDependents graph fun same => plain (same ▸ derived)
  cases path with
  | direct listed =>
    exact List.mem_append_left _ (mem_ofKind.mpr ⟨listed, (kinds effect).trans isEffect⟩)
  | through listed derived rest =>
    refine List.mem_append_right _ (mem_ofKind.mpr ⟨?_, (kinds effect).trans isEffect⟩)
    have known := (kinds _).trans derived
    exact mem_flatMap_downstream rest same kinds derived
      ((downstream_closed _ _ []).2.1 _ (mem_ofKind.mpr ⟨listed, known⟩) (contains_of_kind? known))

/-- What is left of a node when a source is invalidated. -/
theorem invalidate_cases {node : Node}
    (found : (graph.invalidate source).2.node? id = some node) :
    ∃ old, graph.node? id = some old ∧ MarkedFrom old node ∧
      (id ≠ source → node.dependents = old.dependents) ∧
      (id ∈ graph.dependentsOf source → old.kind = .derived → node.freshness = .dirty) := by
  have marked := markedFrom_invalidate graph source id
  rw [found] at marked
  obtain ⟨old, was, holds⟩ := relOption_some marked
  refine ⟨old, was, holds, ?_⟩
  have kept : ∀ node : Node, node.dropDependents.id = node.id := fun _ => rfl
  unfold invalidate at found
  dsimp only at found
  rw [node?_mapNodes _ (by intro node; split; rfl; split <;> rfl)] at found
  obtain ⟨middle, was', rfl⟩ := Option.map_eq_some_iff.mp found
  have name : middle.id = id := node?_id was'
  have dependents : id ≠ source → middle.dependents = old.dependents := by
    intro apart
    rw [node?_modify _ kept, if_neg apart, was] at was'
    cases was'
    rfl
  constructor
  · intro apart
    rw [← dependents apart]
    split
    next => rfl
    next => split <;> rfl
  · intro listed derived
    have known : graph.kind? id = some .derived := by
      rw [kind?, was, ← derived]
      rfl
    rw [if_pos]
    · rfl
    · rw [name]
      exact mem_ofKind.mpr ⟨listed, (kind?_dropDependents graph source id).trans known⟩

theorem mem_direct_invalidate {effect : NodeId} (listed : effect ∈ graph.dependentsOf source)
    (isEffect : graph.kind? effect = some .effect) :
    effect ∈ (graph.invalidate source).1.direct :=
  mem_ofKind.mpr ⟨listed, (kind?_dropDependents graph source effect).trans isEffect⟩

end

section

variable {graph : Graph} {demand : Demand}

/-- Invalidating a source leaves every reader in demand listed but the effects that it wakes for
certain. -/
theorem Lists.invalidate (lists : graph.Lists demand) (plain : ∀ id, ¬ demand.dirty id)
    (source : NodeId) :
    (graph.invalidate source).2.Lists (demand.besides (graph.invalidate source).1.direct) := by
  refine lists.of_nodes (fun id node found => ?_) fun read node old reader node' present was found
    wanted _ member => ?_
  · obtain ⟨old, was, ⟨outline, _, dependencies, mark⟩, _⟩ := invalidate_cases found
    refine ⟨old, was, fun wanted => ?_, fun _ member => dependencies ▸ member⟩
    have kind := Node.kind_of_outline outline
    unfold Demand.Wants at wanted ⊢
    rw [← kind]
    cases isKind : node.kind with
    | source =>
      rw [isKind] at wanted
      exact wanted
    | derived =>
      rw [isKind] at wanted
      intro dirty
      rcases mark with same | now | ⟨clean, _⟩
      · exact wanted (same.trans dirty)
      · exact wanted now
      · rw [dirty] at clean
        cases clean
    | effect =>
      rw [isKind] at wanted
      exact wanted.1
  · obtain ⟨old', was', _, kept, _⟩ := invalidate_cases present
    rw [was] at was'
    cases was'
    by_cases apart : read = source
    · subst apart
      have listed : reader ∈ graph.dependentsOf read := by
        rw [dependentsOf, was]
        exact member
      obtain ⟨before, known, ⟨outline, _⟩, _, dirty⟩ := invalidate_cases found
      have kind := Node.kind_of_outline outline
      unfold Demand.Wants at wanted
      cases isKind : node'.kind with
      | source =>
        rw [isKind] at wanted
        exact wanted.elim
      | derived =>
        -- It lost its place, but it is dirty now.
        rw [isKind] at wanted
        exact (plain reader (wanted (dirty listed (kind.symm.trans isKind)))).elim
      | effect =>
        rw [isKind] at wanted
        refine absurd (mem_direct_invalidate listed ?_) wanted.2
        rw [kind?, known, ← isKind, kind]
        rfl
    · rw [kept apart]
      exact member

theorem Lists.invalidateAll (lists : graph.Lists demand) (plain : ∀ id, ¬ demand.dirty id)
    (sources : List NodeId) :
    (graph.invalidateAll sources).2.Lists
      (demand.besides ((graph.invalidateAll sources).1.flatMap Reach.direct)) := by
  induction sources generalizing graph demand with
  | nil => exact lists.mono (fun _ holds => holds.1) fun _ holds => holds
  | cons source rest ih =>
    rw [Graph.invalidateAll]
    split
    next =>
      refine (ih (lists.invalidate plain source) plain).mono (fun id holds => ?_)
        fun _ holds => holds
      obtain ⟨wanted, absent⟩ := holds
      rw [List.flatMap_cons, List.mem_append, not_or] at absent
      exact ⟨⟨wanted, absent.1⟩, absent.2⟩
    next => exact ih lists plain

end

theorem kind?_invalidate (graph : Graph) (source id : NodeId) :
    (graph.invalidate source).2.kind? id = graph.kind? id := by
  have related := markedFrom_invalidate graph source id
  unfold kind?
  revert related
  generalize graph.node? id = old
  generalize (graph.invalidate source).2.node? id = new
  intro related
  cases related with
  | none => rfl
  | some holds => exact congrArg some (Node.kind_of_outline holds.1)

/-- Only effects are met. -/
theorem kind?_of_met {graph : Graph} {sources : List NodeId} {reach : Reach}
    (member : reach ∈ (graph.invalidateAll sources).1) {effect : NodeId}
    (met : effect ∈ reach.direct ++ reach.indirect) : graph.kind? effect = some .effect := by
  induction sources generalizing graph with
  | nil => cases member
  | cons source rest ih =>
    rw [Graph.invalidateAll] at member
    split at member
    next =>
      rcases List.mem_cons.mp member with rfl | later
      · rw [← kind?_dropDependents graph source]
        rcases List.mem_append.mp met with direct | indirect
        · exact (mem_ofKind.mp direct).2
        · exact (mem_ofKind.mp indirect).2
      · rw [← kind?_invalidate graph source]
        exact ih later
    next => exact ih member

theorem propagate_empty (sources : List NodeId) : (empty.propagate sources).2 = empty := by
  show (empty.invalidateAll sources).2 = empty
  induction sources with
  | nil => rfl
  | cons source rest ih => exact ih

end Graph

/-- Only effects are woken. -/
theorem Graph.kind?_of_mem_propagate {graph : Graph} {sources : List NodeId} {wakeup : Wakeup}
    (member : wakeup ∈ (graph.propagate sources).1) :
    graph.kind? wakeup.effect = some .effect := by
  obtain ⟨effect, woken, rfl⟩ := List.mem_map.mp member
  have met := (mem_addAll.mp ((List.mergeSort_perm _ _).mem_iff.mp woken)).resolve_left
    List.not_mem_nil
  obtain ⟨reach, listed, met⟩ := List.mem_flatMap.mp met
  exact kind?_of_met listed met

/-- An effect that some reach meets is woken, for certain if it read a changed source itself. -/
theorem Wakeup.find?_ofReaches {reaches : List Reach} {effect : NodeId}
    (met : effect ∈ reaches.flatMap fun reach => reach.direct ++ reach.indirect) :
    ∃ wakeup,
      (Wakeup.ofReaches reaches).find? (fun wakeup => wakeup.effect = effect) = some wakeup ∧
      effect ∈ (Wakeup.ofReaches reaches).map Wakeup.effect ∧ wakeup.effect = effect ∧
      (effect ∈ reaches.flatMap Reach.direct → wakeup.certain = true) := by
  have member : effect ∈ (Wakeup.ofReaches reaches).map Wakeup.effect := by
    unfold ofReaches
    rw [List.map_map]
    refine List.mem_map.mpr ⟨effect, ?_, rfl⟩
    exact (List.mergeSort_perm _ _).mem_iff.mpr (mem_addAll.mpr (Or.inr met))
  obtain ⟨known, listed, same⟩ := List.mem_map.mp member
  obtain ⟨wakeup, found⟩ := Option.isSome_iff_exists.mp
    (List.find?_isSome.mpr ⟨known, listed, decide_eq_true same⟩ :
      ((Wakeup.ofReaches reaches).find? fun wakeup => wakeup.effect = effect).isSome)
  have is : wakeup.effect = effect := by
    have chosen := List.find?_some found
    exact of_decide_eq_true chosen
  refine ⟨wakeup, found, member, is, fun direct => ?_⟩
  obtain ⟨reach, listed', direct⟩ := List.mem_flatMap.mp direct
  obtain ⟨effect', _, rfl⟩ := List.mem_map.mp (List.mem_of_find?_eq_some found)
  subst is
  exact List.any_eq_true.mpr ⟨reach, listed', decide_eq_true direct⟩

/-- Putting effects in order loses none. -/
theorem Graph.mem_schedule {graph : Graph} {queued : List NodeId} {effect : NodeId}
    (member : effect ∈ queued) : effect ∈ graph.schedule queued := by
  unfold schedule
  split
  next => exact member
  next =>
    extract_lets needs waiting successors ready taken
    by_cases first : effect ∈ taken
    · exact List.mem_append_left _ first
    · exact List.mem_append_right _ (List.mem_filter.mpr ⟨member, decide_eq_true first⟩)

end ReactiveTree
