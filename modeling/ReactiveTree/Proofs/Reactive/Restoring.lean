import ReactiveTree.Proofs.Reactive.Attending

/-! # An evaluation keeps marks sound

An evaluation enters with its computed pending, which has read nothing so far. It leaves either a dirty
computed, or a clean one that has read clean ones only: whatever a pending computed gains is firm.
-/

namespace ReactiveTree

variable {κ ν σ : Type}

namespace World

variable {world inner after : World κ ν σ} {pending : NodeId → Prop} {home owner : ReactorId}
  {id other : NodeId} {state : Computed κ ν} {node : Node}

theorem graph_enter (world : World κ ν σ) (id : NodeId) (home owner : ReactorId) :
    (world.enter id home).graph owner =
      if owner = home then (world.graph home).unsubscribe id else world.graph owner := by
  have graphs : ((world.modifyComputed id ({ · with computing := true })).mapGraph home
      (·.unsubscribe id)).graph owner =
        if owner = home then (world.graph home).unsubscribe id else world.graph owner :=
    graph_mapGraph (world.modifyComputed id ({ · with computing := true })) home rfl owner
  unfold World.enter
  rw [graph_modifyReactor]
  · exact graphs
  · exact fun _ _ => rfl

theorem enter_nodes (world : World κ ν σ) (id : NodeId) (home owner : ReactorId) (other : NodeId) :
    Option.Rel (fun old new : Node => new.kind = old.kind ∧ new.freshness = old.freshness ∧
      (other ≠ id → new.dependencies = old.dependencies) ∧
      (owner = home → other = id → new.dependencies = []))
      ((world.graph owner).node? other) (((world.enter id home).graph owner).node? other) := by
  rw [graph_enter]
  split
  next same =>
    subst same
    obtain ⟨step, eq, kept⟩ := Graph.unsubscribe_cases (world.graph owner) id other
    rw [eq]
    cases (world.graph owner).node? other with
    | none => exact .none
    | some old =>
      obtain ⟨outline, standing, dependencies⟩ := kept old
      exact .some ⟨Node.kind_of_outline outline, congrArg Prod.fst standing,
        fun apart => dependencies.trans (if_neg apart), fun _ same => dependencies.trans (if_pos same)⟩
  next away =>
    exact relOption_refl (fun _ => ⟨rfl, rfl, fun _ => rfl, fun here => absurd here away⟩) _

theorem computed?_enter (world : World κ ν σ) (id : NodeId) (home : ReactorId) (other : NodeId) :
    (world.enter id home).computed? other = (world.computed? other).map fun state =>
      if other = id then { state with computing := true } else state := by
  unfold computed?
  rw [cell?_enter]
  by_cases same : other = id
  · subst same
    rw [if_pos rfl]
    cases world.cell? other with
    | none => rfl
    | some cell => cases cell <;> simp
  · rw [if_neg same]
    cases world.cell? other with
    | none => rfl
    | some cell => cases cell <;> simp [same]

theorem reader?_enter_of_ne (world : World κ ν σ) (id : NodeId) (apart : owner ≠ home) :
    (world.enter id home).reader? owner = world.reader? owner := by
  unfold World.enter reader?
  rw [reactor?_modifyReactor, if_neg apart]
  show (((world.modifyComputed id _).mapGraph home _).reactor? owner).bind _ = _
  unfold mapGraph
  rw [reactor?_modifyReactor, if_neg apart]
  rfl

theorem Staged.enter (staged : world.Staged pending) (found : world.computed? id = some state)
    (live : (world.graph state.reactor).node? id = some node) :
    (world.enter id state.reactor).Staged fun other => other = id ∨ pending other where
  homes owner other node found := by
    have related := world.enter_nodes id state.reactor owner other
    rw [found] at related
    obtain ⟨old, was, kind, _⟩ := relOption_some related
    obtain ⟨cell, known, home, kind'⟩ := staged.homes owner other old was
    obtain ⟨new, present, goes⟩ := (continues_enter world id state.reactor).after known
    exact ⟨new, present, goes.reactor.trans home, goes.kind.trans (kind'.trans kind.symm)⟩
  held other state' found live := by
    rw [computed?_enter] at found
    obtain ⟨old, was, rfl⟩ := Option.map_eq_some_iff.mp found
    have held : (((world.enter id state.reactor).graph old.reactor).node? other).isSome →
        0 < old.holders := by
      rw [relOption_isSome (world.enter_nodes id state.reactor old.reactor other)]
      exact staged.held other old was
    split at live
    next same =>
      rw [if_pos same]
      exact held live
    next apart =>
      rw [if_neg apart]
      exact held live
  busy other state' found computing := by
    rw [computed?_enter] at found
    obtain ⟨old, was, rfl⟩ := Option.map_eq_some_iff.mp found
    split at computing
    next same => exact Or.inl same
    next => exact Or.inr (staged.busy other old was computing)
  readers owner reader reading := by
    have known := computed?_eq_some_iff.mp found
    by_cases here : owner = state.reactor
    · have entered : (world.enter id state.reactor).reader? state.reactor = some id :=
        reader?_enter known ((node?_eq known).trans live)
      rw [here, entered] at reading
      exact Or.inl (Or.inl (Option.some.inj reading).symm)
    · rw [reader?_enter_of_ne world id here] at reading
      rcases staged.readers owner reader reading with waits | isEffect
      · exact Or.inl (Or.inr waits)
      · refine Or.inr ?_
        obtain ⟨effect, found⟩ := Option.isSome_iff_exists.mp isEffect
        obtain ⟨new, present, goes⟩ :=
          (continues_enter world id state.reactor).after (effect?_eq_some_iff.mp found)
        cases new with
        | signal => cases goes.kind
        | computed => cases goes.kind
        | effect state =>
          rw [effect?_eq_some_iff.mpr present]
          rfl

theorem Sound.enter (sound : world.Sound) (id : NodeId) (home : ReactorId) :
    (world.enter id home).Sound where
  settled owner := by
    rw [graph_enter]
    split
    next => exact (sound.settled home).of_sameMarks (.unsubscribe _ id)
    next => exact sound.settled owner
  valued other state node found live mark := by
    rw [computed?_enter] at found
    obtain ⟨old, was, rfl⟩ := Option.map_eq_some_iff.mp found
    have valued : ∀ node, (world.graph old.reactor).node? other = some node →
        node.freshness ≠ .dirty → old.value.isSome :=
      fun node => sound.valued other old node was
    have related := world.enter_nodes id home old.reactor other
    split at live <;>
    · change ((world.enter id home).graph old.reactor).node? other = some node at live
      rw [live] at related
      obtain ⟨before, present, _, same, _⟩ := relOption_some related
      split <;> exact valued before present (same ▸ mark)

/-- A computed that is evaluated is pending, and has read nothing so far. -/
theorem Poised.enter (poised : world.Poised pending id) (fresh : ¬ pending id)
    (found : world.computed? id = some state)
    (live : (world.graph state.reactor).node? id = some node) (stale : node.freshness ≠ .clean) :
    (world.enter id state.reactor).Attentive fun other => other = id ∨ pending other where
  staged := poised.staged.enter found live
  sound := poised.sound.enter id state.reactor
  waits other waits := by
    have known := computed?_eq_some_iff.mp found
    by_cases same : other = id
    · subst same
      have found' : (world.enter other state.reactor).computed? other =
          some { state with computing := true } := by
        rw [computed?_enter, found, Option.map_some, if_pos rfl]
      have related := world.enter_nodes other state.reactor state.reactor other
      rw [live] at related
      revert related
      cases live' : ((world.enter other state.reactor).graph state.reactor).node? other with
      | none => exact nofun
      | some node' =>
        intro related
        cases related with
        | some holds =>
          obtain ⟨_, mark, _, bare⟩ := holds
          cases freshness : node.freshness with
          | clean => exact absurd freshness stale
          | dirty => exact Or.inl (.busy found' live' (mark.trans freshness) rfl)
          | doubtful =>
            refine Or.inr ⟨_, found', reader?_enter known ((node?_eq known).trans live), node', live',
              mark.trans freshness, fun read member => ?_⟩
            rw [bare rfl rfl] at member
            cases member
    · have waits := waits.resolve_left same
      rcases poised.waits other waits with blocked | ⟨state', collects, absent⟩
      · refine Or.inl (blocked.carry (fun state' found' => ⟨state', ?_, rfl, rfl⟩) (fun owner next =>
          relOption_mono (fun _ _ holds => ⟨holds.1, fun clean => holds.2.1.trans clean⟩)
            (world.enter_nodes id state.reactor owner next)) (fun owner old new was is => ?_)
          fun _ holds => holds)
        · rw [computed?_enter, found', Option.map_some, if_neg same]
        · have related := world.enter_nodes id state.reactor owner other
          rw [was, is] at related
          cases related with
          | some holds =>
            refine ⟨holds.2.1, ?_⟩
            rw [holds.2.2.1 same]
      · have apart : state'.reactor ≠ state.reactor := by
          intro here
          rw [here, live] at absent
          cases absent
        refine Or.inr ⟨state', ?_, ?_, ?_⟩
        · rw [computed?_enter, collects.found, Option.map_some, if_neg same]
        · rw [reader?_enter_of_ne world id apart]
          exact collects.reading
        · rw [graph_enter, if_neg apart]
          exact collects.firm

theorem graph_leave (inner : World κ ν σ) (id : NodeId) (home owner : ReactorId) (panicked : Bool) :
    (inner.leave id home panicked).graph owner = inner.graph owner := by
  have popped : (inner.modifyReactor home Reactor.popFrame).graph owner = inner.graph owner := by
    refine graph_modifyReactor inner home ?_ owner
    exact fun _ _ => rfl
  exact popped

theorem computed?_leave (inner : World κ ν σ) (id : NodeId) (home : ReactorId) (panicked : Bool)
    (other : NodeId) : (inner.leave id home panicked).computed? other =
      (inner.computed? other).map fun state =>
        if other = id then { state with computing := false } else state := by
  have cells : (inner.leave id home panicked).cell? other = _ := cell?_modifyCell _ id other _
  unfold computed?
  rw [cells]
  by_cases same : other = id
  · subst same
    rw [if_pos rfl, cell?_record, cell?_modifyReactor]
    cases inner.cell? other with
    | none => rfl
    | some cell => cases cell <;> simp
  · rw [if_neg same, cell?_record, cell?_modifyReactor]
    cases inner.cell? other with
    | none => rfl
    | some cell => cases cell <;> simp [same]

theorem computed_leave {panicked : Bool}
    (found : (inner.leave id home panicked).computed? other = some state) :
    ∃ old, inner.computed? other = some old ∧ state.reactor = old.reactor ∧
      state.value = old.value := by
  rw [computed?_leave] at found
  obtain ⟨old, was, rfl⟩ := Option.map_eq_some_iff.mp found
  refine ⟨old, was, ?_⟩
  split <;> exact ⟨rfl, rfl⟩

/-- What settling a value does to graphs and values: the node becomes clean and has a value. -/
theorem settleValue_sound [BEq ν] (world : World κ ν σ) (id : NodeId) (computed : Computed κ ν)
    (value : ν) :
    (∃ step : Node → Node, (∀ node, (step node).id = node.id ∧ (step node).kind = node.kind ∧
        (step node).freshness = .clean ∧ (step node).dependencies = node.dependencies) ∧
      ∀ owner, (world.settleValue id computed value).graph owner =
        if owner = computed.reactor then (world.graph computed.reactor).modify id step
        else world.graph owner) ∧
    ∀ other state, (world.settleValue id computed value).computed? other = some state →
      if other = id then state.value.isSome else world.computed? other = some state := by
  unfold World.settleValue
  extract_lets same
  split
  next kept =>
    refine ⟨⟨Node.markClean, fun _ => ⟨rfl, rfl, rfl, rfl⟩, graph_mapGraph world _ rfl⟩,
      fun other state found => ?_⟩
    split
    next here =>
      subst here
      have found' : world.computed? other = some state := found
      unfold same at kept
      rw [found', Option.map_some] at kept
      cases old : state.value with
      | none =>
        rw [old] at kept
        cases kept
      | some => rfl
    next => exact found
  next =>
    refine ⟨⟨fun node => node.bump.markClean, fun _ => ⟨rfl, rfl, rfl, rfl⟩,
      graph_mapGraph (world.modifyComputed id ({ · with value := some value })) _ rfl⟩,
      fun other state found => ?_⟩
    have cells : (world.modifyComputed id ({ · with value := some value })).cell? other = _ :=
      cell?_modifyCell world id other _
    have known : (world.modifyComputed id ({ · with value := some value })).cell? other =
        some (.computed state) := computed?_eq_some_iff.mp found
    rw [cells] at known
    split
    next here =>
      subst here
      rw [if_pos rfl] at known
      obtain ⟨cell, _, changed⟩ := Option.map_eq_some_iff.mp known
      cases cell with
      | signal => cases changed
      | effect => cases changed
      | computed old =>
        cases changed
        rfl
    next apart =>
      rw [if_neg apart] at known
      exact computed?_eq_some_iff.mpr known

theorem skeleton_settleValue [BEq ν] (world : World κ ν σ) (id : NodeId) (computed : Computed κ ν)
    (value : ν) : (world.settleValue id computed value).skeleton = world.skeleton := by
  rcases settleValue_eq_or world id computed value with same | different
  · rw [same, skeleton_mapGraph]
  · rw [different, skeleton_record, skeleton_mapGraph, skeleton_keepValue]

section

variable (staged : world.Staged pending) (fresh : ¬ pending id)
  (found : world.computed? id = some state)
  (live : (world.graph state.reactor).node? id = some node) (stale : node.freshness ≠ .clean)

include staged fresh found live stale

/-- An evaluation lets clean nodes and the other pending ones be, whatever becomes of its own. -/
theorem Matures.leave (inside : (world.enter id state.reactor).Matures
      (fun other => other = id ∨ pending other) inner)
    (skeleton : after.skeleton = world.skeleton)
    (nodes : ∀ owner other, Option.Rel (fun old new : Node => new.kind = old.kind ∧
      (other ≠ id → new.freshness = old.freshness))
      ((inner.graph owner).node? other) ((after.graph owner).node? other)) :
    world.Matures pending after where
  skeleton := skeleton
  nodes owner other := by
    by_cases same : other = id
    · subst same
      have kinds : Option.Rel (fun old new : Node => new.kind = old.kind)
          ((world.graph owner).node? other) ((after.graph owner).node? other) := by
        have transitive : ∀ first second third : Node, second.kind = first.kind →
            third.kind = second.kind → third.kind = first.kind :=
          fun _ _ _ start finish => finish.trans start
        exact relOption_trans transitive (relOption_trans transitive
          (relOption_mono (fun _ _ holds => holds.1) (world.enter_nodes other state.reactor owner other))
          (relOption_mono (fun _ _ holds => holds.1) (inside.nodes owner other)))
          (relOption_mono (fun _ _ holds => holds.1) (nodes owner other))
      revert kinds
      cases was : (world.graph owner).node? other with
      | none =>
        generalize (after.graph owner).node? other = new?
        intro kinds
        cases kinds
        exact .none
      | some old =>
        have known := staged.sole found live was
        generalize (after.graph owner).node? other = new?
        intro kinds
        cases kinds with
        | some kind =>
          exact .some ⟨kind, fun clean => absurd (known ▸ clean) stale, fun waits => absurd waits fresh⟩
    · have transitive : ∀ first second third : Node, first.Matured (pending other) second →
          second.Matured (pending other) third → first.Matured (pending other) third :=
        fun _ _ _ start finish => start.trans finish
      have entered : Option.Rel (Node.Matured (pending other)) ((world.graph owner).node? other)
          (((world.enter id state.reactor).graph owner).node? other) :=
        relOption_mono (fun _ _ holds => ⟨holds.1, fun clean => holds.2.1.trans clean,
          fun _ => holds.2.1⟩) (world.enter_nodes id state.reactor owner other)
      refine relOption_trans transitive (relOption_trans transitive entered
        (relOption_mono (fun _ _ holds => ⟨holds.1, holds.2.1, fun waits => holds.2.2 (Or.inr waits)⟩)
          (inside.nodes owner other)))
        (relOption_mono (fun _ _ holds => ?_) (nodes owner other))
      exact ⟨holds.1, fun clean => (holds.2 same).trans clean, fun _ => holds.2 same⟩

variable [BEq ν] {computed : Computed κ ν} (place : computed.reactor = state.reactor)
  (idle : state.computing = false)

include place idle

/-- An evaluation that fails leaves a dirty computed. -/
theorem Renewed.spoil {panic : Panic}
    (inside : (world.enter id state.reactor).Renewed (fun other => other = id ∨ pending other)
      (.error panic : Except Panic ν) inner) :
    world.Renewed pending (inner.afterEvaluation id computed (.error panic)).1
      (inner.afterEvaluation id computed (.error panic)).2 := by
  have kept : ∀ node : Node, node.markDirty.id = node.id := fun _ => rfl
  have graphs : ∀ owner, (inner.afterEvaluation id computed (.error panic)).2.graph owner =
      if owner = state.reactor then (inner.graph state.reactor).modify id Node.markDirty
      else inner.graph owner := by
    intro owner
    have marked := @graph_mapGraph _ _ _ (inner.leave id computed.reactor true) computed.reactor
      (·.modify id Node.markDirty) rfl owner
    rw [graph_leave, graph_leave, place] at marked
    rw [← marked, ← place]
    rfl
  have stale' : ∀ node', (inner.graph state.reactor).node? id = some node' →
      node'.freshness ≠ .clean := by
    intro node' present
    have entered := world.enter_nodes id state.reactor state.reactor id
    have matured := inside.matures.nodes state.reactor id
    rw [present] at matured
    obtain ⟨between, present', _, _, same⟩ := relOption_some matured
    rw [live, present'] at entered
    cases entered with
    | some holds =>
      rw [same (Or.inl rfl), holds.2.1]
      exact stale
  refine ⟨Matures.leave staged fresh found live stale inside.matures ?_ fun owner other => ?_, ?_,
    fun _ => nofun⟩
  · show ((inner.leave id computed.reactor true).mapGraph _ _).skeleton = _
    rw [skeleton_mapGraph, place]
    refine skeleton_leave_enter ?_ inside.matures.skeleton true
    rw [found]
    exact idle
  · rw [graphs]
    split
    next here =>
      subst here
      refine Graph.relOption_modify (fun _ => ⟨rfl, fun _ => rfl⟩) _ id _ kept fun same node => ?_
      exact ⟨rfl, fun apart => absurd same apart⟩
    next => exact relOption_refl (fun _ => ⟨rfl, fun _ => rfl⟩) _
  · refine ⟨fun owner => ?_, fun other other' node' found' live' mark => ?_⟩
    · rw [graphs]
      split
      next => exact (inside.sound.settled state.reactor).spoil stale'
      next => exact inside.sound.settled owner
    · have left : (inner.leave id computed.reactor true).computed? other = some other' := found'
      obtain ⟨old, was, home, value⟩ := computed_leave left
      rw [graphs, home] at live'
      rw [value]
      have present : (inner.graph old.reactor).node? other = some node' := by
        split at live'
        next here =>
          obtain ⟨before, present, rfl | ⟨_, rfl⟩⟩ := Graph.modify_cases kept live'
          · rwa [here]
          · exact absurd rfl mark
        next => exact live'
      exact inside.sound.valued other old node' was present mark

/-- An evaluation that succeeds leaves a clean computed, which has read clean ones only. -/
theorem Renewed.settle {value : ν}
    (inside : (world.enter id state.reactor).Renewed (fun other => other = id ∨ pending other)
      (.ok value : Except Panic ν) inner) :
    world.Renewed pending (inner.afterEvaluation id computed (.ok value)).1
      (inner.afterEvaluation id computed (.ok value)).2 ∧
      ((inner.afterEvaluation id computed (.ok value)).2.graph state.reactor).Firm id := by
  obtain ⟨⟨step, steps, graphs⟩, values⟩ :=
    settleValue_sound (inner.leave id computed.reactor false) id computed value
  have kept : ∀ node : Node, (step node).id = node.id := fun node => (steps node).1
  have graphs : ∀ owner, (inner.afterEvaluation id computed (.ok value)).2.graph owner =
      if owner = state.reactor then (inner.graph state.reactor).modify id step
      else inner.graph owner := by
    intro owner
    show ((inner.leave id computed.reactor false).settleValue id computed value).graph owner = _
    rw [graphs, graph_leave, graph_leave, place]
  have related : ∀ owner other, Option.Rel (fun old new : Node => new.kind = old.kind ∧
      (old.freshness = .clean → new.freshness = .clean) ∧
      (other ≠ id → new.freshness = old.freshness ∧ new.dependencies = old.dependencies))
      ((inner.graph owner).node? other)
      (((inner.afterEvaluation id computed (.ok value)).2.graph owner).node? other) := by
    intro owner other
    rw [graphs]
    split
    next here =>
      subst here
      refine Graph.relOption_modify (fun _ => ⟨rfl, fun clean => clean, fun _ => ⟨rfl, rfl⟩⟩) _ id _
        kept fun same node => ⟨(steps node).2.1, fun _ => (steps node).2.2.1, fun apart => ?_⟩
      exact absurd same apart
    next => exact relOption_refl (fun _ => ⟨rfl, fun clean => clean, fun _ => ⟨rfl, rfl⟩⟩) _
  have firm : ∀ {owner read}, (inner.graph owner).Firm read →
      ((inner.afterEvaluation id computed (.ok value)).2.graph owner).Firm read :=
    fun {owner read} firm => firm.of_node
      (relOption_mono (fun _ _ holds => ⟨holds.1, holds.2.1⟩) (related owner read))
  have gains := inside.gains value rfl
  refine ⟨⟨Matures.leave staged fresh found live stale inside.matures ?_ fun owner other => ?_, ?_,
    fun _ _ owner other old new waits was is => ?_⟩, fun node' present derived => ?_⟩
  · show ((inner.leave id computed.reactor false).settleValue id computed value).skeleton = _
    rw [skeleton_settleValue, place]
    refine skeleton_leave_enter ?_ inside.matures.skeleton false
    rw [found]
    exact idle
  · exact relOption_mono (fun _ _ holds => ⟨holds.1, fun apart => (holds.2.2 apart).1⟩)
      (related owner other)
  · refine ⟨fun owner => ?_, fun other other' node' found' live' mark => ?_⟩
    · rw [graphs]
      split
      next =>
        refine (inside.sound.settled state.reactor).renew steps fun node' present read member => ?_
        -- It forgot what it had read when it was entered, so all of this was gained inside.
        have entered := world.enter_nodes id state.reactor state.reactor id
        have matured := inside.matures.nodes state.reactor id
        rw [present] at matured
        obtain ⟨between, present', _⟩ := relOption_some matured
        rw [live, present'] at entered
        cases entered with
        | some holds =>
          obtain ⟨more, grown, firm⟩ := gains _ id between node' (Or.inl rfl) present' present
          rw [holds.2.2.2 rfl rfl, List.nil_append] at grown
          exact firm read (grown ▸ member)
      next => exact inside.sound.settled owner
    · have known := values other other' found'
      split at known
      next => exact known
      next apart =>
        obtain ⟨old, was, home, value⟩ := computed_leave known
        have matured := related old.reactor other
        rw [home] at live'
        rw [live'] at matured
        obtain ⟨before, present, _, _, same⟩ := relOption_some matured
        rw [value]
        exact inside.sound.valued other old before was present ((same apart).1 ▸ mark)
  · have apart : other ≠ id := fun same => fresh (same ▸ waits)
    have entered := world.enter_nodes id state.reactor owner other
    have settled := related owner other
    rw [is] at settled
    obtain ⟨inside', present, _, _, same⟩ := relOption_some settled
    have matured := inside.matures.nodes owner other
    rw [present] at matured
    obtain ⟨between, present', _⟩ := relOption_some matured
    rw [was, present'] at entered
    cases entered with
    | some holds =>
      obtain ⟨more, grown, firm'⟩ := gains owner other between inside' (Or.inr waits) present' present
      refine ⟨more, ?_, fun read member => firm (firm' read member)⟩
      rw [(same apart).2, grown, holds.2.2.1 apart]
  · rw [graphs, if_pos rfl] at present
    rw [Graph.node?_modify _ kept, if_pos rfl] at present
    obtain ⟨old, _, rfl⟩ := Option.map_eq_some_iff.mp present
    exact (steps old).2.2.1

end

end World

end ReactiveTree
