import ReactiveTree.Proofs.Graph.Settling
import ReactiveTree.Proofs.Reactive.Evaluating
import ReactiveTree.Proofs.Reactive.Keeping

/-! # Computeds that block each other

While a computed is brought up to date it is pending, and it may be asked for once more before that
is done, around a cycle of reads. Such a request must fail. It does where every pending computed is
either in evaluation or has a pending computed in front of everything that it could still check: a
request only goes round until it meets an evaluation or runs out of depth.
-/

namespace ReactiveTree

variable {κ ν σ : Type}

namespace World

/-- What the library relies on while some computeds are pending. -/
structure Staged (world : World κ ν σ) (pending : NodeId → Prop) : Prop where
  homes : ∀ owner id node, (world.graph owner).node? id = some node →
    ∃ cell, world.cell? id = some cell ∧ cell.reactor = owner ∧ cell.kind = node.kind
  held : ∀ id state, world.computed? id = some state →
    ((world.graph state.reactor).node? id).isSome → 0 < state.holders
  busy : ∀ id state, world.computed? id = some state → state.computing = true → pending id
  readers : ∀ owner reader, world.reader? owner = some reader →
    pending reader ∨ (world.effect? reader).isSome

/-- A request for a computed fails: it is in evaluation, or a node in the way comes before everything
that is left to be checked. -/
inductive Blocked (world : World κ ν σ) (inWay : NodeId → Prop) (id : NodeId) : Prop
  | busy {state node} (found : world.computed? id = some state)
      (live : (world.graph state.reactor).node? id = some node) (dirty : node.freshness = .dirty)
      (computing : state.computing = true)
  | behind {state node next input before rest} (found : world.computed? id = some state)
      (live : (world.graph state.reactor).node? id = some node)
      (doubtful : node.freshness = .doubtful) (reads : node.dependencies = before ++ next :: rest)
      (firm : ∀ read ∈ before, (world.graph state.reactor).Firm read) (waits : inWay next)
      (present : (world.graph state.reactor).node? next = some input)
      (derived : input.kind = .derived)

variable {world after : World κ ν σ} {pending inWay inWay' : NodeId → Prop} {id : NodeId}

theorem Staged.computed (staged : world.Staged pending) {owner : ReactorId} {node : Node}
    (found : (world.graph owner).node? id = some node) (derived : node.kind = .derived) :
    ∃ state, world.computed? id = some state ∧ state.reactor = owner := by
  obtain ⟨cell, known, home, kind⟩ := staged.homes owner id node found
  rw [derived] at kind
  cases cell with
  | signal => cases kind
  | effect => cases kind
  | computed state => exact ⟨state, computed?_eq_some_iff.mpr known, home⟩

/-- The node of a computed is derived. -/
theorem Staged.derived (staged : world.Staged pending) {state : Computed κ ν}
    (found : world.computed? id = some state) {node : Node}
    (live : (world.graph state.reactor).node? id = some node) : node.kind = .derived := by
  obtain ⟨cell, known, _, kind⟩ := staged.homes _ id node live
  rw [computed?_eq_some_iff.mp found] at known
  cases known
  exact kind.symm

/-- A computed stays blocked where it keeps its mark and its reads, and clean nodes stay clean. -/
theorem Blocked.carry (blocked : world.Blocked inWay id)
    (computed : ∀ state, world.computed? id = some state → ∃ state', after.computed? id = some state' ∧
      state'.reactor = state.reactor ∧ state'.computing = state.computing)
    (nodes : ∀ owner other, Option.Rel (fun old new : Node => new.kind = old.kind ∧
      (old.freshness = .clean → new.freshness = .clean))
      ((world.graph owner).node? other) ((after.graph owner).node? other))
    (own : ∀ owner old new, (world.graph owner).node? id = some old →
      (after.graph owner).node? id = some new → new.freshness = old.freshness ∧
        old.dependencies <+: new.dependencies)
    (more : ∀ next, inWay next → inWay' next) : after.Blocked inWay' id := by
  have carried : ∀ {owner other old}, (world.graph owner).node? other = some old →
      ∃ new, (after.graph owner).node? other = some new ∧ new.kind = old.kind := by
    intro owner other old was
    have related := nodes owner other
    rw [was] at related
    revert related
    generalize (after.graph owner).node? other = new?
    intro related
    cases related with
    | some holds => exact ⟨_, rfl, holds.1⟩
  cases blocked with
  | @busy state node found live dirty computing =>
    obtain ⟨state', found', home, same⟩ := computed state found
    obtain ⟨node', live', _⟩ := carried live
    obtain ⟨mark, _⟩ := own _ node node' live live'
    exact .busy found' (by rw [home]; exact live') (mark.trans dirty) (same.trans computing)
  | @behind state node next input before rest found live doubtful reads firm waits present derived =>
    obtain ⟨state', found', home, same⟩ := computed state found
    obtain ⟨node', live', _⟩ := carried live
    obtain ⟨mark, added, grown⟩ := own _ node node' live live'
    obtain ⟨input', present', kind⟩ := carried present
    have reads' : node'.dependencies = before ++ next :: (rest ++ added) := by
      rw [← grown, reads, List.append_assoc, List.cons_append]
    refine .behind found' (by rw [home]; exact live') (mark.trans doubtful) reads'
      (fun read member => ?_) (more _ waits) (by rw [home]; exact present') (kind.trans derived)
    rw [home]
    exact (firm read member).of_node (nodes state.reactor read)

theorem computed?_hold (world : World κ ν σ) (id other : NodeId) :
    (world.hold (.node id)).computed? other = (world.computed? other).map fun state =>
      if other = id then { state with holders := state.holders + 1 } else state := by
  have cells : (world.hold (.node id)).cell? other = _ := cell?_modifyCell world id other _
  unfold computed?
  rw [cells]
  by_cases same : other = id
  · subst same
    rw [if_pos rfl]
    cases world.cell? other with
    | none => rfl
    | some cell => cases cell <;> simp [Cell.withHolders, Cell.holders]
  · rw [if_neg same]
    cases world.cell? other with
    | none => rfl
    | some cell => cases cell <;> simp [same]

theorem computed_hold (world : World κ ν σ) (id : NodeId) {other : NodeId} {state : Computed κ ν}
    (found : world.computed? other = some state) :
    ∃ state', (world.hold (.node id)).computed? other = some state' ∧
      state'.reactor = state.reactor ∧ state'.body = state.body ∧ state'.value = state.value ∧
        state'.computing = state.computing ∧ state.holders ≤ state'.holders := by
  rw [computed?_hold, found]
  refine ⟨_, rfl, ?_⟩
  dsimp only
  split
  next => exact ⟨rfl, rfl, rfl, rfl, Nat.le_succ _⟩
  next => exact ⟨rfl, rfl, rfl, rfl, Nat.le_refl _⟩

theorem Staged.hold (staged : world.Staged pending) (id : NodeId) :
    (world.hold (.node id)).Staged pending where
  homes owner other node found := by
    obtain ⟨cell, known, home, kind⟩ := staged.homes owner other node found
    obtain ⟨new, present, goes⟩ := (continues_hold world id).after known
    exact ⟨new, present, goes.reactor.trans home, goes.kind.trans kind⟩
  held other state found live := by
    rw [computed?_hold] at found
    obtain ⟨old, was, rfl⟩ := Option.map_eq_some_iff.mp found
    split at live
    next => exact Nat.lt_of_lt_of_le (staged.held other old was live) (by split <;> simp)
    next apart =>
      rw [if_neg apart]
      exact staged.held other old was live
  busy other state found computing := by
    rw [computed?_hold] at found
    obtain ⟨old, was, rfl⟩ := Option.map_eq_some_iff.mp found
    refine staged.busy other old was ?_
    split at computing <;> exact computing
  readers owner reader reading := by
    refine (staged.readers owner reader reading).imp_right fun isEffect => ?_
    obtain ⟨effect, found⟩ := Option.isSome_iff_exists.mp isEffect
    obtain ⟨new, present, goes⟩ := (continues_hold world id).after (effect?_eq_some_iff.mp found)
    cases new with
    | signal => cases goes.kind
    | computed => cases goes.kind
    | effect state =>
      rw [effect?_eq_some_iff.mpr present]
      rfl

theorem Blocked.hold (blocked : world.Blocked inWay id) (other : NodeId) :
    (world.hold (.node other)).Blocked inWay id := by
  refine blocked.carry (fun state found => ?_)
    (fun _ _ => relOption_refl (fun _ => ⟨rfl, fun clean => clean⟩) _)
    (fun _ old new was is => ?_) fun _ waits => waits
  · obtain ⟨state', found', home, _, _, computing, _⟩ := computed_hold world other found
    exact ⟨state', found', home, computing⟩
  · cases Option.some.inj (was.symm.trans is)
    exact ⟨rfl, List.prefix_refl _⟩

end World

/-- A run fails and leaves the world as it is. -/
def Run.Fails {α : Type} (run : Run κ ν σ α) (world : World κ ν σ) : Prop :=
  run.Ends world fun result after => after = world ∧ ∃ panic, result = .error panic

/-- A run that holds a computed fails as its body does. -/
theorem Run.Fails.holding {world : World κ ν σ} {id : NodeId} {body : Run κ ν σ Unit}
    {cell : Cell κ ν} (known : world.cell? id = some cell) (held : 0 < cell.holders)
    (fails : body.Fails (world.hold (.node id))) : (Run.holding (.node id) body).Fails world := by
  refine .of_modify (fails.thenAlways fun result after stopped => ?_)
  obtain ⟨rfl, failed⟩ := stopped
  refine ⟨?_, failed⟩
  rw [World.drop_eq_lose (World.holdersOf_ne_one known held rfl), World.lose_hold]

variable [BEq ν] {program : Program κ ν σ} {world : World κ ν σ} {pending : NodeId → Prop}
  {id : NodeId}

/-- Nothing is done about a node that is firm. -/
theorem refresh_firm (program : Program κ ν σ) (staged : world.Staged pending) (id : NodeId)
    (firm : ∀ state, world.computed? id = some state → (world.graph state.reactor).Firm id)
    (depth : Nat) : (activate program depth (.refresh id)).Ends world fun result after =>
      result = .ok () ∧ after = world := by
  cases depth with
  | zero => exact fun _ _ => nofun
  | succ depth =>
    refine .of_world ?_
    split
    next =>
      rintro _ _ ⟨⟩
      exact ⟨rfl, rfl⟩
    next state found =>
      dsimp only
      cases live : (world.graph state.reactor).node? id with
      | none =>
        rintro _ _ ⟨⟩
        exact ⟨rfl, rfl⟩
      | some node =>
        rw [Option.map_some, firm state found node live (staged.derived found live)]
        rintro _ _ ⟨⟩
        exact ⟨rfl, rfl⟩

/-- The entry of a dependency among the inputs of a computed. -/
def Graph.input? (graph : Graph) (read : NodeId) : Option (NodeId × Nat) :=
  match graph.node? read with
  | some node => if node.kind = .derived then some (read, node.version) else none
  | none => none

theorem Graph.derivedInputs_eq {graph : Graph} {node : Node} (live : graph.node? id = some node) :
    graph.derivedInputs id = node.dependencies.filterMap graph.input? := by
  show (graph.dependenciesOf id).filterMap graph.input? = _
  rw [dependenciesOf, live]
  rfl

theorem Graph.input?_of_derived {graph : Graph} {node : Node} (live : graph.node? id = some node)
    (derived : node.kind = .derived) : graph.input? id = some (id, node.version) := by
  unfold input?
  rw [live]
  exact if_pos derived

/-- An input that fails stops the check, if the inputs in front of it are firm. -/
theorem checkInputs_fails (staged : world.Staged pending) {computed : Computed κ ν} {depth : Nat}
    {next : NodeId} {input : Node} {before rest : List NodeId}
    (firm : ∀ read ∈ before, (world.graph computed.reactor).Firm read)
    (present : (world.graph computed.reactor).node? next = some input)
    (derived : input.kind = .derived) (fails : (activate program depth (.refresh next)).Fails world) :
    (checkInputs program (activate program depth) id computed
      ((before ++ next :: rest).filterMap (world.graph computed.reactor).input?)).Fails world := by
  induction before with
  | nil =>
    rw [List.nil_append, List.filterMap_cons, Graph.input?_of_derived present derived]
    refine Run.Ends.bind fails (fun _ _ stopped => ?_) fun panic _ stopped => ⟨stopped.1, panic, rfl⟩
    obtain ⟨_, _, failed⟩ := stopped
    cases failed
  | cons read before ih =>
    have ih := ih fun other member => firm other (List.mem_cons_of_mem _ member)
    rw [List.cons_append, List.filterMap_cons]
    cases entry : (world.graph computed.reactor).input? read with
    | none => exact ih
    | some input =>
      unfold Graph.input? at entry
      split at entry
      next node live =>
        split at entry
        next derived =>
          cases entry
          have clean := firm read List.mem_cons_self node live derived
          obtain ⟨state, found, home⟩ := staged.computed live derived
          have firm' : ∀ other, world.computed? read = some other →
              (world.graph other.reactor).Firm read := by
            intro other found'
            cases Option.some.inj (found.symm.trans found')
            exact home ▸ firm read List.mem_cons_self
          have idle := refresh_firm program staged read firm' depth
          refine Run.Ends.bind idle (fun _ after same => .of_world ?_) fun _ _ ran => nomatch ran.1
          obtain ⟨_, rfl⟩ := same
          rw [if_neg]
          · exact ih
          · rw [Graph.version?, live]
            exact fun differs => differs rfl
        next => cases entry
      next => cases entry

/-- A request for a blocked computed fails, if those in its way are blocked too. -/
theorem refresh_blocked (staged : world.Staged pending) {inWay : NodeId → Prop}
    (blocked : ∀ other, inWay other → world.Blocked inWay other) (waits : inWay id) (depth : Nat) :
    (activate program depth (.refresh id)).Fails world := by
  induction depth generalizing world id with
  | zero => exact fun _ _ => nofun
  | succ depth ih =>
    have node?_of : ∀ {state : Computed κ ν} {node : Node}, world.computed? id = some state →
        (world.graph state.reactor).node? id = some node → world.node? id = some node :=
      fun found live => (World.node?_eq (World.computed?_eq_some_iff.mp found)).trans live
    intro result after ran
    change refreshComputed program (activate program depth) id world = _ at ran
    cases blocked id waits with
    | @busy state node found live dirty computing =>
      have known := World.computed?_eq_some_iff.mp found
      rw [refreshComputed_of known (node?_of found live), dirty] at ran
      refine Run.Fails.holding known (staged.held id state found (by rw [live]; rfl)) ?_ _ _ ran
      obtain ⟨state', found', _, _, _, computing', _⟩ := World.computed_hold world id found
      refine .of_world ?_
      have raises : (some state').any Computed.computing = true := computing'.trans computing
      rw [found', if_pos raises]
      rintro _ _ ⟨⟩
      exact ⟨rfl, _, rfl⟩
    | @behind state node next input before rest found live doubtful reads firm waits' present derived =>
      have known := World.computed?_eq_some_iff.mp found
      rw [refreshComputed_of known (node?_of found live), doubtful] at ran
      refine Run.Fails.holding known (staged.held id state found (by rw [live]; rfl)) ?_ _ _ ran
      rw [Graph.derivedInputs_eq live, reads]
      exact checkInputs_fails (staged.hold id) firm present derived
        (ih (staged.hold id) (fun other inWay => (blocked other inWay).hold id) waits')

end ReactiveTree
