import ReactiveTree.Proofs.Reactive.Sustaining

/-! # Effects keep their way to be woken

An active effect that reads a signal through computeds that are not dirty can be reached from the
signal along dependents, and a write of the signal visits it. A write that an effect makes above a
computed that it has read leaves the computed dirty, and then the way is lost.
-/

namespace ReactiveTree

variable {κ ν σ α : Type}

/-- No closure runs in a reactor, and no batch is open. -/
structure Reactor.AtRest (reactor : Reactor) : Prop where
  frames : reactor.frames = []
  chains : reactor.chains = []
  depth : reactor.depth = 0

/-- A write that changes a signal is a pass that visits the effect. -/
def World.Wakes [BEq ν] (world : World κ ν σ) (signal effect : NodeId) : Prop :=
  ∀ state value, world.signal? signal = some state → (state.value == value) = false →
    ∃ changed : World κ ν σ,
      (∀ engine, writeSignal engine signal value world =
        notify engine state.reactor [signal] changed) ∧
      ∃ entry ∈ (changed.planPass state.reactor [signal]).1, entry.wakeup.effect = effect

namespace Graph

variable {graph after : Graph}

theorem Reaches.congr {read reader : NodeId} (path : graph.Reaches read reader)
    (dependents : ∀ id, after.dependentsOf id = graph.dependentsOf id)
    (kinds : ∀ id, after.kind? id = graph.kind? id) : after.Reaches read reader := by
  induction path with
  | direct listed => exact .direct (by rwa [dependents])
  | through listed derived _ ih => exact .through (by rwa [dependents]) ((kinds _).trans derived) ih

theorem edges_bump (graph : Graph) (id other : NodeId) :
    (graph.modify id Node.bump).dependentsOf other = graph.dependentsOf other ∧
      (graph.modify id Node.bump).kind? other = graph.kind? other := by
  have kept : ∀ node : Node, node.bump.id = node.id := fun _ => rfl
  unfold dependentsOf kind?
  rw [node?_modify _ kept]
  split
  next same =>
    subst same
    cases graph.node? other <;> exact ⟨rfl, rfl⟩
  next => exact ⟨rfl, rfl⟩

end Graph

namespace World

variable {world : World κ ν σ} {tally : Tally} {owner : ReactorId} {signal effect : NodeId}

/-- A node that is live in a reactor's graph is of the kind of its cell, which is the reactor's. -/
theorem Housed.kind?_eq (housed : world.Housed) {id : NodeId} {cell : Cell κ ν}
    (held : world.cell? id = some cell) (live : (world.graph owner).contains id) :
    cell.reactor = owner ∧ (world.graph owner).kind? id = some cell.kind := by
  obtain ⟨node, live⟩ := Option.isSome_iff_exists.mp live
  obtain ⟨cell', held', home, kind⟩ := housed.home owner id node live
  cases Option.some.inj (held.symm.trans held')
  refine ⟨home, ?_⟩
  rw [Graph.kind?, live, kind]
  rfl

/-- Where nothing is owed, an active effect can be reached from what it reads through computeds that
are not dirty. -/
theorem Listed.reaches (listed : world.Listed tally) (settled : tally.owed = [])
    {state : Effect κ} (found : world.cell? effect = some (.effect state))
    (active : state.active = true) (present : (world.graph owner).contains signal)
    (path : (world.graph owner).Reads (·.freshness ≠ .dirty) effect signal) :
    (world.graph owner).Reaches signal effect := by
  obtain ⟨source, live⟩ := Option.isSome_iff_exists.mp present
  refine (listed.lists owner).reaches (fun id node derived clean => ?_) path live
    fun node live' => ?_
  · unfold Demand.Wants
    rw [derived]
    exact fun dirty => absurd dirty clean
  · obtain ⟨cell, known, _, kind⟩ := listed.home owner effect node live'
    cases Option.some.inj (found.symm.trans known)
    unfold Demand.Wants
    rw [← kind]
    refine ⟨state.runs, ?_, by rw [settled]; exact List.not_mem_nil⟩
    unfold turn?
    rw [found]
    exact if_pos active

/-- A pass from a signal visits every effect that can be reached from it. -/
theorem exists_visit_of_reaches {state : Effect κ}
    (found : world.cell? effect = some (.effect state))
    (source : (world.graph owner).kind? signal = some .source)
    (isEffect : (world.graph owner).kind? effect = some .effect)
    (path : (world.graph owner).Reaches signal effect) :
    ∃ entry ∈ (world.planPass owner [signal]).1, entry.wakeup.effect = effect := by
  have met := Graph.meets_of_reaches (by rw [source]; nofun) isEffect path
  obtain ⟨entry, member, same, _⟩ := exists_visit found
    (show effect ∈ ((world.graph owner).invalidateAll [signal]).1.flatMap fun reach =>
      reach.direct ++ reach.indirect by
        rw [Graph.invalidateAll, if_pos (Graph.contains_of_kind? source)]
        exact List.mem_flatMap.mpr ⟨_, List.mem_singleton.mpr rfl, met⟩)
  exact ⟨entry, member, same⟩

/-- What a pass finds that a changing write starts. -/
def changed (world : World κ ν σ) (owner : ReactorId) (signal : NodeId) (value : ν) : World κ ν σ :=
  (((world.record (.wrote signal none)).modifySignal signal
    fun state => { state with value }).mapGraph owner (·.modify signal Node.bump)).record
      (.changed signal value)

theorem graph_changed (world : World κ ν σ) (owner : ReactorId) (signal : NodeId) (value : ν) :
    (world.changed owner signal value).graph owner =
      (world.graph owner).modify signal Node.bump := by
  have mapped : ∀ middle : World κ ν σ,
      (middle.mapGraph owner (·.modify signal Node.bump)).graph owner =
        (middle.graph owner).modify signal Node.bump := fun middle =>
    (graph_mapGraph middle owner rfl owner).trans (if_pos rfl)
  exact mapped _

end World

/-- At rest a changing write starts a pass at once. -/
theorem writeSignal_of_atRest [BEq ν] {world : World κ ν σ} {signal : NodeId} {state : Signal ν}
    {reactor : Reactor} (known : world.signal? signal = some state) (live : state.destroyed = false)
    (owned : world.reactor? state.reactor = some reactor) (rest : reactor.AtRest) {value : ν}
    (different : (state.value == value) = false) (engine : Engine κ ν σ) :
    writeSignal engine signal value world =
      notify engine state.reactor [signal] (world.changed state.reactor signal value) := by
  have noted : world.noteWrite state.reactor signal = world.record (.wrote signal none) := by
    have nobody : (world.reactor? state.reactor).bind Reactor.reader? = none := by
      rw [owned, Option.bind_some]
      unfold Reactor.reader?
      rw [rest.frames]
    unfold World.noteWrite
    rw [nobody]
  have allowed : requireLive state signal "write" world = some (.ok (), world) := by
    unfold requireLive
    rw [live]
    rfl
  have owned' : (world.record (.wrote signal none)).reactor? state.reactor = some reactor := owned
  have free : reactor.isCircular signal = false := by
    unfold Reactor.isCircular
    rw [rest.chains]
    rfl
  have stored : (world.changed state.reactor signal value).reactor? state.reactor =
      some (reactor.mapGraph (·.modify signal Node.bump)) := by
    show (((world.record (.wrote signal none)).modifySignal signal
      fun state => { state with value }).mapGraph state.reactor
        (·.modify signal Node.bump)).reactor? state.reactor = _
    unfold World.mapGraph
    rw [World.reactor?_modifyReactor, if_pos rfl]
    show (world.reactor? state.reactor).map _ = _
    rw [owned]
    rfl
  have idle : ¬ 0 < (reactor.mapGraph (·.modify signal Node.bump)).depth := by
    show ¬ 0 < reactor.depth
    rw [rest.depth]
    exact Nat.lt_irrefl 0
  unfold writeSignal
  rw [Run.world_bind, known]
  dsimp only
  rw [Run.bind_of_ok allowed, Run.modify_bind, noted, Run.world_bind, different, owned',
    Option.map_some, Option.getD_some, free]
  simp only [Bool.false_eq_true, if_false]
  unfold storeValue
  rw [Run.modify_bind, Run.world_bind]
  unfold World.changed at stored ⊢
  rw [stored]
  dsimp only
  rw [if_neg idle]

/-- Whatever acts a program has carried out, as long as its computeds only look: an active effect
that reads a signal through computeds of which none is dirty can be reached from the signal, and is
visited when the signal changes. -/
theorem active_effect_woken [BEq ν] (program : Program κ ν σ)
    (looks : ∀ code, (program.compute code).Looks) {depth : Nat} {act : Act κ ν σ α} {user : σ}
    {result : Except Panic α} {world : World κ ν σ}
    (ran : program.run depth act (World.initial user) = some (result, world))
    {owner : ReactorId} {reactor : Reactor} (owned : world.reactor? owner = some reactor)
    (rest : reactor.AtRest) {signal effect : NodeId} {source : Signal ν} {state : Effect κ}
    (known : world.signal? signal = some source) (live : source.destroyed = false)
    (present : (world.graph owner).contains signal) (found : world.effect? effect = some state)
    (active : state.active = true)
    (path : (world.graph owner).Reads (·.freshness ≠ .dirty) effect signal) :
    (world.graph owner).Reaches signal effect ∧ world.Wakes signal effect := by
  have listed := Program.run_listed program looks ran
  have held := World.effect?_eq_some_iff.mp found
  have held' := World.signal?_eq_some_iff.mp known
  have reaches := listed.reaches rfl held active present path
  refine ⟨reaches, fun source' value known' different => ?_⟩
  cases Option.some.inj (known.symm.trans known')
  obtain ⟨home, isSource⟩ := listed.kind?_eq held' present
  obtain ⟨_, isEffect⟩ := listed.kind?_eq held path.contains
  change source.reactor = owner at home
  subst home
  refine ⟨world.changed source.reactor signal value,
    fun engine => writeSignal_of_atRest known live owned rest different engine, ?_⟩
  have apart : effect ≠ signal := by
    rintro rfl
    rw [held] at held'
    cases held'
  have held : (world.changed source.reactor signal value).cell? effect = some (.effect state) := by
    refine (World.cell?_modifyCell world signal effect _).trans ?_
    rw [if_neg apart, held]
  have graph := world.graph_changed source.reactor signal value
  have edges := Graph.edges_bump (world.graph source.reactor) signal
  refine World.exists_visit_of_reaches held ?_ ?_ ?_
  · rw [graph, (edges signal).2]
    exact isSource
  · rw [graph, (edges effect).2]
    exact isEffect
  · rw [graph]
    exact reaches.congr (fun id => (edges id).1) fun id => (edges id).2

/-- A computed copies the first signal. An effect notes the copy and, when the signal is one, writes
a five. -/
def Program.resetting : Program Unit Nat Unit where
  compute _ := .call (.get ⟨0⟩)
  effect _ :=
    .bind (.call (.get ⟨1⟩)) fun value =>
      .bind (.call (.note value)) fun _ =>
        .bind (.call (.peek ⟨0⟩)) fun present =>
          .bind (if present = 1 then .call (.set ⟨0⟩ 5) else .pure ()) fun _ => .pure (.ok none)
  cleanup _ := .pure ()
  callback _ _ := .pure ()
  render _ := .pure none
  handler _ := .pure ()

/-- Make a signal of that value, the copy of it and the effect. -/
def Act.resetting (value : Nat) : Act Unit Nat Unit Unit :=
  .bind (.call (.newReactor {})) fun _ =>
    .bind (.call (.newSignal ⟨0⟩ value)) fun _ =>
      .bind (.call (.newComputed ⟨0⟩ ())) fun _ =>
        .bind (.call (.newEffect ⟨0⟩ () true)) fun _ => .pure ()

theorem Program.resetting_looks (code : Unit) : (Program.resetting.compute code).Looks :=
  trivial

/-- For a signal of one or two, the effect has run once and reads the copy, which reads the signal. -/
theorem Act.resetting_ends {value : Nat} (small : value ∈ [1, 2]) :
    ∃ world, Program.resetting.run 4 (Act.resetting value) (World.initial ()) =
        some (.ok (), world) ∧
      (∃ reactor, world.reactor? ⟨0⟩ = some reactor ∧ reactor.AtRest) ∧
      (∃ source, world.signal? ⟨0⟩ = some source ∧ source.destroyed = false) ∧
      (∃ state, world.effect? ⟨2⟩ = some state ∧ state.active = true ∧ state.runs = 1) ∧
      (world.graph ⟨0⟩).contains ⟨0⟩ ∧ ⟨1⟩ ∈ (world.graph ⟨0⟩).dependenciesOf ⟨2⟩ ∧
      ∃ node, (world.graph ⟨0⟩).node? ⟨1⟩ = some node ∧ node.kind = .derived ∧
        ⟨0⟩ ∈ node.dependencies := by
  have ends : ∀ value ∈ [1, 2],
      (Program.resetting.run 4 (Act.resetting value) (World.initial ())).map Prod.fst =
        some (.ok ()) := by
    decide +kernel
  have rests : ∀ value ∈ [1, 2],
      (Program.resetting.run 4 (Act.resetting value) (World.initial ())).map
        (fun reached => (reached.2.reactor? ⟨0⟩).map fun reactor =>
          (reactor.frames, reactor.chains, reactor.depth)) = some (some ([], [], 0)) := by
    decide +kernel
  have cells : ∀ value ∈ [1, 2],
      (Program.resetting.run 4 (Act.resetting value) (World.initial ())).map
        (fun reached => ((reached.2.signal? ⟨0⟩).map Signal.destroyed,
          (reached.2.effect? ⟨2⟩).map fun state => (state.active, state.runs))) =
        some (some false, some (true, 1)) := by
    decide +kernel
  have edges : ∀ value ∈ [1, 2],
      (Program.resetting.run 4 (Act.resetting value) (World.initial ())).map
        (fun reached => ((reached.2.graph ⟨0⟩).contains ⟨0⟩,
          (reached.2.graph ⟨0⟩).dependenciesOf ⟨2⟩)) = some (true, [⟨1⟩]) := by
    decide +kernel
  have copies : ∀ value ∈ [1, 2],
      (Program.resetting.run 4 (Act.resetting value) (World.initial ())).map
        (fun reached => ((reached.2.graph ⟨0⟩).node? ⟨1⟩).map fun node =>
          (node.kind, node.dependencies)) = some (some (.derived, [⟨0⟩])) := by
    decide +kernel
  have ends := ends value small
  have rests := rests value small
  have cells := cells value small
  have edges := edges value small
  have copies := copies value small
  obtain ⟨⟨result, world⟩, ran, rfl⟩ := Option.map_eq_some_iff.mp ends
  rw [ran] at rests cells edges copies
  obtain ⟨reactor, owned, rest⟩ := Option.map_eq_some_iff.mp (Option.some.inj rests)
  obtain ⟨held, held'⟩ := Prod.mk.inj (Option.some.inj cells)
  obtain ⟨source, known, live⟩ := Option.map_eq_some_iff.mp held
  obtain ⟨state, found, active⟩ := Option.map_eq_some_iff.mp held'
  obtain ⟨present, reads⟩ := Prod.mk.inj (Option.some.inj edges)
  obtain ⟨node, copied, marks⟩ := Option.map_eq_some_iff.mp (Option.some.inj copies)
  refine ⟨world, ran, ⟨reactor, owned, ?_⟩, ⟨source, known, live⟩, ⟨state, found, ?_⟩, present, ?_,
    node, copied, congrArg Prod.fst marks, ?_⟩
  · exact ⟨congrArg Prod.fst rest, congrArg (·.2.1) rest, congrArg (·.2.2) rest⟩
  · exact ⟨congrArg Prod.fst active, congrArg Prod.snd active⟩
  · rw [reads]
    exact List.mem_singleton.mpr rfl
  · rw [show node.dependencies = [⟨0⟩] from congrArg Prod.snd marks]
    exact List.mem_singleton.mpr rfl

/-- Where the signal is not one, the effect writes nothing, and keeps its way to be woken. -/
theorem active_effect_woken_copying :
    ∃ world, Program.resetting.run 4 (Act.resetting 2) (World.initial ()) = some (.ok (), world) ∧
      (world.graph ⟨0⟩).Reads (·.freshness ≠ .dirty) ⟨2⟩ ⟨0⟩ ∧
      (world.graph ⟨0⟩).Reaches ⟨0⟩ ⟨2⟩ ∧ world.Wakes ⟨0⟩ ⟨2⟩ := by
  obtain ⟨world, ran, ⟨reactor, owned, rest⟩, ⟨source, known, live⟩, ⟨state, found, active, _⟩,
    present, reads, node, copied, derived, listed⟩ :=
      Act.resetting_ends (List.mem_cons_of_mem 1 (List.mem_singleton.mpr rfl))
  have marks : (Program.resetting.run 4 (Act.resetting 2) (World.initial ())).map
      (fun reached => ((reached.2.graph ⟨0⟩).node? ⟨1⟩).map Node.freshness) =
        some (some .clean) := by
    decide +kernel
  rw [ran, Option.map_some, copied] at marks
  have clean : node.freshness = .clean := Option.some.inj (Option.some.inj marks)
  have path : (world.graph ⟨0⟩).Reads (·.freshness ≠ .dirty) ⟨2⟩ ⟨0⟩ :=
    .pair reads copied derived (by rw [clean]; nofun) listed
  exact ⟨world, ran, path, active_effect_woken Program.resetting Program.resetting_looks ran owned
    rest known live present found active path⟩

/-- An effect that wrote above a computed that it had read still depends on the signal through the
computed, but cannot be reached from the signal, and a write of the signal does not run it. -/
theorem effect_cut_off : (∀ code, (Program.resetting.compute code).Looks) ∧
    ∃ world, Program.resetting.run 4 (Act.resetting 1) (World.initial ()) = some (.ok (), world) ∧
      (∃ reactor, world.reactor? ⟨0⟩ = some reactor ∧ reactor.AtRest) ∧
      (∃ source, world.signal? ⟨0⟩ = some source ∧ source.destroyed = false) ∧
      (∃ state, world.effect? ⟨2⟩ = some state ∧ state.active = true ∧ state.runs = 1) ∧
      (world.graph ⟨0⟩).contains ⟨0⟩ ∧ (world.graph ⟨0⟩).Reads (fun _ => True) ⟨2⟩ ⟨0⟩ ∧
      ¬ (world.graph ⟨0⟩).Reaches ⟨0⟩ ⟨2⟩ ∧
      (Program.resetting.run 4 (.call (.set ⟨0⟩ 7)) world).map
        (fun reached => (reached.2.effect? ⟨2⟩).map Effect.runs) = some (some 1) := by
  obtain ⟨world, ran, reactor, source, state, present, reads, node, copied, derived, listed⟩ :=
    @Act.resetting_ends 1 List.mem_cons_self
  have nobody : (Program.resetting.run 4 (Act.resetting 1) (World.initial ())).map
      (fun reached => (reached.2.graph ⟨0⟩).dependentsOf ⟨0⟩) = some [] := by
    decide +kernel
  have silent : (Program.resetting.run 4 (Act.resetting 1) (World.initial ())).map
      (fun reached => (Program.resetting.run 4 (.call (.set ⟨0⟩ 7)) reached.2).map
        fun reached => (reached.2.effect? ⟨2⟩).map Effect.runs) = some (some (some 1)) := by
    decide +kernel
  rw [ran] at nobody silent
  have unread : (world.graph ⟨0⟩).dependentsOf ⟨0⟩ = [] := Option.some.inj nobody
  refine ⟨Program.resetting_looks, world, ran, reactor, source, state, present,
    .pair reads copied derived trivial listed, fun path => ?_, Option.some.inj silent⟩
  cases path with
  | direct member =>
    rw [unread] at member
    cases member
  | through member =>
    rw [unread] at member
    cases member

end ReactiveTree
