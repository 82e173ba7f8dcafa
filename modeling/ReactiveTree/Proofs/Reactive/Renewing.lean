import ReactiveTree.Proofs.Graph.Carrying
import ReactiveTree.Proofs.Reactive.Blocking

/-! # Worlds in which marks are sound

Marks are sound where every computed that is not dirty has a value, and every clean one reads clean
ones only. While computeds are brought up to date some are pending: each is in evaluation, or waits
for the next, or has read nothing in doubt so far. Such worlds change in a way that lets clean nodes
and pending ones be.
-/

namespace ReactiveTree

variable {κ ν σ α β : Type}

/-- How a node may change while computeds are brought up to date. -/
def Node.Matured (pending : Prop) (before after : Node) : Prop :=
  after.kind = before.kind ∧ (before.freshness = .clean → after.freshness = .clean) ∧
    (pending → after.freshness = before.freshness)

theorem Node.Matured.refl {pending : Prop} (node : Node) : node.Matured pending node :=
  ⟨rfl, fun clean => clean, fun _ => rfl⟩

theorem Node.Matured.trans {pending : Prop} {first second third : Node}
    (start : first.Matured pending second) (finish : second.Matured pending third) :
    first.Matured pending third :=
  ⟨finish.1.trans start.1, fun clean => finish.2.1 (start.2.1 clean),
    fun waits => (finish.2.2 waits).trans (start.2.2 waits)⟩

namespace World

/-- Marks can be trusted. -/
structure Sound (world : World κ ν σ) : Prop where
  settled : ∀ owner, (world.graph owner).Settled
  valued : ∀ id state node, world.computed? id = some state →
    (world.graph state.reactor).node? id = some node → node.freshness ≠ .dirty → state.value.isSome

/-- No read of a node has been recorded for the node itself. -/
def NoSelfReads (world : World κ ν σ) : Prop :=
  ∀ id, .read id (some id) ∉ world.past

/-- Pending computeds keep their marks, and clean nodes stay clean. -/
structure Matures (world : World κ ν σ) (pending : NodeId → Prop) (after : World κ ν σ) : Prop where
  skeleton : after.skeleton = world.skeleton
  nodes : ∀ owner id, Option.Rel (Node.Matured (pending id))
    ((world.graph owner).node? id) ((after.graph owner).node? id)

/-- Whatever pending computeds have read meanwhile is firm. -/
def Gains (world : World κ ν σ) (pending : NodeId → Prop) (after : World κ ν σ) : Prop :=
  ∀ owner id old new, pending id → (world.graph owner).node? id = some old →
    (after.graph owner).node? id = some new → ∃ more, new.dependencies = old.dependencies ++ more ∧
      ∀ read ∈ more, (after.graph owner).Firm read

/-- A run that brings something up to date keeps marks sound; if it succeeds, pending computeds have
read nothing in doubt. -/
structure Renewed (world : World κ ν σ) (pending : NodeId → Prop) (result : Except Panic α)
    (after : World κ ν σ) : Prop where
  matures : world.Matures pending after
  sound : after.Sound
  gains : ∀ value, result = .ok value → world.Gains pending after

/-- A computed is in evaluation, reads are recorded for it, and none of them leaves a doubt. -/
structure Collects (world : World κ ν σ) (id : NodeId) (state : Computed κ ν) : Prop where
  found : world.computed? id = some state
  reading : world.reader? state.reactor = some id
  firm : ∃ node, (world.graph state.reactor).node? id = some node ∧ node.freshness = .doubtful ∧
    ∀ read ∈ node.dependencies, (world.graph state.reactor).Firm read

/-- Between two reads of a closure. -/
structure Attentive (world : World κ ν σ) (pending : NodeId → Prop) : Prop where
  staged : world.Staged pending
  sound : world.Sound
  waits : ∀ id, pending id → world.Blocked pending id ∨ ∃ state, world.Collects id state

/-- Before a computed is brought up to date, on behalf of the pending ones. -/
structure Poised (world : World κ ν σ) (pending : NodeId → Prop) (id : NodeId) : Prop where
  staged : world.Staged pending
  sound : world.Sound
  waits : ∀ other, pending other → world.Blocked (fun next => next = id ∨ pending next) other ∨
    ∃ state, world.Collects other state ∧ (world.graph state.reactor).node? id = none

variable {world middle after : World κ ν σ} {pending : NodeId → Prop} {id : NodeId}
  {owner : ReactorId}

theorem computed?_of_skeleton (same : after.skeleton = world.skeleton) {state : Computed κ ν}
    (found : after.computed? id = some state) : ∃ old, world.computed? id = some old ∧
      old.reactor = state.reactor ∧ old.computing = state.computing ∧
        old.holders = state.holders := by
  have bare : (after.cell? id).map Cell.bare = (world.cell? id).map Cell.bare := by
    rw [← skeleton_cell?, same, skeleton_cell?]
  rw [computed?_eq_some_iff.mp found] at bare
  obtain ⟨old, known, equal⟩ := Option.map_eq_some_iff.mp bare.symm
  cases old with
  | signal => cases equal
  | effect => cases equal
  | computed old =>
    have kept : (Cell.computed old : Cell κ ν).bare = (Cell.computed state).bare := equal
    simp only [Cell.bare, Cell.computed.injEq, Computed.mk.injEq] at kept
    exact ⟨old, computed?_eq_some_iff.mpr known, kept.1, kept.2.2.2⟩

theorem Matures.refl (world : World κ ν σ) : world.Matures pending world :=
  ⟨rfl, fun _ _ => relOption_refl Node.Matured.refl _⟩

theorem Matures.trans (start : world.Matures pending middle) (finish : middle.Matures pending after) :
    world.Matures pending after where
  skeleton := finish.skeleton.trans start.skeleton
  nodes owner id := relOption_trans (fun _ _ _ first second => first.trans second)
    (start.nodes owner id) (finish.nodes owner id)

theorem Matures.firm (matures : world.Matures pending after) (firm : (world.graph owner).Firm id) :
    (after.graph owner).Firm id :=
  firm.of_node (relOption_mono (fun _ _ holds => ⟨holds.1, holds.2.1⟩) (matures.nodes owner id))

theorem Matures.node (matures : world.Matures pending after) {node : Node}
    (live : (world.graph owner).node? id = some node) :
    ∃ node', (after.graph owner).node? id = some node' ∧ node.Matured (pending id) node' := by
  have related := matures.nodes owner id
  rw [live] at related
  revert related
  generalize (after.graph owner).node? id = node?
  intro related
  cases related with
  | some holds => exact ⟨_, rfl, holds⟩

theorem Matures.absent (matures : world.Matures pending after)
    (absent : (world.graph owner).node? id = none) : (after.graph owner).node? id = none := by
  have related := matures.nodes owner id
  rw [absent] at related
  revert related
  generalize (after.graph owner).node? id = node?
  intro related
  cases related with
  | none => rfl

theorem Matures.computed (matures : world.Matures pending after) {state : Computed κ ν}
    (found : world.computed? id = some state) : ∃ state', after.computed? id = some state' ∧
      state'.reactor = state.reactor ∧ state'.computing = state.computing ∧
        state'.holders = state.holders :=
  computed?_of_skeleton matures.skeleton.symm found

theorem Gains.refl (world : World κ ν σ) : world.Gains pending world := by
  intro owner id old new _ was is
  cases Option.some.inj (was.symm.trans is)
  exact ⟨[], (List.append_nil _).symm, nofun⟩

theorem Gains.trans (start : world.Gains pending middle) (begun : world.Matures pending middle)
    (finish : middle.Gains pending after) (ended : middle.Matures pending after) :
    world.Gains pending after := by
  intro owner id old new waits was is
  obtain ⟨between, present, _⟩ := begun.node was
  obtain ⟨more, grown, firm⟩ := start owner id old between waits was present
  obtain ⟨more', grown', firm'⟩ := finish owner id between new waits present is
  refine ⟨more ++ more', by rw [grown', grown, List.append_assoc], fun read member => ?_⟩
  rcases List.mem_append.mp member with earlier | later
  · exact ended.firm (firm read earlier)
  · exact firm' read later

theorem Renewed.refl {world : World κ ν σ} (sound : world.Sound) (result : Except Panic α) :
    world.Renewed pending result world :=
  ⟨.refl world, sound, fun _ _ => .refl world⟩

theorem Renewed.then {value : α} {result : Except Panic β}
    (first : world.Renewed pending (.ok value) middle)
    (second : middle.Renewed pending result after) : world.Renewed pending result after :=
  ⟨first.matures.trans second.matures, second.sound, fun _ ok =>
    (first.gains value rfl).trans first.matures (second.gains _ ok) second.matures⟩

/-- A failure is passed on. -/
theorem Renewed.failure {panic : Panic}
    (renewed : world.Renewed pending (.error panic : Except Panic α) after) :
    world.Renewed pending (.error panic : Except Panic β) after :=
  ⟨renewed.matures, renewed.sound, fun _ => nofun⟩

theorem Staged.of_matures (staged : world.Staged pending) (matures : world.Matures pending after) :
    after.Staged pending where
  homes owner id node found := by
    have related := matures.nodes owner id
    rw [found] at related
    obtain ⟨old, was, kind, _⟩ := relOption_some related
    obtain ⟨cell, known, home, kind'⟩ := staged.homes owner id old was
    obtain ⟨new, present, goes⟩ := (continues_of_skeleton matures.skeleton).after known
    exact ⟨new, present, goes.reactor.trans home, goes.kind.trans (kind'.trans kind.symm)⟩
  held id state found live := by
    obtain ⟨old, was, home, _, holders⟩ := computed?_of_skeleton matures.skeleton found
    rw [← holders]
    refine staged.held id old was ?_
    rw [home, ← relOption_isSome (matures.nodes state.reactor id)]
    exact live
  busy id state found computing := by
    obtain ⟨old, was, _, same, _⟩ := computed?_of_skeleton matures.skeleton found
    exact staged.busy id old was (same.trans computing)
  readers owner reader reading := by
    rw [reader?_of_skeleton matures.skeleton] at reading
    refine (staged.readers owner reader reading).imp_right fun isEffect => ?_
    obtain ⟨effect, found⟩ := Option.isSome_iff_exists.mp isEffect
    obtain ⟨new, present, goes⟩ :=
      (continues_of_skeleton matures.skeleton).after (effect?_eq_some_iff.mp found)
    cases new with
    | signal => cases goes.kind
    | computed => cases goes.kind
    | effect state =>
      rw [effect?_eq_some_iff.mpr present]
      rfl

theorem Blocked.of_matures {inWay inWay' : NodeId → Prop} (blocked : world.Blocked inWay id)
    (matures : world.Matures pending after) (waits : pending id)
    (grows : ∀ owner old new, (world.graph owner).node? id = some old →
      (after.graph owner).node? id = some new → old.dependencies <+: new.dependencies)
    (more : ∀ next, inWay next → inWay' next) : after.Blocked inWay' id := by
  refine blocked.carry (fun state found => ?_) (fun owner other => ?_)
    (fun owner old new was is => ⟨?_, grows owner old new was is⟩) more
  · obtain ⟨state', found', home, computing, _⟩ := matures.computed found
    exact ⟨state', found', home, computing⟩
  · exact relOption_mono (fun _ _ holds => ⟨holds.1, holds.2.1⟩) (matures.nodes owner other)
  · obtain ⟨new', is', matured⟩ := matures.node was
    cases Option.some.inj (is.symm.trans is')
    exact matured.2.2 waits

theorem Gains.grows (gains : world.Gains pending after) (waits : pending id) (owner : ReactorId)
    (old new : Node) (was : (world.graph owner).node? id = some old)
    (is : (after.graph owner).node? id = some new) : old.dependencies <+: new.dependencies := by
  obtain ⟨more, grown, _⟩ := gains owner id old new waits was is
  rw [grown]
  exact List.prefix_append _ _

theorem Collects.of_gains {state : Computed κ ν} (collects : world.Collects id state)
    (waits : pending id) (matures : world.Matures pending after) (gains : world.Gains pending after) :
    ∃ state', after.Collects id state' ∧ state'.reactor = state.reactor := by
  obtain ⟨state', found', home, _⟩ := matures.computed collects.found
  obtain ⟨node, live, doubtful, firm⟩ := collects.firm
  obtain ⟨node', live', matured⟩ := matures.node live
  obtain ⟨more, grown, firm'⟩ := gains state.reactor id node node' waits live live'
  refine ⟨state', ⟨found', ?_, node', by rw [home]; exact live',
    (matured.2.2 waits).trans doubtful, fun read member => ?_⟩, home⟩
  · rw [reader?_of_skeleton matures.skeleton, home]
    exact collects.reading
  · rw [home]
    rw [grown] at member
    rcases List.mem_append.mp member with earlier | later
    · exact matures.firm (firm read earlier)
    · exact firm' read later

theorem Attentive.renew (attentive : world.Attentive pending) {value : α}
    (renewed : world.Renewed pending (.ok value) after) : after.Attentive pending where
  staged := attentive.staged.of_matures renewed.matures
  sound := renewed.sound
  waits id waits := by
    have gains := renewed.gains value rfl
    rcases attentive.waits id waits with blocked | ⟨state, collects⟩
    · exact Or.inl (blocked.of_matures renewed.matures waits (gains.grows waits) fun _ holds => holds)
    · obtain ⟨state', collects', _⟩ := collects.of_gains waits renewed.matures gains
      exact Or.inr ⟨state', collects'⟩

theorem Poised.renew (poised : world.Poised pending id) {pending' : NodeId → Prop}
    (more : ∀ other, pending other → pending' other) {value : α}
    (renewed : world.Renewed pending' (.ok value) after) (staged : after.Staged pending) :
    after.Poised pending id where
  staged := staged
  sound := renewed.sound
  waits other waits := by
    have gains := renewed.gains value rfl
    have waits' := more other waits
    rcases poised.waits other waits with blocked | ⟨state, collects, absent⟩
    · exact Or.inl (blocked.of_matures renewed.matures waits' (gains.grows waits') fun _ holds => holds)
    · obtain ⟨state', collects', home⟩ := collects.of_gains waits' renewed.matures gains
      exact Or.inr ⟨state', collects', home ▸ renewed.matures.absent absent⟩

/-- A computed has one node. -/
theorem Staged.sole (staged : world.Staged pending) {state : Computed κ ν}
    (found : world.computed? id = some state) {node node' : Node}
    (live : (world.graph state.reactor).node? id = some node)
    (live' : (world.graph owner).node? id = some node') : node' = node := by
  obtain ⟨cell, known, home, _⟩ := staged.homes owner id node' live'
  rw [computed?_eq_some_iff.mp found] at known
  cases known
  subst home
  exact Option.some.inj (live'.symm.trans live)

/-- A pending computed is not clean. -/
theorem Blocked.stale {inWay : NodeId → Prop} (blocked : world.Blocked inWay id)
    (staged : world.Staged pending) {node : Node}
    (live : (world.graph owner).node? id = some node) : node.freshness ≠ .clean := by
  cases blocked with
  | busy found live' dirty =>
    rw [staged.sole found live' live, dirty]
    nofun
  | behind found live' doubtful =>
    rw [staged.sole found live' live, doubtful]
    nofun

theorem Collects.stale {state : Computed κ ν} (collects : world.Collects id state)
    (staged : world.Staged pending) {node : Node}
    (live : (world.graph owner).node? id = some node) : node.freshness ≠ .clean := by
  obtain ⟨node', live', doubtful, _⟩ := collects.firm
  rw [staged.sole collects.found live' live, doubtful]
  nofun

theorem Attentive.stale (attentive : world.Attentive pending) (waits : pending id) {node : Node}
    (live : (world.graph owner).node? id = some node) : node.freshness ≠ .clean := by
  rcases attentive.waits id waits with blocked | ⟨_, collects⟩
  · exact blocked.stale attentive.staged live
  · exact collects.stale attentive.staged live

end World

end ReactiveTree
