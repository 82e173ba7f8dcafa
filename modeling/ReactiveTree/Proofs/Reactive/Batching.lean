import ReactiveTree.Proofs.Reactive.Accounts
import ReactiveTree.Proofs.Reactive.Queues

/-! # What waits on a trail

Every trail keeps the queue of a reactor in order, and one that runs while a batch of the reactor is
open gathers. What closes the outermost batch takes the queue whole; a batch inside another one
leaves it, and so does a pass of another reactor.
-/

namespace ReactiveTree

variable {κ ν σ α : Type}

namespace World

variable {world middle after inner : World κ ν σ} {owner home : ReactorId} {id : NodeId}
  {events : List (Event κ ν)}

theorem closeBatch_fst (world : World κ ν σ) (owner : ReactorId) :
    (world.closeBatch owner).1 = if world.depth owner ≤ 1 then world.pending owner else [] := by
  unfold closeBatch depth pending opened
  cases world.reactor? owner with
  | none => rfl
  | some state =>
    show state.closeBatch.1 = if state.depth ≤ 1 then state.pending else []
    unfold Reactor.closeBatch
    split <;> rfl

theorem depth_closeBatch (world : World κ ν σ) (owner : ReactorId) :
    (world.closeBatch owner).2.depth owner = world.depth owner - 1 := by
  rw [closeBatch_snd]
  unfold depth opened
  rw [reactor?_modifyReactor, if_pos rfl]
  cases world.reactor? owner with
  | none => rfl
  | some state =>
    show state.closeBatch.2.depth = state.depth - 1
    unfold Reactor.closeBatch
    split
    next shallow => exact (Nat.sub_eq_zero_of_le shallow).symm
    next => rfl

theorem pending_closeBatch (world : World κ ν σ) (owner : ReactorId) :
    (world.closeBatch owner).2.pending owner =
      if world.depth owner ≤ 1 then [] else world.pending owner := by
  rw [closeBatch_snd]
  unfold pending depth opened
  rw [reactor?_modifyReactor, if_pos rfl]
  cases world.reactor? owner with
  | none => rfl
  | some state =>
    show state.closeBatch.2.pending = if state.depth ≤ 1 then [] else state.pending
    unfold Reactor.closeBatch
    split <;> rfl

theorem past_closeBatch (world : World κ ν σ) (owner : ReactorId) :
    (world.closeBatch owner).2.past = world.past := by
  rw [closeBatch_snd]
  rfl

/-- Besides the queue of the outermost batch nothing that matters to a queue changes. -/
theorem undisturbed_closeBatch (deep : home = owner → 2 ≤ world.depth owner) :
    Undisturbed owner world (world.closeBatch home).2 := by
  refine ⟨fun id known => ?_, fun id _ => ?_, fun id keeps => ?_, fun id _ => ?_, ?_⟩
  · rwa [closeBatch_snd]
  · rw [closeBatch_snd]
    rfl
  · rw [closeBatch_snd]
    exact keeps
  · rw [closeBatch_snd, graph_modifyReactor world home fun state _ => state.closeBatch_kept.1]
  · by_cases same : home = owner
    · subst same
      rw [pending_closeBatch, if_neg (Nat.not_le_of_lt (deep rfl))]
    · rw [closeBatch_snd]
      unfold pending
      rw [reactor?_modifyReactor, if_neg (Ne.symm same)]

theorem orderly_closeBatch (orderly : world.Orderly owner) (home : ReactorId) :
    (world.closeBatch home).2.Orderly owner := by
  by_cases deep : home = owner → 2 ≤ world.depth owner
  · refine (undisturbed_closeBatch deep).orderly (fun shallow => ?_) orderly
    by_cases same : home = owner
    · subst same
      rw [depth_closeBatch] at shallow
      have := deep rfl
      omega
    · rw [closeBatch_snd] at shallow
      unfold depth opened at shallow ⊢
      rwa [reactor?_modifyReactor, if_neg (Ne.symm same)] at shallow
  · obtain ⟨rfl, shallow⟩ := Classical.not_imp.mp deep
    have bare : (world.closeBatch home).2.pending home = [] := by
      rw [pending_closeBatch, if_pos (Nat.le_of_lt_succ (Nat.lt_of_not_le shallow))]
    refine ⟨fun _ => bare, bare ▸ .nil, fun id member => ?_⟩
    rw [bare] at member
    cases member

theorem undisturbed_openBatch (world : World κ ν σ) (home : ReactorId) :
    Undisturbed owner world (world.modifyReactor home Reactor.openBatch) :=
  undisturbed_modifyReactor world home _ (fun _ => rfl) fun _ _ => rfl

theorem depth_openBatch (world : World κ ν σ) (home owner : ReactorId) :
    world.depth owner ≤ (world.modifyReactor home Reactor.openBatch).depth owner ∧
      ((world.reactor? owner).isSome → home = owner →
        (world.modifyReactor home Reactor.openBatch).depth owner = world.depth owner + 1) := by
  unfold depth opened
  rw [reactor?_modifyReactor]
  split
  next same =>
    subst same
    cases world.reactor? owner with
    | none => exact ⟨Nat.le_refl _, nofun⟩
    | some state => exact ⟨Nat.le_succ _, fun _ _ => rfl⟩
  next apart => exact ⟨Nat.le_refl _, fun _ same => absurd same.symm apart⟩

theorem orderly_openBatch (orderly : world.Orderly owner) (home : ReactorId) :
    (world.modifyReactor home Reactor.openBatch).Orderly owner :=
  (undisturbed_openBatch world home).orderly
    (fun shallow => Nat.le_zero.mp (shallow ▸ (world.depth_openBatch home owner).1)) orderly

/-- A stretch keeps the queue of a reactor in order, and gathers where it may. -/
structure Advances (owner : ReactorId) (may : Prop) (world after : World κ ν σ) : Prop where
  depth : after.depth owner = world.depth owner
  orderly : world.Orderly owner → after.Orderly owner
  gathers : world.Orderly owner → 0 < world.depth owner → may →
    ∃ events, Gathers owner world events after

variable {may : Prop}

theorem Advances.refl (world : World κ ν σ) : Advances owner may world world :=
  ⟨rfl, id, fun orderly _ _ => ⟨[], (Undisturbed.refl world).gathers orderly rfl (.nil _ _)⟩⟩

theorem Advances.trans (start : Advances owner may world middle)
    (finish : Advances owner may middle after) : Advances owner may world after := by
  refine ⟨finish.depth.trans start.depth, fun orderly => finish.orderly (start.orderly orderly),
    fun orderly open' allowed => ?_⟩
  obtain ⟨events, gathers⟩ := start.gathers orderly open' allowed
  obtain ⟨later, gathers'⟩ := finish.gathers (start.orderly orderly) (start.depth ▸ open') allowed
  exact ⟨_, gathers.trans orderly (start.orderly orderly) gathers'⟩

theorem Advances.mono {must : Prop} (advances : Advances owner may world after)
    (implies : must → may) : Advances owner must world after :=
  ⟨advances.depth, advances.orderly, fun orderly open' must =>
    advances.gathers orderly open' (implies must)⟩

/-- A stretch that leaves the queue alone and records nothing of note. -/
theorem Undisturbed.advances (undisturbed : Undisturbed owner world after)
    (events : List (Event κ ν)) (depth : after.depth owner = world.depth owner) (past : after.past = events ++ world.past)
    (plain : may → after.Plain owner events) : Advances owner may world after :=
  ⟨depth, undisturbed.orderly fun shallow => depth.symm.trans shallow, fun orderly _ allowed =>
    ⟨events, undisturbed.gathers orderly past (plain allowed)⟩⟩

theorem Undisturbed.still (undisturbed : Undisturbed owner world after)
    (depth : after.depth owner = world.depth owner) (past : after.past = world.past) :
    Advances owner may world after :=
  undisturbed.advances [] depth past fun _ => .nil _ _

/-- Events that tell of no new value and no pass at all. -/
theorem Plain.of_quiet (world : World κ ν σ)
    (quiet : ∀ event ∈ events, event.changed? = none ∧ ∀ sources, event ≠ .passStarted owner sources) :
    world.Plain owner events := by
  refine ⟨fun sources member => (quiet _ member).2 sources rfl, fun id changed => ?_⟩
  obtain ⟨event, member, same⟩ := List.mem_map.mp changed
  rw [(quiet event member).1] at same
  cases same

theorem Plain.single (world : World κ ν σ) {event : Event κ ν}
    (quiet : event.changed? = none ∧ ∀ sources, event ≠ .passStarted owner sources) :
    world.Plain owner [event] :=
  .of_quiet world fun _ member => List.mem_singleton.mp member ▸ quiet

theorem depth_congr (same : after.opened owner = world.opened owner) :
    after.depth owner = world.depth owner :=
  congrArg (·.2.2) same

theorem depth_modifyReactor (world : World κ ν σ) (home : ReactorId) {change : Reactor → Reactor}
    (kept : ∀ state, (change state).depth = state.depth) (owner : ReactorId) :
    (world.modifyReactor home change).depth owner = world.depth owner := by
  unfold depth opened
  rw [reactor?_modifyReactor]
  split
  next same =>
    subst same
    cases world.reactor? owner with
    | none => rfl
    | some state => exact kept state
  next => rfl

theorem modifyReactor_advances (world : World κ ν σ) (home : ReactorId)
    (change : Reactor → Reactor) (kept : ∀ state, (change state).depth = state.depth ∧
      (change state).pending = state.pending ∧ (change state).graph = state.graph) :
    Advances owner may world (world.modifyReactor home change) :=
  (undisturbed_modifyReactor world home _ (fun state => (kept state).2.1) fun state _ => by
    rw [(kept state).2.2]).still (depth_modifyReactor world home (fun state => (kept state).1) owner) rfl

theorem pushFrame_advances (world : World κ ν σ) (home : ReactorId) (frame : Frame) :
    Advances owner may world (world.modifyReactor home (·.pushFrame frame)) :=
  modifyReactor_advances world home _ fun _ => ⟨rfl, rfl, rfl⟩

theorem popFrame_advances (world : World κ ν σ) (home : ReactorId) :
    Advances owner may world (world.modifyReactor home Reactor.popFrame) :=
  modifyReactor_advances world home _ fun _ => ⟨rfl, rfl, rfl⟩

theorem modifyEffect_advances (world : World κ ν σ) (id : NodeId) (change : Effect κ → Effect κ)
    (kept : ∀ effect, (change effect).reactor = effect.reactor) :
    Advances owner may world (world.modifyEffect id change) :=
  (undisturbed_modifyEffect world id kept).still rfl rfl

theorem Unbatched.depth (unbatched : world.Unbatched owner) : world.depth owner = 0 := by
  unfold World.depth opened
  cases found : world.reactor? owner with
  | none => rfl
  | some state => exact unbatched state found

/-- In a batch within a batch another one is open. -/
theorem deeper_inBatch
    (depth : inner.depth owner = (world.modifyReactor owner Reactor.openBatch).depth owner)
    (open' : 0 < world.depth owner) : 2 ≤ inner.depth owner := by
  have known : (world.reactor? owner).isSome := by
    refine Option.isSome_iff_ne_none.mpr fun absent => ?_
    unfold World.depth opened at open'
    rw [absent] at open'
    exact Nat.lt_irrefl 0 open'
  rw [depth, (world.depth_openBatch owner owner).2 known rfl]
  exact Nat.succ_le_succ open'

/-- A batch as a whole, up to where it notifies. -/
theorem batch_advances
    (inside : Advances owner True (world.modifyReactor home Reactor.openBatch) inner)
    (depth : (inner.closeBatch home).2.depth owner = world.depth owner) :
    Advances owner True world (inner.closeBatch home).2 := by
  have opened : Undisturbed owner world (world.modifyReactor home Reactor.openBatch) :=
    undisturbed_openBatch world home
  refine ⟨depth, fun kept => orderly_closeBatch (inside.orderly (orderly_openBatch kept home)) home,
    fun kept open' _ => ?_⟩
  have begun := orderly_openBatch kept home
  obtain ⟨events, gathers⟩ := inside.gathers begun
    (Nat.lt_of_lt_of_le open' (world.depth_openBatch home owner).1) trivial
  have kept' := inside.orderly begun
  have closed : Undisturbed owner inner (inner.closeBatch home).2 :=
    undisturbed_closeBatch fun same => by
      subst same
      exact deeper_inBatch inside.depth open'
  have started : Gathers owner world [] (world.modifyReactor home Reactor.openBatch) :=
    opened.gathers kept rfl (.nil _ _)
  have finished : Gathers owner inner [] (inner.closeBatch home).2 :=
    closed.gathers kept' (past_closeBatch inner home) (.nil _ _)
  exact ⟨_, (started.trans kept begun gathers).trans kept kept' finished⟩

theorem depth_of_unknown (absent : world.reactor? owner = none) : world.depth owner = 0 := by
  unfold depth opened
  rw [absent]
  rfl

/-- What happens in an outermost batch is all that its queue comes from. -/
theorem outermost_gathers (orderly : world.Orderly home) (known : (world.reactor? home).isSome)
    (outermost : world.depth home = 0)
    (inside : Advances home True (world.modifyReactor home Reactor.openBatch) inner) :
    inner.depth home = 1 ∧ inner.Orderly home ∧
      (world.modifyReactor home Reactor.openBatch).pending home = [] ∧
      ∃ events, Gathers home (world.modifyReactor home Reactor.openBatch) events inner := by
  have one : (world.modifyReactor home Reactor.openBatch).depth home = 1 := by
    rw [(world.depth_openBatch home home).2 known rfl, outermost]
  have opened : Undisturbed home world (world.modifyReactor home Reactor.openBatch) :=
    undisturbed_openBatch world home
  have begun := orderly_openBatch orderly home
  exact ⟨inside.depth.trans one, inside.orderly begun, opened.pending.trans (orderly.idle outermost),
    inside.gathers begun (one ▸ Nat.one_pos) trivial⟩

/-- Where a batch has something to tell, a signal has taken a new value in it. -/
theorem wrote_of_due (orderly : world.Orderly home)
    (inside : Advances home True (world.modifyReactor home Reactor.openBatch) inner)
    (due : (inner.closeBatch home).1 ≠ []) :
    ∃ events id, inner.past = events ++ world.past ∧ id ∈ inner.written home events := by
  have shallow : ¬ 0 < world.depth home := fun open' => by
    rw [closeBatch_fst, if_neg (Nat.not_le_of_lt (deeper_inBatch inside.depth open'))] at due
    exact due rfl
  have outermost := Nat.eq_zero_of_not_pos shallow
  have known : (world.reactor? home).isSome := by
    refine Option.isSome_iff_ne_none.mpr fun absent => due ?_
    have bare : (world.modifyReactor home Reactor.openBatch).depth home = 0 := by
      refine depth_of_unknown ?_
      rw [reactor?_modifyReactor, if_pos rfl, absent]
      rfl
    rw [closeBatch_fst, (inside.orderly (orderly_openBatch orderly home)).idle
      (inside.depth.trans bare)]
    exact ite_self _
  obtain ⟨one, _, bare, events, gathers⟩ := outermost_gathers orderly known outermost inside
  rw [closeBatch_fst, if_pos one.le] at due
  obtain ⟨id, member⟩ := List.exists_mem_of_ne_nil _ due
  refine ⟨events, id, gathers.past, (gathers.source id member).resolve_left fun old => ?_⟩
  rw [bare] at old
  cases old

/-- A stretch in which one node leaves the graph and the queue. -/
structure Forgotten (owner : ReactorId) (id : NodeId) (world after : World κ ν σ) : Prop where
  known : ∀ other, (world.cell? other).isSome → (after.cell? other).isSome
  owns : ∀ other, (world.cell? other).isSome → after.owns owner other = world.owns owner other
  keeps : ∀ other, other ≠ id → world.Keeps owner other → after.Keeps owner other
  live : ∀ other, other ≠ id → (after.graph owner).contains other = (world.graph owner).contains other
  gone : (after.graph owner).contains id = false
  pending : after.pending owner = (world.pending owner).erase id

theorem Forgotten.advances (forgotten : Forgotten owner id world after)
    (depth : after.depth owner = world.depth owner) (past : after.past = world.past) :
    Advances owner may world after := by
  have waits : ∀ {other}, world.Orderly owner → other ∈ after.pending owner →
      other ≠ id ∧ other ∈ world.pending owner := by
    intro other orderly member
    rw [forgotten.pending] at member
    exact orderly.distinct.mem_erase_iff.mp member
  refine ⟨depth, fun orderly => ⟨fun shallow => ?_, ?_, fun other member => ?_⟩,
    fun orderly _ _ => ⟨[], forgotten.known, forgotten.owns, fun other _ live => ?_, past,
      fun _ => nofun, fun _ => nofun, ?_, fun other member => Or.inl (waits orderly member).2,
      fun other member => ?_⟩⟩
  · rw [forgotten.pending, orderly.idle (depth.symm.trans shallow)]
    rfl
  · rw [forgotten.pending]
    exact orderly.distinct.erase id
  · obtain ⟨apart, waits⟩ := waits orderly member
    exact forgotten.keeps other apart (orderly.keeps other waits)
  · by_cases same : other = id
    · subst same
      rw [forgotten.gone] at live
      cases live
    · rwa [forgotten.live other same] at live
  · rw [forgotten.pending, orderly.distinct.erase_eq_filter]
    refine List.filter_filter.trans (List.filter_congr fun other _ => ?_)
    by_cases same : other = id
    · subst same
      rw [forgotten.gone]
      rfl
    · rw [bne_iff_ne.mpr same, Bool.and_true]
  · obtain ⟨apart, waits⟩ := waits orderly member
    rw [forgotten.live other apart]
    cases live : (world.graph owner).contains other with
    | true => exact Or.inl rfl
    | false => exact Or.inr (Or.inr (Or.inr ⟨waits, rfl⟩))

/-- A node leaves the graph of its reactor, perhaps when its cell was marked. -/
theorem unregister_advances {world marked : World κ ν σ} (reactors : marked.reactors = world.reactors)
    (past : marked.past = world.past)
    (known : ∀ other, (world.cell? other).isSome → (marked.cell? other).isSome)
    (owns : ∀ other, (world.cell? other).isSome → marked.owns owner other = world.owns owner other)
    (keeps : ∀ other, (other = id → marked.owns owner id = false) → world.Keeps owner other →
      marked.Keeps owner other) :
    Advances owner may world (marked.unregister id).2 := by
  have depth : (marked.unregister id).2.depth owner = world.depth owner :=
    depth_congr ((opened_unregister marked id owner).trans (opened_of_reactors reactors owner))
  have past' : (marked.unregister id).2.past = world.past := by
    unfold unregister
    split <;> exact past
  have waiting : ∀ home, (marked.modifyReactor home (·.removeNode id)).pending owner =
      if owner = home then (world.pending owner).erase id else world.pending owner := by
    intro home
    rw [← pending_of_reactors reactors owner]
    unfold pending
    rw [reactor?_modifyReactor]
    split
    next same =>
      subst same
      cases marked.reactor? owner <;> rfl
    next => rfl
  have left : ∀ home, (marked.modifyReactor home (·.removeNode id)).graph owner =
      if owner = home then (world.graph owner).remove id else world.graph owner := by
    intro home
    rw [removeNode_eq]
    refine (graph_modifyReactor _ home ?_ owner).trans ?_
    · exact fun _ _ => rfl
    · rw [graph_mapGraph _ home rfl]
      split
      next same => rw [same, graph_of_reactors reactors]
      next => exact graph_of_reactors reactors owner
  revert depth past'
  unfold unregister
  split
  next absent =>
    intro depth past'
    refine Undisturbed.still ⟨known, owns, fun other kept => keeps other (fun _ => ?_) kept,
      fun other _ => ?_, ?_⟩ depth past'
    · unfold World.owns
      rw [absent]
      rfl
    · rw [graph_of_reactors reactors]
    · exact pending_of_reactors reactors owner
  next cell found =>
    intro depth past'
    by_cases home : owner = cell.reactor
    · have forgotten : Forgotten owner id world (marked.modifyReactor cell.reactor (·.removeNode id)) := by
        refine ⟨known, owns, fun other apart => keeps other fun same => absurd same apart,
          fun other apart => ?_, ?_, ?_⟩
        · rw [left, if_pos home]
          exact Graph.contains_remove _ apart
        · rw [left, if_pos home]
          unfold Graph.contains
          rw [Graph.node?_remove_self]
          rfl
        · rw [waiting, if_pos home]
      exact forgotten.advances depth past'
    · refine Undisturbed.still ⟨known, owns, fun other kept => keeps other (fun _ => ?_) kept,
        fun other _ => ?_, ?_⟩ depth past'
      · rw [owns_of_cell found]
        exact decide_eq_false fun same => home (congrArg Prod.fst same).symm
      · rw [left, if_neg home]
      · rw [waiting, if_neg home]

theorem perish_advances (world : World κ ν σ) (handle : Handle) :
    Advances owner may world (world.perish handle).2 := by
  cases handle with
  | reactor home =>
    have pending : (world.perish (.reactor home)).2.pending owner = world.pending owner := by
      refine pending_modifyReactor world home ?_ owner
      exact fun _ => rfl
    have emptied : (world.perish (.reactor home)).2.graph owner =
        if owner = home then .empty else world.graph owner :=
      graph_mapGraph world home rfl owner
    refine ⟨depth_congr (opened_perish world _ owner), fun orderly => ⟨fun shallow =>
      pending.trans (orderly.idle ?_), pending ▸ orderly.distinct, fun id member =>
        orderly.keeps id (pending ▸ member)⟩, fun orderly _ _ => ⟨[.died home], ?_⟩⟩
    · exact (depth_congr (opened_perish world (.reactor home) owner)).symm.trans shallow
    · have plain : ∀ after : World κ ν σ, after.Plain owner [.died home] :=
        fun after => .single after ⟨rfl, fun _ => nofun⟩
      by_cases same : owner = home
      · subst same
        have dead : ∀ id, ((world.perish (.reactor owner)).2.graph owner).contains id = false := by
          intro id
          rw [emptied, if_pos rfl]
          rfl
        refine ⟨fun _ known => known, fun _ _ => rfl, fun id _ live => ?_, rfl, (plain world).1,
          fun id changed => ((plain world).2 id changed).1, ?_, fun id member =>
            Or.inl (pending ▸ member), fun id member => Or.inr (Or.inl List.mem_cons_self)⟩
        · rw [dead] at live
          cases live
        · rw [List.filter_eq_nil_iff.mpr fun id _ => by rw [dead]; exact Bool.false_ne_true,
            List.filter_eq_nil_iff.mpr fun id _ => by rw [dead]; exact Bool.false_ne_true]
      · refine Undisturbed.gathers ⟨fun _ known => known, fun _ _ => rfl, fun _ kept => kept,
          fun id _ => ?_, pending⟩ orderly rfl (plain _)
        rw [emptied, if_neg same]
  | node id =>
    unfold perish
    dsimp only
    split
    next => exact .refl world
    next => exact unregister_advances rfl rfl (fun _ known => known) (fun _ _ => rfl) fun _ _ kept => kept
    next => exact .refl world

theorem shed_advances (world : World κ ν σ) (handle : Handle) :
    Advances owner may world (world.shed handle) := by
  have lost : Advances owner may world (world.lose handle) :=
    (undisturbed_lose world handle).still (depth_congr (opened_lose world handle owner))
      (by cases handle <;> rfl)
  unfold shed
  split
  next => exact lost.trans (perish_advances _ handle)
  next => exact lost

theorem put_advances {signal : Signal ν} (found : world.signal? id = some signal)
    (apart : may → signal.reactor ≠ owner) (value : ν) :
    Advances owner may world (world.put signal.reactor id value) := by
  have cell := signal?_eq_some_iff.mp found
  have undisturbed : Undisturbed owner world (world.put signal.reactor id value) :=
    undisturbed_put world signal.reactor id value
  refine undisturbed.advances [.changed id value]
    (depth_congr (opened_put world _ id value owner)) rfl fun allowed => ⟨fun _ => nofun, ?_⟩
  rintro other changed
  cases Option.some.inj (List.mem_singleton.mp changed)
  have known : (world.cell? id).isSome := by
    rw [cell]
    rfl
  refine ⟨undisturbed.known id known, (undisturbed.owns id known).trans ?_⟩
  rw [owns_of_cell cell]
  exact decide_eq_false fun same => apart allowed (congrArg Prod.fst same)

theorem defer_advances {signal : Signal ν} {state : Reactor}
    (found : world.signal? id = some signal) (kept : signal.destroyed = false)
    (present : world.reactor? signal.reactor = some state) (batched : 0 < state.depth) (value : ν) :
    Advances owner may world ((world.put signal.reactor id value).modifyReactor signal.reactor
      (·.postpone id)) := by
  have depth : ((world.put signal.reactor id value).modifyReactor signal.reactor
      (·.postpone id)).depth owner = world.depth owner := by
    refine depth_congr ((opened_modifyReactor _ _ ?_ owner).trans (opened_put world _ _ _ owner))
    exact fun _ => rfl
  by_cases home : signal.reactor = owner
  · subst home
    have put : Undisturbed signal.reactor world (world.put signal.reactor id value) :=
      undisturbed_put world signal.reactor id value
    have waits : ((world.put signal.reactor id value).modifyReactor signal.reactor
        (·.postpone id)).pending signal.reactor = addLast (world.pending signal.reactor) id := by
      rw [← put.pending]
      obtain ⟨state', found'⟩ : ∃ state', (world.put signal.reactor id value).reactor?
          signal.reactor = some state' := by
        refine ⟨state.mapGraph (·.modify id Node.bump), ?_⟩
        show (World.modifyReactor _ _ _).reactor? _ = _
        rw [reactor?_modifyReactor, if_pos rfl]
        exact congrArg (Option.map _) present
      unfold World.pending
      rw [reactor?_modifyReactor, if_pos rfl, found']
      rfl
    have graphs : ((world.put signal.reactor id value).modifyReactor signal.reactor
        (·.postpone id)).graph signal.reactor =
          (world.put signal.reactor id value).graph signal.reactor := by
      refine graph_modifyReactor _ _ ?_ _
      exact fun _ _ => rfl
    have keeps : world.Keeps signal.reactor id := ⟨signal, found, rfl, kept⟩
    have wrote : ((world.put signal.reactor id value).modifyReactor signal.reactor
        (·.postpone id)).written signal.reactor [.changed id value] = [id] := by
      refine List.filter_cons_of_pos ?_
      exact (put.owns id keeps.known).trans keeps.owns
    refine ⟨depth, fun orderly => ⟨fun shallow => ?_, ?_, fun other member => ?_⟩,
      fun orderly _ _ => ⟨[.changed id value], put.known, put.owns, fun other known live => ?_, rfl,
        fun _ => nofun, fun other changed => ?_, ?_, fun other member => ?_, fun other member => ?_⟩⟩
    · have open' : world.depth signal.reactor = state.depth := by
        unfold World.depth opened
        rw [present]
        rfl
      omega
    · rw [waits]
      exact nodup_addLast orderly.distinct id
    · rw [waits] at member
      rcases mem_addLast.mp member with old | rfl
      · exact put.keeps other (orderly.keeps other old)
      · exact put.keeps other keeps
    · rwa [graphs, put.live other known] at live
    · cases Option.some.inj (List.mem_singleton.mp changed)
      exact put.known id keeps.known
    · rw [waits, wrote]
      rfl
    · rw [wrote]
      rw [waits] at member
      exact (mem_addLast.mp member).imp_right List.mem_singleton.mpr
    · rw [waits] at member
      rw [wrote]
      rcases mem_addLast.mp member with old | rfl
      · rw [graphs, put.live other (orderly.keeps other old).known]
        cases live : (world.graph signal.reactor).contains other with
        | true => exact Or.inl rfl
        | false => exact Or.inr (Or.inr (Or.inr ⟨old, rfl⟩))
      · exact Or.inr (Or.inr (Or.inl List.mem_cons_self))
  · have postponed : Undisturbed owner (world.put signal.reactor id value)
        ((world.put signal.reactor id value).modifyReactor signal.reactor (·.postpone id)) := by
      refine ⟨fun _ known => known, fun _ _ => rfl, fun _ keeps => keeps, fun other _ => ?_, ?_⟩
      · refine congrArg (·.contains other) (graph_modifyReactor _ _ ?_ owner)
        exact fun _ _ => rfl
      · unfold World.pending
        rw [reactor?_modifyReactor, if_neg (Ne.symm home)]
    refine (put_advances found (fun _ => home) value).trans (postponed.still ?_ rfl)
    exact depth.trans (depth_congr (opened_put world _ _ _ owner)).symm

theorem Change.advances (change : world.Change after) : Advances owner may world after := by
  have depth : after.depth owner = world.depth owner := depth_congr (change.opened owner)
  cases change with
  | aside _ remarks past cells reactors =>
    refine (Undisturbed.of_same cells reactors).advances _ depth past fun _ => .of_quiet _ ?_
    intro event member
    have remark := remarks event member
    cases event with
    | changed => exact remark.elim
    | passStarted => exact remark.elim
    | _ => exact ⟨rfl, fun _ => nofun⟩
  | hold handle => exact (undisturbed_hold world handle).still depth (by cases handle <;> rfl)
  | shed handle => exact shed_advances world handle
  | @stop id effect =>
    have stopped : Advances owner may world (world.modifyEffect id ({ · with active := false })) :=
      modifyEffect_advances world id _ fun _ => rfl
    refine (stopped.trans ((undisturbed_hold _ (.reactor effect.reactor)).still ?_ rfl)).trans
      (unregister_advances rfl rfl (fun _ known => known) (fun _ _ => rfl) fun _ _ kept => kept)
    exact depth_congr (opened_hold _ _ owner)
  | abandon => exact modifyEffect_advances world _ _ fun _ => rfl
  | @destroy id signal found kept =>
    -- The mark is what the signal may not have while it waits, but it leaves the queue as well.
    have cells : ∀ other, other ≠ id → (world.modifySignal id ({ · with destroyed := true })).cell?
        other = world.cell? other := fun other apart => by
      unfold modifySignal
      rw [cell?_modifyCell, if_neg apart]
    have marked : (world.modifySignal id ({ · with destroyed := true })).cell? id =
        some (.signal { signal with destroyed := true }) := by
      unfold modifySignal
      rw [cell?_modifyCell, if_pos rfl, signal?_eq_some_iff.mp found]
      rfl
    have owns : ∀ other, (world.modifySignal id ({ · with destroyed := true })).owns owner other =
        world.owns owner other := by
      intro other
      by_cases same : other = id
      · subst same
        rw [owns_of_cell marked, owns_of_cell (signal?_eq_some_iff.mp found)]
        rfl
      · unfold World.owns
        rw [cells other same]
    show Advances owner may world
      ((world.modifySignal id ({ · with destroyed := true })).unregister id).2
    refine unregister_advances rfl rfl (fun other known => ?_) (fun other _ => owns other)
      fun other apart keeps => ?_
    · by_cases same : other = id
      · subst same
        rw [marked]
        rfl
      · rwa [cells other same]
    · by_cases same : other = id
      · have owned := keeps.owns
        rw [same, ← owns, apart same] at owned
        cases owned
      · obtain ⟨state, found', stands⟩ := keeps
        refine ⟨state, ?_, stands⟩
        rw [signal?_eq_some_iff, cells other same, signal?_eq_some_iff.mp found']
  | defer found kept present batched => exact defer_advances found kept present batched _
  | @putLost id signal value found lost =>
    -- Where there is no reactor no batch is open.
    have put : Advances owner (signal.reactor ≠ owner) world (world.put signal.reactor id value) :=
      put_advances found (fun apart => apart) value
    refine ⟨depth, put.orderly, fun orderly open' _ => put.gathers orderly open' ?_⟩
    rintro rfl
    unfold World.depth World.opened at open'
    rw [lost] at open'
    exact absurd open' (Nat.lt_irrefl 0)
  | @noteWrite id signal found =>
    obtain ⟨writer, past⟩ := past_noteWrite world signal.reactor id
    exact (undisturbed_noteWrite world signal.reactor id).advances _ depth past fun _ =>
      .single _ ⟨rfl, fun _ => nofun⟩
  | addReactor settings => exact (undisturbed_addReactor world settings).still depth rfl
  | addHolding =>
    exact ((undisturbed_hold world _).trans (undisturbed_addCell _ _)).still depth rfl
  | addEffect home body => exact (undisturbed_addCell world _).still depth rfl
  | label =>
    exact (undisturbed_modifyNode world _ _ (·.withLabel _) fun _ => rfl).still depth rfl
  | tweak id kept =>
    exact (undisturbed_modifyEffect world id fun effect => (kept effect).1).still depth rfl

theorem enterBody_advances (world : World κ ν σ) (id : NodeId) (home : ReactorId) :
    Advances owner may world (world.enterBody id home) :=
  Advances.trans ((undisturbed_record world _).advances [.started id] rfl rfl
    fun _ => .single _ ⟨rfl, fun _ => nofun⟩) (pushFrame_advances _ home (.tracked id))

theorem leaveBody_advances (world : World κ ν σ) (id : NodeId) (home : ReactorId)
    (panicked : Bool) : Advances owner may world (world.leaveBody id home panicked) :=
  (popFrame_advances world home).trans ((undisturbed_record _ _).advances
    [.ended id panicked] rfl rfl fun _ => .single _ ⟨rfl, fun _ => nofun⟩)

theorem enter_advances (world : World κ ν σ) (id : NodeId) (home : ReactorId) :
    Advances owner may world (world.enter id home) := by
  have computing : Undisturbed owner world (world.modifyComputed id ({ · with computing := true })) :=
    undisturbed_modifyComputed world id fun _ => rfl
  have bared := computing.trans (undisturbed_mapGraph _ home (·.unsubscribe id)
    fun graph other => graph.contains_unsubscribe id other)
  exact (bared.still (depth_congr (opened_mapGraph _ home _ owner)) rfl).trans
    (enterBody_advances _ id home)

/-- The value of a computed is of no signal. -/
theorem afterEvaluation_advances [BEq ν] {computed present : Computed κ ν}
    (found : inner.computed? id = some present) (result : Except Panic ν)
    (depth : (inner.afterEvaluation id computed result).2.depth owner = inner.depth owner) :
    Advances owner may inner (inner.afterEvaluation id computed result).2 := by
  have undisturbed : Undisturbed owner inner (inner.afterEvaluation id computed result).2 :=
    undisturbed_afterEvaluation inner id computed result
  have cell := computed?_eq_some_iff.mp found
  have known : (inner.cell? id).isSome := by
    rw [cell]
    rfl
  have foreign : (inner.afterEvaluation id computed result).2.owns owner id = false := by
    rw [undisturbed.owns id known, owns_of_cell cell]
    exact decide_eq_false fun same => nomatch congrArg Prod.snd same
  have ended : ∀ panicked, ∀ after : World κ ν σ, after.Plain owner [.ended id panicked] :=
    fun panicked after => .single after ⟨rfl, fun _ => nofun⟩
  cases result with
  | error panic =>
    exact undisturbed.advances [.ended id true] depth rfl fun _ => ended true _
  | ok value =>
    have pasts : ((inner.leave id computed.reactor false).settleValue id computed value).past =
          [.ended id false] ++ inner.past ∨
        ((inner.leave id computed.reactor false).settleValue id computed value).past =
          [.changed id value, .ended id false] ++ inner.past := by
      unfold settleValue
      extract_lets same
      split
      next => exact Or.inl rfl
      next => exact Or.inr rfl
    rcases pasts with past | past
    · exact undisturbed.advances _ depth past fun _ => ended false _
    · refine undisturbed.advances _ depth past fun _ => ⟨fun sources member => ?_, fun other changed => ?_⟩
      · simp at member
      · have same : other = id := by simpa [Event.changed?] using changed
        rw [same]
        exact ⟨undisturbed.known id known, foreign⟩

theorem past_enterPass (world : World κ ν σ) (home : ReactorId) (sources : List NodeId) :
    (world.enterPass home sources).past = [.passStarted home sources] ++ world.past := by
  have held : ∀ (members : List Visit) (start : World κ ν σ), (members.foldl
      (fun world entry => world.hold (.node entry.wakeup.effect)) start).past = start.past := by
    intro members
    induction members with
    | nil => exact fun _ => rfl
    | cons member rest ih => exact fun start => ih _
  exact held _ _

theorem enterPass_advances (world : World κ ν σ) (home : ReactorId) (sources : List NodeId) :
    Advances owner (home ≠ owner) world (world.enterPass home sources) := by
  refine (undisturbed_enterPass world home sources).advances _
    (depth_congr (opened_enterPass world home sources owner)) (past_enterPass world home sources)
    fun apart => .single _ ⟨rfl, fun _ same => ?_⟩
  injection same with here
  exact apart here

end World

/-- A pass of the reactor itself does not begin. -/
def Phase.Foreign (owner : ReactorId) : Phase → Prop
  | .pass home _ => home ≠ owner
  | _ => True

open World in
/-- Every trail keeps the queue of a reactor in order. While a batch is open it gathers. -/
theorem Trail.advances [BEq ν] {program : Program κ ν σ} {phase : Phase}
    {world after : World κ ν σ} (trail : Trail program phase world after)
    (owner : ReactorId) : Advances owner (phase.Foreign owner) world after := by
  induction trail with
  | refl mode world => exact .refl world
  | trans _ _ start finish => exact start.trans finish
  | serve _ serving => exact serving
  | change change => exact change.advances
  | @read world id cell =>
    obtain ⟨reader, past⟩ := past_noteRead world cell.reactor id
    exact (undisturbed_noteRead world cell.reactor id).advances _
      (depth_congr (opened_noteRead world _ _ owner)) past fun _ => .single _ ⟨rfl, fun _ => nofun⟩
  | untracked home _ ih =>
    exact ((pushFrame_advances _ home _).trans ih).trans (popFrame_advances _ home)
  | cleanup _ _ ih => exact ((pushFrame_advances _ _ _).trans ih).trans (popFrame_advances _ _)
  | batch home inside _ ih =>
    exact batch_advances ih (depth_congr (opened_closeBatch home inside.opened owner))
  | @flush world inner after home inside due _ ih ih' =>
    have closed : Advances owner True world (inner.closeBatch home).2 :=
      batch_advances ih (depth_congr (opened_closeBatch home inside.opened owner))
    have passed := (closed.mono fun _ => trivial).trans ih'
    refine ⟨passed.depth, passed.orderly, fun orderly open' _ => passed.gathers orderly open' ?_⟩
    -- The batch that closes last is the only one with sources to tell.
    rintro rfl
    rw [closeBatch_fst, if_neg (Nat.not_le_of_lt (deeper_inBatch ih.depth open'))] at due
    exact due rfl
  | @store world id signal value _ found kept unbatched _ ih =>
    have put : Advances owner (signal.reactor ≠ owner) world (world.put signal.reactor id value) :=
      put_advances found (fun apart => apart) value
    refine ⟨(put.trans ih).depth, (put.trans ih).orderly, fun orderly open' _ =>
      (put.trans ih).gathers orderly open' ?_⟩
    rintro rfl
    exact absurd unbatched.depth (Nat.ne_of_gt open')
  | refresh _ _ ih => exact ih
  | @execute world id _ _ ih =>
    have told : world.Change (world.record (.executed id)) := .record world trivial
    exact told.advances.trans ih
  | @born world _ home body _ ih =>
    exact (Change.advances (.addEffect home body)).trans ih
  | @confirm world id computed =>
    exact (undisturbed_modifyNode world computed.reactor id Node.markClean
      fun _ => rfl).still (depth_congr (opened_mapGraph world _ _ owner)) rfl
  | @evaluate world id computed present inner found _ _ inside result ih =>
    have begun : Advances owner True world inner := (enter_advances world id computed.reactor).trans ih
    obtain ⟨_, found', _⟩ := ((leads_enter world id computed.reactor).trans inside.leads).computed found
    refine begun.trans (afterEvaluation_advances found' result ?_)
    exact (depth_congr (opened_afterEvaluation inside.opened result owner)).trans begun.depth.symm
  | decline => exact .refl _
  | @run world id effect middle inner last after panicked _ _ _ _ _ _ _ _ cleaned inside settled
      released =>
    have held : Advances owner True world (world.hold (.reactor effect.reactor)) :=
      Change.advances (.hold _)
    have engaged : Advances owner True (world.hold (.reactor effect.reactor))
        ((world.hold (.reactor effect.reactor)).engage id effect.reactor) :=
      (undisturbed_engage _ id effect.reactor).still
        (depth_congr (opened_engage _ id effect.reactor owner)) rfl
    have ran := (((held.trans engaged).trans cleaned).trans (enterBody_advances _ id _)).trans inside
    have counted := (ran.trans (leaveBody_advances inner id effect.reactor panicked)).trans
      (modifyEffect_advances _ id (fun effect => { effect with runs := effect.runs + 1 })
        fun _ => rfl)
    exact ((counted.trans settled).trans (modifyEffect_advances last id
      ({ · with executing := false }) fun _ => rfl)).trans released
  | skip => exact .refl _
  | @again world home entry =>
    exact (undisturbed_mapGraph world home (·.resubscribe entry.wakeup.effect)
      fun graph other => graph.contains_resubscribe _ other).still
        (depth_congr (opened_mapGraph world _ _ owner)) rfl
  | spare _ _ _ _ ih => exact ih
  | @wake world home entry effect middle after _ _ _ _ _ asked ran =>
    have chained : Advances owner True middle
        (middle.modifyReactor home (·.pushChain entry.wakeup.causes)) :=
      modifyReactor_advances middle home _ fun _ => ⟨rfl, rfl, rfl⟩
    have unchained : Advances owner True after (after.modifyReactor home Reactor.popChain) :=
      modifyReactor_advances after home _ fun _ => ⟨rfl, rfl, rfl⟩
    exact ((asked.trans chained).trans ran).trans unchained
  | done => exact .refl _
  | next _ _ _ visit drop others => exact (visit.trans drop).trans others
  | @pass world home sources after _ ih =>
    have ended : Advances owner (home ≠ owner) after (after.record (.passEnded home)) :=
      (undisturbed_record after _).advances [.passEnded home] rfl rfl
        fun _ => .single _ ⟨rfl, fun _ => nofun⟩
    exact ((enterPass_advances world home sources).trans (ih.mono fun _ => trivial)).trans ended

end ReactiveTree
