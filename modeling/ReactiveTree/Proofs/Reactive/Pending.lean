import ReactiveTree.Proofs.Reactive.Closing

/-! # What waits for a batch to close

While a batch of a reactor is open, a signal that takes a new value waits in a queue, once and in
the order of first values; when it leaves the graph it leaves the queue too. `Gathers` says how the
queue at the end of a stretch comes from the queue at its start and from what was recorded between
them, and that no pass has begun meanwhile.

The order of the queue is told of the signals that are live in the end. A program may write a signal
that has left the graph, or its reactor may die; only then does a signal wait that is not live.
-/

namespace ReactiveTree

variable {κ ν σ : Type}

section

variable {α : Type} [DecidableEq α]

theorem filter_addLast (keep : α → Bool) (members : List α) (member : α) :
    (addLast members member).filter keep =
      if keep member then addLast (members.filter keep) member else members.filter keep := by
  by_cases present : member ∈ members
  · rw [addLast_of_mem present]
    split
    next kept => exact (addLast_of_mem (List.mem_filter.mpr ⟨present, kept⟩)).symm
    next => rfl
  · rw [addLast_of_not_mem present, List.filter_append]
    split
    next kept =>
      rw [addLast_of_not_mem fun member => present (List.mem_filter.mp member).1,
        List.filter_cons_of_pos kept]
      rfl
    next dropped => rw [List.filter_cons_of_neg dropped, List.filter_nil, List.append_nil]

theorem filter_addAll (keep : α → Bool) (members added : List α) :
    (addAll members added).filter keep = addAll (members.filter keep) (added.filter keep) := by
  induction added generalizing members with
  | nil => rfl
  | cons member rest ih =>
    show (addAll (addLast members member) rest).filter keep = _
    rw [ih, filter_addLast]
    by_cases kept : keep member = true
    · rw [if_pos kept, List.filter_cons_of_pos kept]
      rfl
    · rw [if_neg kept, List.filter_cons_of_neg kept]

theorem addAll_append (members added more : List α) :
    addAll members (added ++ more) = addAll (addAll members added) more :=
  List.foldl_append

end

/-- The node that took a new value. -/
def Event.changed? : Event κ ν → Option NodeId
  | .changed id _ => some id
  | _ => none

namespace World

/-- How many batches of a reactor are open. -/
def depth (world : World κ ν σ) (owner : ReactorId) : Nat :=
  (world.opened owner).2.2

/-- The signals that wait for the batches of a reactor to close. -/
def pending (world : World κ ν σ) (owner : ReactorId) : List NodeId :=
  ((world.reactor? owner).map Reactor.pending).getD []

/-- A signal of a reactor. -/
def owns (world : World κ ν σ) (owner : ReactorId) (id : NodeId) : Bool :=
  (world.cell? id).any fun cell => cell.place = (owner, .source)

/-- A signal of a reactor that was not destroyed. -/
def Keeps (world : World κ ν σ) (owner : ReactorId) (id : NodeId) : Prop :=
  ∃ signal, world.signal? id = some signal ∧ signal.reactor = owner ∧ signal.destroyed = false

/-- The signals of a reactor that took new values, in order, as often as they did. -/
def written (world : World κ ν σ) (owner : ReactorId) (events : List (Event κ ν)) : List NodeId :=
  (events.reverse.filterMap Event.changed?).filter (world.owns owner)

/-- Signals wait only while a batch is open, each once, and only such as can still be written. -/
structure Orderly (world : World κ ν σ) (owner : ReactorId) : Prop where
  idle : world.depth owner = 0 → world.pending owner = []
  distinct : (world.pending owner).Nodup
  keeps : ∀ id ∈ world.pending owner, world.Keeps owner id

/-- A stretch that leaves the queue of a reactor alone. -/
structure Undisturbed (owner : ReactorId) (world after : World κ ν σ) : Prop where
  known : ∀ id, (world.cell? id).isSome → (after.cell? id).isSome
  owns : ∀ id, (world.cell? id).isSome → after.owns owner id = world.owns owner id
  keeps : ∀ id, world.Keeps owner id → after.Keeps owner id
  live : ∀ id, (world.cell? id).isSome →
    (after.graph owner).contains id = (world.graph owner).contains id
  pending : after.pending owner = world.pending owner

/-- A stretch within a batch of a reactor: no pass begins, and what waits in the end waited before
or has taken a new value. A signal that has left the graph meanwhile does not wait, unless it took
a value in this stretch or its reactor has died. -/
structure Gathers (owner : ReactorId) (world : World κ ν σ) (events : List (Event κ ν))
    (after : World κ ν σ) : Prop where
  known : ∀ id, (world.cell? id).isSome → (after.cell? id).isSome
  owns : ∀ id, (world.cell? id).isSome → after.owns owner id = world.owns owner id
  fades : ∀ id, (world.cell? id).isSome → (after.graph owner).contains id = true →
    (world.graph owner).contains id = true
  past : after.past = events ++ world.past
  quiet : ∀ sources, .passStarted owner sources ∉ events
  changed : ∀ id, some id ∈ events.map Event.changed? → (after.cell? id).isSome
  order : (after.pending owner).filter (after.graph owner).contains =
    (addAll (world.pending owner) (after.written owner events)).filter (after.graph owner).contains
  source : ∀ id ∈ after.pending owner, id ∈ world.pending owner ∨ id ∈ after.written owner events
  stays : ∀ id ∈ after.pending owner, (after.graph owner).contains id = true ∨
    .died owner ∈ events ∨ id ∈ after.written owner events ∨
      id ∈ world.pending owner ∧ (world.graph owner).contains id = false

variable {world middle after : World κ ν σ} {owner : ReactorId} {id : NodeId}
  {events later : List (Event κ ν)}

theorem Keeps.known (keeps : world.Keeps owner id) : (world.cell? id).isSome := by
  obtain ⟨signal, found, _⟩ := keeps
  rw [signal?_eq_some_iff.mp found]
  rfl

theorem owns_of_cell {cell : Cell κ ν} (found : world.cell? id = some cell) :
    world.owns owner id = decide (cell.place = (owner, .source)) := by
  unfold owns
  rw [found]
  rfl

theorem Keeps.owns (keeps : world.Keeps owner id) : world.owns owner id = true := by
  obtain ⟨signal, found, rfl, _⟩ := keeps
  rw [owns_of_cell (signal?_eq_some_iff.mp found)]
  exact decide_eq_true rfl

theorem written_append (world : World κ ν σ) (owner : ReactorId) (later events : List (Event κ ν)) :
    world.written owner (later ++ events) = world.written owner events ++ world.written owner later := by
  unfold written
  rw [List.reverse_append, List.filterMap_append, List.filter_append]

theorem mem_written : id ∈ world.written owner events ↔
    some id ∈ events.map Event.changed? ∧ world.owns owner id = true := by
  unfold written
  rw [List.mem_filter, List.mem_filterMap]
  simp only [List.mem_reverse, List.mem_map]

theorem written_congr (same : ∀ id, some id ∈ events.map Event.changed? →
    after.owns owner id = world.owns owner id) :
    after.written owner events = world.written owner events := by
  unfold World.written
  refine List.filter_congr fun id member => same id ?_
  obtain ⟨event, present, changed⟩ := List.mem_filterMap.mp member
  exact List.mem_map.mpr ⟨event, List.mem_reverse.mp present, changed⟩

theorem Undisturbed.refl (world : World κ ν σ) : Undisturbed owner world world :=
  ⟨fun _ known => known, fun _ _ => rfl, fun _ keeps => keeps, fun _ _ => rfl, rfl⟩

theorem Undisturbed.trans (start : Undisturbed owner world middle)
    (finish : Undisturbed owner middle after) : Undisturbed owner world after where
  known id known := finish.known id (start.known id known)
  owns id known := (finish.owns id (start.known id known)).trans (start.owns id known)
  keeps id keeps := finish.keeps id (start.keeps id keeps)
  live id known := (finish.live id (start.known id known)).trans (start.live id known)
  pending := finish.pending.trans start.pending

theorem Undisturbed.orderly (undisturbed : Undisturbed owner world after)
    (deep : after.depth owner = 0 → world.depth owner = 0) (orderly : world.Orderly owner) :
    after.Orderly owner where
  idle shallow := undisturbed.pending.trans (orderly.idle (deep shallow))
  distinct := undisturbed.pending ▸ orderly.distinct
  keeps id member := undisturbed.keeps id (orderly.keeps id (undisturbed.pending ▸ member))

/-- Events that tell of no new value of a signal of the reactor, and of no pass. -/
def Plain (world : World κ ν σ) (owner : ReactorId) (events : List (Event κ ν)) : Prop :=
  (∀ sources, .passStarted owner sources ∉ events) ∧
    ∀ id, some id ∈ events.map Event.changed? →
      (world.cell? id).isSome ∧ world.owns owner id = false

theorem Plain.nil (world : World κ ν σ) (owner : ReactorId) : world.Plain owner [] :=
  ⟨fun _ => nofun, fun _ => nofun⟩

theorem Undisturbed.gathers (undisturbed : Undisturbed owner world after)
    (orderly : world.Orderly owner) (past : after.past = events ++ world.past)
    (plain : after.Plain owner events) : Gathers owner world events after := by
  have silent : after.written owner events = [] := by
    refine List.eq_nil_iff_forall_not_mem.mpr fun id member => ?_
    obtain ⟨changed, owned⟩ := mem_written.mp member
    rw [(plain.2 id changed).2] at owned
    cases owned
  refine ⟨undisturbed.known, undisturbed.owns, fun id known live => ?_, past, plain.1,
    fun id changed => (plain.2 id changed).1, ?_,
    fun id member => Or.inl (undisturbed.pending ▸ member), fun id member => ?_⟩
  · rwa [undisturbed.live id known] at live
  · rw [silent, undisturbed.pending]
    rfl
  · rw [undisturbed.pending] at member
    rw [undisturbed.live id (orderly.keeps id member).known]
    cases live : (world.graph owner).contains id with
    | true => exact Or.inl rfl
    | false => exact Or.inr (Or.inr (Or.inr ⟨member, rfl⟩))

theorem Gathers.trans (orderly : world.Orderly owner) (start : Gathers owner world events middle)
    (orderly' : middle.Orderly owner) (finish : Gathers owner middle later after) :
    Gathers owner world (later ++ events) after := by
  have before : after.written owner events = middle.written owner events :=
    written_congr fun id changed => finish.owns id (start.changed id changed)
  have known : ∀ id ∈ addAll (world.pending owner) (middle.written owner events),
      (middle.cell? id).isSome := by
    intro id member
    rcases mem_addAll.mp member with old | new
    · exact start.known id (orderly.keeps id old).known
    · exact start.changed id (mem_written.mp new).1
  -- Who is live in the end was live in between, so that the queue in between counts no more.
  have narrowed : ∀ members : List NodeId, (∀ id ∈ members, (middle.cell? id).isSome) →
      (members.filter (middle.graph owner).contains).filter (after.graph owner).contains =
        members.filter (after.graph owner).contains := by
    intro members there
    rw [List.filter_filter]
    refine List.filter_congr fun id member => ?_
    cases live : (after.graph owner).contains id with
    | true => exact finish.fades id (there id member) live
    | false => exact Bool.false_and _
  refine ⟨fun id known => finish.known id (start.known id known),
    fun id known => (finish.owns id (start.known id known)).trans (start.owns id known),
    fun id known live => start.fades id known (finish.fades id (start.known id known) live),
    by rw [finish.past, start.past, List.append_assoc], fun sources member => ?_,
    fun id changed => ?_, ?_, fun id member => ?_, fun id member => ?_⟩
  · rcases List.mem_append.mp member with new | old
    · exact finish.quiet sources new
    · exact start.quiet sources old
  · rw [List.map_append] at changed
    rcases List.mem_append.mp changed with new | old
    · exact finish.changed id new
    · exact finish.known id (start.changed id old)
  · calc (after.pending owner).filter (after.graph owner).contains
        = addAll ((middle.pending owner).filter (after.graph owner).contains)
            ((after.written owner later).filter (after.graph owner).contains) := by
          rw [finish.order, filter_addAll]
      _ = addAll ((addAll (world.pending owner) (middle.written owner events)).filter
              (after.graph owner).contains)
            ((after.written owner later).filter (after.graph owner).contains) := by
          rw [← narrowed _ fun id member => (orderly'.keeps id member).known, start.order,
            narrowed _ known]
      _ = _ := by
          rw [← filter_addAll, written_append, addAll_append, before]
  · rw [written_append, List.mem_append, before]
    rcases finish.source id member with old | new
    · exact (start.source id old).imp_right Or.inl
    · exact Or.inr (Or.inr new)
  · rw [written_append, List.mem_append, List.mem_append, before]
    rcases finish.stays id member with live | died | wrote | ⟨waits, dead⟩
    · exact Or.inl live
    · exact Or.inr (Or.inl (Or.inl died))
    · exact Or.inr (Or.inr (Or.inl (Or.inr wrote)))
    · rcases start.stays id waits with live | died | wrote | old
      · rw [live] at dead
        cases dead
      · exact Or.inr (Or.inl (Or.inr died))
      · exact Or.inr (Or.inr (Or.inl (Or.inl wrote)))
      · exact Or.inr (Or.inr (Or.inr old))

end World

end ReactiveTree
