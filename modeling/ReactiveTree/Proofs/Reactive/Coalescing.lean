import ReactiveTree.Proofs.Reactive.Flushing

/-! # Batches notify once

When the outermost batch of a reactor closes, however its body has ended, the queue is empty before
anything else happens, and a single pass sets out from what has waited in it.
-/

namespace ReactiveTree

variable {κ ν σ : Type} [BEq ν] {owner : ReactorId}

/-- What the closing of the outermost batch of a reactor comes to, after a body in which those events
were recorded. The queue is empty before anything else happens, and a single pass sets out from
what has waited in it. -/
structure ClosesOutermost (program : Program κ ν σ) (depth : Nat) (owner : ReactorId)
    (events : List (Event κ ν)) (inner after : World κ ν σ) : Prop where
  closed : (inner.closeBatch owner).2.depth owner = 0
  empty : (inner.closeBatch owner).2.pending owner = []
  silent : (inner.closeBatch owner).2.past = inner.past
  once : (inner.pending owner).Nodup
  wrote : ∀ id ∈ inner.pending owner, id ∈ inner.written owner events ∧ inner.Keeps owner id
  order : (inner.pending owner).filter (inner.graph owner).contains =
    (addAll [] (inner.written owner events)).filter (inner.graph owner).contains
  untold : inner.pending owner = [] → after = (inner.closeBatch owner).2
  told : inner.pending owner ≠ [] →
    notify (activate program depth) owner (inner.pending owner) (inner.closeBatch owner).2 =
        some (.ok (), after) ∧
      ∃ later, after.past =
        .passEnded owner :: (later ++ .passStarted owner (inner.pending owner) :: inner.past)

theorem batch_closes (program : Program κ ν σ) (depth : Nat) {world inner : World κ ν σ}
    (orderly : world.Orderly owner)
    (known : (world.reactor? owner).isSome) (outermost : world.depth owner = 0)
    (inside : World.Advances owner True (world.modifyReactor owner Reactor.openBatch) inner) :
    ∃ events, inner.past = events ++ world.past ∧ (∀ sources, .passStarted owner sources ∉ events) ∧
      (closeBatch (activate program depth) owner).Ends inner fun result after =>
        result = .ok () ∧ ClosesOutermost program depth owner events inner after := by
  obtain ⟨one, kept, bare, events, gathers⟩ :=
    World.outermost_gathers orderly known outermost inside
  have shallow : inner.depth owner ≤ 1 := one.le
  have closes : ∀ after, (inner.pending owner = [] → after = (inner.closeBatch owner).2) →
      (inner.pending owner ≠ [] → notify (activate program depth) owner (inner.pending owner)
          (inner.closeBatch owner).2 = some (.ok (), after) ∧
        ∃ later, after.past =
          .passEnded owner :: (later ++ .passStarted owner (inner.pending owner) :: inner.past)) →
      ClosesOutermost program depth owner events inner after := by
    refine fun after untold told => ⟨?_, ?_, World.past_closeBatch inner owner, kept.distinct,
      fun id member => ⟨?_, kept.keeps id member⟩, ?_, untold, told⟩
    · rw [World.depth_closeBatch, one]
    · rw [World.pending_closeBatch, if_pos shallow]
    · refine (gathers.source id member).resolve_left fun old => ?_
      rw [bare] at old
      cases old
    · rw [gathers.order, bare]
  refine ⟨events, gathers.past, gathers.quiet, ?_⟩
  have closing : closeBatch (activate program depth) owner = (Run.update (·.closeBatch owner) >>=
      fun pending => if pending ≠ [] then notify (activate program depth) owner pending
        else pure ()) := rfl
  rw [closing]
  refine .of_update ?_
  rw [World.closeBatch_fst, if_pos shallow]
  split
  next due =>
    intro result after ran
    obtain ⟨rfl, pass⟩ := notify_trails (activate_traced program depth) owner _ _
      result after ran
    refine ⟨rfl, closes after (fun none => absurd none due) fun _ => ⟨ran, ?_⟩⟩
    cases pass with
    | @pass _ _ _ last visits =>
      obtain ⟨later, past⟩ := visits.leads.past
      refine ⟨later, ?_⟩
      show .passEnded owner :: last.past = _
      rw [past, World.past_enterPass, World.past_closeBatch]
      rfl
  next none =>
    rintro _ _ ⟨⟩
    exact ⟨rfl, closes _ (fun _ => rfl) fun due => absurd due none⟩

/-- Batches notify once. From the beginning on and after every act the queues are in order. An act in
an open batch starts no pass of its reactor, and gathers: what waits afterwards waited before or
took a new value meanwhile, in the order of first values, and a signal that leaves the graph leaves
the queue. However the body of an outermost batch ends, the batch is then closed with an empty
queue, and one pass sets out from what has waited, or none if nothing has. In a pass in which no
signal takes a new value, whoever writes, an effect that is not run by hand runs once at most. -/
theorem batches_notify_once (program : Program κ ν σ) (depth : Nat) :
    (∀ (user : σ) owner, (World.initial user : World κ ν σ).Orderly owner) ∧
    (∀ (α : Type) (act : Act κ ν σ α) world owner, world.Orderly owner →
      (program.run depth act).Ends world fun _ after => after.Orderly owner ∧
        after.depth owner = world.depth owner ∧
        (0 < world.depth owner → ∃ events, World.Gathers owner world events after)) ∧
    (∀ (α : Type) (body : Act κ ν σ α) world owner, world.Orderly owner →
      (world.reactor? owner).isSome → world.depth owner = 0 →
      (program.run depth (.within (.batch owner) body)).Ends world fun result after =>
        ∃ inner events,
          program.run depth body (world.modifyReactor owner Reactor.openBatch) =
            some (result, inner) ∧
          inner.past = events ++ world.past ∧ (∀ sources, .passStarted owner sources ∉ events) ∧
          ClosesOutermost program depth owner events inner after) ∧
    ∀ id (world : World κ ν σ), (∀ owner, world.Orderly owner) → ∀ owner sources,
      (notify (activate program depth) owner sources).Ends world fun _ after =>
        ∃ events, after.past = events ++ world.past ∧
          ((∃ effect, after.effect? id = some effect) → after.Calm events → .executed id ∉ events →
            events.countP (Event.starts id) ≤ 1) := by
  refine ⟨fun user owner => ⟨fun _ => rfl, .nil, fun _ => nofun⟩,
    fun α act world owner orderly _ after ran => ?_,
    fun α body world owner orderly known outermost => ?_,
    fun id world orderly owner sources => notify_runs_once orderly sources⟩
  · have advances := (program.run_traces depth act world _ after ran).advances owner
    exact ⟨advances.orderly orderly, advances.depth, fun open' =>
      advances.gathers orderly open' trivial⟩
  · have inside : (body.run (activate program depth)).Ends
        (world.modifyReactor owner Reactor.openBatch) fun result inner =>
          program.run depth body (world.modifyReactor owner Reactor.openBatch) =
            some (result, inner) ∧
          World.Advances owner True (world.modifyReactor owner Reactor.openBatch) inner :=
      fun result inner ran =>
        ⟨ran, (program.run_traces depth body _ _ _ ran).advances owner⟩
    refine .of_modify (inside.attempt.bind (fun result inner ran => ?_) fun _ _ ran => ?_)
    · obtain ⟨given, same, ran, advances⟩ := ran
      cases same
      obtain ⟨events, past, quiet, closing⟩ := batch_closes program depth orderly known outermost advances
      refine closing.bind (fun _ after closed => ?_) fun _ _ closed => nomatch closed.1
      intro result' after' ran'
      rw [Run.ofResult_apply] at ran'
      cases ran'
      exact ⟨inner, events, ran, past, quiet, closed.2⟩
    · obtain ⟨_, failed, _⟩ := ran
      cases failed

/-- An effect that reads two signals. -/
def Program.summing : Program Unit Nat Unit where
  compute _ := .pure 0
  effect _ := .bind (.call (.get ⟨0⟩)) fun _ => .bind (.call (.get ⟨1⟩)) fun _ => .pure (.ok none)
  cleanup _ := .pure ()
  callback _ _ := .pure ()
  render _ := .pure none
  handler _ := .pure ()

/-- Make two signals of one, and the effect. -/
def Act.summing : Act Unit Nat Unit Unit :=
  .bind (.call (.newReactor {})) fun _ =>
    .bind (.call (.newSignal ⟨0⟩ 1)) fun _ =>
      .bind (.call (.newSignal ⟨0⟩ 1)) fun _ =>
        .bind (.call (.newEffect ⟨0⟩ () true)) fun _ => .pure ()

/-- Write the second signal, then both in a batch of their own, and fail. -/
def Act.nesting : Act Unit Nat Unit Unit :=
  .bind (.call (.set ⟨1⟩ 2)) fun _ =>
    .bind (.within (.batch ⟨0⟩)
      (.bind (.call (.set ⟨0⟩ 3)) fun _ => .call (.set ⟨1⟩ 4))) fun _ => .raise (.text "over")

/-- Three writes in nested batches, the outer of which ends by a panic, are told in one pass, in which
the effect runs once. -/
theorem batches_notify_once_nesting :
    ∃ world inner after events,
      Program.summing.run 3 Act.summing (World.initial ()) = some (.ok (), world) ∧
      Program.summing.run 3 (.within (.batch ⟨0⟩) Act.nesting) world =
        some (.error (.text "over"), after) ∧
      inner.pending ⟨0⟩ = [⟨1⟩, ⟨0⟩] ∧ ClosesOutermost Program.summing 3 ⟨0⟩ events inner after ∧
      ∃ later, after.past = later ++ inner.past ∧ later.countP (Event.starts ⟨2⟩) ≤ 1 := by
  obtain ⟨initially, acts, closes, once⟩ := batches_notify_once Program.summing 3
  have making : (Program.summing.run 3 Act.summing (World.initial ())).map
      (fun made => (made.1, (made.2.reactor? ⟨0⟩).isSome)) = some (.ok (), true) := by
    decide +kernel
  have batching : (Program.summing.run 3 Act.summing (World.initial ())).bind (fun made =>
      (Program.summing.run 3 (.within (.batch ⟨0⟩) Act.nesting) made.2).map fun left =>
        (left.1, (left.2.effect? ⟨2⟩).isSome, (left.2.past.take 6).map Event.changed?,
          decide (.executed ⟨2⟩ ∈ left.2.past.take 6))) =
      some (.error (.text "over"), true, List.replicate 6 none, false) := by
    decide +kernel
  have waiting : (Program.summing.run 3 Act.summing (World.initial ())).bind (fun made =>
      (Program.summing.run 3 Act.nesting (made.2.modifyReactor ⟨0⟩ Reactor.openBatch)).bind
        fun left => (Program.summing.run 3 (.within (.batch ⟨0⟩) Act.nesting) made.2).map
          fun left' => (left.2.pending ⟨0⟩, decide (left'.2.past = left'.2.past.take 6 ++ left.2.past))) =
      some ([⟨1⟩, ⟨0⟩], true) := by
    decide +kernel
  obtain ⟨⟨made, world⟩, ran, stands⟩ := Option.map_eq_some_iff.mp making
  obtain ⟨rfl, known⟩ := Prod.mk.inj stands
  rw [ran, Option.bind_some] at batching waiting
  obtain ⟨⟨left, after⟩, ran', stands'⟩ := Option.map_eq_some_iff.mp batching
  obtain ⟨rfl, stands'⟩ := Prod.mk.inj stands'
  obtain ⟨present, stands'⟩ := Prod.mk.inj stands'
  obtain ⟨unchanged, spontaneous⟩ := Prod.mk.inj stands'
  have orderly : ∀ owner, world.Orderly owner := fun owner =>
    (acts _ Act.summing _ owner (initially () owner) _ _ ran).1
  have outermost : world.depth ⟨0⟩ = 0 :=
    (acts _ Act.summing _ ⟨0⟩ (initially () ⟨0⟩) _ _ ran).2.1
  obtain ⟨inner, events, body, _, _, closed⟩ :=
    closes _ Act.nesting world ⟨0⟩ (orderly ⟨0⟩) known outermost _ _ ran'
  rw [body, ran', Option.bind_some, Option.map_some] at waiting
  obtain ⟨pending, past⟩ := Prod.mk.inj (Option.some.inj waiting)
  have past := of_decide_eq_true past
  have orderly' : ∀ owner, (inner.closeBatch ⟨0⟩).2.Orderly owner := fun owner =>
    World.orderly_closeBatch
      (acts _ Act.nesting _ owner (World.orderly_openBatch (orderly owner) ⟨0⟩) _ _ body).1 ⟨0⟩
  obtain ⟨later, past', counted⟩ := once ⟨2⟩ _ orderly' ⟨0⟩ _ _ _
    (closed.told (pending ▸ List.cons_ne_nil _ _)).1
  rw [closed.silent] at past'
  cases List.append_cancel_right (past'.symm.trans past)
  refine ⟨world, inner, after, events, ran, ran', pending, closed, _, past',
    counted (Option.isSome_iff_exists.mp present) (fun id changed => ?_)
      (of_decide_eq_false spontaneous)⟩
  rw [unchanged] at changed
  cases List.eq_of_mem_replicate changed

/-- The last thing that happened in a run of the program is a flush in which no effect writes, only
computeds do if anything does, and in which that effect runs twice. -/
def Program.Reruns (program : Program κ ν Unit) (depth : Nat) (act : Act κ ν Unit Unit)
    (id : NodeId) : Prop :=
  ∃ world sources later earlier, program.run depth act (World.initial ()) = some (.ok (), world) ∧
    world.past = .passEnded ⟨0⟩ :: (later ++ .passStarted ⟨0⟩ sources :: earlier) ∧
    (∀ node writer, .wrote node writer ∈ later → ∃ id computed, writer = some id ∧
      world.computed? id = some computed) ∧
    later.countP (Event.starts id) = 2

/-- The event is no write, or a write of a computed. -/
def World.SparesEffects (world : World κ ν σ) : Event κ ν → Bool
  | .wrote _ writer => writer.any fun id => (world.computed? id).isSome
  | _ => true

theorem Program.Reruns.of_run [DecidableEq κ] [DecidableEq ν] {program : Program κ ν Unit}
    {depth : Nat} {act : Act κ ν Unit Unit} {id : NodeId} (sources : List NodeId) (length : Nat)
    (ran : (program.run depth act (World.initial ())).map (fun reached =>
      let later := (reached.2.past.drop 1).take length
      (reached.1, decide (reached.2.past = .passEnded ⟨0⟩ ::
        (later ++ .passStarted ⟨0⟩ sources :: reached.2.past.drop (length + 2))),
        later.all reached.2.SparesEffects, later.countP (Event.starts id))) =
      some (.ok (), true, true, 2)) : program.Reruns depth act id := by
  obtain ⟨⟨result, world⟩, ran, stands⟩ := Option.map_eq_some_iff.mp ran
  obtain ⟨rfl, stands⟩ := Prod.mk.inj stands
  obtain ⟨past, stands⟩ := Prod.mk.inj stands
  obtain ⟨spares, twice⟩ := Prod.mk.inj stands
  refine ⟨world, sources, _, _, ran, of_decide_eq_true past, fun node writer member => ?_, twice⟩
  have spared := List.all_eq_true.mp spares _ member
  cases writer with
  | none => cases spared
  | some id =>
    obtain ⟨computed, found⟩ := Option.isSome_iff_exists.mp spared
    exact ⟨id, computed, rfl, found⟩

/-- An effect that reads a signal, and one that reads another and, when that is two, runs the first one
by hand, twice. -/
def Program.rerunning : Program Bool Nat Unit where
  compute _ := .pure 0
  effect
    | false => .bind (.call (.get ⟨1⟩)) fun _ => .pure (.ok none)
    | true => .bind (.call (.get ⟨0⟩)) fun value =>
      .bind (if value = 2 then .bind (.call (.execute ⟨2⟩)) fun _ => .call (.execute ⟨2⟩)
        else .pure ()) fun _ => .pure (.ok none)
  cleanup _ := .pure ()
  callback _ _ := .pure ()
  render _ := .pure none
  handler _ := .pure ()

/-- Make two signals of one and the effects, and write the first signal in a batch. -/
def Act.rerunning : Act Bool Nat Unit Unit :=
  .bind (.call (.newReactor {})) fun _ =>
    .bind (.call (.newSignal ⟨0⟩ 1)) fun _ =>
      .bind (.call (.newSignal ⟨0⟩ 1)) fun _ =>
        .bind (.call (.newEffect ⟨0⟩ false true)) fun _ =>
          .bind (.call (.newEffect ⟨0⟩ true true)) fun _ =>
            .within (.batch ⟨0⟩) (.call (.set ⟨0⟩ 2))

/-- A computed that reads a signal and, when that is two, writes another, twice; an effect that reads
the other signal, and one that reads the computed. -/
def Program.meddling : Program Bool Nat Unit where
  compute _ := .bind (.call (.get ⟨0⟩)) fun value =>
    .bind (if value = 2 then .bind (.call (.set ⟨1⟩ 2)) fun _ => .call (.set ⟨1⟩ 3)
      else .pure ()) fun _ => .pure value
  effect
    | false => .bind (.call (.get ⟨1⟩)) fun _ => .pure (.ok none)
    | true => .bind (.call (.get ⟨2⟩)) fun _ => .pure (.ok none)
  cleanup _ := .pure ()
  callback _ _ := .pure ()
  render _ := .pure none
  handler _ := .pure ()

/-- Make two signals of one, the computed and the effects, and write the first signal in a batch. -/
def Act.meddling : Act Bool Nat Unit Unit :=
  .bind (.call (.newReactor {})) fun _ =>
    .bind (.call (.newSignal ⟨0⟩ 1)) fun _ =>
      .bind (.call (.newSignal ⟨0⟩ 1)) fun _ =>
        .bind (.call (.newComputed ⟨0⟩ false)) fun _ =>
          .bind (.call (.newEffect ⟨0⟩ false true)) fun _ =>
            .bind (.call (.newEffect ⟨0⟩ true true)) fun _ =>
              .within (.batch ⟨0⟩) (.call (.set ⟨0⟩ 2))

/-- In a flush in which no effect writes an effect that only reads runs twice, where another effect
runs it by hand, and where a computed that the flush brings up to date writes. -/
theorem reruns_without_writes :
    Program.rerunning.Reruns 4 Act.rerunning ⟨2⟩ ∧ Program.meddling.Reruns 6 Act.meddling ⟨3⟩ :=
  ⟨.of_run [⟨0⟩] 11 (by decide +kernel), .of_run [⟨0⟩] 21 (by decide +kernel)⟩

end ReactiveTree
