import ReactiveTree.Proofs.Reactive.Keeping

/-! # Passes make the visits that they owe

A pass owes a visit to each effect that it has taken off a changed source. A visit settles this,
whether it runs the effect, puts it back because it is running already, or finds that it was stopped
or has run meanwhile. So a pass leaves readers as listed as it found them.
-/

namespace ReactiveTree

variable {κ ν σ α : Type} {world : World κ ν σ} {tally : Tally}

/-- No dirty computed has to be listed. -/
def Tally.Plain (tally : Tally) : Prop :=
  ∀ id, ¬ tally.dirty id

namespace World

/-- An effect that is known to be there is there. -/
theorem Listed.effect (listed : world.Listed tally) {id : NodeId} {owner : ReactorId}
    (known : tally.known id (owner, .effect)) :
    ∃ effect, world.cell? id = some (.effect effect) ∧ effect.reactor = owner := by
  obtain ⟨cell, found, place⟩ := listed.known id _ known
  cases cell with
  | signal => cases congrArg Prod.snd place
  | computed => cases congrArg Prod.snd place
  | effect effect => exact ⟨effect, found, congrArg Prod.fst place⟩

end World

/-- What carries activations out keeps readers listed. An effect that can run does not panic, and is
owed no visit afterwards. -/
structure Sustains (engine : Engine κ ν σ) : Prop where
  refresh : ∀ tally id, Run.Keeps (·.Listed tally) (engine (.refresh id))
  execute : ∀ tally, tally.Plain → ∀ (world : World κ ν σ) id, world.Listed tally →
    (engine (.execute id)).Ends world fun result after => after.Listed tally ∧
      ∀ effect, world.cell? id = some (.effect effect) → result = .ok () ∧
        (effect.active = true → effect.executing = false → after.Listed (tally.clearing id))
  cleanUp : ∀ tally, tally.Plain → ∀ (world : World κ ν σ) id code, world.Listed tally →
    (engine (.cleanUp id code)).Ends world fun result after => after.Listed tally ∧
      ∀ effect, world.cell? id = some (.effect effect) → result = .ok ()
  invoke : ∀ tally, tally.Plain → ∀ handler, Run.Keeps (·.Listed tally) (engine (.invoke handler))

theorem Sustains.executes {engine : Engine κ ν σ} (sustains : Sustains engine) (plain : tally.Plain)
    (id : NodeId) : Run.Keeps (·.Listed tally) (engine (.execute id)) :=
  fun world listed => (sustains.execute tally plain world id listed).mono fun _ _ kept => kept.1

theorem Sustains.cleansUp {engine : Engine κ ν σ} (sustains : Sustains engine) (plain : tally.Plain)
    (id : NodeId) (code : κ) : Run.Keeps (·.Listed tally) (engine (.cleanUp id code)) :=
  fun world listed =>
    (sustains.cleanUp tally plain world id code listed).mono fun _ _ kept => kept.1

section

variable {engine : Engine κ ν σ} {owner : ReactorId} {entry : Visit} {rest : List Visit}

private theorem owed_visiting {debt : NodeId × Nat}
    (member : debt ∈ (tally.visiting owner (entry :: rest)).owed) :
    (entry.wakeup.certain = true ∧ debt = (entry.wakeup.effect, entry.runs)) ∨
      debt ∈ (tally.visiting owner rest).owed := by
  rcases List.mem_append.mp member with owed | before
  · rw [List.flatMap_cons] at owed
    rcases List.mem_append.mp owed with own | later
    · unfold Visit.debts at own
      split at own
      next certain => exact Or.inl ⟨certain, List.mem_singleton.mp own⟩
      next => cases own
    · exact Or.inr (List.mem_append_left _ later)
  · exact Or.inr (List.mem_append_right _ before)

private theorem known_visiting {id : NodeId} {place : ReactorId × NodeKind}
    (holds : (tally.visiting owner rest).known id place) :
    (tally.visiting owner (entry :: rest)).known id place :=
  holds.imp_left fun ⟨same, other, member, eq⟩ => ⟨same, other, List.mem_cons_of_mem _ member, eq⟩

/-- Once an effect is owed no visit, its visit is made. -/
private theorem World.Listed.settled
    (listed : world.Listed ((tally.visiting owner (entry :: rest)).clearing entry.wakeup.effect)) :
    world.Listed (tally.visiting owner rest) := by
  refine listed.mono (fun debt member => ?_) (fun _ holds => holds) fun _ _ => known_visiting
  obtain ⟨member, apart⟩ := List.mem_filter.mp member
  refine (owed_visiting member).resolve_left fun ⟨_, same⟩ => of_decide_eq_true apart ?_
  rw [same]

/-- A visit of an effect that was stopped or has run meanwhile is not owed. -/
private theorem World.Listed.lapsed (listed : world.Listed (tally.visiting owner (entry :: rest)))
    (void : entry.wakeup.certain = true → world.turn? entry.wakeup.effect ≠ some entry.runs) :
    world.Listed (tally.visiting owner rest) := by
  refine listed.lapse (fun id runs member turn => ?_) (fun _ holds => holds)
    fun _ _ => known_visiting
  refine (owed_visiting member).resolve_left fun ⟨certain, same⟩ => void certain ?_
  cases same
  exact turn

/-- Running the effect of a visit settles what is owed for it. -/
private theorem runVisited_ends (sustains : Sustains engine) (plain : tally.Plain)
    (listed : world.Listed (tally.visiting owner (entry :: rest)))
    (ready : entry.wakeup.certain = true → ∀ effect,
      world.cell? entry.wakeup.effect = some (.effect effect) →
        effect.active = true ∧ effect.executing = false) :
    (Run.modify (·.modifyReactor owner (·.pushChain entry.wakeup.causes)) >>= fun _ =>
      (engine (.execute entry.wakeup.effect)).thenAlways
        (Run.modify (·.modifyReactor owner Reactor.popChain))).Ends world fun result after =>
          result = .ok () ∧ after.Listed (tally.visiting owner rest) := by
  have plain' : (tally.visiting owner (entry :: rest)).Plain := plain
  have chained : (world.modifyReactor owner (·.pushChain entry.wakeup.causes)).Listed
      (tally.visiting owner (entry :: rest)) := listed.modifyRecords owner fun _ => ⟨rfl, rfl⟩
  obtain ⟨effect, found, _⟩ := chained.effect (Or.inl ⟨rfl, entry, List.mem_cons_self, rfl⟩)
  refine .of_modify ((sustains.execute _ plain' _ entry.wakeup.effect chained).thenAlways
    fun result left held => ?_)
  obtain ⟨kept, succeeds⟩ := held
  obtain ⟨succeeded, settled⟩ := succeeds effect found
  refine ⟨succeeded, World.Listed.modifyRecords ?_ owner fun _ => ⟨rfl, rfl⟩⟩
  by_cases certain : entry.wakeup.certain = true
  · obtain ⟨active, idle⟩ := ready certain effect found
    exact (settled active idle).settled
  · exact kept.lapsed fun certain' => absurd certain' certain

/-- A visit settles what is owed for it. -/
theorem visit_ends (sustains : Sustains engine) (plain : tally.Plain)
    (listed : world.Listed (tally.visiting owner (entry :: rest))) :
    (visit engine owner entry).Ends world fun result after =>
      result = .ok () ∧ after.Listed (tally.visiting owner rest) := by
  obtain ⟨effect, found, home⟩ := listed.effect (Or.inl ⟨rfl, entry, List.mem_cons_self, rfl⟩)
  have turn : world.turn? entry.wakeup.effect =
      if effect.active then some effect.runs else none := by
    unfold World.turn?
    rw [found]
    rfl
  refine .of_world ?_
  dsimp only
  rw [World.effect?_eq_some_iff.mpr found]
  dsimp only
  split
  next stopped =>
    rintro _ _ ⟨⟩
    refine ⟨rfl, listed.lapsed fun _ same => ?_⟩
    rw [turn, if_neg (by simpa using stopped)] at same
    cases same
  next active =>
    split
    next =>
      -- It is running further up, so nobody else would subscribe it again.
      rintro _ _ ⟨⟩
      have back := listed.resubscribe found
      rw [show (Cell.effect effect : Cell κ ν).reactor = owner from home] at back
      have back' : (world.mapGraph owner (·.resubscribe entry.wakeup.effect)).Listed
        (((tally.visiting owner (entry :: rest)).clearing entry.wakeup.effect).insisting
          entry.wakeup.effect) := back
      exact ⟨rfl, back'.of_insisting.settled⟩
    next idle =>
      split
      next later =>
        rintro _ _ ⟨⟩
        refine ⟨rfl, listed.lapsed fun _ same => later ?_⟩
        rw [turn] at same
        split at same
        next => exact Option.some.inj same
        next => cases same
      next =>
        split
        next =>
          refine runVisited_ends sustains plain listed fun _ effect' found' => ?_
          cases Option.some.inj (found.symm.trans found')
          exact ⟨by simpa using active, by simpa using idle⟩
        next perhaps =>
          refine (needsRun_ends (sustains.refresh _) owner _ listed).bind
            (fun wanted after kept => ?_) fun panic after kept => ?_
          · split
            next =>
              exact runVisited_ends sustains plain kept.2 fun certain => absurd certain perhaps
            next =>
              rintro _ _ ⟨⟩
              exact ⟨rfl, kept.2.lapsed fun certain => absurd certain perhaps⟩
          · obtain ⟨⟨_, failed⟩, _⟩ := kept
            cases failed

/-- The visits of a pass, each followed by giving the effect's handle back. -/
theorem visits_end (sustains : Sustains engine) (plain : tally.Plain) (visits : List Visit)
    (listed : world.Listed (tally.visiting owner visits)) :
    (Run.forEach visits fun entry => (visit engine owner entry).thenAlways
      (Run.modify (·.drop (.node entry.wakeup.effect)))).Ends world fun result after =>
        result = .ok () ∧ after.Listed (tally.visiting owner []) := by
  induction visits generalizing world with
  | nil =>
    rintro _ _ ⟨⟩
    exact ⟨rfl, listed⟩
  | cons entry rest ih =>
    have first : ((visit engine owner entry).thenAlways
        (Run.modify (·.drop (.node entry.wakeup.effect)))).Ends world fun result after =>
          result = .ok () ∧ after.Listed (tally.visiting owner rest) :=
      (visit_ends sustains plain listed).thenAlways fun _ _ kept => ⟨kept.1, kept.2.drop _⟩
    refine first.bind (fun _ after kept => ih kept.2) fun _ _ kept => ?_
    cases kept.1

theorem notify_keeps (sustains : Sustains engine) (plain : tally.Plain) (owner : ReactorId)
    (sources : List NodeId) : Run.Keeps (·.Listed tally) (notify engine owner sources) := by
  intro world listed
  have planned := (listed.record (.passStarted owner sources)).planPass plain owner sources
  refine .of_modify (.of_update (.of_modify ?_))
  refine (visits_end sustains plain _ (planned.foldl_hold _ _)).bind (fun _ after kept => ?_)
    fun _ _ kept => nomatch kept.1
  rintro _ _ ⟨⟩
  have settled : after.Listed tally :=
    kept.2.mono (fun _ member => member) (fun _ holds => holds) fun _ _ holds => Or.inr holds
  exact settled.record _

end

end ReactiveTree
