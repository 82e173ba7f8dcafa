import ReactiveTree.Proofs.Reactive.Tracing

/-! # Every run leaves a trail

One lemma for each activation, and from them by induction on the depth of nesting: whatever a run of
a program does to a world is a trail. Effects that are there run, and their cleanups are called,
without a panic.
-/

namespace ReactiveTree

variable {κ ν σ α : Type} [BEq ν] {program : Program κ ν σ} {depth : Nat}

section

variable (traced : Traced program depth)

include traced

theorem evaluate_updates {world : World κ ν σ} {id : NodeId} {computed present : Computed κ ν}
    (found : world.computed? id = some present) (home : present.reactor = computed.reactor) :
    (evaluate program (activate program depth) id computed).Ends world
      fun _ after => Trail program (.flat (.updating id)) world after := by
  intro result after ran
  cases busy : (world.computed? id).any Computed.computing with
  | true =>
    unfold evaluate at ran
    rw [Run.world_bind, busy] at ran
    cases ran
    exact .refl _ world
  | false =>
    cases inside : (program.compute computed.body).run (activate program depth)
        (world.enter id computed.reactor) with
    | none =>
      rw [evaluate_of_none busy inside] at ran
      cases ran
    | some outcome =>
      obtain ⟨given, inner⟩ := outcome
      rw [evaluate_of busy inside] at ran
      have trail := Act.run_traces traced (program.compute computed.body) _ _ _ inside
      have idle : present.computing = false := by
        rw [found] at busy
        exact busy
      have last : after = (inner.afterEvaluation id computed given).2 := by
        rw [Option.some.inj ran]
      rw [last]
      exact .evaluate found home idle trail given

theorem checkInputs_updates {id : NodeId} {computed : Computed κ ν}
    (inputs : List (NodeId × Nat)) {world : World κ ν σ} {present : Computed κ ν}
    (found : world.computed? id = some present) (home : present.reactor = computed.reactor) :
    (checkInputs program (activate program depth) id computed inputs).Ends world
      fun _ after => Trail program (.flat (.updating id)) world after := by
  induction inputs generalizing world present with
  | nil =>
    rintro _ _ ⟨⟩
    have confirm : Trail program (.flat (.updating id)) world _ := .confirm found
    rwa [home] at confirm
  | cons entry rest ih =>
    refine (traced.refresh entry.1 world).bind (fun _ after refreshed => .of_world ?_)
      fun _ _ refreshed => .serve refreshed
    obtain ⟨present', found', home'⟩ := refreshed.leads.computed found
    have begun : Trail program (.flat (.updating id)) world after := .serve refreshed
    split
    next =>
      exact Run.Traces.from begun (evaluate_updates traced found' (home'.trans home))
    next => exact Run.Traces.from begun (ih found' (home'.trans home))

theorem refreshComputed_updates (id : NodeId) :
    Run.Traces program (.updating id) (refreshComputed program (activate program depth) id) := by
  refine Run.Traces.world_bind fun world => ?_
  split
  next => exact Run.Traces.pure () world
  next computed found =>
    have hold : Trail program (.flat .serving) world (world.hold (.node id)) :=
      .change (.hold _)
    obtain ⟨present, found', home⟩ := hold.leads.computed found
    have held : ∀ body : Run κ ν σ Unit, (body.Ends (world.hold (.node id)) fun _ after =>
        Trail program (.flat (.updating id)) (world.hold (.node id)) after) →
        (Run.holding (.node id) body).Ends world
          fun _ after => Trail program (.flat (.updating id)) world after :=
      fun body updates => .of_modify (updates.thenAlways fun _ after trail =>
        (Trail.serve hold).trans (trail.trans (.serve (after.trail_drop _))))
    dsimp only
    split
    next => exact Run.Traces.pure () world
    next => exact Run.Traces.pure () world
    next => exact held _ (evaluate_updates traced found' home)
    next => exact held _ (checkInputs_updates traced _ found' home)

omit traced in
/-- A body runs in a frame of its own, and never panics as a whole. -/
theorem runBody_trails {owner : ReactorId} {id : NodeId} {body : Run κ ν σ α}
    (traces : Run.Traces program .acting body) (world : World κ ν σ) :
    (runBody owner id body).Ends world fun result after => ∃ inner given, result = .ok given ∧
      Trail program (.flat .acting) (world.enterBody id owner) inner ∧
        after = inner.leaveBody id owner (!given.isOk) := by
  have framed : (runInFrame owner (.tracked id) body).Ends (world.record (.started id))
      fun _ after => ∃ inner, Trail program (.flat .acting) (world.enterBody id owner) inner ∧
        after = inner.modifyReactor owner Reactor.popFrame :=
    .of_modify ((traces _).thenAlways fun _ inner inside => ⟨inner, inside, rfl⟩)
  refine .of_modify (framed.attempt.bind (fun result after ran => ?_) fun _ after ran => ?_)
  · obtain ⟨_, _, inner, inside, rfl⟩ := ran
    rintro _ _ ⟨⟩
    exact ⟨inner, result, rfl, inside, rfl⟩
  · obtain ⟨_, failed, _⟩ := ran
    cases failed

/-- What holds of all closures of a program holds of the act of an effect. -/
theorem effectAct_traces (id : NodeId) (effect : Effect κ) :
    Run.Traces program .acting (effectAct program (activate program depth) id effect) := by
  unfold effectAct
  cases effect.body with
  | plain code =>
    exact Act.run_traces traced (program.effect code)
  | watch signal callback =>
    refine (readNode_traces traced signal).bind fun value => Run.Traces.world_bind fun world => ?_
    split
    next =>
      have told : ∀ world : World κ ν σ, world.Change (world.record (.delivered id value)) :=
        fun world => .record world trivial
      have called := Act.run_traces traced (program.callback callback value)
      exact ((Run.Traces.modify fun world => .serve (.change (told world))).bind fun _ =>
        called.bind fun _ => Run.Traces.pure _) world
    next =>
      have primed : ∀ world : World κ ν σ, world.Change
          (world.modifyEffect id ({ · with primed := true })) :=
        fun world => .tweak id fun _ => ⟨rfl, rfl, rfl, rfl, rfl⟩
      exact ((Run.Traces.modify fun world => .serve (.change (primed world))).bind fun _ =>
        Run.Traces.pure _) world
  | render mount =>
    refine Run.Traces.world_bind fun world => ?_
    split
    next => exact Run.Traces.pure _ world
    next state _ =>
      refine ((Act.run_traces traced (program.render state.code)).bind fun next =>
          (Run.Traces.update fun world =>
            .serve (.change (world.shown_present mount next).change)).bind fun outcome => ?_) world
      cases outcome with
      | ok => exact Run.Traces.pure _
      | error => exact Run.Traces.pure _

theorem settleRun_trails {id : NodeId} {effect present : Effect κ} {world : World κ ν σ}
    (found : world.effect? id = some present)
    (given : Except Panic (Except String (Option κ))) :
    (settleRun (activate program depth) id effect given).Ends world fun result after =>
      result = .ok () ∧ Trail program (.flat .serving) world after := by
  have reported : ∀ message, (Run.modify fun world : World κ ν σ =>
      world.report effect.reactor (.failedEffect id message)).Ends world fun result after =>
        result = .ok () ∧ Trail program (.flat .serving) world after := by
    rintro message _ _ ⟨⟩
    exact ⟨rfl, .change (.report world _ _)⟩
  unfold settleRun
  split
  next =>
    rintro _ _ ⟨⟩
    exact ⟨rfl, .refl _ world⟩
  next code =>
    have told : Trail program (.flat .serving) world (world.record (.leftCleanup id code)) :=
      .change (.record world trivial)
    have found' : (world.record (.leftCleanup id code)).effect? id = some present := found
    refine .of_modify (.of_world ?_)
    split
    next =>
      rintro _ _ ⟨⟩
      exact ⟨rfl, told.trans (.change (.tweak id fun _ => ⟨rfl, rfl, rfl, rfl, rfl⟩))⟩
    next =>
      exact (traced.cleanUp _ id code).mono fun _ _ called =>
        ⟨called.2 present found', told.trans called.1⟩
  next message => exact reported message
  next panic => exact reported panic.message

/-- A run of an effect does not panic. -/
theorem runEffect_trails {id : NodeId} {effect : Effect κ}
    {world : World κ ν σ} (found : world.effect? id = some effect) (active : effect.active = true)
    (idle : effect.executing = false) (alive : world.isAlive effect.reactor = true) :
    (Run.holding (.reactor effect.reactor)
      (runEffect program (activate program depth) id effect)).Ends world fun result after =>
        result = .ok () ∧ Trail program (.running id) world after := by
  have held : Trail program (.flat .serving) world (world.hold (.reactor effect.reactor)) :=
    .change (.hold _)
  have found' : (world.hold (.reactor effect.reactor)).effect? id = some effect := found
  have engaged : ∃ present, ((world.hold (.reactor effect.reactor)).engage id
      effect.reactor).effect? id = some present := by
    obtain ⟨present, known, _⟩ := (World.leads_engage _ id effect.reactor).effect found'
    exact ⟨present, known⟩
  obtain ⟨present, known⟩ := engaged
  have ran : ∀ middle, Trail program (.flat .serving)
      ((world.hold (.reactor effect.reactor)).engage id effect.reactor) middle →
      (runBody effect.reactor id (effectAct program (activate program depth) id effect) >>=
        fun result => Run.modify (·.modifyEffect id fun effect =>
          { effect with runs := effect.runs + 1 }) >>= fun _ =>
            settleRun (activate program depth) id effect result >>= fun _ =>
              Run.modify (·.modifyEffect id ({ · with executing := false }))).Ends middle
        fun result left => result = .ok () ∧ Trail program (.running id) world
          (left.drop (.reactor effect.reactor)) := by
    intro middle cleaned
    refine (runBody_trails (effectAct_traces traced id effect) middle).bind
      (fun result ended body => ?_) fun panic ended body => ?_
    · obtain ⟨inner, given, same, inside, rfl⟩ := body
      obtain ⟨present', known', _⟩ := cleaned.leads.effect known
      have left := (((World.leads_enterBody _ id effect.reactor).trans inside.leads).trans
        (World.leads_leaveBody inner id effect.reactor (!given.isOk))).trans
          (World.leads_countRun _ id)
      obtain ⟨present'', known'', _⟩ := left.effect known'
      refine .of_modify ((settleRun_trails traced known'' result).bind (fun _ last settled => ?_)
        fun _ _ settled => nomatch settled.1)
      rintro _ _ ⟨⟩
      exact ⟨rfl, .run (!given.isOk) found active idle alive cleaned inside settled.2
        (World.trail_drop _ _)⟩
    · obtain ⟨_, _, failed, _⟩ := body
      cases failed
  refine .of_modify (Run.Ends.thenAlways ?_ fun _ left trail => trail)
  refine .of_modify (.of_modify (.of_update ?_))
  split
  next code _ =>
    exact (traced.cleanUp _ id code).bind (fun _ middle called => ran middle called.1)
      fun _ _ called => nomatch called.2 present known
  next => exact ran _ (.refl _ _)

theorem executeEffect_trails (world : World κ ν σ) (id : NodeId) :
    (executeEffect program (activate program depth) id).Ends world
      fun result after => Trail program (.running id) world after ∧
        ∀ effect, world.effect? id = some effect → result = .ok () := by
  refine .of_world ?_
  split
  next absent =>
    rintro _ _ ⟨⟩
    have nowhere : ∀ effect, world.effect? id ≠ some effect :=
      fun _ found => nomatch absent.symm.trans found
    exact ⟨.decline fun effect found => absurd found (nowhere effect),
      fun effect found => absurd found (nowhere effect)⟩
  next effect found =>
    split
    next unready =>
      rintro _ _ ⟨⟩
      refine ⟨.decline fun effect' found' => ?_, fun _ _ => rfl⟩
      cases Option.some.inj (found.symm.trans found')
      rw [Bool.or_eq_true, Bool.or_eq_true, Bool.not_eq_true', Bool.not_eq_true'] at unready
      rcases unready with (stopped | dead) | executing
      · exact Or.inl stopped
      · exact Or.inr (Or.inr dead)
      · exact Or.inr (Or.inl executing)
    next ready =>
      rw [Bool.or_eq_true, Bool.or_eq_true, not_or, not_or, Bool.not_eq_true', Bool.not_eq_true',
        Bool.not_eq_false, Bool.not_eq_false, Bool.not_eq_true] at ready
      obtain ⟨⟨active, alive⟩, idle⟩ := ready
      exact (runEffect_trails traced found active idle alive).mono
        fun _ _ ran => ⟨ran.2, fun _ _ => ran.1⟩

theorem callCleanup_trails (world : World κ ν σ) (id : NodeId) (code : κ) :
    (callCleanup program (activate program depth) id code).Ends world
      fun result after => Trail program (.flat .serving) world after ∧
        ∀ effect, world.effect? id = some effect → result = .ok () := by
  refine .of_world ?_
  split
  next absent =>
    rintro _ _ ⟨⟩
    exact ⟨.refl _ world, fun _ found => nomatch absent.symm.trans found⟩
  next effect found =>
    have told : Trail program (.flat .serving) world (world.record (.cleanedUp id code)) :=
      .change (.record world trivial)
    have found' : (world.record (.cleanedUp id code)).effect? id = some effect := found
    have traces := Act.run_traces traced (program.cleanup code)
    have called : (runInFrame effect.reactor .untracked
        ((program.cleanup code).run (activate program depth))).Ends
          (world.record (.cleanedUp id code))
          fun _ after => Trail program (.flat .serving) world after :=
      .of_modify ((traces _).thenAlways fun _ _ inside => told.trans (.cleanup found' inside))
    refine .of_modify (called.attempt.bind (fun result after ran => ?_) fun _ _ ran => ?_)
    · obtain ⟨_, _, ran⟩ := ran
      split
      next =>
        rintro _ _ ⟨⟩
        exact ⟨ran, fun _ _ => rfl⟩
      next =>
        rintro _ _ ⟨⟩
        exact ⟨ran.trans (.change (.report _ _ _)), fun _ _ => rfl⟩
    · obtain ⟨_, failed, _⟩ := ran
      cases failed

end

/-- At every depth of nesting activations leave trails. -/
theorem activate_traced (program : Program κ ν σ) (depth : Nat) : Traced program depth := by
  induction depth with
  | zero => exact ⟨fun _ _ _ _ => nofun, fun _ _ _ _ => nofun, fun _ _ _ _ _ => nofun,
      fun _ _ _ _ => nofun⟩
  | succ depth ih =>
    exact ⟨fun id world result after ran =>
        .refresh ran (refreshComputed_updates ih id world result after ran),
      executeEffect_trails ih, callCleanup_trails ih,
      fun handler => Act.run_traces ih (program.handler handler)⟩

/-- Every run of a program leaves a trail. -/
theorem Program.run_traces (program : Program κ ν σ) (depth : Nat) (act : Act κ ν σ α) :
    Run.Traces program .acting (program.run depth act) :=
  Act.run_traces (activate_traced program depth) act

end ReactiveTree
