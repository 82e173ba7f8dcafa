import ReactiveTree.Proofs.Reactive.Trails

/-! # Operations leave trails

One lemma for each operation, and from them by induction on the act: what an act does to a world is
a trail, provided that the activations which it sets off leave trails. Visits never panic, so that a
pass comes to its end.
-/

namespace ReactiveTree

variable {κ ν σ α β : Type}

/-- The call tracks reads for the closure that makes it, or runs more of its code. -/
def Request.Tracks : Request κ ν σ → Prop
  | .get _ => True
  | .tryGet _ => True
  | .invoke _ => True
  | _ => False

namespace World

variable {world after : World κ ν σ}

theorem Change.record (world : World κ ν σ) {event : Event κ ν} (remark : event.IsRemark) :
    world.Change (world.record event) :=
  .aside [event] (fun _ member => by rwa [List.mem_singleton.mp member]) rfl rfl rfl

theorem Change.report (world : World κ ν σ) (id : ReactorId) (failure : ReactiveFailure) :
    world.Change (world.report id failure) := by
  unfold World.report
  split
  next =>
    split
    next => exact .record world trivial
    next => exact .aside [] nofun rfl rfl rfl
  next => exact .aside [] nofun rfl rfl rfl

theorem Shown.change (shown : world.Shown after) : world.Change after := by
  obtain ⟨cells, reactors, events, warnings, past⟩ := shown
  refine .aside events (fun event member => ?_) past cells reactors
  rcases warnings event member with ⟨_, rfl⟩ | ⟨_, rfl⟩ <;> exact trivial

theorem Change.takeCleanup (world : World κ ν σ) (id : NodeId) :
    world.Change (world.takeCleanup id).2 :=
  .tweak id fun _ => ⟨rfl, rfl, rfl, rfl, rfl⟩

end World

variable [BEq ν] {program : Program κ ν σ} {mode : Mode} {depth : Nat}

namespace Run

/-- However the run ends, it has left a trail. -/
def Traces (program : Program κ ν σ) (mode : Mode) (run : Run κ ν σ α) : Prop :=
  ∀ world, run.Ends world fun _ after => Trail program (.flat mode) world after

variable {world middle : World κ ν σ}

theorem Traces.pure (value : α) : Traces program mode (Pure.pure value : Run κ ν σ α) := by
  rintro world _ _ ⟨⟩
  exact .refl mode world

theorem Traces.raise (panic : Panic) :
    Traces program mode (Run.raise panic : Run κ ν σ α) := by
  rintro world _ _ ⟨⟩
  exact .refl mode world

theorem Traces.serve {run : Run κ ν σ α} (serves : Traces program .serving run) :
    Traces program mode run :=
  fun world => (serves world).mono fun _ _ trail => .serve trail

/-- What leaves a trail from the middle on leaves one from the start. -/
theorem Traces.from (start : Trail program (.flat mode) world middle) {run : Run κ ν σ α}
    (traces : run.Ends middle fun _ after => Trail program (.flat mode) middle after) :
    run.Ends middle fun _ after => Trail program (.flat mode) world after :=
  traces.mono fun _ _ finish => start.trans finish

theorem Traces.bind {first : Run κ ν σ α} {next : α → Run κ ν σ β}
    (start : Traces program mode first)
    (goOn : ∀ value, Traces program mode (next value)) :
    Traces program mode (first >>= next) :=
  fun world => (start world).bind (fun value after begun => Traces.from begun (goOn value after))
    fun _ _ begun => begun

/-- A run that looks at the world first. -/
theorem Traces.world_bind {next : World κ ν σ → Run κ ν σ α}
    (goOn : ∀ world, (next world).Ends world fun _ after =>
      Trail program (.flat mode) world after) :
    Traces program mode (Run.world >>= next) :=
  goOn

theorem Traces.modify {change : World κ ν σ → World κ ν σ}
    (trails : ∀ world, Trail program (.flat mode) world (change world)) :
    Traces program mode (Run.modify change) := by
  rintro world _ _ ⟨⟩
  exact trails world

theorem Traces.update {change : World κ ν σ → α × World κ ν σ}
    (trails : ∀ world, Trail program (.flat mode) world (change world).2) :
    Traces program mode (Run.update change) := by
  rintro world _ _ ⟨⟩
  exact trails world

theorem Traces.attempt {body : Run κ ν σ α} (traces : Traces program mode body) :
    Traces program mode body.attempt := by
  intro world
  refine (traces world).attempt.mono ?_
  rintro _ after ⟨_, _, trail⟩
  exact trail

theorem Traces.ofResult (result : Except Panic α) :
    Traces program mode (Run.ofResult result : Run κ ν σ α) := by
  intro world result' after ran
  rw [ofResult_apply] at ran
  cases ran
  exact .refl mode _

theorem Traces.thenAlways {body : Run κ ν σ α} {finish : Run κ ν σ Unit}
    (traces : Traces program mode body) (traces' : Traces program mode finish) :
    Traces program mode (body.thenAlways finish) :=
  traces.attempt.bind fun result => traces'.bind fun _ => .ofResult result

theorem Traces.forEach {members : List α} {body : α → Run κ ν σ Unit}
    (traces : ∀ member, Traces program mode (body member)) :
    Traces program mode (Run.forEach members body) := by
  induction members with
  | nil => exact .pure ()
  | cons member rest ih => exact (traces member).bind fun _ => ih

end Run

namespace World

variable {world after : World κ ν σ}

/-- Handles are given back one by one. -/
theorem trail_dropAll (world : World κ ν σ) (handles : List Handle) (fuel : Nat) :
    Trail program (.flat .serving) world (world.dropAll handles fuel) := by
  induction fuel generalizing world handles with
  | zero =>
    cases handles with
    | nil => exact .refl _ world
    | cons => exact .refl _ world
  | succ fuel ih =>
    cases handles with
    | nil => exact .refl _ world
    | cons handle rest =>
      have shed : Trail program (.flat .serving) world (world.shed handle) :=
        .change (.shed handle)
      unfold World.dropAll
      dsimp only
      split
      next last =>
        rw [World.shed, if_pos last] at shed
        exact shed.trans (ih _ _)
      next several =>
        rw [World.shed, if_neg several] at shed
        exact shed.trans (ih _ _)

theorem trail_drop (world : World κ ν σ) (handle : Handle) :
    Trail program (.flat .serving) world (world.drop handle) :=
  world.trail_dropAll _ _

theorem trail_foldl_hold {α : Type} (members : List α) (handle : α → Handle)
    (world : World κ ν σ) : Trail program (.flat .serving) world
      (members.foldl (fun world member => world.hold (handle member)) world) := by
  induction members generalizing world with
  | nil => exact .refl _ world
  | cons member rest ih =>
    exact Trail.trans (.change (.hold (handle member))) (ih (world.hold (handle member)))

/-- A stopped effect leaves its reactor for good. -/
theorem trail_retire {id : NodeId} {effect : Effect κ} (found : world.effect? id = some effect) :
    Trail program (.flat .serving) world
      (((world.modifyEffect id ({ · with active := false })).hold
        (.reactor effect.reactor)).retire id) :=
  Trail.trans (.change (.stop found)) (trail_dropAll _ _ _)

theorem trail_destroySignal (world : World κ ν σ) (id : NodeId) :
    Trail program (.flat .serving) world (world.destroySignal id) := by
  unfold World.destroySignal
  split
  next signal found =>
    split
    next => exact .refl _ world
    next kept =>
      exact Trail.trans (.change (.destroy found (Bool.eq_false_of_not_eq_true kept)))
        (trail_dropAll _ _ _)
  next => exact .refl _ world

end World

/-- What carries activations out at some depth leaves trails. Effects that are there run, and their
cleanups are called, without a panic. -/
structure Traced (program : Program κ ν σ) (depth : Nat) : Prop where
  refresh : ∀ id, Run.Traces program .serving (activate program depth (.refresh id))
  execute : ∀ (world : World κ ν σ) id, (activate program depth (.execute id)).Ends world
    fun result after => Trail program (.running id) world after ∧
      ∀ effect, world.effect? id = some effect → result = .ok ()
  cleanUp : ∀ (world : World κ ν σ) id code, (activate program depth (.cleanUp id code)).Ends world
    fun result after => Trail program (.flat .serving) world after ∧
      ∀ effect, world.effect? id = some effect → result = .ok ()
  invoke : ∀ handler, Run.Traces program .acting (activate program depth (.invoke handler))

section

variable (traced : Traced program depth)

include traced

theorem readComputed_traces (id : NodeId) :
    Run.Traces program .serving (readComputed (activate program depth) id) := by
  refine (traced.refresh id).bind fun _ => Run.Traces.world_bind fun world => ?_
  split
  next value _ => exact Run.Traces.pure value world
  next => exact Run.Traces.raise _ world

theorem peek_traces (id : NodeId) :
    Run.Traces program .serving (readNode (activate program depth) id false) := by
  refine Run.Traces.world_bind fun world => ?_
  split
  next signal found =>
    refine (requireLive_ends signal id "read" world).bind (fun _ after same => ?_)
      fun _ after same => same ▸ .refl _ _
    subst same
    exact Run.Traces.pure signal.value after
  next => exact readComputed_traces traced id world
  next => exact Run.Traces.raise _ world

theorem readNode_traces (id : NodeId) :
    Run.Traces program .acting (readNode (activate program depth) id true) := by
  refine Run.Traces.world_bind fun world => ?_
  split
  next signal found =>
    refine (requireLive_ends signal id "read" world).bind (fun _ after same => ?_)
      fun _ after same => same ▸ .refl _ _
    subst same
    rintro _ _ ⟨⟩
    exact .read found nofun
  next computed found =>
    exact Run.Traces.from (.read found nofun) ((readComputed_traces traced id).serve _)
  next => exact Run.Traces.raise _ world

theorem tryComputed_traces (id : NodeId) :
    Run.Traces program .acting (tryComputed (activate program depth) id) := by
  refine (readNode_traces traced id).attempt.bind fun result => ?_
  cases result with
  | ok value => exact Run.Traces.pure _
  | error panic => exact Run.Traces.pure _

/-- Asking whether inputs have changed does not panic. -/
theorem anyChanged_traces (owner : ReactorId) (inputs : List (NodeId × Nat))
    (world : World κ ν σ) : (anyChanged (activate program depth) owner inputs).Ends world
      fun result after => (∃ wanted, result = .ok wanted) ∧
        Trail program (.flat .serving) world after := by
  induction inputs generalizing world with
  | nil =>
    rintro _ _ ⟨⟩
    exact ⟨⟨_, rfl⟩, .refl _ world⟩
  | cons entry rest ih =>
    refine (traced.refresh entry.1 world).attempt.bind (fun result after asked => ?_)
      fun panic after asked => ?_
    · obtain ⟨_, _, asked⟩ := asked
      cases result with
      | error panic =>
        rintro _ _ ⟨⟩
        exact ⟨⟨_, rfl⟩, asked⟩
      | ok _ =>
        refine .of_world ?_
        split
        next =>
          rintro _ _ ⟨⟩
          exact ⟨⟨_, rfl⟩, asked⟩
        next => exact (ih after).mono fun _ _ rest => ⟨rest.1, asked.trans rest.2⟩
    · obtain ⟨_, failed, _⟩ := asked
      cases failed

theorem needsRun_traces (owner : ReactorId) (effect : NodeId) (world : World κ ν σ) :
    (needsRun (activate program depth) owner effect).Ends world
      fun result after => (∃ wanted, result = .ok wanted) ∧
        Trail program (.flat .serving) world after :=
  anyChanged_traces traced owner _ world

/-- Running the effect of a visit while its causes are on the chain. -/
private theorem wake_trails {owner : ReactorId} {entry : Visit} {world middle : World κ ν σ}
    {effect : Effect κ} (found : world.effect? entry.wakeup.effect = some effect)
    (active : effect.active = true) (idle : effect.executing = false)
    (asked : Trail program (.flat .serving) world middle) :
    (Run.modify (·.modifyReactor owner (·.pushChain entry.wakeup.causes)) >>= fun _ =>
      (activate program depth (.execute entry.wakeup.effect)).thenAlways
        (Run.modify (·.modifyReactor owner Reactor.popChain))).Ends middle fun result after =>
          result = .ok () ∧ Trail program (.visiting owner entry) world after := by
  obtain ⟨effect', found', _⟩ := asked.leads.effect found
  refine .of_modify ((traced.execute _ entry.wakeup.effect).thenAlways fun _ _ ran => ?_)
  exact ⟨ran.2 effect' found', .wake found active idle asked ran.1⟩

/-- A visit does not panic. -/
theorem visit_trails (owner : ReactorId) (entry : Visit) (world : World κ ν σ) :
    (visit (activate program depth) owner entry).Ends world fun result after =>
      result = .ok () ∧ Trail program (.visiting owner entry) world after := by
  refine .of_world ?_
  dsimp only
  split
  next absent =>
    rintro _ _ ⟨⟩
    exact ⟨rfl, .skip fun _ found => nomatch absent.symm.trans found⟩
  next effect found =>
    have own : ∀ {condition : Effect κ → Prop}, condition effect → ∀ effect',
        world.effect? entry.wakeup.effect = some effect' → condition effect' :=
      fun holds effect' found' => Option.some.inj (found.symm.trans found') ▸ holds
    split
    next stopped =>
      rintro _ _ ⟨⟩
      refine ⟨rfl, .skip (own fun active => ?_)⟩
      rw [active] at stopped
      cases stopped
    next active =>
      have active : effect.active = true := by simpa using active
      split
      next executing =>
        rintro _ _ ⟨⟩
        exact ⟨rfl, .again found active executing⟩
      next idle =>
        have idle : effect.executing = false := by simpa using idle
        split
        next later =>
          rintro _ _ ⟨⟩
          exact ⟨rfl, .skip (own fun _ => ⟨idle, later⟩)⟩
        next =>
          split
          next => exact wake_trails traced found active idle (.refl _ world)
          next =>
            refine (needsRun_traces traced owner _ world).bind (fun wanted after asked => ?_)
              fun _ _ asked => ?_
            · split
              next => exact wake_trails traced found active idle asked.2
              next =>
                rintro _ _ ⟨⟩
                exact ⟨rfl, .spare found active idle asked.2⟩
            · obtain ⟨⟨_, failed⟩, _⟩ := asked
              cases failed

theorem visits_trail (owner : ReactorId) (visits : List Visit) (world : World κ ν σ) :
    (Run.forEach visits (visitHeld (activate program depth) owner)).Ends world
      fun result after => result = .ok () ∧
        Trail program (.passing owner visits) world after := by
  induction visits generalizing world with
  | nil =>
    rintro _ _ ⟨⟩
    exact ⟨rfl, .done world⟩
  | cons entry rest ih =>
    have held : (visitHeld (activate program depth) owner entry).Ends world fun result dropped =>
        result = .ok () ∧ ∃ visited, Trail program (.visiting owner entry) world visited ∧
          Trail program (.flat .serving) visited dropped :=
      (visit_trails traced owner entry world).thenAlways fun _ visited made =>
        ⟨made.1, visited, made.2, visited.trail_drop _⟩
    refine held.bind (fun _ dropped made => ?_) fun _ _ made => nomatch made.1
    obtain ⟨_, visited, visit, drop⟩ := made
    exact (ih dropped).mono fun _ _ others => ⟨others.1, .next visit drop others.2⟩

/-- A pass comes to its end. -/
theorem notify_trails (owner : ReactorId) (sources : List NodeId) (world : World κ ν σ) :
    (notify (activate program depth) owner sources).Ends world fun result after =>
      result = .ok () ∧ Trail program (.pass owner sources) world after := by
  intro result after ran
  rw [notify_apply] at ran
  have ends : (Run.forEach (world.passVisits owner sources)
      (visitHeld (activate program depth) owner) >>= fun _ =>
        Run.modify (·.record (.passEnded owner))).Ends (world.enterPass owner sources)
      fun result after => result = .ok () ∧
        Trail program (.pass owner sources) world after := by
    refine (visits_trail traced owner _ _).bind (fun _ visited made => ?_)
      fun _ _ made => nomatch made.1
    rintro _ _ ⟨⟩
    exact ⟨rfl, .pass made.2⟩
  exact ends result after ran

theorem storeValue_traces {world : World κ ν σ} {id : NodeId} {signal : Signal ν}
    (found : world.signal? id = some signal) (kept : signal.destroyed = false) (value : ν) :
    (storeValue (activate program depth) signal.reactor id value).Ends world
      fun _ after => Trail program (.flat .serving) world after := by
  have stored : (world.put signal.reactor id value).reactor? signal.reactor =
      (world.reactor? signal.reactor).map (·.mapGraph (·.modify id Node.bump)) := by
    show (World.mapGraph _ _ _).reactor? _ = _
    unfold World.mapGraph
    rw [World.reactor?_modifyReactor, if_pos rfl]
    rfl
  refine .of_modify (.of_world ?_)
  split
  next absent =>
    rintro _ _ ⟨⟩
    have lost : world.reactor? signal.reactor = none :=
      Option.map_eq_none_iff.mp (stored.symm.trans absent)
    exact .change (.putLost found lost)
  next state present =>
    obtain ⟨old, was, rfl⟩ := Option.map_eq_some_iff.mp (stored.symm.trans present)
    split
    next batched =>
      rintro _ _ ⟨⟩
      exact .change (.defer found kept was batched)
    next unbatched =>
      refine (notify_trails traced signal.reactor [id] _).mono fun _ _ pass => ?_
      refine .store found kept (fun state found' => ?_) pass.2
      cases Option.some.inj (was.symm.trans found')
      exact Nat.eq_zero_of_not_pos unbatched

/-- A write of a live signal is noted first; nothing comes of any other. -/
theorem writeSignal_noted (id : NodeId) (value : ν) (world : World κ ν σ) :
    (writeSignal (activate program depth) id value).Ends world fun _ after =>
      (after = world ∧ ∀ signal, world.signal? id = some signal → signal.destroyed = true) ∨
        ∃ signal, world.signal? id = some signal ∧
          Trail program (.flat .serving) (world.noteWrite signal.reactor id) after := by
  refine .of_world ?_
  split
  next absent =>
    rintro _ _ ⟨⟩
    exact Or.inl ⟨rfl, fun signal found => nomatch absent.symm.trans found⟩
  next signal found =>
    have only : ∀ other, world.signal? id = some other → other = signal :=
      fun other found' => Option.some.inj (found'.symm.trans found)
    have found' : (world.noteWrite signal.reactor id).signal? id = some signal := by
      unfold World.noteWrite
      split <;> exact found
    have live : (requireLive signal id "write" : Run κ ν σ Unit).Ends world fun result after =>
        after = world ∧ (result = .ok () ↔ signal.destroyed = false) := by
      unfold requireLive
      split
      next dead =>
        rintro _ _ ⟨⟩
        exact ⟨rfl, nofun, fun kept => nomatch dead.symm.trans kept⟩
      next kept =>
        rintro _ _ ⟨⟩
        exact ⟨rfl, fun _ => Bool.eq_false_of_not_eq_true kept, fun _ => rfl⟩
    refine live.bind (fun _ after noted => ?_) fun panic after failed => Or.inl ⟨failed.1, ?_⟩
    · obtain ⟨rfl, kept⟩ := noted
      refine .of_modify (.of_world ?_)
      dsimp only
      split
      next => exact (Run.Traces.pure () _).mono fun _ _ trail => Or.inr ⟨signal, found, trail⟩
      next =>
        split
        next =>
          rintro _ _ ⟨⟩
          exact Or.inr ⟨signal, found, .change (.record _ trivial)⟩
        next =>
          exact (storeValue_traces traced found' (kept.mp rfl) value).mono fun _ _ trail =>
            Or.inr ⟨signal, found, trail⟩
    · intro other found'
      rw [only other found']
      exact Bool.eq_true_of_not_eq_false fun kept => nomatch failed.2.mpr kept

theorem writeSignal_traces (id : NodeId) (value : ν) :
    Run.Traces program .serving (writeSignal (activate program depth) id value) := by
  intro world
  refine (writeSignal_noted traced id value world).mono fun _ after outcome => ?_
  rcases outcome with ⟨rfl, _⟩ | ⟨signal, found, trail⟩
  · exact .refl _ _
  · exact .trans (.change (.noteWrite found)) trail

/-- What the closing of a batch leaves to be done. -/
theorem closeBatch_trails (owner : ReactorId) (world : World κ ν σ) :
    (closeBatch (activate program depth) owner).Ends world fun _ after =>
      (world.closeBatch owner).1 = [] ∧ after = (world.closeBatch owner).2 ∨
        (world.closeBatch owner).1 ≠ [] ∧ Trail program
          (.pass owner (world.closeBatch owner).1) (world.closeBatch owner).2 after := by
  have closes : closeBatch (activate program depth) owner =
      (Run.update (·.closeBatch owner) >>= fun pending =>
        if pending ≠ [] then notify (activate program depth) owner pending else pure ()) := rfl
  rw [closes]
  refine .of_update ?_
  split
  next due =>
    exact (notify_trails traced owner _ _).mono fun _ _ pass => Or.inr ⟨due, pass.2⟩
  next bare =>
    rintro _ _ ⟨⟩
    exact Or.inl ⟨not_not.mp bare, rfl⟩

theorem cleanUp_traces (id : NodeId) (code : κ) :
    Run.Traces program .serving (activate program depth (.cleanUp id code)) :=
  fun world => (traced.cleanUp world id code).mono fun _ _ called => called.1

theorem takeCleanup_traces (id : NodeId) : Run.Traces program .serving
    (Run.update (·.takeCleanup id) >>= fun due =>
      match due with
      | some code => activate program depth (.cleanUp id code)
      | none => pure ()) := by
  refine (Run.Traces.update fun world => .change (.takeCleanup world id)).bind fun due => ?_
  cases due with
  | some code => exact cleanUp_traces traced id code
  | none => exact Run.Traces.pure ()

theorem stopEffect_traces (id : NodeId) :
    Run.Traces program .serving (stopEffect (activate program depth) id) := by
  refine Run.Traces.world_bind fun world => ?_
  split
  next => exact Run.Traces.raise _ world
  next effect found =>
    split
    next => exact Run.Traces.pure () world
    next =>
      have told : Run.Traces program .serving
          (Run.modify fun world : World κ ν σ => world.record (.stopped id)) :=
        .modify fun world => .change (.record world trivial)
      refine .of_modify ?_
      split
      next =>
        have cleaned : (Run.holding (.reactor effect.reactor) (Run.modify (·.retire id) >>= fun _ =>
            Run.update (·.takeCleanup id) >>= fun due =>
              match due with
              | some code => activate program depth (.cleanUp id code)
              | none => pure ())).Ends (world.modifyEffect id ({ · with active := false }))
            fun _ after => Trail program (.flat .serving) world after :=
          .of_modify (Run.Ends.thenAlways (.of_modify (Run.Traces.from (World.trail_retire found)
            (takeCleanup_traces traced id _))) fun _ after trail => trail.trans (after.trail_drop _))
        exact cleaned.bind (fun _ after trail => Run.Traces.from trail (told after))
          fun _ _ trail => trail
      next living =>
        have stopped : Trail program (.flat .serving) world
            (world.modifyEffect id ({ · with active := false })) :=
          .change (.abandon found (Bool.eq_false_of_not_eq_true living))
        exact Run.Traces.from stopped ((Run.Traces.update fun world =>
          .change (.takeCleanup world id)).bind (fun _ => told) _)

theorem disposeReactor_traces (id : ReactorId) :
    Run.Traces program .serving (disposeReactor (activate program depth) id) := by
  have told : ∀ {event : Event κ ν}, event.IsRemark → Run.Traces program .serving
      (Run.modify fun world : World κ ν σ => world.record event) :=
    fun remark => .modify fun world => .change (.record world remark)
  have remark : (Event.disposing id : Event κ ν).IsRemark := trivial
  have remark' : (Event.disposed id : Event κ ν).IsRemark := trivial
  refine (told remark).bind fun _ => Run.Traces.world_bind fun world => ?_
  exact ((Run.Traces.modify fun world => world.trail_foldl_hold _ _).bind fun _ =>
    (Run.Traces.forEach fun effect => (stopEffect_traces traced effect).thenAlways
      (.modify fun world => world.trail_drop _)).bind fun _ => told remark') world

theorem unmount_traces (id : MountId) :
    Run.Traces program .serving (unmount (activate program depth) id) := by
  refine Run.Traces.world_bind fun world => ?_
  split
  next => exact Run.Traces.pure _ world
  next mount _ =>
    exact ((stopEffect_traces traced mount.effect).bind fun _ =>
      .update fun world => .change (World.shown_withdraw world id).change) world

theorem newComputed_traces (owner : ReactorId) (body : κ) :
    Run.Traces program .serving (newComputed (activate program depth) owner body) := by
  have made : ∀ world : World κ ν σ, Trail program (.flat .serving) world
      ((world.hold (.reactor owner)).addCell (.computed ⟨owner, body, none, false, 1⟩) .derived).2 :=
    fun _ => .change (.addHolding (.computed ⟨owner, body, none, false, 1⟩) ⟨rfl, rfl, rfl⟩)
  refine (Run.Traces.update made).bind fun id => (traced.refresh id).attempt.bind fun result => ?_
  split
  next => exact Run.Traces.pure id
  next =>
    exact (Run.Traces.modify fun world => .change (.report world _ _)).bind fun _ =>
      Run.Traces.pure id

theorem newEffect_traces (owner : ReactorId) (body : EffectBody κ) (eager : Bool) :
    Run.Traces program .serving (newEffect (activate program depth) owner body eager) := by
  refine fun world => .of_update ?_
  cases eager with
  | false =>
    rintro _ _ ⟨⟩
    exact .change (.addEffect owner body)
  | true =>
    refine (traced.execute _ world.nextId).bind (fun _ after ran => ?_) fun _ after ran => ?_
    · rintro _ _ ⟨⟩
      exact .born owner body ran.1
    · exact .born owner body ran.1

theorem newMount_traces (owner : ReactorId) (document : DocumentId) (container : HostId)
    (render : κ) : Run.Traces program .serving
      (newMount (activate program depth) owner document container render) := by
  refine Run.Traces.world_bind fun world => .of_modify (Run.Traces.from ?_
    (((newEffect_traces traced owner _ true).bind fun _ => Run.Traces.pure _) _))
  exact .change (.aside [] nofun rfl rfl rfl)

/-- A call that tracks no read is served. -/
theorem perform_serves (request : Request κ ν σ) (silent : ¬ request.Tracks) :
    Run.Traces program .serving (perform (activate program depth) request) := by
  unfold perform
  cases request with
  | newReactor settings => exact Run.Traces.update fun world => .change (.addReactor settings)
  | newSignal reactor value =>
    have made : ∀ world : World κ ν σ, Trail program (.flat .serving) world
        ((world.hold (.reactor reactor)).addCell (.signal ⟨reactor, value, false, 1⟩) .source).2 :=
      fun _ => .change (.addHolding (.signal ⟨reactor, value, false, 1⟩) ⟨rfl, rfl⟩)
    exact Run.Traces.update made
  | newComputed reactor body => exact newComputed_traces traced reactor body
  | newEffect reactor body eager => exact newEffect_traces traced reactor _ eager
  | subscribe signal callback =>
    refine Run.Traces.world_bind fun world => ?_
    split
    next => exact Run.Traces.raise _ world
    next state _ =>
      exact ((Run.Traces.modify fun world => .change (.hold _)).bind fun _ =>
        newEffect_traces traced state.reactor _ true) world
  | newDocument =>
    exact Run.Traces.update fun world => .change (.aside [] nofun rfl rfl rfl)
  | mount reactor document container render =>
    exact newMount_traces traced reactor document container render
  | unmount mount => exact unmount_traces traced mount
  | get node => exact (silent trivial).elim
  | peek node => exact peek_traces traced node
  | tryGet node => exact (silent trivial).elim
  | stored signal => exact Run.Traces.world_bind fun world => Run.Traces.pure _ world
  | set signal value => exact writeSignal_traces traced signal value
  | label node text =>
    refine Run.Traces.modify fun world => ?_
    split
    next cell found => exact .change (.label found text)
    next => exact .refl _ world
  | execute effect =>
    exact fun world => .of_modify ((traced.execute _ effect).mono fun _ _ ran => .execute ran.1)
  | stop effect => exact stopEffect_traces traced effect
  | destroy signal => exact Run.Traces.modify fun world => world.trail_destroySignal signal
  | dispose reactor => exact disposeReactor_traces traced reactor
  | invoke handler => exact (silent trivial).elim
  | hold handle => exact Run.Traces.modify fun world => .change (.hold handle)
  | drop handle => exact Run.Traces.modify fun world => world.trail_drop handle
  | note value => exact Run.Traces.modify fun world => .change (.record world trivial)
  | look => exact Run.Traces.world_bind fun world => Run.Traces.pure world world
  | store user =>
    exact Run.Traces.modify fun world => .change (.aside [] nofun rfl rfl rfl)

theorem perform_traces (request : Request κ ν σ) :
    Run.Traces program .acting (perform (activate program depth) request) := by
  by_cases tracks : request.Tracks
  · cases request with
    | get node => exact readNode_traces traced node
    | tryGet node => exact tryComputed_traces traced node
    | invoke handler => exact traced.invoke handler
    | _ => exact tracks.elim
  · exact (perform_serves traced request tracks).serve

theorem Act.run_traces (act : Act κ ν σ α) :
    Run.Traces program .acting (act.run (activate program depth)) := by
  induction act with
  | pure value => exact Run.Traces.pure value
  | raise panic => exact Run.Traces.raise panic
  | bind first next ih ih' =>
    exact ih.bind ih'
  | call request => exact perform_traces traced request
  | within scope body ih =>
    intro world
    cases scope with
    | batch owner =>
      refine .of_modify ((ih _).attempt.bind (fun result inner inside => ?_)
        fun _ _ inside => ?_)
      · obtain ⟨_, _, inside⟩ := inside
        have closed : ∀ after, ((inner.closeBatch owner).1 = [] ∧
            after = (inner.closeBatch owner).2 ∨ (inner.closeBatch owner).1 ≠ [] ∧
              Trail program (.pass owner (inner.closeBatch owner).1)
                (inner.closeBatch owner).2 after) →
            Trail program (.flat .acting) world after := by
          rintro after (⟨bare, rfl⟩ | ⟨due, pass⟩)
          · exact .batch owner inside bare
          · exact .flush owner inside due pass
        refine (closeBatch_trails traced owner inner).bind (fun _ after finish => ?_)
          fun _ after finish => closed after finish
        intro result' after' ran
        rw [Run.ofResult_apply] at ran
        cases ran
        exact closed after finish
      · obtain ⟨_, failed, _⟩ := inside
        cases failed
    | untracked owner =>
      exact .of_modify ((ih _).thenAlways fun _ _ inside => .untracked owner inside)
  | attempt body ih => exact ih.attempt

end

end ReactiveTree
