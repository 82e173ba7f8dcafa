import ReactiveTree.Proofs.Reactive.Ceasing

/-! # Every cleanup is called once

The past of an effect is in order if each cleanup that a run of it has left is called once, and before
anything else happens to the effect: before the next run of its body, before its end is recorded, and
at once if the effect had ended while it was running. Courses keep the past of every effect in order
as long as its reactor lives.
-/

namespace ReactiveTree

variable {κ ν σ α : Type}

/-- What has happened to an effect, the latest event first, and the cleanup that is due after it. -/
inductive InOrder (id : NodeId) : List (Event κ ν) → Option κ → Prop
  | nil : InOrder id [] none
  | aside {past due event} (order : InOrder id past due) (apart : ¬ event.Concerns id) :
      InOrder id (event :: past) due
  /-- A run of the body begins when no cleanup is due. -/
  | started {past} (order : InOrder id past none) : InOrder id (.started id :: past) none
  /-- A run of an effect that has not ended leaves a cleanup. -/
  | left {past code} (order : InOrder id past none) (going : .stopped id ∉ past) :
      InOrder id (.leftCleanup id code :: past) (some code)
  | called {past code} (order : InOrder id past (some code)) :
      InOrder id (.cleanedUp id code :: past) none
  /-- A run of an effect that has ended meanwhile leaves a cleanup, and it is called at once. -/
  | late {past code} (order : InOrder id past none) (ended : .stopped id ∈ past) :
      InOrder id (.cleanedUp id code :: .leftCleanup id code :: past) none
  /-- An effect ends once, and no cleanup is due then. -/
  | stopped {past} (order : InOrder id past none) (going : .stopped id ∉ past) :
      InOrder id (.stopped id :: past) none

variable {id : NodeId} {past events : List (Event κ ν)} {due : Option κ}

theorem InOrder.asides (order : InOrder id past due) (quiet : ∀ event ∈ events, ¬ event.Concerns id) :
    InOrder id (events ++ past) due := by
  induction events with
  | nil => exact order
  | cons event rest ih =>
    exact .aside (ih fun other member => quiet other (List.mem_cons_of_mem _ member))
      (quiet event List.mem_cons_self)

/-- The cleanup that is due is called. -/
theorem InOrder.calls (order : InOrder id past due) : InOrder id (World.calls id due ++ past) none := by
  cases due with
  | none => exact order
  | some code => exact .called order

namespace World

variable {writes : Prop} {within : Option NodeId} {world middle after : World κ ν σ}
  {touched : NodeId → Prop} {effect effect' : Effect κ}

/-- The past of an effect is in order, up to the cleanup that is due now. None is due while the effect
runs, and none once it is stopped. -/
structure Tends (id : NodeId) (effect : Effect κ) (world : World κ ν σ) : Prop where
  order : InOrder id world.past effect.cleanup
  going : effect.active = true → .stopped id ∉ world.past
  empty : effect.executing = true ∨ effect.active = false → effect.cleanup = none

/-- An effect that has left a cleanup is in a reactor that is there. Its past is in order unless its
reactor has died. -/
structure Cares (id : NodeId) (effect : Effect κ) (world : World κ ν σ) : Prop where
  present : effect.cleanup ≠ none → (world.reactor? effect.reactor).isSome
  tends : .died effect.reactor ∉ world.past → Tends id effect world

/-- The past of every effect is in order, and nothing has happened to what is not there yet. -/
structure Tidy (world : World κ ν σ) : Prop where
  unborn : ∀ id, world.cell? id = none → ∀ event ∈ world.past, ¬ event.Concerns id
  cares : ∀ id effect, world.effect? id = some effect → Cares id effect world
  alive : ∀ owner state, world.reactor? owner = some state →
    state.isAlive = true ∨ .died owner ∈ world.past

theorem tidy_initial (user : σ) : (World.initial user : World κ ν σ).Tidy :=
  ⟨fun _ _ => nofun, fun _ _ => nofun, fun _ _ => nofun⟩

theorem Spares.reactor (spares : world.Spares touched events after) {owner : ReactorId}
    (present : (world.reactor? owner).isSome) : (after.reactor? owner).isSome := by
  obtain ⟨state, found⟩ := Option.isSome_iff_exists.mp present
  obtain ⟨_, found', _⟩ := spares.reactors owner state found
  rw [found']
  rfl

/-- What is not touched has its past in order as before. -/
theorem Spares.tends (spares : world.Spares touched events after) (apart : ¬ touched id)
    (found' : after.effect? id = some effect')
    (core : (Cell.effect effect' : Cell κ ν).core = (Cell.effect effect).core)
    (tends : Tends id effect world) : Tends id effect' after := by
  obtain ⟨cleanup, active, executing, _⟩ := Effect.of_core core
  have quiet := spares.unconcerned apart found'
  refine ⟨?_, ?_, ?_⟩
  · rw [spares.past, cleanup]
    exact tends.order.asides quiet
  · rw [spares.past, active]
    exact fun going => List.not_mem_append (fun member => quiet _ member rfl) (tends.going going)
  · rw [cleanup, active, executing]
    exact tends.empty

theorem Spares.cares (spares : world.Spares touched events after) (apart : ¬ touched id)
    (found' : after.effect? id = some effect') (tidy : world.Tidy) : Cares id effect' after := by
  cases found : world.cell? id with
  | none =>
    obtain ⟨active, executing, cleanup⟩ :=
      spares.made id effect' found (effect?_eq_some_iff.mp found') apart
    refine ⟨fun due => (due cleanup).elim, fun _ => ?_⟩
    have quiet : ∀ event ∈ after.past, ¬ event.Concerns id := by
      rw [spares.past]
      intro event member
      exact (List.mem_append.mp member).elim (spares.unconcerned apart found' event)
        (tidy.unborn id found event)
    refine ⟨?_, fun _ member => quiet _ member rfl, fun _ => cleanup⟩
    rw [cleanup, ← List.append_nil after.past]
    exact InOrder.nil.asides quiet
  | some cell =>
    obtain ⟨cell', known, place, core⟩ := spares.cells id cell found
    cases known.symm.trans (effect?_eq_some_iff.mp found')
    cases cell with
    | signal => cases congrArg Prod.snd place
    | computed => cases congrArg Prod.snd place
    | effect effect =>
      have cares := tidy.cares id effect (effect?_eq_some_iff.mpr found)
      have home : effect'.reactor = effect.reactor := congrArg Prod.fst place
      obtain ⟨cleanup, _⟩ := Effect.of_core (core apart)
      refine ⟨fun due => ?_, fun living => ?_⟩
      · rw [home]
        exact spares.reactor (cares.present (cleanup ▸ due))
      · rw [spares.past, home] at living
        exact spares.tends apart found' (core apart)
          (cares.tends fun died => living (List.mem_append_right _ died))

/-- A change that touches what is there leaves a world tidy if it takes care of what it touches. -/
theorem Tidy.of_spares (tidy : world.Tidy) (spares : world.Spares touched events after)
    (there : ∀ id, touched id → (world.cell? id).isSome)
    (own : ∀ id effect, touched id → after.effect? id = some effect → Cares id effect after) :
    after.Tidy where
  unborn id absent := by
    have absent' : world.cell? id = none := by
      cases found : world.cell? id with
      | none => rfl
      | some cell =>
        obtain ⟨_, found', _⟩ := spares.cells id cell found
        rw [absent] at found'
        cases found'
    rw [spares.past]
    intro event member concerns
    rcases List.mem_append.mp member with new | old
    · rcases spares.quiet event new id concerns with own | ⟨state, computed⟩
      · have present := there id own
        rw [absent'] at present
        cases present
      · rw [computed?_eq_some_iff, absent] at computed
        cases computed
    · exact tidy.unborn id absent' event old concerns
  cares id effect found := by
    by_cases own' : touched id
    · exact own id effect own' found
    · exact spares.cares own' found tidy
  alive owner state found := by
    rw [spares.past]
    cases before : world.reactor? owner with
    | none =>
      exact (spares.founded owner state before found).imp_right (List.mem_append_left _)
    | some old =>
      obtain ⟨state', found', _, alive⟩ := spares.reactors owner old before
      cases found.symm.trans found'
      rcases tidy.alive owner old before with living | died
      · exact (alive living).imp_right (List.mem_append_left _)
      · exact Or.inr (List.mem_append_right _ died)

/-- A change of one effect leaves a world tidy if its past stays in order. -/
theorem Tidy.of_own (tidy : world.Tidy) (spares : world.Spares (· = id) events after)
    (found : world.effect? id = some effect) (found' : after.effect? id = some effect')
    (present : effect'.cleanup ≠ none → (world.reactor? effect.reactor).isSome)
    (tends : .died effect.reactor ∉ after.past → Tends id effect world → Tends id effect' after) :
    after.Tidy := by
  obtain ⟨_, known, home, _⟩ := spares.effect found
  cases found'.symm.trans known
  refine tidy.of_spares spares (fun other same => ?_) fun other effect'' same known' => ?_
  · rw [show other = id from same, effect?_eq_some_iff.mp found]
    rfl
  · subst same
    cases known'.symm.trans known
    refine ⟨fun due => home ▸ spares.reactor (present due), fun living => ?_⟩
    rw [home] at living
    refine tends living ((tidy.cares _ effect found).tends fun died => living ?_)
    rw [spares.past]
    exact List.mem_append_right _ died

/-- Where the body of an effect starts, the effect is active and its reactor is there. -/
theorem Course.began (course : Course writes (some id) world events after) :
    ∃ effect, world.effect? id = some effect ∧ effect.active = true ∧
      (world.reactor? effect.reactor).isSome := by
  cases course with
  | body may found active idle alive => exact ⟨_, found, active, isSome_of_isAlive alive⟩

/-- Where the body of an effect has ended, the effect is running still, or it was stopped. -/
theorem Course.bodyEnded (course : Course writes (some id) world events after) :
    ∃ effect, after.effect? id = some effect ∧ (effect.executing = true ∨ effect.active = false) ∧
      (after.reactor? effect.reactor).isSome := by
  obtain ⟨before, found, _, present⟩ := course.began
  obtain ⟨effect, found', home, _⟩ := course.spares_all.effect found
  refine ⟨effect, found', ?_, home ▸ course.spares_all.reactor present⟩
  cases course with
  | @body _ _ _ _ _ _ _ last may found active idle alive begun executing live bare cleaned ran =>
    obtain ⟨_, known, busy⟩ := cleaned.busy executing (Or.inl rfl)
    obtain ⟨effect', known', busy'⟩ := ran.busy known busy
    have counted : (last.countRun id).effect? id =
        some { effect' with runs := effect'.runs + 1 } := effect?_modifyEffect known' _
    cases found'.symm.trans counted
    exact busy'

/-- A record of an event that leaves the effect as it is. -/
theorem Tidy.own_record (tidy : world.Tidy) (event : Event κ ν) (found : world.effect? id = some effect)
    (own : ∀ other, event.Concerns other → other = id) (unread : ¬ event.IsTracked)
    (tends : .died effect.reactor ∉ world.past → Tends id effect world →
      Tends id effect (world.record event)) : (world.record event).Tidy :=
  tidy.of_own (.told world event own unread) found (show _ = some effect from found)
    (tidy.cares id effect found).present fun living =>
      tends fun died => living (List.mem_cons_of_mem _ died)

theorem Tidy.endRun (tidy : world.Tidy) (found : world.effect? id = some effect) :
    (world.endRun id).Tidy := by
  have found' : (world.endRun id).effect? id = some { effect with executing := false } :=
    effect?_modifyEffect found _
  refine tidy.of_own (.endRun world id) found found' (tidy.cares id effect found).present
    fun _ tends => ⟨tends.order, tends.going, fun done => tends.empty (Or.inr ?_)⟩
  exact done.resolve_left nofun

theorem Tidy.countRun (tidy : world.Tidy) (found : world.effect? id = some effect) :
    (world.countRun id).Tidy := by
  have found' : (world.countRun id).effect? id =
      some { effect with runs := effect.runs + 1 } := effect?_modifyEffect found _
  exact tidy.of_own (.countRun world id) found found' (tidy.cares id effect found).present
    fun _ tends => ⟨tends.order, tends.going, tends.empty⟩

/-- A change of a reactor in which it goes on living. -/
theorem Tidy.modifyReactor (tidy : world.Tidy) (owner : ReactorId) {change : Reactor → Reactor}
    (alive : ∀ state, state.isAlive = true → (change state).isAlive = true) :
    (world.modifyReactor owner change).Tidy where
  unborn := tidy.unborn
  cares id effect found := by
    obtain ⟨present, tends⟩ := tidy.cares id effect found
    refine ⟨fun due => ?_, fun living =>
      ⟨(tends living).order, (tends living).going, (tends living).empty⟩⟩
    rw [reactor?_modifyReactor]
    split
    next same =>
      rw [Option.isSome_map, ← same]
      exact present due
    next => exact present due
  alive other state found := by
    rw [reactor?_modifyReactor] at found
    split at found
    next same =>
      subst same
      obtain ⟨old, found', rfl⟩ := Option.map_eq_some_iff.mp found
      exact (tidy.alive other old found').imp_left (alive old)
    next => exact tidy.alive other state found

/-- The effect is marked as running, and the cleanup that is due is called. -/
theorem Tidy.begun (tidy : world.Tidy)
    (begun : world.Spares (· = id) (calls id effect.cleanup) after)
    (found : world.effect? id = some effect) (active : effect.active = true)
    (executing : after.effect? id = some { effect with executing := true, cleanup := none }) :
    after.Tidy := by
  refine tidy.of_own begun found executing (fun due => (due rfl).elim) fun _ tends => ?_
  refine ⟨?_, fun _ => ?_, fun _ => rfl⟩
  · rw [begun.past]
    exact tends.order.calls
  · rw [begun.past]
    exact List.not_mem_append not_mem_calls (tends.going active)

/-- Between two calls of cleanups the body starts. -/
theorem Tidy.started (tidy : world.Tidy) (found : world.effect? id = some effect)
    (busy : effect.executing = true ∨ effect.active = false) : (world.record (.started id)).Tidy := by
  refine tidy.own_record _ found (fun _ => Eq.symm) not_false fun _ tends => ?_
  have cleanup := tends.empty busy
  refine ⟨?_, fun active => ?_, fun _ => cleanup⟩
  · rw [cleanup]
    exact .started (cleanup ▸ tends.order)
  · exact List.not_mem_cons_of_ne_of_not_mem nofun (tends.going active)

theorem Course.tidy (course : Course writes within world events after) (tidy : world.Tidy) :
    after.Tidy := by
  induction course with
  | spare spares => exact tidy.of_spares spares nofun nofun
  | trans _ _ start finish => exact finish (start tidy)
  | store may found free stored =>
    refine tidy.of_spares stored (fun other same => ?_) fun other effect same found' => ?_
    · rw [same, signal?_eq_some_iff.mp found]
      rfl
    · obtain ⟨_, known, _⟩ := stored.signal found
      rw [signal?_eq_some_iff, ← same, effect?_eq_some_iff.mp found'] at known
      cases known
  | chain may owner causes _ within =>
    exact (within (tidy.modifyReactor owner fun _ living => living)).modifyReactor owner
      fun _ living => living
  | body may found active idle alive begun executing live bare cleaned ran ih ih' =>
    have cleaned' := ih (tidy.begun begun found active executing)
    obtain ⟨_, known, busy⟩ := cleaned.busy executing (Or.inl rfl)
    have ran' := ih' (cleaned'.started known busy)
    obtain ⟨_, known', _⟩ := ran.busy known busy
    exact ran'.countRun known'
  | finish ran reported ih =>
    obtain ⟨_, found, _⟩ := ran.bodyEnded
    obtain ⟨_, found', _⟩ := reported.effect found
    exact ((ih tidy).of_spares reported nofun nofun).endRun found'
  | @keep world id events last effect code ran found active ih =>
    obtain ⟨_, known, busy, present⟩ := ran.bodyEnded
    cases known.symm.trans found
    have told : (last.record (.leftCleanup id code)).effect? id = some effect := found
    have found' : (((last.record (.leftCleanup id code)).modifyEffect id
        ({ · with cleanup := some code })).endRun id).effect? id =
          some { effect with cleanup := some code, executing := false } :=
      effect?_modifyEffect (effect?_modifyEffect told _) _
    refine (ih tidy).of_own (.keptCleanup last id code) found found' (fun _ => present)
      fun _ tends => ⟨?_, fun _ => ?_, fun done => ?_⟩
    · exact .left (tends.empty busy ▸ tends.order) (tends.going active)
    · exact List.not_mem_cons_of_ne_of_not_mem nofun (tends.going active)
    · rcases done with running | inactive
      · cases running
      · cases active.symm.trans inactive
  | @late world id events last effect code cleaning after ran found stopped cleaned ih ih' =>
    -- The effect was active when the body started, so its end is recorded meanwhile.
    have ended : .stopped id ∈ last.past := by
      obtain ⟨_, known, active, _⟩ := ran.began
      obtain ⟨_, known', outcome⟩ := ran.ceases id _ known
      cases known'.symm.trans found
      rw [ran.spares_all.past]
      rcases outcome with ⟨same, _⟩ | ⟨_, _, member⟩
      · rw [active, stopped] at same
        cases same
      · exact List.mem_append_left _ member
    have called : ((last.record (.leftCleanup id code)).record (.cleanedUp id code)).Tidy := by
      refine (ih tidy).of_own (.calledCleanup last id code) found (show _ = some effect from found)
        ((ih tidy).cares id effect found).present fun _ tends => ⟨?_, fun active => ?_, tends.empty⟩
      · have nothing := tends.empty (Or.inr stopped)
        rw [nothing]
        exact .late (nothing ▸ tends.order) ended
      · cases active.symm.trans stopped
    obtain ⟨_, found', _⟩ := cleaned.spares_all.effect
      (show ((last.record _).record _).effect? id = some effect from found)
    exact (ih' called).endRun found'
  | @stop world id effect start events ended cleaning after may found active begun deaths now
      stopped cleaned ih =>
    have cleared : start.Tidy := by
      refine tidy.of_own begun found now (fun due => (due stopped.2).elim)
        fun _ tends => ⟨?_, fun active => ?_, fun _ => stopped.2⟩
      · rw [begun.past, stopped.2, List.append_assoc]
        refine (tends.order.asides fun event member concerns => ?_).calls
        obtain ⟨_, rfl⟩ := deaths event member
        exact concerns
      · cases active.symm.trans stopped.1
    obtain ⟨last, found', outcome⟩ := cleaned.ceases id ended now
    have quiet : last.active = false ∧ .stopped id ∉ cleaning := by
      rcases outcome with ⟨same, absent, _⟩ | ⟨active, _⟩
      · exact ⟨same.trans stopped.1, absent⟩
      · cases active.symm.trans stopped.1
    have home : last.reactor = effect.reactor := by
      obtain ⟨_, known, home, _⟩ := begun.effect found
      cases known.symm.trans now
      obtain ⟨_, known', home', _⟩ := cleaned.spares_all.effect now
      cases known'.symm.trans found'
      exact home'.trans home
    have past : after.past = cleaning ++ ((calls id effect.cleanup ++ events) ++ world.past) := by
      rw [cleaned.spares_all.past, begun.past]
    refine (ih cleared).own_record _ found' (fun _ => Eq.symm) not_false
      fun living tends => ⟨?_, fun active => ?_, fun _ => tends.empty (Or.inr quiet.1)⟩
    · have nothing := tends.empty (Or.inr quiet.1)
      rw [nothing]
      refine .stopped (nothing ▸ tends.order) ?_
      rw [past, home] at living
      have before := (tidy.cares id effect found).tends fun died =>
        living (List.mem_append_right _ (List.mem_append_right _ died))
      rw [past]
      exact List.not_mem_append quiet.2 (List.not_mem_append
        (List.not_mem_append not_mem_calls deaths.not_stopped) (before.going active))
    · cases active.symm.trans quiet.1
  | @abandon world id effect ended after may found active dead given now stopped =>
    refine tidy.of_own given found now (fun due => (due stopped.2).elim) fun living tends => ?_
    -- Only an effect in a reactor that is there has left something, and that reactor has died.
    have nothing : effect.cleanup = none := by
      refine Classical.byContradiction fun due => ?_
      obtain ⟨state, known⟩ := Option.isSome_iff_exists.mp ((tidy.cares id effect found).present due)
      rw [given.past] at living
      rcases tidy.alive effect.reactor state known with alive | died
      · unfold World.isAlive at dead
        rw [known] at dead
        cases alive.symm.trans dead
      · exact living (List.mem_append_right _ died)
    refine ⟨?_, fun active => ?_, fun _ => stopped.2⟩
    · rw [given.past, stopped.2]
      exact .stopped (nothing ▸ tends.order) (tends.going active)
    · rw [stopped.1] at active
      cases active

end World

/-- Each cleanup is called as often as it was left, apart from the one that is due. -/
theorem InOrder.balanced [DecidableEq κ] [DecidableEq ν] (order : InOrder id past due) (code : κ) :
    past.count (.leftCleanup id code) =
      past.count (.cleanedUp id code) + if due = some code then 1 else 0 := by
  induction order with
  | nil => rfl
  | @aside past due event _ apart ih =>
    have left : event ≠ .leftCleanup id code := fun same => apart (same ▸ rfl)
    have called : event ≠ .cleanedUp id code := fun same => apart (same ▸ rfl)
    rw [List.count_cons_of_ne left, List.count_cons_of_ne called, ih]
  | started | stopped => simpa using ‹_›
  | @left past other _ _ ih =>
    by_cases same : other = code <;> simp_all
  | @called past other _ ih =>
    by_cases same : other = code <;> simp_all
  | @late past other _ _ ih =>
    by_cases same : other = code <;> simp_all

/-- The world in which a cleanup of an effect is called. -/
def World.enterCleanup (world : World κ ν σ) (owner : ReactorId) (id : NodeId) (code : κ) :
    World κ ν σ :=
  (world.record (.cleanedUp id code)).modifyReactor owner (·.pushFrame .untracked)

theorem World.reader?_enterCleanup (world : World κ ν σ) (owner : ReactorId) (id : NodeId) (code : κ) :
    ((world.enterCleanup owner id code).reactor? owner).bind Reactor.reader? = none := by
  unfold enterCleanup
  rw [reactor?_modifyReactor, if_pos rfl]
  cases (world.record (.cleanedUp id code)).reactor? owner <;> rfl

variable [BEq ν]

/-- The closure of a cleanup runs in that world, and a panic in it goes no further. -/
theorem callCleanup_enters (program : Program κ ν σ) (engine : Engine κ ν σ) {world : World κ ν σ}
    {effect : Effect κ} (found : world.effect? id = some effect) (code : κ) :
    (callCleanup program engine id code).Ends world fun result _ => result = .ok () ∧
      ∃ outcome left, (program.cleanup code).run engine
        (world.enterCleanup effect.reactor id code) = some (outcome, left) := by
  refine .of_world ?_
  rw [found]
  have entered : (runInFrame effect.reactor .untracked
      ((program.cleanup code).run engine)).Ends (world.record (.cleanedUp id code)) fun _ _ =>
        ∃ outcome left, (program.cleanup code).run engine
          (world.enterCleanup effect.reactor id code) = some (outcome, left) :=
    .of_modify (Run.Ends.thenAlways (fun outcome left ran => ran) fun outcome left ran =>
      ⟨outcome, left, ran⟩)
  refine .of_modify (entered.attempt.bind (fun result after called => ?_) fun _ _ called => ?_)
  · obtain ⟨_, _, called⟩ := called
    split
    next =>
      rintro _ _ ⟨⟩
      exact ⟨rfl, called⟩
    next =>
      rintro _ _ ⟨⟩
      exact ⟨rfl, called⟩
  · obtain ⟨_, failed, _⟩ := called
    cases failed

/-- Whatever a program does from the start: as long as the reactor of an effect lives, each cleanup
that a run of the effect has left is called once, before the body runs again and before the effect's
end is recorded, or at once when the effect had ended meanwhile. Every call of a cleanup runs its
closure in an untracked frame, and does not panic. -/
theorem cleanups_called_once (program : Program κ ν σ) (depth : Nat) {act : Act κ ν σ α} {user : σ}
    {result : Except Panic α} {world : World κ ν σ}
    (ran : program.run depth act (World.initial user) = some (result, world)) :
    (∀ id effect, world.effect? id = some effect → .died effect.reactor ∉ world.past →
      InOrder id world.past effect.cleanup ∧ (effect.active = false → effect.cleanup = none)) ∧
    ∀ level (before : World κ ν σ) id code effect, before.effect? id = some effect →
      ((before.enterCleanup effect.reactor id code).reactor? effect.reactor).bind Reactor.reader? =
          none ∧
        (activate program (level + 1) (.cleanUp id code)).Ends before fun result _ =>
          result = .ok () ∧ ∃ outcome left, (program.cleanup code).run (activate program level)
            (before.enterCleanup effect.reactor id code) = some (outcome, left) := by
  refine ⟨fun id effect found living => ?_, fun level before id code effect found =>
    ⟨before.reader?_enterCleanup _ id code, callCleanup_enters program _ found code⟩⟩
  obtain ⟨_, course⟩ := program.run_follows depth act _ _ _ ran
  have tends := ((course.tidy (World.tidy_initial user)).cares id effect found).tends living
  exact ⟨tends.order, fun inactive => tends.empty (Or.inr inactive)⟩

/-- An effect that leaves a cleanup in each run, and stops itself where the signal is three. -/
def Program.tidying : Program Unit Nat Unit where
  compute _ := .pure 0
  effect _ := .bind (.call (.get ⟨0⟩)) fun value =>
    .bind (if value = 3 then .call (.stop ⟨1⟩) else .pure ()) fun _ => .pure (.ok (some ()))
  cleanup _ := .raise (.text "failed")
  callback _ _ := .pure ()
  render _ := .pure none
  handler _ := .pure ()

/-- Make a signal of one and the effect, and count the signal up to three. -/
def Act.tidying : Act Unit Nat Unit Unit :=
  .bind (.call (.newReactor {})) fun _ =>
    .bind (.call (.newSignal ⟨0⟩ 1)) fun _ =>
      .bind (.call (.newEffect ⟨0⟩ () true)) fun _ =>
        .bind (.call (.set ⟨0⟩ 2)) fun _ => .call (.set ⟨0⟩ 3)

/-- Three runs leave a cleanup each, and each is called although it panics. -/
theorem cleanups_called_once_stopping :
    ∃ world, Program.tidying.run 3 Act.tidying (World.initial ()) = some (.ok (), world) ∧
      .died ⟨0⟩ ∉ world.past ∧ InOrder ⟨1⟩ world.past none ∧
      world.past.count (.leftCleanup ⟨1⟩ ()) = 3 ∧ world.past.count (.cleanedUp ⟨1⟩ ()) = 3 := by
  have ends : (Program.tidying.run 3 Act.tidying (World.initial ())).map Prod.fst =
      some (.ok ()) := by
    decide +kernel
  have effects : (Program.tidying.run 3 Act.tidying (World.initial ())).map
      (fun reached => (reached.2.effect? ⟨1⟩).map fun effect => (effect.reactor, effect.active)) =
        some (some (⟨0⟩, false)) := by
    decide +kernel
  have pasts : (Program.tidying.run 3 Act.tidying (World.initial ())).map
      (fun reached => (decide (.died ⟨0⟩ ∈ reached.2.past),
        reached.2.past.count (.leftCleanup ⟨1⟩ ()), reached.2.past.count (.cleanedUp ⟨1⟩ ()))) =
        some (false, 3, 3) := by
    decide +kernel
  obtain ⟨⟨result, world⟩, ran, rfl⟩ := Option.map_eq_some_iff.mp ends
  rw [ran] at effects pasts
  obtain ⟨effect, found, known⟩ := Option.map_eq_some_iff.mp (Option.some.inj effects)
  obtain ⟨living, left, called⟩ : decide (.died ⟨0⟩ ∈ world.past) = false ∧
      world.past.count (.leftCleanup ⟨1⟩ ()) = 3 ∧ world.past.count (.cleanedUp ⟨1⟩ ()) = 3 := by
    simpa only [Option.map_some, Option.some.injEq, Prod.mk.injEq] using pasts
  have home : effect.reactor = ⟨0⟩ := congrArg Prod.fst known
  obtain ⟨order, empty⟩ := (cleanups_called_once Program.tidying 3 ran).1 ⟨1⟩ effect found
    (home ▸ of_decide_eq_false living)
  rw [empty (congrArg Prod.snd known)] at order
  exact ⟨world, ran, of_decide_eq_false living, order, left, called⟩

end ReactiveTree
