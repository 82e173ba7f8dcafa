import ReactiveTree.Proofs.Reactive.Cleanups

/-! # A stopped effect rests

Whether an effect is active is looked at before its due cleanup is called, and not again before its
body starts. So an effect that is stopped while that cleanup goes on runs once more, and this is the
only way in which a body starts after its effect was stopped. Whatever is begun once the effect is
inactive does not start it.
-/

namespace ReactiveTree

variable {κ ν σ α β : Type}

/-- The cleanup of an effect that was called last goes on, and the effect was stopped meanwhile. -/
def EndedByCleanup (id : NodeId) (past : List (Event κ ν)) : Prop :=
  ∃ code cleaning before, past = cleaning ++ .cleanedUp id code :: before ∧
    .stopped id ∉ before ∧ .stopped id ∈ cleaning ∧
      ∀ event ∈ cleaning, event.Concerns id → event = .stopped id

/-- The body of an effect that was stopped starts once at most, and then at the end of the cleanup
that has stopped it. -/
def Rests (id : NodeId) (past : List (Event κ ν)) : Prop :=
  ∀ later earlier, past = later ++ .started id :: earlier → .stopped id ∈ earlier →
    .started id ∉ later ∧ EndedByCleanup id earlier

section

variable {id : NodeId} {past events : List (Event κ ν)}

/-- An event that is not in the first part of a list stands in the rest. -/
private theorem exists_of_append_eq {first rest later earlier : List (Event κ ν)} {event : Event κ ν}
    (split : first ++ rest = later ++ event :: earlier) (absent : event ∉ first) :
    ∃ between, later = first ++ between ∧ rest = between ++ event :: earlier := by
  rcases List.append_eq_append_iff.mp split with ⟨between, later, old⟩ | ⟨between, rfl, new⟩
  · exact ⟨between, later, old⟩
  · cases between with
    | nil => exact ⟨[], by rw [List.append_nil, List.append_nil], new.symm⟩
    | cons other rest =>
      cases new
      exact (absent (List.mem_append_right _ List.mem_cons_self)).elim

theorem Rests.asides (rests : Rests id past) (unstarted : .started id ∉ events) :
    Rests id (events ++ past) := by
  intro later earlier split stopped
  obtain ⟨between, rfl, old⟩ := exists_of_append_eq split unstarted
  obtain ⟨once, ended⟩ := rests between earlier old stopped
  exact ⟨List.not_mem_append unstarted once, ended⟩

/-- The body starts: if the effect was stopped, then in the cleanup that has just been called. -/
theorem Rests.started (ended : .stopped id ∈ past → EndedByCleanup id past) :
    Rests id (.started id :: past) := by
  intro later earlier split stopped
  cases later with
  | nil =>
    cases split
    exact ⟨List.not_mem_nil, ended stopped⟩
  | cons event rest =>
    -- An earlier start stands before the cleanup, where the effect was not stopped yet.
    obtain ⟨_, older⟩ := List.cons.inj split
    have stopped' : .stopped id ∈ past := by
      rw [older]
      exact List.mem_append_right _ (List.mem_cons_of_mem _ stopped)
    obtain ⟨code, cleaning, before, rfl, going, _, only⟩ := ended stopped'
    have apart : .started id ∉ cleaning ++ [.cleanedUp id code] := fun member => by
      rcases List.mem_append.mp member with during | called
      · cases only (.started id) during rfl
      · cases List.mem_singleton.mp called
    rw [List.append_cons] at older
    obtain ⟨between, _, rfl⟩ := exists_of_append_eq older apart
    exact (going (List.mem_append_right _ (List.mem_cons_of_mem _ stopped))).elim

end

namespace World

variable {writes : Prop} {within : Option NodeId} {world middle after : World κ ν σ}
  {events : List (Event κ ν)} {touched : NodeId → Prop} {id : NodeId} {effect effect' : Effect κ}

/-- A running effect runs on and a stopped one stays stopped, and all that happens to it is that it is
stopped and that its due cleanup is called. -/
def Quiets (id : NodeId) (world : World κ ν σ) (events : List (Event κ ν)) (after : World κ ν σ) :
    Prop :=
  ∀ effect, world.effect? id = some effect → effect.executing = true ∨ effect.active = false →
    ∃ effect', after.effect? id = some effect' ∧
      (effect'.executing = true ∨ effect'.active = false) ∧
      (effect'.cleanup = effect.cleanup ∨ effect'.cleanup = none) ∧
      ∀ event ∈ events, event.Concerns id → event = .stopped id ∨
        ∃ code, effect.cleanup = some code ∧ event = .cleanedUp id code

theorem Quiets.trans {later : List (Event κ ν)} (start : Quiets id world events middle)
    (finish : Quiets id middle later after) : Quiets id world (later ++ events) after := by
  intro effect found busy
  obtain ⟨effect', found', busy', due, told⟩ := start effect found busy
  obtain ⟨effect'', found'', busy'', due', told'⟩ := finish effect' found' busy'
  refine ⟨effect'', found'', busy'', ?_, fun event member concerns => ?_⟩
  · rcases due' with same | none
    · rwa [same]
    · exact Or.inr none
  · rcases List.mem_append.mp member with new | old
    · rcases told' event new concerns with stopped | ⟨code, left, called⟩
      · exact Or.inl stopped
      · rcases due with same | none
        · exact Or.inr ⟨code, same ▸ left, called⟩
        · rw [none] at left
          cases left
    · exact told event old concerns

theorem Spares.quiets (spares : world.Spares touched events after) (apart : ¬ touched id) :
    Quiets id world events after := by
  intro effect found busy
  obtain ⟨effect', found', _, core⟩ := spares.effect found
  obtain ⟨cleanup, active, executing, _⟩ := Effect.of_core (core apart)
  exact ⟨effect', found', by rwa [executing, active], Or.inl cleanup,
    fun event member concerns => (spares.unconcerned apart found' event member concerns).elim⟩

/-- A change that touches one effect is judged by that effect. -/
theorem Spares.quiets_of_own {other : NodeId} (spares : world.Spares (· = other) events after)
    (own : Quiets other world events after) (id : NodeId) : Quiets id world events after := by
  by_cases same : id = other
  · exact same ▸ own
  · exact spares.quiets same

/-- An effect whose body is to start is neither running nor stopped. -/
theorem Course.quiets_of_body {last : World κ ν σ} {later : List (Event κ ν)}
    (course : Course writes (some id) world events after) : Quiets id world later last := by
  obtain ⟨effect, found, idle⟩ := course.idle
  obtain ⟨_, found', active, _⟩ := course.began
  cases found.symm.trans found'
  intro effect' known busy
  cases found.symm.trans known
  rw [active, idle] at busy
  rcases busy with running | inactive
  · cases running
  · cases inactive

theorem mem_calls {event : Event κ ν} {cleanup : Option κ} (member : event ∈ calls id cleanup) :
    ∃ code, cleanup = some code ∧ event = .cleanedUp id code := by
  cases cleanup with
  | none => cases member
  | some code => exact ⟨code, rfl, List.mem_singleton.mp member⟩

theorem started_not_mem_calls {cleanup : Option κ} : (.started id : Event κ ν) ∉ calls id cleanup := by
  intro member
  obtain ⟨_, _, same⟩ := mem_calls member
  cases same

theorem Course.quiets (course : Course writes within world events after) (id : NodeId) :
    Quiets id world events after := by
  induction course with
  | spare spares => exact spares.quiets not_false
  | trans _ _ start finish => exact start.trans finish
  | @store world other signal value after may found free stored =>
    refine stored.quiets_of_own (fun effect known => ?_) id
    rw [signal?_eq_some_iff] at found
    cases found.symm.trans (effect?_eq_some_iff.mp known)
  | chain may owner causes _ within => exact within
  | @body world other effect start cleaning middle running last may found active idle alive begun
      executing live bare cleaned ran cleaning' running' =>
    by_cases same : id = other
    · subst same
      exact (Course.body may found active idle alive begun executing live bare cleaned
        ran).quiets_of_body
    · have cleared := (begun.quiets same).trans cleaning'
      have started := cleared.trans ((Spares.started middle other).quiets same)
      exact (started.trans running').trans ((Spares.countRun last other).quiets same)
  | @finish world other events last later after ran reported ih =>
    by_cases same : id = other
    · exact same ▸ ran.quiets_of_body
    · exact (ih.trans (reported.quiets not_false)).trans ((Spares.endRun after other).quiets same)
  | @keep world other events last effect code ran found active ih =>
    by_cases same : id = other
    · exact same ▸ ran.quiets_of_body
    · exact ih.trans ((Spares.keptCleanup last other code).quiets same)
  | @late world other events last effect code cleaning after ran found stopped cleaned ih ih' =>
    by_cases same : id = other
    · exact same ▸ ran.quiets_of_body
    · have called := ih.trans ((Spares.calledCleanup last other code).quiets same)
      exact (called.trans ih').trans ((Spares.endRun after other).quiets same)
  | @stop world other effect start events ended cleaning after may found active begun deaths now
      stopped cleaned ih =>
    by_cases same : id = other
    · subst same
      intro effect' known _
      cases found.symm.trans known
      obtain ⟨last, known', busy, due, told⟩ := ih ended now (Or.inr stopped.1)
      rw [stopped.2, or_self] at due
      refine ⟨last, known', busy, Or.inr due, fun event member concerns => ?_⟩
      rcases List.mem_append.mp member with ended | member
      · exact Or.inl (List.mem_singleton.mp ended)
      rcases List.mem_append.mp member with during | before
      · refine Or.inl ((told event during concerns).resolve_right fun ⟨_, left, _⟩ => ?_)
        cases stopped.2.symm.trans left
      rcases List.mem_append.mp before with called | died
      · exact Or.inr (mem_calls called)
      · obtain ⟨_, rfl⟩ := deaths event died
        exact concerns.elim
    · exact ((begun.quiets same).trans ih).trans ((Spares.stopped after other).quiets same)
  | @abandon world other effect ended after may found active dead given now stopped =>
    refine given.quiets_of_own (fun effect' known _ => ?_) id
    exact ⟨ended, now, Or.inr stopped.1, Or.inr stopped.2, fun event member _ =>
      Or.inl (List.mem_singleton.mp member)⟩

/-- Nothing starts the body of an effect that runs or is stopped. -/
theorem Course.unstarted (course : Course writes within world events after)
    (found : world.effect? id = some effect)
    (busy : effect.executing = true ∨ effect.active = false) : .started id ∉ events := by
  intro member
  obtain ⟨_, _, _, _, told⟩ := course.quiets id effect found busy
  rcases told _ member rfl with stopped | ⟨_, _, called⟩
  · cases stopped
  · cases called

/-- Every effect rests once it is stopped, and was not stopped while it is active. -/
def Rested (world : World κ ν σ) : Prop :=
  ∀ id, (∀ state, world.computed? id ≠ some state) →
    Rests id world.past ∧ ((∀ effect, world.effect? id = some effect → effect.active = true) →
      .stopped id ∉ world.past)

theorem rested_initial (user : σ) : (World.initial user : World κ ν σ).Rested := by
  refine fun _ _ => ⟨fun later _ split => ?_, fun _ => List.not_mem_nil⟩
  cases later with
  | nil => cases split
  | cons => cases split

theorem Rested.of_spares (rested : world.Rested) (spares : world.Spares touched events after)
    (own : ∀ id, touched id → (∀ state, after.computed? id ≠ some state) →
      Rests id after.past ∧ ((∀ effect, after.effect? id = some effect → effect.active = true) →
        .stopped id ∉ after.past)) : after.Rested := by
  intro id plain
  by_cases touch : touched id
  · exact own id touch plain
  have quiet : ∀ event ∈ events, ¬ event.Concerns id := fun event member concerns =>
    (spares.quiet event member id concerns).elim touch fun ⟨state, found⟩ => plain state found
  have plain' : ∀ state, world.computed? id ≠ some state := fun state found => by
    obtain ⟨state', found', _⟩ := spares.computed found
    exact plain state' found'
  obtain ⟨rests, going⟩ := rested id plain'
  rw [spares.past]
  refine ⟨rests.asides fun member => quiet _ member rfl, fun active => ?_⟩
  refine List.not_mem_append (fun member => quiet _ member rfl) (going fun effect found => ?_)
  obtain ⟨effect', found', _, core⟩ := spares.effect found
  obtain ⟨_, active', _⟩ := Effect.of_core (core touch)
  exact active'.symm.trans (active effect' found')

/-- A change of one effect that does not start its body. -/
theorem Rested.of_own (rested : world.Rested) (spares : world.Spares (· = id) events after)
    (found : world.effect? id = some effect) (found' : after.effect? id = some effect')
    (unstarted : .started id ∉ events)
    (going : effect'.active = true → effect.active = true ∧ .stopped id ∉ events) :
    after.Rested := by
  refine rested.of_spares spares fun other same _ => ?_
  subst same
  obtain ⟨rests, going'⟩ := rested other fun state computed => by
    rw [computed?_eq_some_iff, effect?_eq_some_iff.mp found] at computed
    cases computed
  rw [spares.past]
  refine ⟨rests.asides unstarted, fun active => ?_⟩
  obtain ⟨active', unstopped⟩ := going (active effect' found')
  refine List.not_mem_append unstopped (going' fun effect'' known => ?_)
  cases found.symm.trans known
  exact active'

/-- The body of an active effect starts after the cleanup that is due has been called. -/
theorem Rested.begins {start : World κ ν σ} {cleaning : List (Event κ ν)} (rested : world.Rested)
    (found : world.effect? id = some effect) (active : effect.active = true)
    (begun : world.Spares (· = id) (calls id effect.cleanup) start)
    (executing : start.effect? id = some { effect with executing := true, cleanup := none })
    (bare : effect.cleanup = none → cleaning = [])
    (cleaned : Course writes none start cleaning middle) (kept : middle.Rested) :
    (middle.record (.started id)).Rested := by
  obtain ⟨effect', found', _⟩ := cleaned.spares_all.effect executing
  refine kept.of_spares (.started middle id) fun other same plain => ?_
  subst same
  have going : .stopped other ∉ world.past := by
    refine (rested other fun state computed => ?_).2 fun effect'' known => ?_
    · rw [computed?_eq_some_iff, effect?_eq_some_iff.mp found] at computed
      cases computed
    · cases found.symm.trans known
      exact active
  refine ⟨.started fun stopped => ?_, fun active' => ?_⟩
  · rw [cleaned.spares_all.past, begun.past] at stopped ⊢
    have during : .stopped other ∈ cleaning := by
      rcases List.mem_append.mp stopped with during | before
      · exact during
      · exact (List.not_mem_append not_mem_calls going before).elim
    cases due : effect.cleanup with
    | none =>
      rw [bare due] at during
      cases during
    | some code =>
      obtain ⟨_, _, _, _, told⟩ := cleaned.quiets other _ executing (Or.inl rfl)
      exact ⟨code, cleaning, world.past, rfl, going, during, fun event member concerns =>
        (told event member concerns).resolve_right nofun⟩
  · exact List.not_mem_cons_of_ne_of_not_mem nofun ((kept other plain).2 active')

theorem Course.rested (course : Course writes within world events after) (rested : world.Rested) :
    after.Rested := by
  induction course with
  | spare spares => exact rested.of_spares spares nofun
  | trans _ _ start finish => exact finish (start rested)
  | store may found free stored =>
    refine rested.of_spares stored fun other same plain => ?_
    subst same
    obtain ⟨rests, going⟩ := rested other fun state computed => by
      rw [computed?_eq_some_iff, signal?_eq_some_iff.mp found] at computed
      cases computed
    rw [stored.past]
    refine ⟨rests.asides (List.not_mem_cons_of_ne_of_not_mem nofun List.not_mem_nil), fun _ => ?_⟩
    refine List.not_mem_cons_of_ne_of_not_mem nofun (going fun effect known => ?_)
    rw [effect?_eq_some_iff, signal?_eq_some_iff.mp found] at known
    cases known
  | chain may owner causes _ within => exact within rested
  | @body world id effect start cleaning middle running last may found active idle alive begun
      executing live bare cleaned ran cleaning' running' =>
    have rested' : start.Rested := rested.of_own begun found executing started_not_mem_calls
      fun _ => ⟨active, not_mem_calls⟩
    have started := rested.begins found active begun executing bare cleaned (cleaning' rested')
    obtain ⟨effect', found', _⟩ := (cleaned.spares_all.trans
      ((Spares.started middle id).mono fun _ _ => trivial)).trans ran.spares_all |>.effect executing
    exact (running' started).of_own (.countRun last id) found' (effect?_modifyEffect found' _)
      List.not_mem_nil fun active => ⟨active, List.not_mem_nil⟩
  | @finish world id events last later after ran reported ih =>
    obtain ⟨effect, found, _⟩ := ran.idle
    obtain ⟨effect', found', _⟩ := (ran.spares_all.trans
      (reported.mono fun _ => False.elim)).effect found
    exact ((ih rested).of_spares reported nofun).of_own (.endRun after id) found'
      (effect?_modifyEffect found' _) List.not_mem_nil fun active => ⟨active, List.not_mem_nil⟩
  | @keep world id events last effect code ran found active ih =>
    exact (ih rested).of_own (.keptCleanup last id code) found
      (effect?_modifyEffect (effect?_modifyEffect found _) _)
      (List.not_mem_cons_of_ne_of_not_mem nofun List.not_mem_nil)
      fun _ => ⟨active, List.not_mem_cons_of_ne_of_not_mem nofun List.not_mem_nil⟩
  | @late world id events last effect code cleaning after ran found stopped cleaned ih ih' =>
    have called := (ih rested).of_own (.calledCleanup last id code) found found
      (by simp) fun active => ⟨active, by simp⟩
    obtain ⟨effect', found', _⟩ := cleaned.spares_all.effect found
    exact (ih' called).of_own (.endRun after id) found' (effect?_modifyEffect found' _)
      List.not_mem_nil fun active => ⟨active, List.not_mem_nil⟩
  | @stop world id effect start events ended cleaning after may found active begun deaths now stopped
      cleaned ih =>
    have unstarted : .started id ∉ calls id effect.cleanup ++ events :=
      List.not_mem_append started_not_mem_calls fun member => by
        obtain ⟨_, same⟩ := deaths _ member
        cases same
    have begun' : start.Rested := rested.of_own begun found now unstarted fun active => by
      rw [stopped.1] at active
      cases active
    obtain ⟨effect', found', kept⟩ := cleaned.ceases id ended now
    have inactive : effect'.active = false :=
      kept.elim (fun same => same.1.trans stopped.1) fun ceased => ceased.2.1
    refine (ih begun').of_own (.stopped after id) found' found'
      (List.not_mem_cons_of_ne_of_not_mem nofun List.not_mem_nil) fun active => ?_
    rw [inactive] at active
    cases active
  | @abandon world id effect ended after may found active dead given now stopped =>
    refine rested.of_own given found now
      (List.not_mem_cons_of_ne_of_not_mem nofun List.not_mem_nil) fun active => ?_
    rw [stopped.1] at active
    cases active

/-- The effect is there, and active no longer. -/
def Inactive (world : World κ ν σ) (id : NodeId) : Prop :=
  ∃ effect, world.effect? id = some effect ∧ effect.active = false

theorem Becomes.inactive (becomes : world.Becomes writes after) (inactive : world.Inactive id) :
    after.Inactive id := by
  obtain ⟨effect, found, stopped⟩ := inactive
  obtain ⟨_, course⟩ := becomes
  obtain ⟨effect', found', kept⟩ := course.ceases id effect found
  exact ⟨effect', found', kept.elim (fun same => same.1.trans stopped) fun ceased => ceased.2.1⟩

end World

/-- The effects that a call is to stop. -/
def Request.stopped (world : World κ ν σ) : Request κ ν σ → List NodeId
  | .stop effect => [effect]
  | .dispose reactor => (world.graph reactor).effects
  | .unmount id => ((world.mount? id).map Mount.effect).toList
  | _ => []

theorem Request.mem_stopped_unmount {world : World κ ν σ} {mount : MountId} {id : NodeId} :
    id ∈ (Request.unmount mount : Request κ ν σ).stopped world ↔
      ∃ state, world.mount? mount = some state ∧ state.effect = id := by
  show id ∈ ((world.mount? mount).map Mount.effect).toList ↔ _
  rw [Option.mem_toList, Option.map_eq_some_iff]

section

variable {writes : Prop} {engine : Engine κ ν σ} (charts : Charts writes engine) (may : writes)

include charts may

/-- Once a stop has returned, the effect is inactive. -/
theorem stopEffect_ends (id : NodeId) (world : World κ ν σ) :
    (stopEffect engine id).Ends world fun result after =>
      world.Becomes writes after ∧ (result.isOk = true → after.Inactive id) := by
  refine fun result after ran => ⟨stopEffect_follows charts may id world result after ran, ?_⟩
  revert result after
  refine Run.Ends.of_world ?_
  split
  next => rintro _ _ ⟨⟩ ⟨⟩
  next effect found =>
    split
    next inactive =>
      rintro _ _ ⟨⟩ _
      exact ⟨effect, found, by simpa using inactive⟩
    next active =>
      rw [Bool.not_eq_true, Bool.not_eq_false'] at active
      refine .of_modify ?_
      split
      next =>
        refine (stopLiving_ends charts may found).bind (fun _ after stops => ?_)
          fun _ _ stops => nomatch stops.1
        rintro _ _ ⟨⟩ _
        obtain ⟨start, _, ended, cleaning, _, _, now, stopped, course⟩ := stops.2
        have becomes : start.Becomes writes after := ⟨cleaning, course⟩
        exact becomes.inactive ⟨ended, now, stopped.1⟩
      next =>
        rintro _ _ ⟨⟩ _
        exact ⟨_, World.effect?_takeCleanup (World.effect?_deactivate found), rfl⟩

/-- Once all the stops of a dispose have returned, all its effects are inactive. -/
theorem stopAll_ends (effects : List NodeId) (world : World κ ν σ) :
    (Run.forEach effects fun effect => (stopEffect engine effect).thenAlways
      (Run.modify fun world : World κ ν σ => world.drop (.node effect))).Ends world fun result after =>
        world.Becomes writes after ∧ (result.isOk = true → ∀ id ∈ effects, after.Inactive id) := by
  induction effects generalizing world with
  | nil =>
    rintro _ _ ⟨⟩
    exact ⟨.refl world, fun _ => nofun⟩
  | cons effect rest ih =>
    have stopped : ((stopEffect engine effect).thenAlways
        (Run.modify fun world : World κ ν σ => world.drop (.node effect))).Ends world
        fun result after => world.Becomes writes after ∧
          (result.isOk = true → after.Inactive effect) := by
      refine (stopEffect_ends charts may effect world).thenAlways fun _ after stopped => ?_
      have dropped : after.Becomes writes (after.drop (.node effect)) := after.becomes_drop _
      exact ⟨stopped.1.trans dropped, fun succeeded => dropped.inactive (stopped.2 succeeded)⟩
    refine stopped.bind (fun _ middle stopped => (ih middle).mono fun _ after rested => ?_)
      fun _ after stopped => ⟨stopped.1, nofun⟩
    refine ⟨stopped.1.trans rested.1, fun succeeded id member => ?_⟩
    rcases List.mem_cons.mp member with rfl | later
    · exact rested.1.inactive (stopped.2 rfl)
    · exact rested.2 succeeded id later

/-- Once a call has returned that is to stop effects, they are inactive. -/
theorem perform_stops [BEq ν] (request : Request κ ν σ) (world : World κ ν σ) :
    (perform engine request).Ends world fun result after =>
      result.isOk = true → ∀ id ∈ request.stopped world, after.Inactive id := by
  cases request with
  | stop effect =>
    refine (stopEffect_ends charts may effect world).mono fun _ _ stopped succeeded id member => ?_
    cases List.mem_singleton.mp member
    exact stopped.2 succeeded
  | dispose reactor =>
    refine .of_modify (.of_world (.of_modify ((stopAll_ends charts may _ _).bind
      (fun _ after stopped => ?_) fun _ _ _ => nofun)))
    rintro _ _ ⟨⟩ _
    exact stopped.2 rfl
  | unmount mount =>
    refine .of_world ?_
    split
    next absent =>
      intro _ _ _ _ id member
      obtain ⟨_, found, _⟩ := Request.mem_stopped_unmount.mp member
      cases absent.symm.trans found
    next state found =>
      refine (stopEffect_ends charts may state.effect world).bind (fun _ after stopped => ?_)
        fun _ _ _ => nofun
      rintro _ _ ⟨⟩ _ id member
      obtain ⟨_, found', rfl⟩ := Request.mem_stopped_unmount.mp member
      cases found.symm.trans found'
      have becomes : after.Becomes writes (after.withdraw mount).2 :=
        World.becomes_of_shown (World.shown_withdraw after mount)
      exact becomes.inactive (stopped.2 rfl)
  | _ =>
    intro _ _ _ _ id member
    cases member

end

/-- A run calls the cleanup that is due and then starts the body, whatever the cleanup does. -/
theorem World.Runs.starts {writes : Prop} {id : NodeId} {world after : World κ ν σ}
    {events : List (Event κ ν)} {effect : Effect κ} (runs : World.Runs writes id world events after)
    (found : world.effect? id = some effect) :
    ∃ later cleaning, events = later ++ .started id :: (cleaning ++ World.calls id effect.cleanup) := by
  obtain ⟨_, _, later, course, _, rfl⟩ := runs
  cases course with
  | @body _ _ effect' _ cleaning _ running last may found' =>
    cases found.symm.trans found'
    exact ⟨later ++ running, cleaning, by simp⟩

variable [BEq ν]

/-- In every run of a program the body of a stopped effect is started once more at most, namely where
the cleanup that is due before it has stopped the effect. Whatever begins while an effect is inactive
does not start its body, and effects are inactive once a stop, a dispose or an unmount has returned.
But an effect that was found active has its due cleanup called and then its body started in any case. -/
theorem stopped_effects_rest (program : Program κ ν σ) (depth : Nat) {act : Act κ ν σ α} {user : σ}
    {result : Except Panic α} {world : World κ ν σ}
    (ran : program.run depth act (World.initial user) = some (result, world)) :
    (∀ id effect later earlier, world.effect? id = some effect →
      world.past = later ++ .started id :: earlier → .stopped id ∈ earlier →
        .started id ∉ later ∧ EndedByCleanup id earlier) ∧
    (∀ level (before : World κ ν σ) id, before.Inactive id → ∀ {β : Type} (next : Act κ ν σ β),
      (program.run level next).Ends before fun _ after => after.Inactive id ∧
        ∃ events, after.past = events ++ before.past ∧ .started id ∉ events) ∧
    (∀ level (before : World κ ν σ) (request : Request κ ν σ),
      (perform (activate program level) request).Ends before fun result after =>
        result.isOk = true → ∀ id ∈ request.stopped before, after.Inactive id) ∧
    ∀ level (before : World κ ν σ) id effect code, before.effect? id = some effect →
      effect.active = true → effect.executing = false → before.isAlive effect.reactor = true →
      effect.cleanup = some code →
        (activate program (level + 1) (.execute id)).Ends before fun _ after => ∃ later cleaning,
          after.past = later ++ .started id :: (cleaning ++ .cleanedUp id code :: before.past) := by
  have charts : ∀ level, Charts True (activate program level) :=
    activate_charts (Or.inl trivial)
  refine ⟨fun id effect later earlier found split stopped => ?_, fun level before id inactive β next
    _ after ran' => ?_, fun level before request => perform_stops (charts level) trivial request before,
    fun level before id effect code found active idle alive due => ?_⟩
  · obtain ⟨_, course⟩ := program.run_follows depth act _ _ _ ran
    refine ((course.rested (World.rested_initial user)) id fun state computed => ?_).1 later earlier
      split stopped
    rw [World.computed?_eq_some_iff, World.effect?_eq_some_iff.mp found] at computed
    cases computed
  · have becomes := program.run_follows level next _ _ _ ran'
    obtain ⟨effect, found, stopped⟩ := inactive
    obtain ⟨events, course⟩ := becomes
    exact ⟨World.Becomes.inactive ⟨events, course⟩ ⟨effect, found, stopped⟩, events,
      course.spares_all.past, course.unstarted found (Or.inr stopped)⟩
  · refine (executeEffect_runs (charts level) trivial found active idle alive).mono
      fun _ after ran' => ?_
    obtain ⟨_, events, left, runs, rfl⟩ := ran'
    obtain ⟨later, cleaning, rfl⟩ := runs.starts found
    have becomes : left.Becomes True (left.drop (.reactor effect.reactor)) :=
      World.becomes_drop left _
    obtain ⟨died, dropped⟩ := becomes
    have held : (before.hold (.reactor effect.reactor)).past = before.past := rfl
    refine ⟨died ++ later, cleaning, ?_⟩
    rw [dropped.spares_all.past, runs.course.spares_all.past, held, due]
    simp [World.calls]

/-- An effect that reads a signal and leaves a cleanup, which stops it. -/
def Program.stopping : Program Unit Nat Unit where
  compute _ := .pure 0
  effect _ := .bind (.call (.get ⟨0⟩)) fun _ => .pure (.ok (some ()))
  cleanup _ := .call (.stop ⟨1⟩)
  callback _ _ := .pure ()
  render _ := .pure none
  handler _ := .pure ()

/-- Make a signal of one and the effect, and count the signal up to three. -/
def Act.stopping : Act Unit Nat Unit Unit :=
  .bind (.call (.newReactor {})) fun _ =>
    .bind (.call (.newSignal ⟨0⟩ 1)) fun _ =>
      .bind (.call (.newEffect ⟨0⟩ () true)) fun _ =>
        .bind (.call (.set ⟨0⟩ 2)) fun _ => .call (.set ⟨0⟩ 3)

/-- The cleanup that is due before the second run stops the effect, and the run goes on. -/
theorem started_after_stop :
    ∃ world, Program.stopping.run 3 Act.stopping (World.initial ()) = some (.ok (), world) ∧
      ∃ later earlier, world.past = later ++ .stopped ⟨1⟩ :: earlier ∧ .started ⟨1⟩ ∈ later := by
  have ends : (Program.stopping.run 3 Act.stopping (World.initial ())).map Prod.fst =
      some (.ok ()) := by
    decide +kernel
  have pasts : (Program.stopping.run 3 Act.stopping (World.initial ())).map
      (fun reached => decide (reached.2.past =
        reached.2.past.take 10 ++ .stopped ⟨1⟩ :: reached.2.past.drop 11 ∧
          .started ⟨1⟩ ∈ reached.2.past.take 10)) = some true := by
    decide +kernel
  obtain ⟨⟨result, world⟩, ran, rfl⟩ := Option.map_eq_some_iff.mp ends
  rw [ran] at pasts
  exact ⟨world, ran, _, _, of_decide_eq_true (Option.some.inj pasts)⟩

/-- The second run is the last, and it is the cleanup before it that has stopped the effect. -/
theorem stopped_effects_rest_stopping :
    ∃ world, Program.stopping.run 3 Act.stopping (World.initial ()) = some (.ok (), world) ∧
      ∃ later earlier, world.past = later ++ .started ⟨1⟩ :: earlier ∧ .stopped ⟨1⟩ ∈ earlier ∧
        .started ⟨1⟩ ∉ later ∧ EndedByCleanup ⟨1⟩ earlier := by
  have ends : (Program.stopping.run 3 Act.stopping (World.initial ())).map Prod.fst =
      some (.ok ()) := by
    decide +kernel
  have pasts : (Program.stopping.run 3 Act.stopping (World.initial ())).map
      (fun reached => ((reached.2.effect? ⟨1⟩).isSome, decide (reached.2.past =
        reached.2.past.take 9 ++ .started ⟨1⟩ :: reached.2.past.drop 10 ∧
          .stopped ⟨1⟩ ∈ reached.2.past.drop 10))) = some (true, true) := by
    decide +kernel
  obtain ⟨⟨result, world⟩, ran, rfl⟩ := Option.map_eq_some_iff.mp ends
  rw [ran] at pasts
  obtain ⟨present, stands⟩ := Prod.mk.inj (Option.some.inj pasts)
  obtain ⟨effect, found⟩ := Option.isSome_iff_exists.mp present
  obtain ⟨split, stopped⟩ := of_decide_eq_true stands
  exact ⟨world, ran, _, _, split, stopped,
    (stopped_effects_rest Program.stopping 3 ran).1 ⟨1⟩ effect _ _ found split stopped⟩

end ReactiveTree
