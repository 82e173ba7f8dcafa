import ReactiveTree.Proofs.Reactive.Touching

/-! # Courses

A course is what a run may do to a world, with the events that it records, the latest first. It is
made of changes that touch nothing, of new values for signals, of runs of effects and of their ends.
A run of an effect calls the cleanup that is due, then goes through the body, and ends by what the
body has left. A course that never writes is made of changes that touch nothing.

The main lemma says what a course cannot touch: the signals on the innermost chains, and the effects
that are running already, unless they are stopped.
-/

namespace ReactiveTree

variable {κ ν σ : Type}

namespace World

/-- The innermost chain of a reactor holds a source. -/
def Chained (world : World κ ν σ) (owner : ReactorId) (id : NodeId) : Prop :=
  ∃ state, world.reactor? owner = some state ∧ state.isCircular id = true

/-- The call of a cleanup that was left. -/
def calls (id : NodeId) (cleanup : Option κ) : List (Event κ ν) :=
  (cleanup.map (Event.cleanedUp id)).toList

/-- Count one more run of an effect. -/
def countRun (world : World κ ν σ) (id : NodeId) : World κ ν σ :=
  world.modifyEffect id fun effect => { effect with runs := effect.runs + 1 }

/-- An effect is running no longer. -/
def endRun (world : World κ ν σ) (id : NodeId) : World κ ν σ :=
  world.modifyEffect id ({ · with executing := false })

/-- What a run may do to a world, as a whole or up to the end of the body of an effect. The
parameter says whether it may write at all. -/
inductive Course (writes : Prop) :
    Option NodeId → World κ ν σ → List (Event κ ν) → World κ ν σ → Prop
  /-- A change that touches nothing. -/
  | spare {world events after} (spares : Spares (fun _ => False) world events after) :
      Course writes none world events after
  | trans {world events middle later after} (start : Course writes none world events middle)
      (finish : Course writes none middle later after) :
      Course writes none world (later ++ events) after
  /-- A new value for a signal that is not on the innermost chain of its reactor. -/
  | store {world id signal value after} (may : writes) (found : world.signal? id = some signal)
      (free : ¬ world.Chained signal.reactor id)
      (stored : world.Spares (· = id) [.changed id value] after) :
      Course writes none world [.changed id value] after
  /-- A course in which the innermost chain of a reactor is longer. -/
  | chain {world events after} (may : writes) (owner : ReactorId) (causes : List NodeId)
      (within : Course writes none (world.modifyReactor owner (·.pushChain causes)) events after) :
      Course writes none world events (after.modifyReactor owner Reactor.popChain)
  /-- A run of an idle effect up to the end of its body, with the call of the cleanup that is due. -/
  | body {world id effect start cleaning middle running last} (may : writes)
      (found : world.effect? id = some effect) (active : effect.active = true)
      (idle : effect.executing = false) (alive : world.isAlive effect.reactor = true)
      (begun : world.Spares (· = id) (calls id effect.cleanup) start)
      (executing : start.effect? id = some { effect with executing := true, cleanup := none })
      (live : ∀ owner, ((world.graph owner).node? id).isSome → ((start.graph owner).node? id).isSome)
      (bare : effect.cleanup = none → cleaning = [])
      (cleaned : Course writes none start cleaning middle)
      (ran : Course writes none (middle.record (.started id)) running last) :
      Course writes (some id) world
        (running ++ ([.started id] ++ (cleaning ++ calls id effect.cleanup))) (last.countRun id)
  /-- The body has left nothing. -/
  | finish {world id events last later after} (ran : Course writes (some id) world events last)
      (reported : Spares (fun _ => False) last later after) :
      Course writes none world (later ++ events) (after.endRun id)
  /-- The body has left a cleanup, which is kept. -/
  | keep {world id events last effect code} (ran : Course writes (some id) world events last)
      (found : last.effect? id = some effect) (active : effect.active = true) :
      Course writes none world ([.leftCleanup id code] ++ events)
        (((last.record (.leftCleanup id code)).modifyEffect id
          ({ · with cleanup := some code })).endRun id)
  /-- The body has left a cleanup after the effect was stopped, and it is called. -/
  | late {world id events last effect code cleaning after}
      (ran : Course writes (some id) world events last) (found : last.effect? id = some effect)
      (stopped : effect.active = false)
      (cleaned : Course writes none ((last.record (.leftCleanup id code)).record
        (.cleanedUp id code)) cleaning after) :
      Course writes none world (cleaning ++ ([.cleanedUp id code, .leftCleanup id code] ++ events))
        (after.endRun id)
  /-- The end of an effect, with the call of the cleanup that is due. -/
  | stop {world id effect start events ended cleaning after} (may : writes)
      (found : world.effect? id = some effect) (active : effect.active = true)
      (begun : world.Spares (· = id) (calls id effect.cleanup ++ events) start)
      (deaths : Deaths events) (now : start.effect? id = some ended)
      (stopped : ended.active = false ∧ ended.cleanup = none)
      (cleaned : Course writes none start cleaning after) :
      Course writes none world ([.stopped id] ++ (cleaning ++ (calls id effect.cleanup ++ events)))
        (after.record (.stopped id))
  /-- The end of an effect whose reactor is dead: what it has left is given up. -/
  | abandon {world id effect ended after} (may : writes) (found : world.effect? id = some effect)
      (active : effect.active = true) (dead : world.isAlive effect.reactor = false)
      (given : world.Spares (· = id) [.stopped id] after) (now : after.effect? id = some ended)
      (stopped : ended.active = false ∧ ended.cleanup = none) :
      Course writes none world [.stopped id] after

variable {writes : Prop} {within : Option NodeId} {world middle after : World κ ν σ}
  {events : List (Event κ ν)} {touched : NodeId → Prop} {id : NodeId}

/-- What comes after the body of an effect, up to the end of the run. -/
inductive Settles (writes : Prop) (id : NodeId) (last : World κ ν σ) :
    List (Event κ ν) → World κ ν σ → Prop
  | finish {later after} (reported : Spares (fun _ => False) last later after) :
      Settles writes id last later (after.endRun id)
  | keep {effect code} (found : last.effect? id = some effect) (active : effect.active = true) :
      Settles writes id last [.leftCleanup id code] (((last.record (.leftCleanup id code)).modifyEffect
        id ({ · with cleanup := some code })).endRun id)
  | late {effect code cleaning after} (found : last.effect? id = some effect)
      (stopped : effect.active = false) (cleaned : Course writes none ((last.record
        (.leftCleanup id code)).record (.cleanedUp id code)) cleaning after) :
      Settles writes id last (cleaning ++ [.cleanedUp id code, .leftCleanup id code])
        (after.endRun id)

/-- A whole run of an effect. -/
def Runs (writes : Prop) (id : NodeId) (world : World κ ν σ) (events : List (Event κ ν))
    (after : World κ ν σ) : Prop :=
  ∃ ran last later, Course writes (some id) world ran last ∧ Settles writes id last later after ∧
    events = later ++ ran

theorem Runs.course (runs : Runs writes id world events after) :
    Course writes none world events after := by
  obtain ⟨ran, last, later, course, settles, rfl⟩ := runs
  cases settles with
  | finish reported => exact .finish course reported
  | keep found active => exact .keep course found active
  | late found stopped cleaned =>
    rw [List.append_assoc]
    exact .late course found stopped cleaned

/-- A course that never writes touches nothing. -/
theorem Course.spares_of_not_writes (course : Course writes within world events after)
    (never : ¬ writes) : world.Spares (fun _ => False) events after := by
  induction course with
  | spare spares => exact spares
  | trans _ _ start finish => exact start.trans finish
  | store may => exact absurd may never
  | chain may => exact absurd may never
  | body may => exact absurd may never
  | finish ran | keep ran | late ran =>
    cases ran with
    | body may => exact absurd may never
  | stop may => exact absurd may never
  | abandon may => exact absurd may never

theorem isCircular_pushChain {state : Reactor} (chained : state.isCircular id = true)
    (causes : List NodeId) : (state.pushChain causes).isCircular id = true := by
  unfold Reactor.isCircular at chained ⊢
  cases chains : state.chains with
  | nil =>
    rw [chains] at chained
    cases chained
  | cons chain rest =>
    rw [chains] at chained
    have member : id ∈ chain := by simpa using chained
    have longer : id ∈ addAll chain causes := mem_addAll.mpr (Or.inl member)
    simpa [Reactor.pushChain, chains] using longer

theorem Chained.pushChain {owner : ReactorId} (chained : world.Chained owner id)
    (other : ReactorId) (causes : List NodeId) :
    (world.modifyReactor other (·.pushChain causes)).Chained owner id := by
  obtain ⟨state, found, circular⟩ := chained
  unfold Chained
  rw [reactor?_modifyReactor]
  split
  next same =>
    subst same
    exact ⟨_, by rw [found]; rfl, isCircular_pushChain circular causes⟩
  next => exact ⟨state, found, circular⟩

theorem Spares.chained (spares : world.Spares touched events after) {owner : ReactorId}
    (chained : world.Chained owner id) : after.Chained owner id := by
  obtain ⟨state, found, circular⟩ := chained
  obtain ⟨state', found', chains, _⟩ := spares.reactors owner state found
  refine ⟨state', found', ?_⟩
  unfold Reactor.isCircular at circular ⊢
  rwa [chains]

/-- A signal on the innermost chain of its reactor, or a running effect. -/
def Fixed (world : World κ ν σ) (id : NodeId) : Prop :=
  (∃ signal, world.signal? id = some signal ∧ world.Chained signal.reactor id) ∨
    ∃ effect, world.effect? id = some effect ∧ effect.executing = true

theorem Spares.fixed (spares : world.Spares touched events after) (fixed : world.Fixed id)
    (apart : ¬ touched id) : after.Fixed id := by
  rcases fixed with ⟨signal, found, chained⟩ | ⟨effect, found, executing⟩
  · obtain ⟨signal', found', home, _⟩ := spares.signal found
    exact Or.inl ⟨signal', found', home ▸ spares.chained chained⟩
  · obtain ⟨effect', found', _, core⟩ := spares.effect found
    obtain ⟨_, _, executing', _⟩ := Effect.of_core (core apart)
    exact Or.inr ⟨effect', found', executing'.trans executing⟩

/-- A chain that is put on before a change and taken off after it is not seen. -/
theorem Spares.popChain {owner : ReactorId} {causes : List NodeId}
    (spares : (world.modifyReactor owner (·.pushChain causes)).Spares touched events after) :
    world.Spares touched events (after.modifyReactor owner Reactor.popChain) := by
  have before : ∀ other, (world.modifyReactor owner (·.pushChain causes)).graph other =
      world.graph other := graph_modifyReactor world owner fun _ _ => rfl
  have behind : ∀ other, (after.modifyReactor owner Reactor.popChain).graph other =
      after.graph other := graph_modifyReactor after owner fun _ _ => rfl
  have gone : ∀ other id, after.Gone other id →
      (after.modifyReactor owner Reactor.popChain).Gone other id :=
    fun other id gone => ⟨gone.1, by rw [behind]; exact gone.2⟩
  refine ⟨spares.past, spares.cells, spares.made, fun other state found => ?_,
    fun other state absent found => ?_, fun other id cell node known live => ?_,
    fun other id effect found apart live => ?_, spares.quiet,
    fun read id effect member found apart => ?_⟩
  · have pushed := spares.reactors other
    rw [reactor?_modifyReactor] at pushed ⊢
    split at pushed
    next same =>
      subst same
      rw [found] at pushed
      obtain ⟨state', found', chains, alive⟩ := pushed _ rfl
      refine ⟨state'.popChain, by rw [if_pos rfl, found']; rfl, ?_, alive⟩
      show state'.chains.tail = state.chains
      rw [chains]
      rfl
    next apart =>
      rw [if_neg apart]
      exact pushed state found
  · have absent' : (world.modifyReactor owner (·.pushChain causes)).reactor? other = none := by
      rw [reactor?_modifyReactor]
      split
      next same =>
        subst same
        rw [absent]
        rfl
      next => exact absent
    rw [reactor?_modifyReactor] at found
    split at found
    next same =>
      subst same
      obtain ⟨state', found', rfl⟩ := Option.map_eq_some_iff.mp found
      exact spares.founded other state' absent' found'
    next => exact spares.founded other state absent' found
  · rw [behind] at live
    obtain ⟨old, was, kept⟩ := spares.nodes other id cell node known live
    rw [before] at was
    refine ⟨old, was, fun apart kind => ⟨(kept apart kind).1, fun read member => ?_⟩⟩
    exact ((kept apart kind).2 read member).imp_right (gone other read)
  · rw [behind]
    refine spares.lives other id effect found apart ?_
    rwa [before]
  · obtain ⟨cell, known, kept⟩ := spares.reads read id effect member found apart
    refine ⟨cell, known, fun node live => ?_⟩
    rw [behind] at live
    exact (kept node live).imp_right (gone cell.reactor read)

theorem Spares.countRun (world : World κ ν σ) (id : NodeId) :
    world.Spares (· = id) [] (world.countRun id) :=
  .modifyEffect world id (fun _ => rfl) fun apart => (apart rfl).elim

theorem Spares.endRun (world : World κ ν σ) (id : NodeId) :
    world.Spares (· = id) [] (world.endRun id) :=
  .modifyEffect world id (fun _ => rfl) fun apart => (apart rfl).elim

/-- A course up to the end of a body starts at an idle effect. -/
theorem Course.idle (course : Course writes (some id) world events after) :
    ∃ effect, world.effect? id = some effect ∧ effect.executing = false := by
  cases course with
  | body _ found _ idle => exact ⟨_, found, idle⟩

/-- Provided that all else is fixed at first, only some nodes are touched, unless a running effect is
stopped. -/
def Respects (touched : NodeId → Prop) (world : World κ ν σ) (events : List (Event κ ν))
    (after : World κ ν σ) : Prop :=
  (∀ id, ¬ touched id → world.Fixed id) →
    (∃ id effect, world.effect? id = some effect ∧ ¬ touched id ∧ .stopped id ∈ events) ∨
      world.Spares touched events after

theorem Spares.respects (spares : world.Spares touched events after) :
    world.Respects touched events after :=
  fun _ => Or.inr spares

theorem Respects.trans {later : List (Event κ ν)} (start : world.Respects touched events middle)
    (finish : middle.Respects touched later after) :
    world.Respects touched (later ++ events) after := by
  intro fixed
  rcases start fixed with ⟨id, effect, found, apart, member⟩ | spares
  · exact Or.inl ⟨id, effect, found, apart, List.mem_append_right _ member⟩
  rcases finish fun id apart => spares.fixed (fixed id apart) apart with
    ⟨id, effect, found, apart, member⟩ | spares'
  · -- What is fixed at first is an effect in the middle only if it was one.
    rcases fixed id apart with ⟨signal, known, _⟩ | ⟨effect', known, _⟩
    · obtain ⟨_, known', _⟩ := spares.signal known
      rw [signal?_eq_some_iff] at known'
      cases (effect?_eq_some_iff.mp found).symm.trans known'
    · exact Or.inl ⟨id, effect', known, apart, List.mem_append_left _ member⟩
  · exact Or.inr (spares.trans spares')

/-- An idle effect is not fixed. -/
theorem touched_of_idle (fixed : ∀ id, ¬ touched id → world.Fixed id) {effect : Effect κ}
    (found : world.effect? id = some effect) (idle : effect.executing = false) : touched id := by
  refine Classical.byContradiction fun apart => ?_
  rcases fixed id apart with ⟨signal, known, _⟩ | ⟨effect', known, executing⟩
  · rw [signal?_eq_some_iff] at known
    cases (effect?_eq_some_iff.mp found).symm.trans known
  · cases found.symm.trans known
    rw [idle] at executing
    cases executing

/-- An event about one node. -/
theorem Spares.told (world : World κ ν σ) (event : Event κ ν)
    (own : ∀ other, event.Concerns other → other = id) (unread : ¬ event.IsTracked) :
    world.Spares (· = id) [event] (world.record event) :=
  .record world event (fun other concerns => Or.inl (own other concerns)) unread

theorem Spares.started (world : World κ ν σ) (id : NodeId) :
    world.Spares (· = id) [.started id] (world.record (.started id)) :=
  .told world _ (fun _ => Eq.symm) not_false

theorem Spares.leftCleanup (world : World κ ν σ) (id : NodeId) (code : κ) :
    world.Spares (· = id) [.leftCleanup id code] (world.record (.leftCleanup id code)) :=
  .told world _ (fun _ => Eq.symm) not_false

theorem Spares.cleanedUp (world : World κ ν σ) (id : NodeId) (code : κ) :
    world.Spares (· = id) [.cleanedUp id code] (world.record (.cleanedUp id code)) :=
  .told world _ (fun _ => Eq.symm) not_false

theorem Spares.stopped (world : World κ ν σ) (id : NodeId) :
    world.Spares (· = id) [.stopped id] (world.record (.stopped id)) :=
  .told world _ (fun _ => Eq.symm) not_false

/-- A run ends with a cleanup that is kept. -/
theorem Spares.keptCleanup (world : World κ ν σ) (id : NodeId) (code : κ) :
    world.Spares (· = id) [.leftCleanup id code]
      (((world.record (.leftCleanup id code)).modifyEffect id
        ({ · with cleanup := some code })).endRun id) := by
  have kept : (world.record (.leftCleanup id code)).Spares (· = id) []
      ((world.record (.leftCleanup id code)).modifyEffect id ({ · with cleanup := some code })) :=
    .modifyEffect _ id (fun _ => rfl) fun apart => (apart rfl).elim
  exact ((Spares.leftCleanup world id code).trans kept).trans (.endRun _ id)

/-- A run ends with a cleanup that is called. -/
theorem Spares.calledCleanup (world : World κ ν σ) (id : NodeId) (code : κ) :
    world.Spares (· = id) [.cleanedUp id code, .leftCleanup id code]
      ((world.record (.leftCleanup id code)).record (.cleanedUp id code)) :=
  (Spares.leftCleanup world id code).trans (.cleanedUp _ id code)

/-- A course touches nothing that is fixed, unless it stops a running effect. -/
theorem Course.respects (course : Course writes within world events after)
    (touched : NodeId → Prop) : world.Respects touched events after := by
  -- What touches one node alone may do so if the node is not fixed.
  have single : ∀ {world after : World κ ν σ} {events} {id}, touched id →
      world.Spares (· = id) events after → world.Respects touched events after :=
    fun may spares => (spares.mono fun _ same => same ▸ may).respects
  induction course with
  | spare spares => exact (spares.mono nofun).respects
  | trans _ _ start finish => exact start.trans finish
  | @store world id signal value after may found free stored =>
    intro fixed
    have open' : touched id := by
      refine Classical.byContradiction fun apart => ?_
      rcases fixed id apart with ⟨signal', known, chained⟩ | ⟨effect, known, _⟩
      · cases found.symm.trans known
        exact free chained
      · rw [signal?_eq_some_iff] at found
        cases found.symm.trans (effect?_eq_some_iff.mp known)
    exact single open' stored fixed
  | chain may owner causes _ within =>
    intro fixed
    refine (within fun id apart => ?_).imp_right Spares.popChain
    rcases fixed id apart with ⟨signal, found, chained⟩ | running
    · exact Or.inl ⟨signal, found, chained.pushChain owner causes⟩
    · exact Or.inr running
  | body may found active idle alive begun executing live bare cleaned ran cleaning running =>
    intro fixed
    have own := touched_of_idle fixed found idle
    have cleaned := (single own begun).trans cleaning
    have started := cleaned.trans (single own (.started _ _))
    exact (started.trans running).trans (single own (.countRun _ _)) fixed
  | finish ran reported ih =>
    intro fixed
    obtain ⟨_, found, idle⟩ := ran.idle
    have own := touched_of_idle fixed found idle
    exact (ih.trans (reported.mono nofun).respects).trans (single own (.endRun _ _)) fixed
  | keep ran found active ih =>
    intro fixed
    obtain ⟨_, found, idle⟩ := ran.idle
    have own := touched_of_idle fixed found idle
    exact ih.trans (single own (.keptCleanup _ _ _)) fixed
  | @late _ id _ last _ code _ _ ran _ _ _ ih ih' =>
    intro fixed
    obtain ⟨_, found, idle⟩ := ran.idle
    have own := touched_of_idle fixed found idle
    have called := ih.trans (single own (.calledCleanup last id code))
    exact (called.trans ih').trans (single own (.endRun _ id)) fixed
  | @stop world id effect start events ended cleaning after may found active begun deaths now stopped
      cleaned ih =>
    intro fixed
    by_cases own : touched id
    · exact ((single own begun).trans ih).trans (single own (.stopped _ _)) fixed
    · exact Or.inl ⟨id, effect, found, own, List.mem_cons_self⟩
  | @abandon world id effect ended after may found active dead given now stopped =>
    intro fixed
    by_cases own : touched id
    · exact single own given fixed
    · exact Or.inl ⟨id, effect, found, own, List.mem_cons_self⟩

theorem Course.spares_all (course : Course writes within world events after) :
    world.Spares (fun _ => True) events after :=
  (course.respects _ fun _ apart => (apart trivial).elim).resolve_left
    fun ⟨_, _, _, apart, _⟩ => apart trivial

/-- A signal on the innermost chain of its reactor is not touched. -/
theorem Course.spares_chained (course : Course writes within world events after)
    {signal : Signal ν} (found : world.signal? id = some signal)
    (chained : world.Chained signal.reactor id) : world.Spares (· ≠ id) events after := by
  refine (course.respects (· ≠ id) fun other same => ?_).resolve_left ?_
  · rw [Classical.not_not.mp same]
    exact Or.inl ⟨signal, found, chained⟩
  · rintro ⟨other, effect, known, same, _⟩
    rw [Classical.not_not.mp same, effect?_eq_some_iff] at known
    rw [signal?_eq_some_iff, known] at found
    cases found

/-- A running effect is not touched unless it is stopped. -/
theorem Course.spares_running (course : Course writes within world events after)
    {effect : Effect κ} (found : world.effect? id = some effect) (running : effect.executing = true)
    (unstopped : .stopped id ∉ events) : world.Spares (· ≠ id) events after := by
  refine (course.respects (· ≠ id) fun other same => ?_).resolve_left ?_
  · rw [Classical.not_not.mp same]
    exact Or.inr ⟨effect, found, running⟩
  · rintro ⟨other, _, _, same, member⟩
    rw [Classical.not_not.mp same] at member
    exact unstopped member

/-- Some course leads from one world to another. -/
def Becomes (writes : Prop) (world after : World κ ν σ) : Prop :=
  ∃ events, Course writes none world events after

theorem Spares.becomes (spares : world.Spares (fun _ => False) events after) :
    world.Becomes writes after :=
  ⟨events, .spare spares⟩

theorem Becomes.refl (world : World κ ν σ) : world.Becomes writes world :=
  (Spares.refl world).becomes

theorem Becomes.trans (start : world.Becomes writes middle) (finish : middle.Becomes writes after) :
    world.Becomes writes after := by
  obtain ⟨events, course⟩ := start
  obtain ⟨later, course'⟩ := finish
  exact ⟨later ++ events, course.trans course'⟩

end World

end ReactiveTree
