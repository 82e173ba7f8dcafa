import ReactiveTree.Proofs.Reactive.Ceasing
import ReactiveTree.Proofs.Reactive.Sustaining

/-! # What a run of an effect leaves

While its body runs, an effect subscribes to what it reads, and stays subscribed as long as what it
has read is live. So a run that nobody has stopped leaves the effect active, with the run counted and
each of its reads recorded, whether the body has failed or not.
-/

namespace ReactiveTree

variable {κ ν σ : Type}

namespace World

variable {writes : Prop} {world last after : World κ ν σ} {events later : List (Event κ ν)}
  {touched : NodeId → Prop} {id read : NodeId} {effect : Effect κ}

theorem Spares.isAlive (spares : world.Spares touched events after) {owner : ReactorId}
    (alive : world.isAlive owner = true) : after.isAlive owner = true ∨ .died owner ∈ events := by
  obtain ⟨state, found⟩ := Option.isSome_iff_exists.mp (isSome_of_isAlive alive)
  obtain ⟨state', found', _, lives⟩ := spares.reactors owner state found
  unfold World.isAlive at alive ⊢
  rw [found] at alive
  rw [found']
  exact lives alive

/-- A node that is live has recorded its read of another, unless that one is gone. -/
def Records (world : World κ ν σ) (read id : NodeId) : Prop :=
  ∃ cell, world.cell? read = some cell ∧ ∀ node, (world.graph cell.reactor).node? id = some node →
    read ∈ node.dependencies ∨ world.Gone cell.reactor read

theorem Records.of_graphs (records : world.Records read id)
    (spares : world.Spares touched events after)
    (graphs : ∀ owner, after.graph owner = world.graph owner) : after.Records read id := by
  obtain ⟨cell, known, kept⟩ := records
  obtain ⟨cell', known', place, _⟩ := spares.cells read cell known
  have home : cell'.reactor = cell.reactor := congrArg Prod.fst place
  refine ⟨cell', known', fun node live => ?_⟩
  rw [graphs, home] at live
  rw [home]
  exact (kept node live).imp_right spares.gone

theorem Records.congr (records : world.Records read id) (cells : after.cells = world.cells)
    (graphs : ∀ owner, after.graph owner = world.graph owner) : after.Records read id := by
  unfold Records Gone cell? at records ⊢
  simpa only [cells, graphs] using records

theorem Spares.records (spares : world.Spares touched events after)
    (found : world.effect? id = some effect) (apart : ¬ touched id)
    (records : world.Records read id) : after.Records read id := by
  obtain ⟨cell, known, kept⟩ := records
  obtain ⟨cell', known', place, _⟩ := spares.cells read cell known
  have home : cell'.reactor = cell.reactor := congrArg Prod.fst place
  refine ⟨cell', known', fun node live => ?_⟩
  rw [home] at live ⊢
  obtain ⟨between, live', carried⟩ := spares.nodes cell.reactor id _ node
    (effect?_eq_some_iff.mp found) live
  rcases kept between live' with member | gone
  · exact (carried apart nofun).2 read member
  · exact Or.inr (spares.gone gone)

/-- Between its start and its end the body of an effect is one run, which nobody else starts or
counts, and what it has read is recorded. -/
theorem Course.body_leaves (course : Course writes (some id) world events last)
    (found : world.effect? id = some effect) (unstopped : .stopped id ∉ events) :
    ∃ running rest effect', events = running ++ .started id :: rest ∧ .started id ∉ running ∧
      last.effect? id = some effect' ∧ effect'.active = true ∧ effect'.runs = effect.runs + 1 ∧
        ∀ read, .read read (some id) ∈ running → last.Records read id := by
  cases course with
  | @body _ _ effect₀ start cleaning middle running last may found₀ active idle alive begun executing
      live bare cleaned ran =>
    cases found₀.symm.trans found
    have own : ¬ id ≠ id := Classical.not_not.mpr rfl
    rw [List.mem_append, List.mem_append, List.mem_append, not_or, not_or, not_or] at unstopped
    obtain ⟨running', _, cleaning', _⟩ := unstopped
    -- The effect is as it was started up to the count of the run.
    have cleaned' := cleaned.spares_running executing rfl cleaning'
    obtain ⟨between, known, _, core⟩ := cleaned'.effect executing
    obtain ⟨_, active', executing', runs'⟩ := Effect.of_core (core own)
    have known' : (middle.record (.started id)).effect? id = some between := known
    have ran' := ran.spares_running known' executing' running'
    obtain ⟨late, known'', _, core'⟩ := ran'.effect known'
    obtain ⟨_, active'', _, runs''⟩ := Effect.of_core (core' own)
    have counted : (last.countRun id).effect? id = some { late with runs := late.runs + 1 } :=
      effect?_modifyEffect known'' _
    refine ⟨running, cleaning ++ calls id effect.cleanup, _, rfl,
      fun member => ran'.unconcerned own known'' _ member rfl, counted,
      (active''.trans active').trans active, ?_, fun read member => ?_⟩
    · show late.runs + 1 = effect.runs + 1
      rw [runs'', runs']
    · exact Records.of_graphs (ran'.reads read id between member known' own) (.countRun last id)
        fun _ => rfl

/-- A run starts the body. -/
theorem Runs.started_mem (runs : Runs writes id world events after) : .started id ∈ events := by
  obtain ⟨ran, last, later, course, _, rfl⟩ := runs
  cases course with
  | body => exact List.mem_append_right _ (List.mem_append_right _ List.mem_cons_self)

/-- A run that nobody has stopped is over: the effect is active and idle, the run is counted, and what
it has read is recorded. -/
structure Completes (id : NodeId) (runs : Nat) (reads : NodeId → Prop) (world : World κ ν σ) :
    Prop where
  idle : ∃ effect, world.effect? id = some effect ∧ effect.active = true ∧
    effect.executing = false ∧ effect.runs = runs
  records : ∀ read, reads read → world.Records read id

theorem Completes.of_spares {runs : Nat} {reads : NodeId → Prop}
    (completes : Completes id runs reads world) (spares : world.Spares touched events after)
    (apart : ¬ touched id) : Completes id runs reads after := by
  obtain ⟨effect, found, active, idle, counted⟩ := completes.idle
  obtain ⟨effect', found', _, core⟩ := spares.effect found
  obtain ⟨_, active', idle', counted'⟩ := Effect.of_core (core apart)
  exact ⟨⟨effect', found', active'.trans active, idle'.trans idle, counted'.trans counted⟩,
    fun read member => spares.records found apart (completes.records read member)⟩

theorem Completes.congr {runs : Nat} {reads : NodeId → Prop}
    (completes : Completes id runs reads world) (cells : after.cells = world.cells) (graphs : ∀ owner, after.graph owner = world.graph owner) :
    Completes id runs reads after := by
  obtain ⟨effect, found, rest⟩ := completes.idle
  refine ⟨⟨effect, ?_, rest⟩, fun read member => (completes.records read member).congr cells graphs⟩
  unfold effect? cell? at found ⊢
  rwa [cells]

theorem Runs.completes (runs : Runs writes id world events after)
    (found : world.effect? id = some effect) (unstopped : .stopped id ∉ events) :
    ∃ running rest, events = running ++ .started id :: rest ∧ .started id ∉ running ∧
      Completes id (effect.runs + 1) (fun read => .read read (some id) ∈ running) after := by
  obtain ⟨ran, last, later, course, settles, rfl⟩ := runs
  rw [List.mem_append, not_or] at unstopped
  obtain ⟨running, rest, effect', rfl, once, found', active, counted, records⟩ :=
    course.body_leaves found unstopped.2
  cases settles with
  | @finish later after reported =>
    obtain ⟨present, known, _, core⟩ := reported.effect found'
    obtain ⟨_, active', _, runs'⟩ := Effect.of_core (core not_false)
    have unstarted : .started id ∉ later :=
      fun member => reported.unconcerned not_false known _ member rfl
    refine ⟨later ++ running, rest, (List.append_assoc _ _ _).symm,
      List.not_mem_append unstarted once, ⟨_, effect?_modifyEffect known _, active'.trans active,
        rfl, runs'.trans counted⟩, fun read member => ?_⟩
    have recorded : after.Records read id := by
      rcases List.mem_append.mp member with late | early
      · exact reported.reads read id effect' late found' not_false
      · exact reported.records found' not_false (records read early)
    exact recorded.of_graphs (.endRun after id) fun _ => rfl
  | @keep _ code found'' =>
    have told : (last.record (.leftCleanup id code)).effect? id = some effect' := found'
    refine ⟨.leftCleanup id code :: running, rest, rfl,
      List.not_mem_cons_of_ne_of_not_mem nofun once,
      ⟨_, effect?_modifyEffect (effect?_modifyEffect told _) _, active, rfl, counted⟩,
      fun read member => ?_⟩
    exact (records read ((List.mem_cons.mp member).resolve_left nofun)).of_graphs
      (.keptCleanup last id code) fun _ => rfl
  | late found'' stopped =>
    cases found'.symm.trans found''
    rw [active] at stopped
    cases stopped

/-- What comes after a run and only tells of deaths takes nothing from it. -/
theorem Completes.extend {runs : Nat} {deaths running rest : List (Event κ ν)} {start : World κ ν σ}
    (completes : Completes id runs (fun read => .read read (some id) ∈ running) start)
    (split : events = running ++ .started id :: rest) (once : .started id ∉ running)
    (only : Deaths deaths) (spares : start.Spares (fun _ => False) deaths after) :
    ∃ running', deaths ++ events = running' ++ .started id :: rest ∧ .started id ∉ running' ∧
      Completes id runs (fun read => .read read (some id) ∈ running') after := by
  have other : ∀ event, (∀ owner, event ≠ .died owner) → event ∉ deaths := by
    intro event apart member
    obtain ⟨owner, same⟩ := only event member
    exact apart owner same
  refine ⟨deaths ++ running, by rw [split, List.append_assoc],
    List.not_mem_append (other _ nofun) once, ?_⟩
  have kept := completes.of_spares spares not_false
  exact ⟨kept.idle, fun read member =>
    kept.records read ((List.mem_append.mp member).resolve_left (other _ nofun))⟩

end World

/-- An effect that is owed no visit is subscribed to the live nodes that it has read. -/
theorem World.Listed.subscribed {world : World κ ν σ} {tally : Tally} {id read : NodeId}
    {owner : ReactorId} {effect : Effect κ} {node source : Node}
    (listed : world.Listed (tally.clearing id)) (found : world.effect? id = some effect)
    (active : effect.active = true) (live : (world.graph owner).node? id = some node)
    (present : (world.graph owner).node? read = some source) (records : world.Records read id) :
    id ∈ source.dependents ∧ read ∈ node.dependencies := by
  rw [World.effect?_eq_some_iff] at found
  obtain ⟨cell, known, kept⟩ := records
  obtain ⟨_, known', home, _⟩ := listed.home owner read source present
  cases known.symm.trans known'
  subst home
  have member : read ∈ node.dependencies :=
    (kept node live).resolve_right fun gone => nomatch gone.2.symm.trans present
  refine ⟨listed.lists _ id node live ?_ read source member present, member⟩
  obtain ⟨_, found', _, kind⟩ := listed.home _ id node live
  cases found.symm.trans found'
  unfold Demand.Wants
  rw [← kind]
  refine ⟨effect.runs, ?_, fun owed => of_decide_eq_true (List.mem_filter.mp owed).2 rfl⟩
  unfold World.turn?
  rw [found]
  exact if_pos active

end ReactiveTree
