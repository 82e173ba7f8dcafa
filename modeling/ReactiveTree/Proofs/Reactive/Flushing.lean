import ReactiveTree.Proofs.Graph.Scheduling
import ReactiveTree.Proofs.Reactive.Batching

/-! # What a flush runs

Where no signal takes a new value no pass begins, so that in such a pass the effects that it visits run
once each, if no closure runs them by hand. To see it, the runs of an effect are counted along the
trail, also those of an effect that was made on it.
-/

namespace ReactiveTree

variable {κ ν σ α : Type}

/-- A run of that node began. -/
def Event.starts (id : NodeId) : Event κ ν → Bool
  | .started other => other = id
  | _ => false

/-- How often an effect may begin to run in a phase where nothing is written, if that is known. -/
def Phase.runsOf (id : NodeId) : Phase → Option Nat
  | .flat _ => some 0
  | .running other => some (if other = id then 1 else 0)
  | .visiting _ entry => some (if entry.wakeup.effect = id then 1 else 0)
  | .passing _ visits => some ((visits.map (·.wakeup.effect)).count id)
  | .pass .. => none

namespace World

/-- No signal has taken a new value. -/
def Calm (world : World κ ν σ) (events : List (Event κ ν)) : Prop :=
  ∀ id, some id ∈ events.map Event.changed? → world.signal? id = none

/-- No signal has taken a new value, and the effect was not run by hand. -/
def LeavesAlone (world : World κ ν σ) (id : NodeId) (events : List (Event κ ν)) : Prop :=
  world.Calm events ∧ .executed id ∉ events

/-- Cells stay in their places. -/
def Extends (world after : World κ ν σ) : Prop :=
  ∀ id cell, world.cell? id = some cell → ∃ cell', after.cell? id = some cell' ∧
    cell'.place = cell.place

/-- In an orderly stretch an effect begins to run so many times at most, and once more if it was
made in it, as far as no signal has taken a new value and the effect was not run by hand. -/
structure Counts (id : NodeId) (runs : Nat) (world after : World κ ν σ) : Prop where
  places : world.Extends after
  orderly : (∀ owner, world.Orderly owner) → ∀ owner, after.Orderly owner
  bound : (∀ owner, world.Orderly owner) → ∃ events, after.past = events ++ world.past ∧
    ∀ final : World κ ν σ, after.Extends final → final.computed? id = none →
      final.LeavesAlone id events → events.countP (Event.starts id) + (world.cell? id).isSome.toNat ≤
        (after.cell? id).isSome.toNat + runs

variable {world middle after : World κ ν σ} {owner home : ReactorId} {id other : NodeId}
  {events later : List (Event κ ν)} {runs more : Nat}

theorem Calm.of_append {final : World κ ν σ} (calm : final.Calm (later ++ events)) :
    final.Calm later ∧ final.Calm events := by
  unfold Calm at calm ⊢
  rw [List.map_append] at calm
  exact ⟨fun id member => calm id (List.mem_append_left _ member),
    fun id member => calm id (List.mem_append_right _ member)⟩

theorem LeavesAlone.of_append {final : World κ ν σ} (alone : final.LeavesAlone id (later ++ events)) :
    final.LeavesAlone id later ∧ final.LeavesAlone id events := by
  obtain ⟨calm, spontaneous⟩ := alone
  rw [List.mem_append, not_or] at spontaneous
  exact ⟨⟨calm.of_append.1, spontaneous.1⟩, calm.of_append.2, spontaneous.2⟩

theorem Extends.of_cells (same : after.cells = world.cells) : world.Extends after := by
  intro id cell found
  refine ⟨cell, ?_, rfl⟩
  unfold cell? at found ⊢
  rwa [same]

theorem Extends.trans (start : world.Extends middle) (finish : middle.Extends after) :
    world.Extends after := by
  intro id cell found
  obtain ⟨cell', found', place⟩ := start id cell found
  obtain ⟨cell'', found'', place'⟩ := finish id cell' found'
  exact ⟨cell'', found'', place'.trans place⟩

theorem Leads.extends (leads : world.Leads after) : world.Extends after :=
  fun _ _ found => leads.cell found

theorem Extends.owned (extends' : world.Extends after) (owned : world.owns owner id = true) :
    after.signal? id ≠ none := by
  cases found : world.cell? id with
  | none =>
    unfold owns at owned
    rw [found] at owned
    cases owned
  | some cell =>
    rw [owns_of_cell found] at owned
    obtain ⟨cell', found', place⟩ := extends' id cell found
    have kind := congrArg Prod.snd (place.trans (of_decide_eq_true owned))
    cases cell' with
    | signal state =>
      rw [signal?_eq_some_iff.mpr found']
      nofun
    | computed => cases kind
    | effect => cases kind

theorem Extends.computed (extends' : world.Extends after) {computed : Computed κ ν}
    (found : world.computed? id = some computed) : after.computed? id ≠ none := by
  obtain ⟨cell, found', place⟩ := extends' id _ (computed?_eq_some_iff.mp found)
  cases cell with
  | computed state =>
    rw [computed?_eq_some_iff.mpr found']
    nofun
  | signal => cases congrArg Prod.snd place
  | effect => cases congrArg Prod.snd place

theorem Extends.toNat (extends' : world.Extends after) (id : NodeId) :
    (world.cell? id).isSome.toNat ≤ (after.cell? id).isSome.toNat := by
  cases found : world.cell? id with
  | none => exact Nat.zero_le _
  | some cell =>
    obtain ⟨_, found', _⟩ := extends' id cell found
    rw [found']
    exact Nat.le_refl _

theorem Counts.trans (start : Counts id runs world middle) (finish : Counts id more middle after) :
    Counts id (runs + more) world after := by
  refine ⟨start.places.trans finish.places, fun kept => finish.orderly (start.orderly kept),
    fun kept => ?_⟩
  obtain ⟨events, past, counted⟩ := start.bound kept
  obtain ⟨later, past', counted'⟩ := finish.bound (start.orderly kept)
  refine ⟨later ++ events, by rw [past', past, List.append_assoc],
    fun final extends' effect alone => ?_⟩
  have first := counted final (finish.places.trans extends') effect alone.of_append.2
  have last := counted' final extends' effect alone.of_append.1
  rw [List.countP_append]
  omega

/-- Stretches in which no run is to begin, around one in which some are. -/
theorem Counts.then (start : Counts id runs world middle) (finish : Counts id 0 middle after) :
    Counts id runs world after :=
  start.trans finish

theorem Counts.onward (start : Counts id 0 world middle) (finish : Counts id runs middle after) :
    Counts id runs world after :=
  Nat.zero_add runs ▸ start.trans finish

/-- A step in which so many runs begin at most. -/
theorem Counts.of_step (events : List (Event κ ν)) (places : world.Extends after)
    (advances : ∀ owner, Advances owner False world after)
    (past : after.past = events ++ world.past) (counted : events.countP (Event.starts id) ≤ runs) :
    Counts id runs world after :=
  ⟨places, fun kept owner => (advances owner).orderly (kept owner), fun _ =>
    ⟨events, past, fun _ _ _ _ => by
      have := places.toNat id
      omega⟩⟩

theorem countP_starts_eq_zero (silent : .started id ∉ events) :
    events.countP (Event.starts id) = 0 := by
  refine List.countP_eq_zero.mpr fun event member started => ?_
  cases event with
  | started other =>
    have same : other = id := of_decide_eq_true started
    exact silent (same ▸ member)
  | _ => cases started

/-- A step in which no run begins. -/
theorem Counts.of_silent (events : List (Event κ ν)) (places : world.Extends after)
    (advances : ∀ owner, Advances owner False world after)
    (past : after.past = events ++ world.past) (silent : .started id ∉ events) :
    Counts id 0 world after :=
  .of_step events places advances past (countP_starts_eq_zero silent).le

theorem past_hold (world : World κ ν σ) (handle : Handle) :
    (world.hold handle).past = world.past := by
  cases handle <;> rfl

theorem past_unregister (world : World κ ν σ) (id : NodeId) :
    (world.unregister id).2.past = world.past := by
  unfold unregister
  split <;> rfl

theorem past_perish (world : World κ ν σ) (handle : Handle) (id : NodeId) :
    ∃ events, (world.perish handle).2.past = events ++ world.past ∧ Event.started id ∉ events := by
  cases handle with
  | reactor home => exact ⟨[.died home], rfl, by simp⟩
  | node other =>
    refine ⟨[], ?_, nofun⟩
    unfold perish
    dsimp only
    split
    next => rfl
    next => exact past_unregister world other
    next => rfl

/-- No change starts a run. -/
theorem Change.counts (change : world.Change after) : Counts id 0 world after := by
  have silent : ∃ events, after.past = events ++ world.past ∧ Event.started id ∉ events := by
    cases change with
    | aside _ remarks past => exact ⟨_, past, fun member => remarks _ member⟩
    | hold handle => exact ⟨[], past_hold world handle, nofun⟩
    | shed handle =>
      have lost : (world.lose handle).past = world.past := by cases handle <;> rfl
      unfold World.shed
      split
      next =>
        obtain ⟨events, past, silent⟩ := (world.lose handle).past_perish handle id
        exact ⟨events, past.trans (congrArg _ lost), silent⟩
      next => exact ⟨[], lost, nofun⟩
    | stop => exact ⟨[], past_unregister _ _, nofun⟩
    | abandon => exact ⟨[], rfl, nofun⟩
    | destroy => exact ⟨[], past_unregister _ _, nofun⟩
    | @defer changed _ _ value => exact ⟨[.changed changed value], rfl, by simp⟩
    | @putLost changed _ value => exact ⟨[.changed changed value], rfl, by simp⟩
    | @noteWrite written signal =>
      obtain ⟨writer, past⟩ := past_noteWrite world signal.reactor written
      exact ⟨_, past, by simp⟩
    | addReactor => exact ⟨[], rfl, nofun⟩
    | addHolding => exact ⟨[], rfl, nofun⟩
    | addEffect => exact ⟨[], rfl, nofun⟩
    | label => exact ⟨[], rfl, nofun⟩
    | tweak => exact ⟨[], rfl, nofun⟩
  obtain ⟨events, past, silent⟩ := silent
  exact .of_silent events change.leads.extends (fun _ => change.advances) past silent

theorem past_afterEvaluation [BEq ν] (inner : World κ ν σ) (other : NodeId)
    (computed : Computed κ ν) (result : Except Panic ν) (id : NodeId) :
    ∃ events, (inner.afterEvaluation other computed result).2.past = events ++ inner.past ∧
      Event.started id ∉ events := by
  cases result with
  | error panic => exact ⟨[.ended other true], rfl, by simp⟩
  | ok value =>
    show ∃ events, ((inner.leave other computed.reactor false).settleValue other computed value).past =
      events ++ inner.past ∧ _
    unfold settleValue
    extract_lets same
    split
    next => exact ⟨[.ended other false], rfl, by simp⟩
    next => exact ⟨[.changed other value, .ended other false], rfl, by simp⟩

/-- A step of a reactor besides its batches, its queue and its graph. -/
theorem counts_modifyReactor (world : World κ ν σ) (home : ReactorId) (change : Reactor → Reactor)
    (kept : ∀ state, (change state).depth = state.depth ∧
      (change state).pending = state.pending ∧ (change state).graph = state.graph) :
    Counts id 0 world (world.modifyReactor home change) :=
  .of_silent [] (.of_cells rfl) (fun _ => modifyReactor_advances world home change kept) rfl nofun

theorem counts_pushFrame (world : World κ ν σ) (home : ReactorId) (frame : Frame) :
    Counts id 0 world (world.modifyReactor home (·.pushFrame frame)) :=
  counts_modifyReactor world home _ fun _ => ⟨rfl, rfl, rfl⟩

theorem counts_popFrame (world : World κ ν σ) (home : ReactorId) :
    Counts id 0 world (world.modifyReactor home Reactor.popFrame) :=
  counts_modifyReactor world home _ fun _ => ⟨rfl, rfl, rfl⟩

theorem counts_modifyEffect (world : World κ ν σ) (other : NodeId) (change : Effect κ → Effect κ)
    (kept : ∀ effect, (change effect).reactor = effect.reactor) :
    Counts id 0 world (world.modifyEffect other change) :=
  .of_silent [] (leads_modifyEffect world other change kept).extends
    (fun _ => modifyEffect_advances world other change kept) rfl nofun

/-- An evaluation is no run of an effect. -/
theorem counts_enter (world : World κ ν σ) {other : NodeId} {present : Computed κ ν}
    (found : world.computed? other = some present) (home : ReactorId) :
    Counts id 0 world (world.enter other home) := by
  have places := (leads_enter world other home).extends
  have enters : ∀ owner, Advances owner False world (world.enter other home) :=
    fun _ => enter_advances world other home
  refine ⟨places, fun kept owner => (enters owner).orderly (kept owner), fun _ =>
    ⟨[.started other], rfl, fun final extends' effect _ => ?_⟩⟩
  have apart : other ≠ id := fun same => (places.trans extends').computed found (same ▸ effect)
  rw [countP_starts_eq_zero (by simpa using apart.symm), Nat.zero_add]
  exact places.toNat id

theorem counts_enterBody (world : World κ ν σ) (other : NodeId) (home : ReactorId) :
    Counts id (if other = id then 1 else 0) world (world.enterBody other home) :=
  .of_step [.started other] (.of_cells rfl) (fun _ => enterBody_advances world other home) rfl (by
    rw [List.countP_singleton]
    simp only [Event.starts, decide_eq_true_eq, le_refl])

theorem counts_leaveBody (world : World κ ν σ) (other : NodeId) (home : ReactorId) (panicked : Bool) :
    Counts id 0 world (world.leaveBody other home panicked) :=
  .of_silent [.ended other panicked] (.of_cells rfl)
    (fun _ => leaveBody_advances world other home panicked) rfl (by simp)

theorem counts_engage (world : World κ ν σ) (other : NodeId) (home : ReactorId) :
    Counts id 0 world (world.engage other home) :=
  .of_silent [] (leads_engage world other home).extends
    (fun owner => (undisturbed_engage world other home).still
      (depth_congr (opened_engage world other home owner)) rfl) rfl nofun

/-- Where an effect is run by hand, of that effect nothing is said. -/
theorem Counts.by_hand
    (ran : Counts id (if other = id then 1 else 0) (world.record (.executed other)) after) :
    Counts id 0 world after := by
  have change : world.Change (world.record (.executed other)) := .record world trivial
  have told : Counts id 0 world (world.record (.executed other)) := change.counts
  by_cases same : other = id
  · refine ⟨told.places.trans ran.places, fun kept => ran.orderly (told.orderly kept), fun kept => ?_⟩
    obtain ⟨events, past, _⟩ := ran.bound (told.orderly kept)
    refine ⟨events ++ [.executed other], by rw [past, List.append_assoc]; rfl, ?_⟩
    exact fun _ _ _ alone => absurd (by simp [same]) alone.2
  · rw [if_neg same] at ran
    exact told.then ran

/-- An effect that is new may run once. -/
theorem Counts.born {home : ReactorId} {body : EffectBody κ}
    (ran : Counts id (if world.nextId = id then 1 else 0)
      (world.addCell (.effect ⟨home, body, false, none, true, false, 0, 2⟩) .effect).2 after) :
    Counts id 0 world after := by
  have added : Counts id 0 world _ := (Change.addEffect home body).counts
  refine ⟨added.places.trans ran.places, fun kept => ran.orderly (added.orderly kept), fun kept => ?_⟩
  obtain ⟨events, past, counted⟩ := ran.bound (added.orderly kept)
  refine ⟨events, past, fun final extends' effect alone => ?_⟩
  have bound := counted final extends' effect alone
  rw [cell?_addCell] at bound
  by_cases new : id = world.nextId
  · subst new
    rw [if_pos rfl, if_pos rfl] at bound
    rw [cell?_nextId]
    exact Nat.le_of_add_le_add_right bound
  · rwa [if_neg new, if_neg (Ne.symm new)] at bound

/-- A run of an effect, with its cleanup before it and what it leaves behind. -/
theorem Counts.run {effect : Effect κ} {inner last : World κ ν σ} (panicked : Bool)
    (cleaned : Counts id 0 ((world.hold (.reactor effect.reactor)).engage other effect.reactor) middle)
    (inside : Counts id 0 (middle.enterBody other effect.reactor) inner)
    (settled : Counts id 0 ((inner.leaveBody other effect.reactor panicked).countRun other) last)
    (released : Counts id 0 (last.endRun other) after) :
    Counts id (if other = id then 1 else 0) world after := by
  have held : Counts id 0 world (world.hold (.reactor effect.reactor)) := (Change.hold _).counts
  have begun := (held.then (counts_engage _ other effect.reactor)).then cleaned
  have ran := (begun.onward (counts_enterBody middle other effect.reactor)).then inside
  have left := (ran.then (counts_leaveBody inner other effect.reactor panicked)).then
    (counts_modifyEffect _ other (fun effect => { effect with runs := effect.runs + 1 }) fun _ => rfl)
  exact ((left.then settled).then
    (counts_modifyEffect last other ({ · with executing := false }) fun _ => rfl)).then released

/-- Where a signal has taken a new value nothing is said. -/
theorem Counts.of_changed (home : ReactorId) {seen : World κ ν σ} (places : world.Extends after)
    (orderly : (∀ owner, world.Orderly owner) → ∀ owner, after.Orderly owner)
    (extends' : seen.Extends after) (changed : (∀ owner, world.Orderly owner) → ∃ events source,
      after.past = events ++ world.past ∧ some source ∈ events.map Event.changed? ∧
        seen.owns home source = true) :
    Counts id runs world after := by
  refine ⟨places, orderly, fun kept => ?_⟩
  obtain ⟨events, source, past, member, owned⟩ := changed kept
  exact ⟨events, past, fun final further _ alone =>
    ((extends'.trans further).owned owned (alone.1 source member)).elim⟩

end World

section

open World

variable [BEq ν] {program : Program κ ν σ} {phase : Phase} {world inner after : World κ ν σ}
  {home : ReactorId} {id other : NodeId} {runs : Nat}

theorem Trail.orderly (trail : Trail program phase world after)
    (orderly : ∀ owner, world.Orderly owner) (owner : ReactorId) : after.Orderly owner :=
  (trail.advances owner).orderly (orderly owner)

theorem Trail.counts_batch
    (inside : Trail program (.flat .acting) (world.modifyReactor home Reactor.openBatch) inner)
    (bare : (inner.closeBatch home).1 = [])
    (counted : Counts id 0 (world.modifyReactor home Reactor.openBatch) inner) :
    Counts id 0 world (inner.closeBatch home).2 := by
  have whole : Trail program (.flat .acting) world (inner.closeBatch home).2 := .batch home inside bare
  refine ⟨whole.leads.extends, whole.orderly, fun kept => ?_⟩
  obtain ⟨events, past, bound⟩ := counted.bound fun owner => orderly_openBatch (kept owner) home
  refine ⟨events, (past_closeBatch inner home).trans past, fun final extends' effect alone => ?_⟩
  have same : (inner.closeBatch home).2.cells = inner.cells := by rw [closeBatch_snd]; rfl
  have bound' := bound final ((Extends.of_cells same).trans extends') effect alone
  unfold cell? at bound' ⊢
  rwa [same]

/-- A batch has something to notify of only if a signal has taken a new value in it. -/
theorem Trail.counts_flush
    (inside : Trail program (.flat .acting) (world.modifyReactor home Reactor.openBatch) inner)
    (due : (inner.closeBatch home).1 ≠ [])
    (pass : Trail program (.pass home (inner.closeBatch home).1) (inner.closeBatch home).2 after) :
    Counts id runs world after := by
  have whole : Trail program (.flat .acting) world after := .flush home inside due pass
  have closed := (leads_closeBatch inner home).extends.trans pass.leads.extends
  refine .of_changed home whole.leads.extends whole.orderly closed fun kept => ?_
  obtain ⟨events, source, past, member⟩ := wrote_of_due (kept home) (inside.advances home) due
  obtain ⟨later, past'⟩ := pass.leads.past
  rw [past_closeBatch, past, ← List.append_assoc] at past'
  obtain ⟨changed, owned⟩ := mem_written.mp member
  refine ⟨later ++ events, source, past', ?_, owned⟩
  rw [List.map_append]
  exact List.mem_append_right _ changed

theorem Trail.counts_store {signal : Signal ν} {value : ν} (found : world.signal? other = some signal)
    (kept : signal.destroyed = false) (unbatched : world.Unbatched signal.reactor)
    (pass : Trail program (.pass signal.reactor [other]) (world.put signal.reactor other value) after) :
    Counts id runs world after := by
  have whole : Trail program (.flat .serving) world after := .store found kept unbatched pass
  refine .of_changed signal.reactor whole.leads.extends whole.orderly whole.leads.extends fun _ => ?_
  obtain ⟨later, past⟩ := pass.leads.past
  refine ⟨later ++ [.changed other value], other, ?_, by simp [Event.changed?],
    (owns_of_cell (signal?_eq_some_iff.mp found)).trans (decide_eq_true rfl)⟩
  rw [past, List.append_assoc]
  rfl

theorem Trail.counts_evaluate {computed present : Computed κ ν}
    (found : world.computed? other = some present)
    (inside : Trail program (.flat .acting) (world.enter other computed.reactor) inner)
    (counted : Counts id 0 (world.enter other computed.reactor) inner) (result : Except Panic ν) :
    Counts id 0 world (inner.afterEvaluation other computed result).2 := by
  obtain ⟨present', found', _⟩ := ((leads_enter world other computed.reactor).trans
    inside.leads).computed found
  have left := leads_afterEvaluation inner found' computed result
  obtain ⟨events, past, silent⟩ := past_afterEvaluation inner other computed result id
  refine ((counts_enter world found computed.reactor).then counted).then
    (.of_silent events left.extends (fun owner => ?_) past silent)
  refine afterEvaluation_advances found' result ?_
  have begun : Advances owner True world inner :=
    (enter_advances world other computed.reactor).trans (inside.advances owner)
  exact (depth_congr (opened_afterEvaluation inside.opened result owner)).trans begun.depth.symm

/-- On a trail on which an effect is not run by hand and no signal takes a new value, it begins to
run only where it is to run. -/
theorem Trail.counts (trail : Trail program phase world after) (id : NodeId)
    (allowed : phase.runsOf id = some runs) : Counts id runs world after := by
  induction trail generalizing runs with
  | refl mode world =>
    cases allowed
    exact .of_silent [] (.of_cells rfl) (fun _ => .refl world) rfl nofun
  | trans _ _ start finish =>
    cases allowed
    exact (start rfl).then (finish rfl)
  | serve _ serving => exact serving allowed
  | change change =>
    cases allowed
    exact change.counts
  | @read world read cell found readable =>
    cases allowed
    obtain ⟨reader, past⟩ := past_noteRead world cell.reactor read
    have step : Trail program (.flat .acting) world _ := .read found readable
    exact .of_silent _ step.leads.extends (fun owner => (step.advances owner).mono False.elim) past
      (by simp)
  | untracked home _ ih =>
    cases allowed
    exact ((counts_pushFrame _ home _).then (ih rfl)).then (counts_popFrame _ home)
  | cleanup _ _ ih =>
    cases allowed
    exact ((counts_pushFrame _ _ _).then (ih rfl)).then (counts_popFrame _ _)
  | batch home inside bare ih =>
    cases allowed
    exact inside.counts_batch bare (ih rfl)
  | flush home inside due pass =>
    exact inside.counts_flush due pass
  | store found kept unbatched pass => exact pass.counts_store found kept unbatched
  | refresh _ _ ih => exact ih allowed
  | execute _ ih =>
    cases allowed
    exact .by_hand (ih rfl)
  | born home body _ ih =>
    cases allowed
    exact .born (ih rfl)
  | @confirm world other computed found =>
    cases allowed
    have step : Trail program (.flat (.updating other)) world _ := .confirm found
    exact .of_silent [] step.leads.extends
      (fun owner => (step.advances owner).mono False.elim) rfl nofun
  | evaluate found _ _ inside result ih =>
    cases allowed
    exact inside.counts_evaluate found (ih rfl) result
  | decline =>
    exact .of_step [] (.of_cells rfl) (fun _ => .refl _) rfl (Nat.zero_le _)
  | run panicked _ _ _ _ _ _ _ _ cleaned inside settled released =>
    cases allowed
    exact .run panicked (cleaned rfl) (inside rfl) (settled rfl) (released rfl)
  | skip =>
    exact .of_step [] (.of_cells rfl) (fun _ => .refl _) rfl (Nat.zero_le _)
  | @again world home entry effect found active executing =>
    have step : Trail program (.visiting home entry) world _ := .again found active executing
    exact .of_step [] step.leads.extends
      (fun owner => (step.advances owner).mono False.elim) rfl (Nat.zero_le _)
  | spare _ _ _ _ ih =>
    exact (ih rfl).onward (.of_step [] (.of_cells rfl) (fun _ => .refl _) rfl (Nat.zero_le _))
  | @wake world home entry effect middle after _ _ _ _ _ asked ran =>
    cases allowed
    exact (((asked rfl).then (counts_modifyReactor middle home
      (·.pushChain entry.wakeup.causes) fun _ => ⟨rfl, rfl, rfl⟩)).onward (ran rfl)).then
        (counts_modifyReactor after home Reactor.popChain fun _ => ⟨rfl, rfl, rfl⟩)
  | done =>
    exact .of_step [] (.of_cells rfl) (fun _ => .refl _) rfl (Nat.zero_le _)
  | @next world home entry rest visited dropped after _ _ _ visit drop others =>
    cases allowed
    have made := ((visit rfl).then (drop rfl)).trans (others rfl)
    rw [List.map_cons, List.count_cons, Nat.add_comm]
    simpa only [beq_iff_eq] using made
  | pass => cases allowed

end

theorem sublist_map_filterMap {β : Type} {choose : α → Option β} {back : β → α}
    (inverse : ∀ member chosen, choose member = some chosen → back chosen = member)
    (members : List α) : ((members.filterMap choose).map back).Sublist members := by
  induction members with
  | nil => exact .slnil
  | cons member rest ih =>
    cases chosen : choose member with
    | none =>
      rw [List.filterMap_cons_none chosen]
      exact ih.cons member
    | some entry =>
      rw [List.filterMap_cons_some chosen, List.map_cons, inverse member entry chosen]
      exact ih.cons_cons member

namespace World

variable (world : World κ ν σ) (owner : ReactorId) (sources : List NodeId)

/-- A visit is planned for the effect that was looked up. -/
theorem planned_visit {world : World κ ν σ} {wakeups : List Wakeup} {id : NodeId} {entry : Visit}
    (chosen : (match wakeups.find? fun wakeup => wakeup.effect = id, world.effect? id with
      | some wakeup, some effect => some (⟨wakeup, effect.runs⟩ : Visit)
      | _, _ => none) = some entry) : entry.wakeup.effect = id ∧ (world.cell? id).isSome := by
  split at chosen
  next wakeup effect found present =>
    cases chosen
    have same := List.find?_some found
    refine ⟨of_decide_eq_true same, ?_⟩
    rw [effect?_eq_some_iff.mp present]
    rfl
  next => cases chosen

/-- A pass visits known effects, each once. -/
theorem passVisits_once :
    ((world.passVisits owner sources).map (·.wakeup.effect)).Nodup ∧
      ∀ entry ∈ world.passVisits owner sources,
        (world.cell? entry.wakeup.effect).isSome := by
  have distinct := Wakeup.nodup_ofReaches ((world.graph owner).invalidateAll sources).1
  have order := (Graph.schedule_perm ((world.graph owner).propagate sources).2 distinct).nodup_iff.mpr
    distinct
  refine ⟨?_, fun entry member => ?_⟩
  · refine List.Sublist.nodup ?_ order
    exact sublist_map_filterMap (fun _ _ chosen => (planned_visit chosen).1) _
  · obtain ⟨id, _, chosen⟩ := List.mem_filterMap.mp member
    obtain ⟨rfl, known⟩ := planned_visit chosen
    exact known

end World

variable [BEq ν] {program : Program κ ν σ} {depth : Nat} {owner : ReactorId} {id : NodeId}

/-- In a pass in which no signal takes a new value an effect that is not run by hand begins to run
once at most. -/
theorem notify_runs_once {world : World κ ν σ} (orderly : ∀ owner, world.Orderly owner)
    (sources : List NodeId) :
    (notify (activate program depth) owner sources).Ends world fun _ after =>
      ∃ events, after.past = events ++ world.past ∧
        ((∃ effect, after.effect? id = some effect) → after.Calm events → .executed id ∉ events →
          events.countP (Event.starts id) ≤ 1) := by
  refine (notify_trails (activate_traced program depth) owner sources world).mono
    fun _ after ends => ?_
  obtain ⟨_, pass⟩ := ends
  cases pass with
  | @pass _ _ _ last visits =>
    have begun : ∀ owner', (world.enterPass owner sources).Orderly owner' := fun owner' =>
      (world.enterPass_advances owner sources).orderly (orderly owner')
    obtain ⟨events, past, counted⟩ := (visits.counts id rfl).bound begun
    refine ⟨.passEnded owner :: (events ++ [.passStarted owner sources]), ?_,
      fun present calm spontaneous => ?_⟩
    · show .passEnded owner :: last.past = _
      rw [past, World.past_enterPass]
      simp
    obtain ⟨effect, found⟩ := present
    have bare : last.computed? id = none := by
      unfold World.computed?
      rw [show last.cell? id = _ from World.effect?_eq_some_iff.mp found]
    have bound := counted last (.of_cells rfl) bare ⟨fun other changed =>
      calm other (by simp [changed]), fun member => spontaneous (by simp [member])⟩
    have here : (last.cell? id).isSome.toNat = 1 := by
      rw [show last.cell? id = _ from World.effect?_eq_some_iff.mp found]
      rfl
    have total : List.countP (Event.starts id)
        (.passEnded owner :: (events ++ [.passStarted owner sources])) =
          events.countP (Event.starts id) := by
      simp [Event.starts, List.countP_append]
    rw [total]
    obtain ⟨once, known⟩ := world.passVisits_once owner sources
    -- An effect of the pass was there when it began; any other one was made in it, or does not run.
    by_cases visited : id ∈ (world.passVisits owner sources).map (·.wakeup.effect)
    · have known' : ((world.enterPass owner sources).cell? id).isSome := by
        obtain ⟨entry, member, same⟩ := List.mem_map.mp visited
        exact (World.leads_enterPass world owner sources).known (same ▸ known entry member)
      rw [known', here, List.count_eq_one_of_mem once visited] at bound
      exact Nat.le_of_add_le_add_right bound
    · rw [here, List.count_eq_zero_of_not_mem visited] at bound
      omega

end ReactiveTree
