import ReactiveTree.Proofs.Reactive.Passes

/-! # What comes back as it was

Notification passes nest like the runs that start them. A change of the world returns if it leaves
each cell of its kind, each effect running or idle as it was, and no pass open; so what it starts in
between can be counted, and the idle effects are as many as before.
-/

namespace ReactiveTree

variable {κ ν σ α β : Type}

/-- What an event adds to the number of open passes. -/
def Event.opens : Event κ ν → Int
  | .passStarted .. => 1
  | .passEnded _ => -1
  | _ => 0

/-- How many more passes have started than ended. -/
def openPasses : List (Event κ ν) → Int
  | [] => 0
  | event :: events => event.opens + openPasses events

theorem openPasses_cons (event : Event κ ν) (events : List (Event κ ν)) :
    openPasses (event :: events) = event.opens + openPasses events :=
  rfl

theorem openPasses_append (later events : List (Event κ ν)) :
    openPasses (later ++ events) = openPasses later + openPasses events := by
  induction later with
  | nil => exact (Int.zero_add _).symm
  | cons event later ih =>
    rw [List.cons_append, openPasses_cons, openPasses_cons, ih, Int.add_assoc]

/-- Every pass has ended, and at no time were more of them open than the bound. -/
structure Paired (bound : Nat) (events : List (Event κ ν)) : Prop where
  closed : openPasses events = 0
  within : ∀ newer older, events = newer ++ older → openPasses older ≤ bound

section

variable {bound : Nat} {events later : List (Event κ ν)}

theorem Paired.of_quiet (quiet : ∀ event ∈ events, event.opens = 0) : Paired bound events := by
  have none : ∀ events : List (Event κ ν), (∀ event ∈ events, event.opens = 0) →
      openPasses events = 0 := by
    intro events quiet
    induction events with
    | nil => rfl
    | cons event rest ih =>
      rw [openPasses_cons, quiet event List.mem_cons_self,
        ih fun event member => quiet event (List.mem_cons_of_mem _ member)]
      rfl
  refine ⟨none events quiet, fun newer older split => ?_⟩
  rw [none older fun event member => quiet event (split ▸ List.mem_append_right _ member)]
  exact Int.natCast_nonneg bound

theorem Paired.mono {more : Nat} (paired : Paired bound events) (le : bound ≤ more) :
    Paired more events :=
  ⟨paired.closed, fun newer older split =>
    (paired.within newer older split).trans (Int.ofNat_le.mpr le)⟩

theorem Paired.append (start : Paired bound events) (finish : Paired bound later) :
    Paired bound (later ++ events) := by
  refine ⟨?_, fun newer older split => ?_⟩
  · rw [openPasses_append, start.closed, finish.closed]
    rfl
  · rcases List.append_eq_append_iff.mp split with ⟨rest, _, split'⟩ | ⟨rest, split', rfl⟩
    · exact start.within rest older split'
    · rw [openPasses_append, start.closed, Int.add_zero]
      exact finish.within newer rest split'

/-- A pass is open while it makes its visits. -/
theorem Paired.pass (paired : Paired bound events) (owner : ReactorId) (sources : List NodeId) :
    Paired (bound + 1) (.passEnded owner :: (events ++ [.passStarted owner sources])) := by
  have last : openPasses [(.passStarted owner sources : Event κ ν)] = 1 := rfl
  have closed : openPasses (.passEnded owner :: (events ++ [.passStarted owner sources])) = 0 := by
    rw [openPasses_cons, openPasses_append, paired.closed, last]
    rfl
  refine ⟨closed, fun newer older split => ?_⟩
  cases newer with
  | nil =>
    rw [← List.nil_append older, ← split, closed]
    exact Int.natCast_nonneg _
  | cons event newer =>
    obtain ⟨_, split'⟩ := List.cons.inj split
    rcases List.append_eq_append_iff.mp split' with ⟨rest, _, eq⟩ | ⟨rest, eq, rfl⟩
    · rcases List.append_eq_singleton_iff.mp eq.symm with ⟨_, rfl⟩ | ⟨_, rfl⟩
      · rw [last]
        omega
      · exact Int.natCast_nonneg _
    · have inner := paired.within newer rest eq
      rw [openPasses_append, last]
      omega

end

/-- Of what kind a cell is, and whether it is an effect that is running. -/
def Cell.mark : Cell κ ν → NodeKind × Bool
  | .signal _ => (.source, false)
  | .computed _ => (.derived, false)
  | .effect state => (.effect, state.executing)

theorem Cell.mark_withHolders (cell : Cell κ ν) (holders : Nat) :
    (cell.withHolders holders).mark = cell.mark := by
  cases cell <;> rfl

namespace World

variable {world middle after : World κ ν σ} {bound : Nat} {id : NodeId} {effect : Effect κ}

def marks (world : World κ ν σ) : List (NodeKind × Bool) :=
  world.cells.map Cell.mark

/-- How many effects are not running. -/
def idle (world : World κ ν σ) : Nat :=
  world.marks.count (.effect, false)

/-- How many effects there are. -/
def effectCount (world : World κ ν σ) : Nat :=
  world.marks.countP (·.1 = .effect)

/-- There are no computeds. -/
def Underived (world : World κ ν σ) : Prop :=
  ∀ mark ∈ world.marks, mark.1 ≠ .derived

theorem idle_le_effectCount (world : World κ ν σ) : world.idle ≤ world.effectCount := by
  refine List.countP_mono_left fun mark _ idle => decide_eq_true ?_
  rw [eq_of_beq idle]

theorem marks_getElem? (world : World κ ν σ) (id : NodeId) :
    world.marks[id.index]? = (world.cell? id).map Cell.mark :=
  List.getElem?_map

theorem effect?_isSome_iff : (world.effect? id).isSome ↔
    ∃ executing, world.marks[id.index]? = some (.effect, executing) := by
  rw [marks_getElem?]
  unfold effect?
  cases world.cell? id with
  | none => simp
  | some cell => cases cell <;> simp [Cell.mark]

theorem Underived.computed? (underived : world.Underived) (id : NodeId) :
    world.computed? id = none := by
  cases found : world.computed? id with
  | none => rfl
  | some state =>
    have marked : world.marks[id.index]? = some (.derived, false) := by
      rw [marks_getElem?, computed?_eq_some_iff.mp found]
      rfl
    exact (underived _ (List.mem_of_getElem? marked) rfl).elim

/-- A change of a cell that keeps its mark. -/
theorem marks_modifyCell (world : World κ ν σ) (id : NodeId) {change : Cell κ ν → Cell κ ν}
    (same : ∀ cell, (change cell).mark = cell.mark) :
    (world.modifyCell id change).marks = world.marks := by
  refine List.ext_getElem? fun index => ?_
  unfold marks modifyCell
  rw [List.getElem?_map, List.getElem?_map, List.getElem?_modify]
  cases world.cells[index]? with
  | none => rfl
  | some cell =>
    dsimp only [Option.map_some]
    split
    next => exact congrArg some (same cell)
    next => rfl

/-- An effect that starts or ends running. -/
theorem marks_modifyEffect (found : world.effect? id = some effect) (change : Effect κ → Effect κ) :
    (world.modifyEffect id change).marks =
      world.marks.set id.index (.effect, (change effect).executing) := by
  rw [effect?_eq_some_iff] at found
  refine List.ext_getElem? fun index => ?_
  rw [List.getElem?_set]
  unfold marks modifyEffect modifyCell
  rw [List.getElem?_map, List.getElem?_modify, List.getElem?_map, List.length_map]
  split
  next same =>
    subst same
    have known : world.cells[id.index]? = some (.effect effect) := found
    rw [if_pos (List.getElem?_eq_some_iff.mp known).1, known]
    rfl
  next => cases world.cells[index]? <;> rfl

/-- A change that leaves all cells of their kinds, and each effect running or idle as it was. The
passes that it starts end, with at most so many of them open at a time. -/
structure Returns (bound : Nat) (world after : World κ ν σ) : Prop where
  marks : after.marks = world.marks
  past : ∃ events, after.past = events ++ world.past ∧ Paired bound events

theorem Returns.of_quiet {events : List (Event κ ν)} (marks : after.marks = world.marks)
    (past : after.past = events ++ world.past) (quiet : ∀ event ∈ events, event.opens = 0) :
    Returns bound world after :=
  ⟨marks, events, past, .of_quiet quiet⟩

theorem Returns.refl (world : World κ ν σ) : Returns bound world world :=
  ⟨rfl, [], rfl, .of_quiet nofun⟩

theorem Returns.trans (start : Returns bound world middle) (finish : Returns bound middle after) :
    Returns bound world after := by
  obtain ⟨events, past, paired⟩ := start.past
  obtain ⟨later, past', paired'⟩ := finish.past
  refine ⟨finish.marks.trans start.marks, later ++ events, ?_, paired.append paired'⟩
  rw [past', past, List.append_assoc]

theorem Returns.mono {more : Nat} (returns : Returns bound world after) (le : bound ≤ more) :
    Returns more world after := by
  obtain ⟨events, past, paired⟩ := returns.past
  exact ⟨returns.marks, events, past, paired.mono le⟩

theorem Returns.idle (returns : Returns bound world after) : after.idle = world.idle :=
  congrArg (List.count (NodeKind.effect, false)) returns.marks

theorem Returns.underived (returns : Returns bound world after) (underived : world.Underived) :
    after.Underived := by
  unfold Underived
  rw [returns.marks]
  exact underived

theorem Returns.effect_present (returns : Returns bound world after)
    (present : (world.effect? id).isSome) : (after.effect? id).isSome := by
  rw [effect?_isSome_iff] at present ⊢
  rwa [returns.marks]

/-- A change of reactors, documents or the program's own state. -/
theorem Returns.of_cells (cells : after.cells = world.cells) (past : after.past = world.past) :
    Returns bound world after :=
  .of_quiet (congrArg (List.map Cell.mark) cells) (past.trans (List.nil_append _).symm) nofun

theorem Returns.record (world : World κ ν σ) {event : Event κ ν} (quiet : event.opens = 0) :
    Returns bound world (world.record event) :=
  .of_quiet rfl (List.singleton_append.symm) fun _ member => List.mem_singleton.mp member ▸ quiet

theorem Returns.modifyCell (world : World κ ν σ) (id : NodeId) {change : Cell κ ν → Cell κ ν}
    (same : ∀ cell, (change cell).mark = cell.mark) :
    Returns bound world (world.modifyCell id change) :=
  .of_quiet (world.marks_modifyCell id same) (List.nil_append _).symm nofun

theorem Returns.modifyEffect (world : World κ ν σ) (id : NodeId) {change : Effect κ → Effect κ}
    (same : ∀ effect, (change effect).executing = effect.executing) :
    Returns bound world (world.modifyEffect id change) := by
  refine .modifyCell world id fun cell => ?_
  cases cell with
  | effect state => exact congrArg (Prod.mk NodeKind.effect) (same state)
  | signal => rfl
  | computed => rfl

theorem Returns.hold (world : World κ ν σ) (handle : Handle) :
    Returns bound world (world.hold handle) := by
  cases handle with
  | reactor => exact .of_cells rfl rfl
  | node id => exact .modifyCell world id fun cell => cell.mark_withHolders _

theorem Returns.unregister (world : World κ ν σ) (id : NodeId) :
    Returns bound world (world.unregister id).2 := by
  unfold World.unregister
  split
  next => exact .refl world
  next => exact .of_cells rfl rfl

theorem Returns.lose (world : World κ ν σ) (handle : Handle) :
    Returns bound world (world.lose handle) := by
  cases handle with
  | reactor => exact .of_cells rfl rfl
  | node id => exact .modifyCell world id fun cell => cell.mark_withHolders _

theorem Returns.perish (world : World κ ν σ) (handle : Handle) :
    Returns bound world (world.perish handle).2 := by
  cases handle with
  | reactor id =>
    have emptied : Returns bound world (world.mapGraph id fun _ => .empty) := .of_cells rfl rfl
    exact emptied.trans (.record _ rfl)
  | node id =>
    unfold World.perish
    dsimp only
    split
    next => exact .refl world
    next => exact .unregister world id
    next => exact .refl world

theorem Returns.dropAll (world : World κ ν σ) (handles : List Handle) (fuel : Nat) :
    Returns bound world (world.dropAll handles fuel) := by
  induction fuel generalizing world handles with
  | zero => cases handles <;> exact .refl world
  | succ fuel ih =>
    cases handles with
    | nil => exact .refl world
    | cons handle rest =>
      unfold World.dropAll
      dsimp only
      split
      next => exact ((Returns.lose world handle).trans (.perish _ handle)).trans (ih _ _)
      next => exact (Returns.lose world handle).trans (ih _ _)

theorem Returns.drop (world : World κ ν σ) (handle : Handle) :
    Returns bound world (world.drop handle) :=
  .dropAll world _ _

theorem Returns.destroySignal (world : World κ ν σ) (id : NodeId) :
    Returns bound world (world.destroySignal id) := by
  unfold World.destroySignal
  split
  next =>
    split
    next => exact .refl world
    next =>
      have destroyed : Returns bound world (world.modifySignal id ({ · with destroyed := true })) :=
        .modifyCell world id fun cell => by cases cell <;> rfl
      exact (destroyed.trans (.unregister _ id)).trans (.dropAll _ _ _)
  next => exact .refl world

theorem Returns.noteRead (world : World κ ν σ) (owner : ReactorId) (id : NodeId) :
    Returns bound world (world.noteRead owner id) := by
  unfold World.noteRead
  split
  next reader _ =>
    have connected : Returns bound world (world.mapGraph owner (·.connect id reader)) :=
      .of_cells rfl rfl
    exact connected.trans (.record _ rfl)
  next => exact .record world rfl

theorem Returns.noteWrite (world : World κ ν σ) (owner : ReactorId) (id : NodeId) :
    Returns bound world (world.noteWrite owner id) := by
  unfold World.noteWrite
  split
  next writer _ =>
    have noted : Returns bound world (world.mapGraph owner (·.noteWrite id writer)) :=
      .of_cells rfl rfl
    exact noted.trans (.record _ rfl)
  next => exact .record world rfl

theorem Returns.report (world : World κ ν σ) (owner : ReactorId) (failure : ReactiveFailure) :
    Returns bound world (world.report owner failure) := by
  unfold World.report
  split
  next =>
    split
    next => exact .record world rfl
    next => exact .refl world
  next => exact .refl world

theorem Returns.of_shown (shown : world.Shown after) : Returns bound world after := by
  obtain ⟨cells, _, events, warnings, past⟩ := shown
  refine .of_quiet (congrArg (List.map Cell.mark) cells) past fun event member => ?_
  rcases warnings event member with ⟨_, rfl⟩ | ⟨_, rfl⟩ <;> rfl

/-- An idle effect has started to run. -/
structure Engages (id : NodeId) (world start : World κ ν σ) : Prop where
  idle : world.marks[id.index]? = some (.effect, false)
  marks : start.marks = world.marks.set id.index (.effect, true)
  past : start.past = world.past

theorem Engages.marked (engages : Engages id world middle) :
    middle.marks[id.index]? = some (.effect, true) := by
  rw [engages.marks]
  exact List.getElem?_set_self (List.getElem?_eq_some_iff.mp engages.idle).1

theorem Engages.effect_present (engages : Engages id world middle) : (middle.effect? id).isSome :=
  effect?_isSome_iff.mpr ⟨true, engages.marked⟩

theorem Engages.underived (engages : Engages id world middle) (underived : world.Underived) :
    middle.Underived := by
  intro mark member
  rw [engages.marks] at member
  rcases List.mem_or_eq_of_mem_set member with before | rfl
  · exact underived mark before
  · exact nofun

/-- There is one idle effect less. -/
theorem Engages.idle_succ (engages : Engages id world middle) : middle.idle + 1 = world.idle := by
  obtain ⟨bounded, own⟩ := List.getElem?_eq_some_iff.mp engages.idle
  have positive : 0 < world.marks.count (.effect, false) :=
    List.count_pos_iff.mpr (own ▸ List.getElem_mem bounded)
  unfold World.idle
  rw [engages.marks, List.count_set bounded, own, if_pos (beq_self_eq_true _), if_neg (by decide)]
  omega

/-- At the end of the run the effect is idle again. -/
theorem Engages.returns (engages : Engages id world middle) (returns : Returns bound middle after) :
    Returns bound world (after.endRun id) := by
  obtain ⟨bounded, own⟩ := List.getElem?_eq_some_iff.mp engages.idle
  obtain ⟨effect, found⟩ :=
    Option.isSome_iff_exists.mp (returns.effect_present engages.effect_present)
  have idle : (after.endRun id).marks = world.marks := by
    calc (after.endRun id).marks
        = after.marks.set id.index (.effect, false) := marks_modifyEffect found _
      _ = (world.marks.set id.index (.effect, true)).set id.index (.effect, false) := by
          rw [returns.marks, engages.marks]
      _ = world.marks.set id.index (.effect, false) := List.set_set _
      _ = world.marks := own ▸ List.set_getElem_self bounded
  obtain ⟨events, past, paired⟩ := returns.past
  exact ⟨idle, events, engages.past ▸ past, paired⟩

/-- An idle effect that is marked as running, and then taken off what it reads and its cleanup. -/
theorem engages_takeCleanup (found : world.effect? id = some effect)
    (idle : effect.executing = false) :
    Engages id world ((((world.modifyEffect id ({ · with executing := true })).mapGraph
      effect.reactor (·.unsubscribe id)).takeCleanup id).2) := by
  have unsubscribed : Returns 0 (world.modifyEffect id ({ · with executing := true }))
      ((world.modifyEffect id ({ · with executing := true })).mapGraph effect.reactor
        (·.unsubscribe id)) := .of_cells rfl rfl
  have taken : ∀ world : World κ ν σ, Returns 0 world (world.takeCleanup id).2 :=
    fun world => .modifyEffect world id fun _ => rfl
  refine ⟨?_, ?_, rfl⟩
  · rw [marks_getElem?, effect?_eq_some_iff.mp found]
    exact congrArg (fun executing => some (NodeKind.effect, executing)) idle
  · exact (unsubscribed.trans (taken _)).marks.trans (marks_modifyEffect found _)

/-- When a pass makes its first visit, it is open. -/
theorem enterPass_returns (world : World κ ν σ) (owner : ReactorId) (sources : List NodeId) :
    Returns bound (world.record (.passStarted owner sources)) (world.enterPass owner sources) := by
  have held : ∀ (visits : List Visit) (world : World κ ν σ), Returns bound world
      (visits.foldl (fun world entry => world.hold (.node entry.wakeup.effect)) world) := by
    intro visits
    induction visits with
    | nil => exact fun world => .refl world
    | cons entry rest ih => exact fun world => (Returns.hold world _).trans (ih _)
  have planned : Returns bound (world.record (.passStarted owner sources))
      ((world.record (.passStarted owner sources)).planPass owner sources).2 := .of_cells rfl rfl
  exact planned.trans (held _ _)

/-- The pass is one more level around what its visits leave open. -/
theorem Returns.pass {owner : ReactorId} {sources : List NodeId}
    (returns : Returns bound (world.record (.passStarted owner sources)) after) :
    Returns (bound + 1) world (after.record (.passEnded owner)) := by
  obtain ⟨events, past, paired⟩ := returns.past
  refine ⟨returns.marks, _, ?_, paired.pass owner sources⟩
  show .passEnded owner :: after.past = _
  rw [past]
  show .passEnded owner :: (events ++ .passStarted owner sources :: world.past) = _
  simp only [List.append_assoc, List.cons_append, List.nil_append]

end World

end ReactiveTree
