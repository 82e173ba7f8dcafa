import ReactiveTree.Proofs.Graph.Scheduling
import ReactiveTree.Proofs.Reactive.Completing
import ReactiveTree.Proofs.Reactive.Passes

/-! # Failures stay where they are

Whatever bodies, cleanups and closures of computeds fail, a pass makes all of its visits, each once
and in order. A visit starts the effect if it has to run, and a run that nobody has stopped is
counted and leaves the effect subscribed to what it has read, whether its body failed or not.
-/

namespace ReactiveTree

variable {κ ν σ : Type}

section

variable {engine : Engine κ ν σ} {owner : ReactorId} {entry : Visit} {start : World κ ν σ}

theorem Wanted.listed {middle : World κ ν σ} {tally : Tally}
    (wanted : Wanted engine owner entry start middle) (sustains : Sustains engine)
    (listed : start.Listed tally) : middle.Listed tally := by
  rcases wanted with ⟨_, rfl⟩ | ⟨_, asked⟩
  · exact listed
  · exact (needsRun_ends (sustains.refresh _) owner _ listed _ _ asked).2

/-- What a visit does for its effect: it starts the effect if it has to run; and a run that nobody has
stopped leaves the effect active, counted, and subscribed to every live node that it has read since
its body started. -/
structure Isolates (engine : Engine κ ν σ) (owner : ReactorId) (entry : Visit)
    (start : World κ ν σ) (events : List (Event κ ν)) (stop : World κ ν σ) : Prop where
  started : .started entry.wakeup.effect ∈ events ↔ ∃ begun, Starts engine owner entry start begun
  counted : .started entry.wakeup.effect ∈ events → .stopped entry.wakeup.effect ∉ events →
    ∃ effect, stop.effect? entry.wakeup.effect = some effect ∧ effect.active = true ∧
      effect.executing = false ∧ effect.runs = entry.runs + 1
  subscribed : .started entry.wakeup.effect ∈ events → .stopped entry.wakeup.effect ∉ events →
    ∀ newer older, events = newer ++ .started entry.wakeup.effect :: older →
      .started entry.wakeup.effect ∉ newer →
        ∀ read, .read read (some entry.wakeup.effect) ∈ newer →
          ∀ source, (stop.graph owner).node? read = some source →
            entry.wakeup.effect ∈ source.dependents ∧
              ∃ node, (stop.graph owner).node? entry.wakeup.effect = some node ∧
                read ∈ node.dependencies

end

section

variable [BEq ν] {program : Program κ ν σ} {depth : Nat} {owner : ReactorId} {entry : Visit}
  {start begun left : World κ ν σ} {tally : Tally} {effect : Effect κ}

/-- An effect that can run does so, and then its reactor is given back. -/
theorem activate_runs {id : NodeId} (found : begun.effect? id = some effect)
    (active : effect.active = true) (idle : effect.executing = false)
    (alive : begun.isAlive effect.reactor = true) :
    (activate program depth (.execute id)).Ends begun fun _ left => ∃ events,
      left.past = events ++ begun.past ∧ .started id ∈ events ∧ (.stopped id ∉ events →
        ∃ running rest, events = running ++ .started id :: rest ∧ .started id ∉ running ∧
          World.Completes id (effect.runs + 1) (fun read => .read read (some id) ∈ running) left) := by
  cases depth with
  | zero => exact fun _ _ => nofun
  | succ depth =>
    refine (executeEffect_runs (activate_charts (Or.inl trivial) depth) trivial found active idle
      alive).mono fun _ left outcome => ?_
    obtain ⟨_, events, ran, runs, rfl⟩ := outcome
    obtain ⟨deaths, only, dropped⟩ : ∃ deaths, World.Deaths deaths ∧
        ran.Spares (fun _ => False) deaths (ran.drop (.reactor effect.reactor)) :=
      ran.spares_drop (.reactor effect.reactor)
    refine ⟨deaths ++ events, ?_, List.mem_append_right _ runs.started_mem, fun unstopped => ?_⟩
    · rw [dropped.past, runs.course.spares_all.past, List.append_assoc]
      rfl
    · have found' : (begun.hold (.reactor effect.reactor)).effect? id = some effect := found
      obtain ⟨running, rest, split, once, completes⟩ := runs.completes found' fun member =>
        unstopped (List.mem_append_right _ member)
      obtain ⟨running', split', once', completes'⟩ := completes.extend split once only dropped
      exact ⟨running', rest, split', once', completes'⟩

/-- A visit that runs its effect leaves it owed no visit. -/
theorem Starts.cleared (starts : Starts (activate program depth) owner entry start begun)
    (looks : ∀ code, (program.compute code).Looks) (plain : tally.Plain)
    (listed : start.Listed tally) {result : Except Panic Unit}
    (ran : activate program depth (.execute entry.wakeup.effect) begun = some (result, left))
    {stop : World κ ν σ}
    (ended : (left.modifyReactor owner Reactor.popChain).drop (.node entry.wakeup.effect) = stop) :
    stop.Listed (tally.clearing entry.wakeup.effect) := by
  obtain ⟨effect, found, active, idle, _⟩ := starts.ready
  obtain ⟨middle, wanted, rfl⟩ := starts.wanted
  have sustains : Sustains (activate program depth) := activate_sustains looks depth
  obtain ⟨asked, asking⟩ := wanted.becomes (activate_charts (Or.inr looks) depth)
  obtain ⟨between, found', _, core⟩ := (asking.spares_of_not_writes not_false).effect found
  obtain ⟨_, active', idle', _⟩ := Effect.of_core (core not_false)
  have begun : (middle.modifyReactor owner (·.pushChain entry.wakeup.causes)).Listed tally :=
    (wanted.listed sustains listed).modifyRecords owner fun _ => ⟨rfl, rfl⟩
  obtain ⟨_, executed⟩ := sustains.execute tally plain _ _ begun _ _ ran
  obtain ⟨_, cleared⟩ := executed between (World.effect?_eq_some_iff.mp found')
  have popped : (left.modifyReactor owner Reactor.popChain).Listed
      (tally.clearing entry.wakeup.effect) :=
    (cleared (active'.trans active) (idle'.trans idle)).modifyRecords owner fun _ => ⟨rfl, rfl⟩
  exact ended ▸ popped.drop _

end

section

variable {engine : Engine κ ν σ} {owner : ReactorId} {sources : List NodeId}
  {world after : World κ ν σ} {tally : Tally}

/-- What a pass does: it visits the effects that it wakes, each once and in the order that the graph
puts them in. As long as its reactor lives, which handles in use see to, each visit is made as its
effect alone requires. -/
structure PassIsolates (engine : Engine κ ν σ) (owner : ReactorId) (sources : List NodeId)
    (world after : World κ ν σ) : Prop where
  woken : ((world.passVisits owner sources).map (·.wakeup.effect)).Perm
    (((world.graph owner).propagate sources).1.map Wakeup.effect)
  once : ((world.passVisits owner sources).map (·.wakeup.effect)).Nodup
  order : (world.passVisits owner sources).map (·.wakeup.effect) =
    ((world.graph owner).propagate sources).2.schedule
      (((world.graph owner).propagate sources).1.map Wakeup.effect)
  visits : ∀ before entry rest, world.passVisits owner sources = before ++ entry :: rest →
    ∃ start stop last, Run.forEach before (visitHeld engine owner)
        (world.enterPass owner sources) = some (.ok (), start) ∧
      visitHeld engine owner entry start = some (.ok (), stop) ∧
      Run.forEach rest (visitHeld engine owner) stop = some (.ok (), last) ∧
      after = last.record (.passEnded owner) ∧
      ∃ events, stop.past = events ++ start.past ∧
        (world.isAlive owner = true →
          (∀ newer, after.past = newer ++ world.past → .died owner ∉ newer) →
            Isolates engine owner entry start events stop)

/-- An operation has not panicked, and it has started no pass or is over with one that has made all
of its visits. -/
def Isolated (engine : Engine κ ν σ) (owner : ReactorId) (sources : List NodeId)
    (world : World κ ν σ) (result : Except Panic Unit) (after : World κ ν σ) : Prop :=
  result = .ok () ∧ ∃ events middle, middle.past = events ++ world.past ∧
    (∀ other sources, .passStarted other sources ∉ events) ∧
      (after = middle ∨ notify engine owner sources middle = some (.ok (), after) ∧
        PassIsolates engine owner sources middle after)

theorem Isolated.of_quiet {engine : Engine κ ν σ} {event : Event κ ν}
    (past : after.past = event :: world.past)
    (quiet : ∀ other sources, .passStarted other sources ≠ event) :
    Isolated engine owner sources world (.ok ()) after :=
  ⟨rfl, [event], after, past, fun other sources member =>
    quiet other sources (List.mem_singleton.mp member), Or.inl rfl⟩

/-- What comes after an event that starts no pass. -/
theorem Isolated.behind {engine : Engine κ ν σ} {start : World κ ν σ} {event : Event κ ν}
    {result : Except Panic Unit} (isolated : Isolated engine owner sources start result after)
    (past : start.past = event :: world.past)
    (quiet : ∀ other sources, .passStarted other sources ≠ event) :
    Isolated engine owner sources world result after := by
  obtain ⟨succeeded, events, middle, grown, unstarted, rest⟩ := isolated
  refine ⟨succeeded, events ++ [event], middle, ?_, fun other sources member => ?_, rest⟩
  · rw [grown, past, List.append_assoc]
    rfl
  · rcases List.mem_append.mp member with later | first
    · exact unstarted other sources later
    · exact quiet other sources (List.mem_singleton.mp first)

/-- When a pass makes its first visit, it owes all of them. -/
theorem World.Listed.enterPass (listed : world.Listed tally) (plain : tally.Plain) :
    (world.enterPass owner sources).Listed
      (tally.visiting owner (world.passVisits owner sources)) := by
  have planned := (listed.record (.passStarted owner sources)).planPass plain owner sources
  exact planned.foldl_hold _ _

/-- An effect that a pass visits while it is active is in its graph, unless the reactor has died. -/
theorem ComesTo.live (comes : ComesTo engine owner sources world entry start)
    (listed : world.Listed tally) {events : List (Event κ ν)}
    (ceases : World.Ceases entry.wakeup.effect world events start) (living : .died owner ∉ events)
    {effect : Effect κ} (found : start.effect? entry.wakeup.effect = some effect)
    (active : effect.active = true) : ((start.graph owner).node? entry.wakeup.effect).isSome := by
  obtain ⟨before, rest, planned, _⟩ := comes
  have member : entry ∈ world.passVisits owner sources :=
    planned ▸ List.mem_append_right _ List.mem_cons_self
  obtain ⟨node, live, kind⟩ := Option.map_eq_some_iff.mp (World.of_mem_planPass member).2
  have live' : (world.graph owner).node? entry.wakeup.effect = some node := live
  obtain ⟨cell, known, _, kind'⟩ := listed.home owner _ node live'
  cases cell with
  | signal => cases kind'.trans kind
  | computed => cases kind'.trans kind
  | effect state =>
    obtain ⟨effect', found', outcome⟩ := ceases state (World.effect?_eq_some_iff.mpr known)
    cases found.symm.trans found'
    rcases outcome with ⟨_, _, lives⟩ | ⟨_, ceased, _⟩
    · exact (lives owner (by rw [live']; rfl)).resolve_right living
    · cases active.symm.trans ceased

variable [BEq ν] {program : Program κ ν σ} {depth : Nat}

end

/-- An effect that fails after it has read, unless the signal is one. -/
def Program.failing : Program Unit Nat Unit where
  compute _ := .pure 0
  effect _ := .bind (.call (.get ⟨0⟩)) fun value =>
    if value = 1 then .pure (.ok none) else .raise (.text "failed")
  cleanup _ := .pure ()
  callback _ _ := .pure ()
  render _ := .pure none
  handler _ := .pure ()

/-- Make a signal of one and the effect. -/
def Act.failing : Act Unit Nat Unit Unit :=
  .bind (.call (.newReactor {})) fun _ =>
    .bind (.call (.newSignal ⟨0⟩ 1)) fun _ =>
      .bind (.call (.newEffect ⟨0⟩ () true)) fun _ => .pure ()

end ReactiveTree
