import ReactiveTree.Proofs.Reactive.Isolation
import ReactiveTree.Proofs.Reactive.Tracking

/-! # An effect is subscribed to what its last run has read

A run of an effect clears its record and calls the cleanup that is due, goes through the body, and deals
with what the body has given. Each live node that the body has read with a tracked read goes on record,
and passes that begin meanwhile put the running effect back on the lists that they take it off. So when
the run is over, the effect is on the list of every live node that it has read, whether the body has
returned, failed or panicked.
-/

namespace ReactiveTree

variable {κ ν σ : Type}

namespace World

variable {world after final : World κ ν σ} {owner : ReactorId} {id : NodeId} {cell : Cell κ ν}

/-- Handles are given back, and the node in question stays. -/
theorem Attends.dropAll (world : World κ ν σ) (handles : List Handle) (fuel : Nat)
    (leads : (world.dropAll handles fuel).Precedes final) (lasts : final.lasting owner id = true)
    (found : world.cell? id = some cell) (home : cell.reactor = owner) :
    Attends final owner id world (world.dropAll handles fuel) := by
  induction fuel generalizing world handles cell with
  | zero =>
    cases handles with
    | nil => exact .refl world
    | cons => exact .refl world
  | succ fuel ih =>
    cases handles with
    | nil => exact .refl world
    | cons handle rest =>
      -- One handle is given back, and then what is left.
      obtain ⟨left, same⟩ : ∃ left, world.dropAll (handle :: rest) (fuel + 1) =
          (world.shed handle).dropAll left fuel := by
        rw [World.dropAll, World.shed]
        by_cases last : world.holdersOf handle = 1
        · exact ⟨((world.lose handle).perish handle).1 ++ rest, by simp only [if_pos last]⟩
        · exact ⟨rest, by simp only [if_neg last]⟩
      rw [same] at leads ⊢
      obtain ⟨_, _, spares⟩ : ∃ events, Deaths events ∧ (world.shed handle).Spares (fun _ => True)
          events ((world.shed handle).dropAll left fuel) := spares_dropAll _ _ _
      have shed : Attends final owner id world (world.shed handle) :=
        .shed world handle (spares.leads.precedes.trans leads) lasts found home
      obtain ⟨cell', found', place, _⟩ := shed.cell cell found
      exact shed.trans (ih (world.shed handle) left leads found' ((congrArg Prod.fst place).trans home))

/-- An effect is on record as a reader of a node, on both sides. -/
def Subscribed (world : World κ ν σ) (owner : ReactorId) (id read : NodeId) : Prop :=
  read ∈ (world.graph owner).dependenciesOf id ∧ id ∈ (world.graph owner).dependentsOf read

/-- A recorded read of a live node, by an effect that live nodes of its record list. -/
theorem Records.subscribed {read : NodeId} (records : world.Records read id)
    (found : world.cell? read = some cell) (home : cell.reactor = owner)
    (live : (world.graph owner).contains read = true)
    (registered : (world.graph owner).contains id = true) (heeded : world.Heeded world owner id) :
    world.Subscribed owner id read := by
  obtain ⟨_, found', kept⟩ := records
  cases found.symm.trans found'
  subst home
  obtain ⟨node, present⟩ := Option.isSome_iff_exists.mp registered
  have member : read ∈ (world.graph cell.reactor).dependenciesOf id := by
    unfold Graph.dependenciesOf
    rw [present]
    refine (kept node present).resolve_right fun gone => ?_
    rw [Graph.contains, gone.2] at live
    cases live
  exact ⟨member, heeded read member live⟩

end World

section

variable [BEq ν] {program : Program κ ν σ} {depth : Nat} {world after : World κ ν σ} {id : NodeId}
  {effect : Effect κ} {result : Except Panic Unit}

/-- A run of an effect that is ready, part by part. -/
structure ExecutionParts (program : Program κ ν σ) (depth : Nat) (id : NodeId) (effect : Effect κ)
    (world middle : World κ ν σ) (given : Except Panic (Except String (Option κ)))
    (ended last : World κ ν σ) : Prop where
  cleared : clearEffect (activate program depth) id effect (world.hold (.reactor effect.reactor)) =
    some (.ok (), middle)
  ran : runBody effect.reactor id (effectAct program (activate program depth) id effect) middle =
    some (.ok given, ended)
  settled : settleRun (activate program depth) id effect given (ended.countRun id) =
    some (.ok (), last)

open World in
/-- What a run of an effect upholds from its cleared record to the end of its last part. -/
theorem ExecutionParts.upholds {final middle ended last : World κ ν σ}
    {given : Except Panic (Except String (Option κ))}
    (parts : ExecutionParts program depth id effect world middle given ended last)
    (found : world.effect? id = some effect) (leads : last.Precedes final)
    (lasts : final.lasting effect.reactor id = true) :
    world.Precedes last ∧ Upholds final effect.reactor id True False
      ((world.hold (.reactor effect.reactor)).engage id effect.reactor) last := by
  have traced : Traced program depth := activate_traced program depth
  have held : (world.hold (.reactor effect.reactor)).effect? id = some effect := found
  have cleaned := clearEffect_trails id effect _ _ _ parts.cleared
  obtain ⟨inner, _, same, inside, same'⟩ :=
    runBody_trails (effectAct_traces traced id effect) middle _ _ parts.ran
  cases same
  -- Each part leads on to the end, where the node is live.
  have begun := (leads_engage (world.hold (.reactor effect.reactor)) id effect.reactor).trans
    cleaned.leads
  have finishes : inner.Leads (ended.countRun id) := by
    rw [same']
    exact (leads_leaveBody inner id effect.reactor (!given.isOk)).trans (leads_countRun _ id)
  have entered := (leads_enterBody middle id effect.reactor).trans inside.leads
  obtain ⟨present, known, _⟩ := ((begun.trans entered).trans finishes).effect held
  have settled := (settleRun_trails traced known given _ _ parts.settled).2
  have toEnd := settled.leads.precedes.trans leads
  have toEnd' := finishes.precedes.trans toEnd
  have whole : world.Precedes last :=
    ((Change.hold (.reactor effect.reactor)).leads.trans (((begun.trans entered).trans finishes).trans
      settled.leads)).precedes
  have resides : ∀ cell, final.cell? id = some cell → cell.reactor = effect.reactor := by
    intro cell here
    obtain ⟨cell', here', place⟩ := (whole.trans leads).cell id _ (effect?_eq_some_iff.mp found)
    cases here.symm.trans here'
    exact congrArg Prod.fst place
  -- Along the way the node goes on running.
  have called : Upholds final effect.reactor id True False _ middle :=
    (cleaned.upholds_resident (entered.precedes.trans toEnd') resides lasts
      (cleared_engage held effect.reactor).engaged).mono (fun _ => trivial) False.elim
  have opened := called.then (.enterBody middle id effect.reactor)
  have body := opened.trans ((inside.upholds_resident toEnd' resides lasts
    (opened.stays.engaged (cleared_engage held effect.reactor).engaged)).mono
      (fun _ => trivial) False.elim)
  have left := (body.then (.leaveBody inner id effect.reactor (!given.isOk))).then (.countRun _ id)
  rw [← same'] at left
  exact ⟨whole, left.trans ((settled.upholds_resident leads resides lasts
    (left.stays.engaged (cleared_engage held effect.reactor).engaged)).mono
      (fun _ => trivial) False.elim)⟩

section

variable (found : world.effect? id = some effect) (active : effect.active = true)
  (idle : effect.executing = false) (alive : world.isAlive effect.reactor = true)

include found active idle alive

theorem of_activate_execute
    (ran : activate program (depth + 1) (.execute id) world = some (result, after)) :
    result = .ok () ∧ ∃ middle given ended last,
      ExecutionParts program depth id effect world middle given ended last ∧
        after = (last.endRun id).drop (.reactor effect.reactor) := by
  obtain ⟨rfl, _⟩ := executeEffect_runs (activate_charts (Or.inl trivial) depth) trivial found active
    idle alive result after ran
  refine ⟨rfl, ?_⟩
  change executeEffect program (activate program depth) id world = some (.ok (), after) at ran
  unfold executeEffect at ran
  rw [Run.world_bind, found] at ran
  dsimp only at ran
  rw [active, alive, idle] at ran
  obtain ⟨given, last, finished, inside, ⟨⟩, same⟩ := Run.of_thenAlways ran
  cases same rfl
  rw [runEffect_eq] at inside
  obtain ⟨_, middle, cleared, inside⟩ := Run.of_bind_eq_ok inside
  obtain ⟨given, ended, body, inside⟩ := Run.of_bind_eq_ok inside
  rw [Run.modify_bind] at inside
  obtain ⟨_, last, settled, ⟨⟩⟩ := Run.of_bind_eq_ok inside
  exact ⟨middle, given, ended, last, ⟨cleared, body, settled⟩, rfl⟩

open World in
/-- When a run of an effect is over and the effect is still registered, every live node that is on
record of it lists it. -/
theorem heeded_of_execute
    (ran : activate program depth (.execute id) world = some (result, after))
    (registered : (after.graph effect.reactor).kind? id = some .effect) :
    after.Heeded after effect.reactor id := by
  cases depth with
  | zero => cases ran
  | succ depth =>
  obtain ⟨-, middle, given, ended, last, parts, rfl⟩ := of_activate_execute found active idle alive ran
  have lasts : ((last.endRun id).drop (.reactor effect.reactor)).lasting effect.reactor id = true :=
    Graph.contains_of_kind? registered
  have dropped : Trail program (.flat .serving) (last.endRun id)
      ((last.endRun id).drop (.reactor effect.reactor)) := trail_drop _ _
  obtain ⟨whole, upholds⟩ := parts.upholds found ((leads_endRun last id).trans dropped.leads).precedes lasts
  have held : (world.hold (.reactor effect.reactor)).effect? id = some effect := found
  have clear := (cleared_engage held effect.reactor).clear
  have unread : ∀ {condition : NodeId → Prop}, ∀ read ∈ (((world.hold (.reactor effect.reactor)).engage
      id effect.reactor).graph effect.reactor).dependenciesOf id, condition read := by
    rw [clear]
    exact nofun
  obtain ⟨cell, here, place⟩ := (whole.trans (leads_endRun last id).precedes).cell id _
    (effect?_eq_some_iff.mp found)
  have released : Attends ((last.endRun id).drop (.reactor effect.reactor)) effect.reactor id
      (last.endRun id) ((last.endRun id).drop (.reactor effect.reactor)) :=
    .dropAll _ _ _ (Leads.refl _).precedes lasts here (congrArg Prod.fst place)
  have kind : (((world.hold (.reactor effect.reactor)).engage id effect.reactor).graph
      effect.reactor).kind? id = some .effect :=
    (released.kind.trans upholds.stays.kind).symm.trans registered
  have alive' : (world.hold (.reactor effect.reactor)).isAlive effect.reactor = true :=
    isAlive_hold (isSome_of_isAlive alive)
  have atWork : ((world.hold (.reactor effect.reactor)).engage id effect.reactor).AtWork
      effect.reactor id := ⟨⟨_, cell?_engage held, rfl, active⟩, isAlive_mapGraph alive', kind⟩
  have heeded : (last.endRun id).Heeded ((last.endRun id).drop (.reactor effect.reactor))
      effect.reactor id := upholds.heeded atWork unread (Or.inr unread)
  refine released.heeded (fun read member lasting => ?_) heeded
  exact (leads_endRun last id).known (upholds.familiar unread read member lasting)

/-- A run of an effect that nobody stops leaves it active and idle, and subscribed to the live nodes of
its reactor that it has read since its body started, whatever the body has given. -/
theorem execute_subscribes (ran : activate program depth (.execute id) world = some (result, after)) :
    ∃ told, after.past = told ++ world.past ∧ (.stopped id ∉ told →
      (∃ present, after.effect? id = some present ∧ present.reactor = effect.reactor ∧
        present.active = true ∧ present.executing = false) ∧
      ((after.graph effect.reactor).kind? id = some .effect →
        ∃ running rest, told = running ++ .started id :: rest ∧ .started id ∉ running ∧
          ∀ read cell, .read read (some id) ∈ running → after.cell? read = some cell →
            cell.reactor = effect.reactor → (after.graph effect.reactor).contains read = true →
              after.Subscribed effect.reactor id read)) := by
  obtain ⟨told, past, -, completes⟩ := activate_runs found active idle alive _ _ ran
  refine ⟨told, past, fun unstopped => ?_⟩
  obtain ⟨running, rest, split, once, completed⟩ := completes unstopped
  obtain ⟨present, found', active', idle', -⟩ := completed.idle
  obtain ⟨_, course⟩ := (activate_charts (Or.inl trivial) depth).execute trivial _ _ _ _ ran
  obtain ⟨_, found'', home, -⟩ := course.spares_all.effect found
  cases found'.symm.trans found''
  refine ⟨⟨present, found', home, active', idle'⟩, fun registered => ⟨running, rest, split, once, ?_⟩⟩
  intro read cell member known home live
  exact (completed.records read member).subscribed known home live
    (Graph.contains_of_kind? registered) (heeded_of_execute found active idle alive ran registered)

end

end

end ReactiveTree
