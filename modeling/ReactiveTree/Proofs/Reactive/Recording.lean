import ReactiveTree.Proofs.Reactive.Attending
import ReactiveTree.Proofs.Reactive.Pending
import ReactiveTree.Proofs.Reactive.Upholding

/-! # What a run does to the record of a node whose closure runs

On the way of a run a node whose closure runs stays what it is. What it has read stays on record, as
far as it lasts, and nothing is added but in its own frame. A notification takes a running effect off
the changed sources, but then it comes to the effect, finds it running and puts it back where it has
read; so at the end of a stretch the effect is listed by what it has read if it was at the start. All
of this is shown at once, by induction on the trail of the run.
-/

namespace ReactiveTree

variable {κ ν σ : Type}

namespace World

variable {world middle after final : World κ ν σ} {owner home : ReactorId} {id other : NodeId}
  {cell : Cell κ ν}

/-- Whom reads are tracked for depends on the open frames. -/
theorem reader?_congr (same : after.opened owner = world.opened owner) :
    after.reader? owner = world.reader? owner := by
  have tops : ∀ world : World κ ν σ, world.reader? owner =
      ({ Reactor.new {} with frames := (world.opened owner).1 } : Reactor).reader? := by
    intro world
    unfold reader? opened
    cases world.reactor? owner <;> rfl
  rw [tops, tops, same]

theorem reader?_modifyReactor (world : World κ ν σ) (home : ReactorId) {change : Reactor → Reactor}
    (kept : ∀ state, (change state).frames = state.frames) (owner : ReactorId) :
    (world.modifyReactor home change).reader? owner = world.reader? owner := by
  unfold reader?
  rw [reactor?_modifyReactor]
  split
  next same =>
    subst same
    cases world.reactor? owner with
    | none => rfl
    | some state =>
      show (change state).reader? = state.reader?
      unfold Reactor.reader?
      rw [kept]
  next => rfl

theorem reader?_openBatch (world : World κ ν σ) (home owner : ReactorId) :
    (world.modifyReactor home Reactor.openBatch).reader? owner = world.reader? owner := by
  refine reader?_modifyReactor world home ?_ owner
  exact fun _ => rfl

theorem reader?_pushFrame (world : World κ ν σ) (home : ReactorId) (frame : Frame) (owner : ReactorId) :
    (world.modifyReactor home (·.pushFrame frame)).reader? owner =
      if owner = home then (world.reactor? home).bind fun _ =>
        match frame with
        | .tracked reader => some reader
        | .untracked => none
      else world.reader? owner := by
  unfold reader?
  rw [reactor?_modifyReactor]
  split
  next same =>
    subst same
    cases world.reactor? owner with
    | none => rfl
    | some state => cases frame <;> rfl
  next => rfl

/-- In a frame of another closure reads are not tracked for the node. -/
theorem reader?_pushFrame_ne (world : World κ ν σ) {frame : Frame} (apart : frame ≠ .tracked id) :
    (world.modifyReactor owner (·.pushFrame frame)).reader? owner ≠ some id := by
  rw [reader?_pushFrame, if_pos rfl]
  cases world.reactor? owner with
  | none => exact nofun
  | some state =>
    cases frame with
    | untracked => exact nofun
    | tracked reader => exact fun same => apart (congrArg Frame.tracked (Option.some.inj same))

/-- Every cell belongs to one reactor. -/
def Within (world : World κ ν σ) (owner : ReactorId) : Prop :=
  ∀ id cell, world.cell? id = some cell → cell.reactor = owner

/-- A cell belongs to the reactor that it belongs to later. -/
theorem Precedes.resident (leads : world.Precedes final)
    (resides : ∀ cell, final.cell? id = some cell → cell.reactor = owner)
    (found : world.cell? id = some cell) : cell.reactor = owner := by
  obtain ⟨cell', found', place⟩ := leads.cell id cell found
  exact (congrArg Prod.fst place).symm.trans (resides cell' found')

theorem Precedes.belongs (leads : world.Precedes final) (single : final.Within owner)
    (found : world.cell? id = some cell) : cell.reactor = owner :=
  leads.resident (single id) found

theorem Precedes.belongs_or (leads : world.Precedes final) (owner : ReactorId)
    (found : world.cell? id = some cell) : ¬ final.Within owner ∨ cell.reactor = owner :=
  (Classical.em (final.Within owner)).elim (fun single => Or.inr (leads.belongs single found)) Or.inl

/-- What a stretch of a run does to the record of a node: nothing is added unless reads are tracked for
it, and if the effect is listed in the beginning, or is owed a visit, it is listed in the end. -/
structure Upholds (final : World κ ν σ) (owner : ReactorId) (id : NodeId) (tracks owed : Prop)
    (world after : World κ ν σ) : Prop where
  stays : Stays owner id world after
  onRecord : ¬ tracks → after.onRecord final owner id = world.onRecord final owner id
  familiar : world.Familiar final owner id → after.Familiar final owner id
  heeded : world.AtWork owner id → world.Familiar final owner id →
    owed ∨ world.Heeded final owner id → after.Heeded final owner id

variable {tracks tracks' owed owed' : Prop}

theorem Attends.upholds (attends : Attends final owner id world after) (unowed : ¬ owed) :
    Upholds final owner id tracks owed world after where
  stays := attends.toStays
  onRecord _ := attends.onRecord
  familiar familiar := familiar.of_onRecord attends.known attends.onRecord
  heeded _ familiar heeded := attends.heeded familiar (heeded.resolve_left unowed)

theorem Upholds.mono (upholds : Upholds final owner id tracks owed world after)
    (tracked : tracks → tracks') (due : owed' → owed) :
    Upholds final owner id tracks' owed' world after where
  stays := upholds.stays
  onRecord apart := upholds.onRecord fun holds => apart (tracked holds)
  familiar := upholds.familiar
  heeded atWork familiar heeded := upholds.heeded atWork familiar (heeded.imp_left due)

theorem Upholds.trans (start : Upholds final owner id tracks owed world middle)
    (finish : Upholds final owner id tracks False middle after) :
    Upholds final owner id tracks owed world after where
  stays := start.stays.trans finish.stays
  onRecord apart := (finish.onRecord apart).trans (start.onRecord apart)
  familiar familiar := finish.familiar (start.familiar familiar)
  heeded atWork familiar heeded := finish.heeded (start.stays.atWork atWork) (start.familiar familiar)
    (Or.inr (start.heeded atWork familiar heeded))

/-- A stretch in which no read is tracked for the node. -/
theorem Upholds.quiet (upholds : Upholds final owner id tracks owed world after)
    (untracked : ¬ tracks) : Upholds final owner id False False world after :=
  upholds.mono untracked False.elim

/-- A stretch in which no read is tracked for the node in its own frame. -/
theorem Upholds.calm (upholds : Upholds final owner id (tracks' ∨ tracks) owed world after)
    (apart : tracks → tracks') : Upholds final owner id tracks' owed world after :=
  upholds.mono (·.elim (fun tracked => tracked) apart) fun owed => owed

/-- A stretch after a step. -/
theorem Upholds.onward (step : Attends final owner id world middle)
    (finish : Upholds final owner id tracks False middle after) :
    Upholds final owner id tracks False world after :=
  (step.upholds not_false).trans finish

/-- A stretch before a step. -/
theorem Upholds.then (start : Upholds final owner id tracks owed world middle)
    (step : Attends final owner id middle after) : Upholds final owner id tracks owed world after :=
  start.trans (step.upholds not_false)

theorem Attends.enterBody (world : World κ ν σ) (other : NodeId) (home : ReactorId) :
    Attends final owner id world (world.enterBody other home) :=
  (Attends.record world (.started other)).trans (.pushFrame _ home (.tracked other))

theorem Attends.leaveBody (world : World κ ν σ) (other : NodeId) (home : ReactorId) (panicked : Bool) :
    Attends final owner id world (world.leaveBody other home panicked) :=
  (Attends.popFrame world home).trans (.record _ (.ended other panicked))

theorem Attends.enter (world : World κ ν σ) (apart : other ≠ id) (home : ReactorId) :
    Attends final owner id world (world.enter other home) := by
  have computing : Attends final owner id world
      (world.modifyComputed other ({ · with computing := true })) := .modifyComputed world apart _
  exact ((computing.trans (.unsubscribe _ home apart)).trans (.record _ (.started other))).trans
    (.pushFrame _ home (.tracked other))

theorem Attends.afterEvaluation [BEq ν] (inner : World κ ν σ) (apart : other ≠ id)
    (computed : Computed κ ν) (result : Except Panic ν) :
    Attends final owner id inner (inner.afterEvaluation other computed result).2 := by
  have left : ∀ panicked, Attends final owner id inner
      (inner.leave other computed.reactor panicked) := fun panicked =>
    (Attends.leaveBody inner other computed.reactor panicked).trans (.modifyComputed _ apart _)
  cases result with
  | error panic => exact (left true).trans (.modifyNode _ _ other fun _ => ⟨rfl, rfl, rfl, rfl⟩)
  | ok value =>
    refine (left false).trans ?_
    show Attends final owner id _ (World.settleValue _ other computed value)
    unfold settleValue
    extract_lets same
    split
    next => exact .modifyNode _ _ other fun _ => ⟨rfl, rfl, rfl, rfl⟩
    next =>
      have kept : Attends final owner id (inner.leave other computed.reactor false)
          ((inner.leave other computed.reactor false).modifyComputed other
            ({ · with value := some value })) := .modifyComputed _ apart _
      refine kept.trans (Attends.trans ?_ (.record _ _))
      exact .modifyNode _ _ other fun _ => ⟨rfl, rfl, rfl, rfl⟩

theorem Attends.engage (world : World κ ν σ) (apart : other ≠ id) (home : ReactorId) :
    Attends final owner id world (world.engage other home) := by
  have executing : Attends final owner id world
      (world.modifyEffect other ({ · with executing := true })) :=
    .modifyEffect world other fun same => absurd same apart
  exact (executing.trans (.unsubscribe _ home apart)).trans
    (.modifyEffect _ other fun same => absurd same apart)

theorem Attends.countRun (world : World κ ν σ) (other : NodeId) :
    Attends final owner id world (world.countRun other) :=
  .modifyEffect world other fun _ _ => ⟨rfl, rfl, fun _ => rfl⟩

theorem Attends.endRun (world : World κ ν σ) (apart : other ≠ id) :
    Attends final owner id world (world.endRun other) :=
  .modifyEffect world other fun same => absurd same apart

/-- A read that is tracked for another node, or for none. -/
theorem Attends.noteRead (world : World κ ν σ) (read : NodeId)
    (apart : world.reader? owner ≠ some id) :
    Attends final owner id world (world.noteRead owner read) := by
  refine .of_cells ?_ (fun living => ?_) ?_
  · unfold World.noteRead
    split <;> rfl
  · unfold World.noteRead
    split
    next => exact isAlive_mapGraph living
    next => exact living
  · rcases graph_noteRead world owner read owner with same | ⟨_, reader, reading, connected⟩
    · rw [same]
      exact .refl _
    · rw [connected]
      exact .connect _ read fun equal => apart (reading.trans (congrArg some equal))

/-- A read that is tracked in another reactor. -/
theorem Attends.noteRead_of_ne (world : World κ ν σ) {home : ReactorId} (apart : home ≠ owner)
    (read : NodeId) : Attends final owner id world (world.noteRead home read) := by
  refine .of_cells ?_ (fun living => ?_) ?_
  · unfold World.noteRead
    split <;> rfl
  · unfold World.noteRead
    split
    next => exact isAlive_mapGraph living
    next => exact living
  · rcases graph_noteRead world home read owner with same | ⟨here, _⟩
    · rw [same]
      exact .refl _
    · exact absurd here.symm apart

section

variable {read : NodeId} (reading : world.reader? owner = some id)

include reading

/-- A read that is tracked for the node itself. -/
theorem Upholds.ownRead (known : (world.cell? read).isSome) :
    Upholds final owner id True False world (world.noteRead owner read) := by
  have cells : (world.noteRead owner read).cells = world.cells := by
    unfold World.noteRead
    split <;> rfl
  have connected : (world.noteRead owner read).graph owner = (world.graph owner).connect read id :=
    (graph_noteRead_of reading read owner).trans (if_pos rfl)
  refine ⟨.of_cells cells (fun living => ?_) ?_, fun untracked => absurd trivial untracked,
    fun familiar other member lasts => ?_, fun _ _ heeded => ?_⟩
  · unfold World.noteRead
    split
    next => exact isAlive_mapGraph living
    next => exact living
  · rw [connected, Graph.kind?_connect]
  · have before : other ∈ (world.graph owner).dependenciesOf id → (world.cell? other).isSome :=
      fun member => familiar other member lasts
    rw [cell?_noteRead]
    rw [connected] at member
    rcases Graph.dependenciesOf_connect_cases (world.graph owner) read id id with same | added
    · exact before (same ▸ member)
    · rw [added] at member
      rcases mem_addLast.mp member with old | rfl
      · exact before old
      · exact known
  · unfold Heeded
    rw [connected]
    exact Graph.Heeds.connect (heeded.resolve_left not_false) read

/-- A node that lasts goes on record when it is read, unless it is the reader itself. -/
theorem onRecord_ownRead (leads : (world.noteRead owner read).Precedes final)
    (lasts : final.lasting owner id = true) (known : (world.cell? id).isSome)
    (known' : (world.cell? read).isSome) : (world.noteRead owner read).onRecord final owner id =
      addAll (world.onRecord final owner id)
        ([read].filter fun other => final.lasting owner other && decide (other ≠ id)) := by
  have cells : ∀ other, (world.noteRead owner read).cell? other = world.cell? other :=
    cell?_noteRead world owner read
  have connected : (world.noteRead owner read).graph owner = (world.graph owner).connect read id :=
    (graph_noteRead_of reading read owner).trans (if_pos rfl)
  have live : ∀ other, (world.cell? other).isSome → final.lasting owner other = true →
      (world.graph owner).contains other = true := by
    intro other known lasts
    have live := leads.live owner other (by rw [cells]; exact known) lasts
    rw [connected] at live
    exact (Graph.contains_connect _ read id other).symm.trans live
  unfold onRecord
  rw [connected]
  by_cases stays : final.lasting owner read = true
  · rw [Graph.dependenciesOf_connect _ (live read known' stays) (live id known lasts)]
    by_cases same : read = id
    · subst same
      simp [addAll]
    · simp [same, stays, addAll, filter_addLast]
  · rcases Graph.dependenciesOf_connect_cases (world.graph owner) read id id with same | added
    · simp [same, stays, addAll]
    · simp [added, stays, addAll, filter_addLast]

end

theorem Stays.planPass (world : World κ ν σ) (home : ReactorId) (sources : List NodeId) :
    Stays owner id world (world.planPass home sources).2 := by
  refine .of_cells rfl isAlive_mapGraph ?_
  have marked := marked_planPass world home sources owner id
  unfold Graph.kind?
  revert marked
  generalize (world.graph owner).node? id = old
  generalize ((world.planPass home sources).2.graph owner).node? id = new
  intro marked
  cases marked with
  | none => rfl
  | some holds => exact congrArg some (Node.kind_of_outline holds.1)

/-- Marking leaves on record what a node has read. -/
theorem onRecord_planPass (world : World κ ν σ) (home : ReactorId) (sources : List NodeId) :
    (world.planPass home sources).2.onRecord final owner id = world.onRecord final owner id := by
  unfold onRecord
  rw [Graph.dependenciesOf_of_marked (marked_planPass world home sources owner id)]

/-- A pass of its reactor comes to an effect that it takes off a source. -/
theorem heeded_planPass (atWork : world.AtWork owner id) (heeded : world.Heeded final owner id)
    (home : ReactorId) (sources : List NodeId) :
    (home = owner ∧ ∃ entry ∈ (world.planPass home sources).1, entry.wakeup.effect = id) ∨
      (world.planPass home sources).2.Heeded final owner id := by
  unfold Heeded
  rw [graph_planPass]
  by_cases here : owner = home
  · subst here
    rw [if_pos rfl]
    rcases Graph.Heeds.invalidateAll heeded atWork.kind sources with kept | met
    · exact Or.inr kept
    · obtain ⟨effect, found, _⟩ := atWork.running
      have met' : id ∈ ((world.graph owner).invalidateAll sources).1.flatMap fun reach =>
          reach.direct ++ reach.indirect := by
        obtain ⟨reach, member, direct⟩ := List.mem_flatMap.mp met
        exact List.mem_flatMap.mpr ⟨reach, member, List.mem_append_left _ direct⟩
      obtain ⟨entry, member, same, _⟩ := exists_visit found met'
      exact Or.inl ⟨rfl, entry, member, same⟩
  · rw [if_neg here]
    exact Or.inr heeded

/-- What the beginning of a pass does to the record of a node. -/
theorem upholds_enterPass (world final : World κ ν σ) (owner : ReactorId) (id : NodeId)
    (home : ReactorId) (sources : List NodeId) :
    ∃ planned : World κ ν σ, Stays owner id world planned ∧
      planned.onRecord final owner id = world.onRecord final owner id ∧
        (world.Familiar final owner id → planned.Familiar final owner id) ∧
          (world.AtWork owner id → world.Heeded final owner id →
            (home = owner ∧ ∃ entry ∈ world.passVisits home sources, entry.wakeup.effect = id) ∨
              planned.Heeded final owner id) ∧
            Attends final owner id planned (world.enterPass home sources) := by
  have told : Attends final owner id world (world.record (.passStarted home sources)) :=
    .record world _
  have recorded := (onRecord_planPass (world.record (.passStarted home sources)) home sources :
    World.onRecord _ final owner id = _)
  exact ⟨_, told.toStays.trans (.planPass _ home sources), recorded.trans told.onRecord,
    fun familiar => familiar.of_onRecord (fun _ known => known) (recorded.trans told.onRecord),
    fun atWork heeded => heeded_planPass (told.atWork atWork) heeded home sources,
    .foldl_hold _ _ _⟩

/-- What runs in a frame of another node tracks no read for this one, unless it belongs elsewhere. -/
theorem Upholds.framed {foreign : Prop} {frame : Frame}
    (upholds : Upholds final owner id
      (foreign ∨ True ∧ (world.modifyReactor home (·.pushFrame frame)).reader? owner = some id) False
        middle after)
    (here : foreign ∨ home = owner) (apart : frame ≠ .tracked id) :
    Upholds final owner id foreign False middle after := by
  refine upholds.calm fun own => here.resolve_right fun same => ?_
  rw [same] at own
  exact reader?_pushFrame_ne _ apart own.2

theorem Upholds.untracked {foreign : Prop}
    (ran : Upholds final owner id
      (foreign ∨ True ∧ (world.modifyReactor home (·.pushFrame .untracked)).reader? owner = some id)
        False (world.modifyReactor home (·.pushFrame .untracked)) after) :
    Upholds final owner id (foreign ∨ True ∧ world.reader? owner = some id) False world
      (after.modifyReactor home Reactor.popFrame) := by
  have pushed : Attends final owner id world (world.modifyReactor home (·.pushFrame .untracked)) :=
    .pushFrame world home .untracked
  refine (Upholds.onward pushed (ran.mono (Or.imp_right fun own => ⟨trivial, ?_⟩) False.elim)).then
    (.popFrame after home)
  by_cases here : owner = home
  · subst here
    exact absurd own.2 (reader?_pushFrame_ne world nofun)
  · rw [reader?_pushFrame, if_neg here] at own
    exact own.2

/-- A run of an effect, with its cleanup before it and what it leaves behind. -/
theorem Upholds.run {foreign : Prop} {effect : Effect κ} {inner last : World κ ν σ} (panicked : Bool)
    (away : other ≠ id) (here : foreign ∨ effect.reactor = owner) (engaged : world.Engaged id)
    (cleans : ((world.hold (.reactor effect.reactor)).engage other effect.reactor).Engaged id →
      Upholds final owner id foreign False
        ((world.hold (.reactor effect.reactor)).engage other effect.reactor) middle)
    (runs : (middle.enterBody other effect.reactor).Engaged id → Upholds final owner id
      (foreign ∨ True ∧ (middle.enterBody other effect.reactor).reader? owner = some id) False
        (middle.enterBody other effect.reactor) inner)
    (settles : ((inner.leaveBody other effect.reactor panicked).countRun other).Engaged id →
      Upholds final owner id foreign False
        ((inner.leaveBody other effect.reactor panicked).countRun other) last)
    (ends : (last.endRun other).Engaged id →
      Upholds final owner id foreign False (last.endRun other) after) :
    Upholds final owner id foreign False world after := by
  have held : Attends final owner id world (world.hold (.reactor effect.reactor)) := .hold world _
  have begun := held.trans (Attends.engage (world.hold (.reactor effect.reactor)) away effect.reactor)
  have entered := (Upholds.onward begun (cleans (begun.engaged engaged))).then
    (.enterBody middle other effect.reactor)
  have body := entered.trans ((runs (entered.stays.engaged engaged)).framed here fun same =>
    away (Frame.tracked.inj same))
  have left := (body.then (.leaveBody inner other effect.reactor panicked)).then (.countRun _ other)
  have done := (left.trans (settles (left.stays.engaged engaged))).then (.endRun last away)
  exact done.trans (ends (done.stays.engaged engaged))

/-- A visit that is skipped is not owed to an effect that runs. -/
theorem Upholds.skip {entry : Visit}
    (unready : ∀ effect, world.effect? entry.wakeup.effect = some effect → effect.active = true →
      effect.executing = false ∧ effect.runs ≠ entry.runs) :
    Upholds final owner id tracks (home = owner ∧ entry.wakeup.effect = id) world world := by
  refine ⟨.refl world, fun _ => rfl, fun familiar => familiar, fun atWork _ due => ?_⟩
  refine due.resolve_left fun owed => ?_
  obtain ⟨effect, found, executing, active⟩ := atWork.running
  have idle := (unready effect (effect?_eq_some_iff.mpr (owed.2 ▸ found)) active).1
  exact Bool.false_ne_true (idle.symm.trans executing)

/-- A visit puts an effect that runs back where it has read. -/
theorem Upholds.again {entry : Visit}
    (leads : (world.mapGraph home (·.resubscribe entry.wakeup.effect)).Precedes final) :
    Upholds final owner id tracks (home = owner ∧ entry.wakeup.effect = id) world
      (world.mapGraph home (·.resubscribe entry.wakeup.effect)) := by
  have back : Attends final owner id world
      (world.mapGraph home (·.resubscribe entry.wakeup.effect)) := .resubscribe world home _
  refine ⟨back.toStays, fun _ => back.onRecord, fun familiar => familiar.of_onRecord back.known
    back.onRecord, fun atWork familiar due => ?_⟩
  rcases due with ⟨rfl, rfl⟩ | heeded
  · unfold Heeded
    rw [graph_mapGraph world home rfl, if_pos rfl]
    refine Graph.heeds_resubscribe _ fun read member stays => ?_
    have live := leads.live home read (back.known read (familiar read member stays)) stays
    rw [graph_mapGraph world home rfl, if_pos rfl] at live
    exact (Graph.contains_resubscribe _ _ read).symm.trans live
  · exact back.heeded familiar heeded

/-- The visits of a pass: what the first one owes is paid by it, the rest by the others. -/
theorem Upholds.next {entry : Visit} {rest : List Visit}
    (first : Upholds final owner id tracks (home = owner ∧ entry.wakeup.effect = id) world middle)
    (others : Upholds final owner id tracks
      (home = owner ∧ ∃ entry ∈ rest, entry.wakeup.effect = id) middle after) :
    Upholds final owner id tracks
      (home = owner ∧ ∃ entry' ∈ entry :: rest, entry'.wakeup.effect = id) world after := by
  refine ⟨first.stays.trans others.stays, fun untracked =>
    (others.onRecord untracked).trans (first.onRecord untracked),
    fun familiar => others.familiar (first.familiar familiar), fun atWork familiar due => ?_⟩
  refine others.heeded (first.stays.atWork atWork) (first.familiar familiar) ?_
  rcases due with ⟨here, entry', member, same⟩ | heeded
  · rcases List.mem_cons.mp member with rfl | later
    · exact Or.inr (first.heeded atWork familiar (Or.inl ⟨here, same⟩))
    · exact Or.inl ⟨here, entry', later, same⟩
  · exact Or.inr (first.heeded atWork familiar (Or.inr heeded))

/-- A pass owes a visit to an effect that it takes off a source, and pays it. -/
theorem Upholds.pass {sources : List NodeId}
    (visits : (world.enterPass home sources).Engaged id → Upholds final owner id tracks
      (home = owner ∧ ∃ entry ∈ world.passVisits home sources, entry.wakeup.effect = id)
        (world.enterPass home sources) after) (engaged : world.Engaged id) :
    Upholds final owner id tracks False world (after.record (.passEnded home)) := by
  obtain ⟨planned, stays, recorded, familiar, owes, enters⟩ :=
    upholds_enterPass world final owner id home sources
  have begun := stays.trans enters.toStays
  have made := (visits (begun.engaged engaged)).then (.record after (.passEnded home))
  refine ⟨begun.trans made.stays, fun untracked => (made.onRecord untracked).trans
    (enters.onRecord.trans recorded), fun known => ?_, fun atWork known due => ?_⟩
  · exact made.familiar ((familiar known).of_onRecord enters.known enters.onRecord)
  · have known' := (familiar known).of_onRecord enters.known enters.onRecord
    refine made.heeded (begun.atWork atWork) known' ?_
    exact (owes atWork (due.resolve_left not_false)).imp_right (enters.heeded (familiar known))

end World

/-- A visit of an effect is still to be made by a pass of its reactor. -/
def Phase.Owes (owner : ReactorId) (id : NodeId) : Phase → Prop
  | .visiting home entry => home = owner ∧ entry.wakeup.effect = id
  | .passing home visits => home = owner ∧ ∃ entry ∈ visits, entry.wakeup.effect = id
  | _ => False

/-- A closure runs, or the program outside all closures. -/
def Phase.Acts : Phase → Prop
  | .flat .acting => True
  | _ => False

open World in
/-- A run leaves the record of a node alone whose closure runs, but for the reads in its own frame, and
those that closures of other reactors make meanwhile. -/
theorem Trail.upholds_resident [BEq ν] {program : Program κ ν σ} {phase : Phase}
    {world after final : World κ ν σ} {owner : ReactorId} {id : NodeId}
    (trail : Trail program phase world after) (leads : after.Precedes final)
    (resides : ∀ cell, final.cell? id = some cell → cell.reactor = owner)
    (lasts : final.lasting owner id = true) (engaged : world.Engaged id) :
    Upholds final owner id (¬ final.Within owner ∨ phase.Acts ∧ world.reader? owner = some id)
      (phase.Owes owner id) world after := by
  have apart : ∀ {world : World κ ν σ} {other : NodeId} {cell : Cell κ ν}, world.Engaged id →
      world.cell? other = some cell → cell.isEngaged = false → other ≠ id := by
    rintro world other cell ⟨_, found, busy⟩ found' idle rfl
    cases found.symm.trans found'
    exact Bool.false_ne_true (idle.symm.trans busy)
  induction trail with
  | refl => exact (Attends.refl _).upholds not_false
  | trans start finish ih ih' =>
    have begun := ih (finish.leads.precedes.trans leads) engaged
    refine begun.trans ((ih' leads (begun.stays.engaged engaged)).mono (Or.imp_right fun own => ?_)
      False.elim)
    exact ⟨own.1, (reader?_congr (start.opened owner)).symm.trans own.2⟩
  | serve serving ih => exact ((ih leads engaged).calm fun own => own.1.elim).mono Or.inl False.elim
  | change change =>
    obtain ⟨cell, found, _⟩ := engaged
    have here := (change.leads.precedes.trans leads).resident resides found
    exact (change.attends leads lasts found here).upholds not_false
  | @read world other cell found readable =>
    by_cases here : cell.reactor = owner
    · rw [here]
      by_cases reading : world.reader? owner = some id
      · exact (Upholds.ownRead reading (by rw [found]; rfl)).mono
          (fun _ => Or.inr ⟨trivial, reading⟩) False.elim
      · exact (Attends.noteRead world other reading).upholds not_false
    · exact (Attends.noteRead_of_ne world here other).upholds not_false
  | @untracked world inner other inside ih =>
    have pushed : Attends final owner id world (world.modifyReactor other (·.pushFrame .untracked)) :=
      .pushFrame world other .untracked
    exact (ih ((inner.leads_popFrame other).precedes.trans leads) (pushed.engaged engaged)).untracked
  | @cleanup world other effect inner found inside ih =>
    have here := ((Trail.cleanup found inside).leads.precedes.trans leads).belongs_or owner
      (effect?_eq_some_iff.mp found)
    have pushed : Attends final owner id world
        (world.modifyReactor effect.reactor (·.pushFrame .untracked)) :=
      .pushFrame world effect.reactor .untracked
    have ran := ih ((inner.leads_popFrame effect.reactor).precedes.trans leads) (pushed.engaged engaged)
    exact ((Upholds.onward pushed (ran.framed here nofun)).then (.popFrame inner effect.reactor)).mono
      Or.inl False.elim
  | @batch world inner other inside _ ih =>
    have opened : Attends final owner id world (world.modifyReactor other Reactor.openBatch) :=
      .openBatch world other
    have ran := ih ((inner.leads_closeBatch other).precedes.trans leads) (opened.engaged engaged)
    rw [reader?_openBatch] at ran
    exact (Upholds.onward opened ran).then (.closeBatch inner other)
  | @flush world inner after other inside _ pass ih ih' =>
    have opened : Attends final owner id world (world.modifyReactor other Reactor.openBatch) :=
      .openBatch world other
    have ran := ih (((inner.leads_closeBatch other).trans pass.leads).precedes.trans leads)
      (opened.engaged engaged)
    rw [reader?_openBatch] at ran
    have closed := (Upholds.onward opened ran).then (.closeBatch inner other)
    have told := (ih' leads (closed.stays.engaged engaged)).calm fun own => own.1.elim
    exact closed.trans (told.mono Or.inl False.elim)
  | @store world other signal value after _ _ _ pass ih =>
    have put : Attends final owner id world (world.put signal.reactor other value) :=
      .put world _ other value
    have told := (ih leads (put.engaged engaged)).calm fun own => own.1.elim
    exact (Upholds.onward put told).mono Or.inl False.elim
  | refresh _ _ ih => exact ((ih leads engaged).calm fun own => own.1.elim).mono Or.inl False.elim
  | @execute world other after run ih =>
    have told : Attends final owner id world (world.record (.executed other)) := .record world _
    have ran := (ih leads (told.engaged engaged)).calm fun own => own.1.elim
    exact (Upholds.onward told ran).mono Or.inl False.elim
  | @born world after other body run ih =>
    have made : Attends final owner id world
        (world.addCell (.effect ⟨other, body, false, none, true, false, 0, 2⟩) .effect).2 := by
      obtain ⟨cell, found, _⟩ := engaged
      exact .addCell world (.effect ⟨other, body, false, none, true, false, 0, 2⟩) found
    have ran := (ih leads (made.engaged engaged)).calm fun own => own.1.elim
    exact (Upholds.onward made ran).mono Or.inl False.elim
  | @confirm world other computed =>
    have marked : Attends final owner id world
        (world.mapGraph computed.reactor (·.modify other Node.markClean)) :=
      .modifyNode world _ other fun _ => ⟨rfl, rfl, rfl, rfl⟩
    exact marked.upholds not_false
  | @evaluate world other computed present inner found same idle inside result ih =>
    have away := apart engaged (computed?_eq_some_iff.mp found) idle
    have entered := (world.leads_enter other computed.reactor).trans inside.leads
    obtain ⟨present', found', _⟩ := entered.computed found
    have ended := (inner.leads_afterEvaluation found' computed result).precedes.trans leads
    have here : ¬ final.Within owner ∨ computed.reactor = owner :=
      ((entered.precedes.trans ended).belongs_or owner (computed?_eq_some_iff.mp found)).imp_right
        same.symm.trans
    have begun : Attends final owner id world (world.enter other computed.reactor) :=
      .enter world away computed.reactor
    have ran := (ih ended (begun.engaged engaged)).framed here fun same => away (Frame.tracked.inj same)
    exact ((Upholds.onward begun ran).then (.afterEvaluation inner away computed result)).mono
      Or.inl False.elim
  | decline => exact (Attends.refl _).upholds not_false
  | @run world other effect middle inner last after panicked found active idle alive cleaned inside
      settled released cleans runs settles ends =>
    have late := ((last.leads_endRun other).trans released.leads).precedes.trans leads
    have ended := (((inner.leads_leaveBody other effect.reactor panicked).trans
      (World.leads_countRun _ other)).trans settled.leads).precedes.trans late
    have ran := ((middle.leads_enterBody other effect.reactor).trans inside.leads).precedes.trans ended
    have here : ¬ final.Within owner ∨ effect.reactor = owner := by
      have before := (((Change.hold (.reactor effect.reactor)).leads.trans
        (leads_engage _ other effect.reactor)).trans cleaned.leads).precedes.trans ran
      exact before.belongs_or owner (effect?_eq_some_iff.mp found)
    exact (Upholds.run panicked (apart engaged (effect?_eq_some_iff.mp found) idle) here engaged
      (fun engaged => (cleans ran engaged).calm fun own => own.1.elim) (runs ended)
      (fun engaged => (settles late engaged).calm fun own => own.1.elim)
      (fun engaged => (ends leads engaged).calm fun own => own.1.elim)).mono Or.inl False.elim
  | skip unready => exact .skip unready
  | again => exact .again leads
  | spare found _ idle asked ih =>
    have away := apart engaged (effect?_eq_some_iff.mp found) idle
    have unowed := (ih leads engaged).calm fun own => own.1.elim
    exact unowed.mono Or.inl fun owed => absurd owed.2 away
  | @wake world other entry effect middle after found _ idle asked run ih ih' =>
    have away := apart engaged (effect?_eq_some_iff.mp found) idle
    have pushed : Attends final owner id middle
        (middle.modifyReactor other (·.pushChain entry.wakeup.causes)) :=
      .modifyReactor middle other fun _ => ⟨rfl, fun living => living⟩
    have back : after.Precedes (after.modifyReactor other Reactor.popChain) :=
      .modifyReactor after other fun _ => rfl
    have on : middle.Precedes (middle.modifyReactor other (·.pushChain entry.wakeup.causes)) :=
      .modifyReactor middle other fun _ => rfl
    have popped : after.Precedes final := back.trans leads
    have woken : middle.Precedes final := on.trans (run.leads.precedes.trans popped)
    have begun := ((ih woken engaged).calm fun own => own.1.elim).then pushed
    have ran := begun.trans ((ih' popped (begun.stays.engaged engaged)).calm fun own => own.1.elim)
    have ended : Upholds final owner id (¬ final.Within owner) False world
        (after.modifyReactor other Reactor.popChain) :=
      ran.then (.modifyReactor after other fun _ => ⟨rfl, fun living => living⟩)
    exact ended.mono Or.inl fun owed => absurd owed.2 away
  | done => exact (Attends.refl _).upholds fun owed => nomatch owed.2.choose_spec.1
  | next _ drop others ih ih' ih'' =>
    have dropped := others.leads.precedes.trans leads
    have visits := (ih (drop.leads.precedes.trans dropped) engaged).calm fun own => own.1.elim
    have made := visits.trans ((ih' dropped (visits.stays.engaged engaged)).calm fun own => own.1.elim)
    have rests := (ih'' leads (made.stays.engaged engaged)).calm fun own => own.1.elim
    exact (made.next rests).mono Or.inl fun owed => owed
  | @pass world other sources after visits ih =>
    have ends : after.Precedes final :=
      (Leads.record after (.passEnded other) not_false).precedes.trans leads
    exact (Upholds.pass (fun engaged => (ih ends engaged).calm fun own => own.1.elim) engaged).mono
      Or.inl False.elim

open World in
/-- Among the closures of one reactor, a run leaves the record of a node alone whose closure runs, but
for the reads in its own frame. -/
theorem Trail.upholds [BEq ν] {program : Program κ ν σ} {phase : Phase}
    {world after final : World κ ν σ} {owner : ReactorId} {id : NodeId}
    (trail : Trail program phase world after) (leads : after.Precedes final)
    (single : final.Within owner) (lasts : final.lasting owner id = true)
    (engaged : world.Engaged id) :
    Upholds final owner id (phase.Acts ∧ world.reader? owner = some id) (phase.Owes owner id)
      world after :=
  (trail.upholds_resident leads (single id) lasts engaged).mono
    (·.resolve_left (Classical.not_not.mpr single)) fun owed => owed

end ReactiveTree
