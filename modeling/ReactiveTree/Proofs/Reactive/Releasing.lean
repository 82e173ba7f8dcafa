import ReactiveTree.Proofs.Reactive.Accounts
import ReactiveTree.Proofs.Reactive.Closing
import ReactiveTree.Proofs.Reactive.Upholding

/-! # What is taken up is laid down

However a run ends, every reactor has open what it had open at the start, and the closures that are
marked as running are the same. In between the bodies of each node take turns: none begins before the
last one has ended. A frame is taken off only where it is on top.
-/

namespace ReactiveTree

variable {κ ν σ : Type}

/-- The body of a node begins or ends. -/
inductive Turn where
  | start
  | finish
  deriving DecidableEq, Repr

/-- The turn that an event tells of. -/
def Event.turn? (id : NodeId) : Event κ ν → Option Turn
  | .started other => if other = id then some .start else none
  | .ended other _ => if other = id then some .finish else none
  | _ => none

/-- The turns of a node, the latest first. -/
def turnsOf (id : NodeId) (events : List (Event κ ν)) : List Turn :=
  events.filterMap (Event.turn? id)

/-- So many bodies one after the other, the latest turn first. -/
def rounds (count : Nat) : List Turn :=
  (List.replicate count [Turn.finish, Turn.start]).flatten

theorem rounds_add (first second : Nat) : rounds (first + second) = rounds first ++ rounds second := by
  unfold rounds
  rw [List.replicate_add, List.flatten_append]

section

variable {id : NodeId}

@[simp] theorem turnsOf_nil : turnsOf id ([] : List (Event κ ν)) = [] :=
  rfl

@[simp] theorem turnsOf_append (later earlier : List (Event κ ν)) :
    turnsOf id (later ++ earlier) = turnsOf id later ++ turnsOf id earlier :=
  List.filterMap_append

@[simp] theorem turnsOf_started (other : NodeId) :
    turnsOf id [(.started other : Event κ ν)] = if other = id then [.start] else [] := by
  unfold turnsOf Event.turn?
  split <;> simp_all

@[simp] theorem turnsOf_ended (other : NodeId) (panicked : Bool) :
    turnsOf id [(.ended other panicked : Event κ ν)] = if other = id then [.finish] else [] := by
  unfold turnsOf Event.turn?
  split <;> simp_all

/-- Remarks tell of no turn. -/
theorem turnsOf_eq_nil {events : List (Event κ ν)} (remarks : ∀ event ∈ events, Event.IsRemark event) :
    turnsOf id events = [] := by
  refine List.filterMap_eq_nil_iff.mpr fun event member => ?_
  have remark := remarks event member
  cases event with
  | started => exact remark.elim
  | ended => exact remark.elim
  | _ => rfl

end

namespace World

variable {world middle after : World κ ν σ} {id : NodeId} {owner : ReactorId}

/-- Whether the closure of a node is marked as running. -/
def isEngaged (world : World κ ν σ) (id : NodeId) : Bool :=
  (world.cell? id).any Cell.isEngaged

theorem engaged_iff : world.Engaged id ↔ world.isEngaged id = true := by
  unfold isEngaged
  rw [Option.any_eq_true_iff_get]
  constructor
  · rintro ⟨cell, found, busy⟩
    exact ⟨by rw [found]; rfl, by simpa [found] using busy⟩
  · rintro ⟨known, busy⟩
    exact ⟨_, (Option.some_get known).symm, busy⟩

theorem isEngaged_isSome (engaged : world.isEngaged id = true) : (world.cell? id).isSome := by
  obtain ⟨cell, found, _⟩ := engaged_iff.mpr engaged
  rw [found]
  rfl

/-- A node whose closure runs is not one whose closure does not. -/
theorem ne_of_idle (engaged : world.isEngaged id = true) {other : NodeId} {cell : Cell κ ν}
    (found : world.cell? other = some cell) (idle : cell.isEngaged = false) : id ≠ other := by
  rintro rfl
  obtain ⟨_, found', busy⟩ := engaged_iff.mpr engaged
  cases found.symm.trans found'
  exact Bool.false_ne_true (idle.symm.trans busy)

theorem isEngaged_modifyCell (engaged : world.isEngaged id = true) {other : NodeId}
    (apart : id ≠ other) (change : Cell κ ν → Cell κ ν) :
    (world.modifyCell other change).isEngaged id = true := by
  unfold isEngaged at *
  rwa [cell?_modifyCell, if_neg apart]

/-- The marks of what is running are as before, and in between the bodies of each node have taken
turns. No body has begun of a node that was running all the time. -/
structure TakesTurns (world after : World κ ν σ) : Prop where
  engaged : ∀ id, after.isEngaged id = world.isEngaged id
  turns : ∃ events, after.past = events ++ world.past ∧ ∀ id, ∃ count,
    turnsOf id events = rounds count ∧ (world.isEngaged id = true → count = 0)

theorem TakesTurns.silently {events : List (Event κ ν)}
    (engaged : ∀ id, after.isEngaged id = world.isEngaged id)
    (past : after.past = events ++ world.past) (silent : ∀ id, turnsOf id events = []) : world.TakesTurns after :=
  ⟨engaged, events, past, fun id => ⟨0, silent id, fun _ => rfl⟩⟩

theorem TakesTurns.refl (world : World κ ν σ) : world.TakesTurns world :=
  .silently (fun _ => rfl) rfl fun _ => turnsOf_nil

theorem TakesTurns.trans (start : world.TakesTurns middle) (finish : middle.TakesTurns after) :
    world.TakesTurns after := by
  obtain ⟨events, past, turns⟩ := start.turns
  obtain ⟨later, past', turns'⟩ := finish.turns
  refine ⟨fun id => (finish.engaged id).trans (start.engaged id), later ++ events, ?_, fun id => ?_⟩
  · rw [past', past, List.append_assoc]
  · obtain ⟨count, turn, none⟩ := turns id
    obtain ⟨count', turn', none'⟩ := turns' id
    refine ⟨count' + count, ?_, fun busy => ?_⟩
    · rw [turnsOf_append, turn, turn', rounds_add]
    · rw [none busy, none' ((start.engaged id).trans busy)]

/-- A step that leaves cells alone. -/
theorem TakesTurns.of_cells {events : List (Event κ ν)} (cells : after.cells = world.cells)
    (past : after.past = events ++ world.past) (silent : ∀ id, turnsOf id events = []) :
    world.TakesTurns after := by
  refine .silently (fun id => ?_) past silent
  unfold isEngaged cell?
  rw [cells]

theorem TakesTurns.modifyReactor (world : World κ ν σ) (home : ReactorId)
    (change : Reactor → Reactor) : world.TakesTurns (world.modifyReactor home change) :=
  .of_cells rfl (List.nil_append _).symm fun _ => turnsOf_nil

theorem TakesTurns.mapGraph (world : World κ ν σ) (home : ReactorId) (change : Graph → Graph) :
    world.TakesTurns (world.mapGraph home change) :=
  .modifyReactor world home _

theorem TakesTurns.record (world : World κ ν σ) {event : Event κ ν}
    (silent : ∀ id, event.turn? id = none) : world.TakesTurns (world.record event) :=
  .of_cells rfl (List.singleton_append).symm fun id => List.filterMap_cons_none (silent id)

theorem TakesTurns.modifyCell (world : World κ ν σ) (other : NodeId) {change : Cell κ ν → Cell κ ν}
    (kept : ∀ cell, (change cell).isEngaged = cell.isEngaged) :
    world.TakesTurns (world.modifyCell other change) := by
  refine .silently (fun id => ?_) (List.nil_append _).symm fun _ => turnsOf_nil
  unfold isEngaged
  rw [cell?_modifyCell]
  split
  next same =>
    subst same
    cases world.cell? id with
    | none => rfl
    | some cell => exact kept cell
  next => rfl

theorem TakesTurns.modifySignal (world : World κ ν σ) (other : NodeId)
    (change : Signal ν → Signal ν) : world.TakesTurns (world.modifySignal other change) :=
  .modifyCell world other fun cell => by cases cell <;> rfl

theorem TakesTurns.modifyComputed (world : World κ ν σ) (other : NodeId)
    {change : Computed κ ν → Computed κ ν}
    (kept : ∀ state, (change state).computing = state.computing) :
    world.TakesTurns (world.modifyComputed other change) := by
  refine .modifyCell world other fun cell => ?_
  cases cell with
  | computed state => exact kept state
  | _ => rfl

theorem TakesTurns.modifyEffect (world : World κ ν σ) (other : NodeId) {change : Effect κ → Effect κ}
    (kept : ∀ state, (change state).executing = state.executing) :
    world.TakesTurns (world.modifyEffect other change) := by
  refine .modifyCell world other fun cell => ?_
  cases cell with
  | effect state => exact kept state
  | _ => rfl

theorem TakesTurns.countRun (world : World κ ν σ) (other : NodeId) :
    world.TakesTurns (world.countRun other) :=
  .modifyEffect world other fun _ => rfl

theorem TakesTurns.hold (world : World κ ν σ) (handle : Handle) :
    world.TakesTurns (world.hold handle) := by
  cases handle with
  | reactor home => exact .modifyReactor world home _
  | node other => exact .modifyCell world other fun cell => cell.isEngaged_withHolders _

theorem TakesTurns.foldl_hold {α : Type} (members : List α) (handle : α → Handle)
    (world : World κ ν σ) : world.TakesTurns
      (members.foldl (fun world member => world.hold (handle member)) world) := by
  induction members generalizing world with
  | nil => exact .refl world
  | cons member rest ih => exact (TakesTurns.hold world (handle member)).trans (ih _)

theorem TakesTurns.lose (world : World κ ν σ) (handle : Handle) :
    world.TakesTurns (world.lose handle) := by
  cases handle with
  | reactor home => exact .modifyReactor world home _
  | node other => exact .modifyCell world other fun cell => cell.isEngaged_withHolders _

theorem TakesTurns.unregister (world : World κ ν σ) (other : NodeId) :
    world.TakesTurns (world.unregister other).2 := by
  unfold World.unregister
  split
  next => exact .refl world
  next => exact .modifyReactor world _ _

theorem TakesTurns.perish (world : World κ ν σ) (handle : Handle) :
    world.TakesTurns (world.perish handle).2 := by
  cases handle with
  | reactor home =>
    exact (TakesTurns.mapGraph world home fun _ => .empty).trans (.record _ fun _ => rfl)
  | node other =>
    unfold World.perish
    dsimp only
    split
    next => exact .refl world
    next => exact .unregister world other
    next => exact .refl world

theorem TakesTurns.shed (world : World κ ν σ) (handle : Handle) :
    world.TakesTurns (world.shed handle) := by
  unfold World.shed
  split
  next => exact (TakesTurns.lose world handle).trans (.perish _ handle)
  next => exact .lose world handle

theorem TakesTurns.put (world : World κ ν σ) (home : ReactorId) (other : NodeId) (value : ν) :
    world.TakesTurns (world.put home other value) :=
  ((TakesTurns.modifySignal world other _).trans (.mapGraph _ home _)).trans (.record _ fun _ => rfl)

theorem TakesTurns.noteRead (world : World κ ν σ) (home : ReactorId) (read : NodeId) :
    world.TakesTurns (world.noteRead home read) := by
  unfold World.noteRead
  split
  next => exact (TakesTurns.mapGraph world home _).trans (.record _ fun _ => rfl)
  next => exact .record world fun _ => rfl

theorem TakesTurns.noteWrite (world : World κ ν σ) (home : ReactorId) (source : NodeId) :
    world.TakesTurns (world.noteWrite home source) := by
  unfold World.noteWrite
  split
  next => exact (TakesTurns.mapGraph world home _).trans (.record _ fun _ => rfl)
  next => exact .record world fun _ => rfl

/-- A new cell that is not running. -/
theorem TakesTurns.addCell (world : World κ ν σ) {cell : Cell κ ν} (idle : cell.isEngaged = false)
    (kind : NodeKind) : world.TakesTurns (world.addCell cell kind).2 := by
  refine .silently (fun id => ?_) (List.nil_append _).symm fun _ => turnsOf_nil
  unfold isEngaged
  rw [cell?_addCell]
  split
  next same =>
    rw [same, cell?_nextId]
    exact idle
  next => rfl

theorem TakesTurns.closeBatch (world : World κ ν σ) (home : ReactorId) :
    world.TakesTurns (world.closeBatch home).2 := by
  rw [closeBatch_snd]
  exact .modifyReactor world home _

theorem TakesTurns.enterPass (world : World κ ν σ) (home : ReactorId) (sources : List NodeId) :
    world.TakesTurns (world.enterPass home sources) :=
  ((TakesTurns.record world fun _ => rfl).trans (.mapGraph _ home _)).trans (.foldl_hold _ _ _)

theorem Change.takesTurns (change : world.Change after) : world.TakesTurns after := by
  cases change with
  | aside events remarks past cells _ =>
    exact .of_cells cells past fun _ => turnsOf_eq_nil remarks
  | hold handle => exact .hold world handle
  | shed handle => exact .shed world handle
  | @stop id =>
    have stopped : world.TakesTurns (world.modifyEffect id ({ · with active := false })) :=
      .modifyEffect world id fun _ => rfl
    exact (stopped.trans (.hold _ _)).trans (.unregister _ _)
  | abandon => exact .modifyEffect world _ fun _ => rfl
  | destroy => exact (TakesTurns.modifySignal world _ _).trans (.unregister _ _)
  | defer => exact (TakesTurns.put world _ _ _).trans (.modifyReactor _ _ _)
  | putLost => exact .put world _ _ _
  | noteWrite => exact .noteWrite world _ _
  | addReactor => exact .of_cells rfl (List.nil_append _).symm fun _ => turnsOf_nil
  | addHolding cell new =>
    refine (TakesTurns.hold world _).trans (.addCell _ ?_ _)
    cases cell with
    | signal => rfl
    | computed => exact new.2.1
    | effect => rcases new
  | addEffect => exact .addCell world rfl _
  | label => exact .mapGraph world _ _
  | tweak other kept => exact .modifyEffect world other fun effect => (kept effect).2.2.1

/-- The mark of one node is set or taken away. -/
structure Marks (id : NodeId) (flag : Bool) (world after : World κ ν σ) : Prop where
  engaged : ∀ other, after.isEngaged other = if other = id then flag else world.isEngaged other
  past : after.past = world.past

theorem Marks.modifyCell {flag : Bool} {cell : Cell κ ν} (found : world.cell? id = some cell)
    {change : Cell κ ν → Cell κ ν} (marks : (change cell).isEngaged = flag) :
    Marks id flag world (world.modifyCell id change) := by
  refine ⟨fun other => ?_, rfl⟩
  unfold isEngaged
  rw [cell?_modifyCell, apply_ite (Option.any Cell.isEngaged), found]
  exact if_congr Iff.rfl marks rfl

/-- A node that was not running has its mark set, its body runs, and the mark is taken away. -/
theorem TakesTurns.round {begun ready inner settled : World κ ν σ} {panicked : Bool}
    (idle : world.isEngaged id = false) (begin : Marks id true world begun)
    (cleaned : begun.TakesTurns ready) (inside : (ready.enterBody id owner).TakesTurns inner)
    (left : (inner.leaveBody id owner panicked).TakesTurns settled)
    (finish : Marks id false settled after) : world.TakesTurns after := by
  have started : ∀ other, (ready.enterBody id owner).isEngaged other = ready.isEngaged other :=
    fun _ => rfl
  have ended : ∀ other, (inner.leaveBody id owner panicked).isEngaged other = inner.isEngaged other :=
    fun _ => rfl
  have flags : ∀ other, settled.isEngaged other = begun.isEngaged other := fun other => by
    rw [left.engaged, ended, inside.engaged, started, cleaned.engaged]
  obtain ⟨before, past, turns⟩ := cleaned.turns
  obtain ⟨during, past', turns'⟩ := inside.turns
  obtain ⟨behind, past'', turns''⟩ := left.turns
  refine ⟨fun other => ?_,
    behind ++ ([.ended id panicked] ++ (during ++ ([.started id] ++ before))), ?_, fun other => ?_⟩
  · rw [finish.engaged, flags, begin.engaged]
    split
    next same => rw [same, idle]
    next => rfl
  · have entered : (ready.enterBody id owner).past = .started id :: ready.past := rfl
    have closed : (inner.leaveBody id owner panicked).past = .ended id panicked :: inner.past := rfl
    rw [finish.past, past'', closed, past', entered, past, begin.past]
    simp only [List.append_assoc, List.cons_append, List.nil_append]
  · obtain ⟨count, turn, none⟩ := turns other
    obtain ⟨count', turn', none'⟩ := turns' other
    obtain ⟨count'', turn'', none''⟩ := turns'' other
    rw [started, cleaned.engaged] at none'
    rw [ended, inside.engaged, started, cleaned.engaged] at none''
    simp only [turnsOf_append, turnsOf_started, turnsOf_ended, turn, turn', turn'']
    by_cases same : other = id
    · -- While the mark is set, only the body in the middle begins and ends.
      subst same
      have busy : begun.isEngaged other = true := (begin.engaged other).trans (if_pos rfl)
      rw [none busy, none' busy, none'' busy, if_pos rfl, if_pos rfl]
      exact ⟨1, rfl, fun running => absurd (idle.symm.trans running) Bool.false_ne_true⟩
    · have kept : begun.isEngaged other = world.isEngaged other :=
        (begin.engaged other).trans (if_neg same)
      rw [if_neg (Ne.symm same), if_neg (Ne.symm same), List.nil_append, List.nil_append, ← rounds_add,
        ← rounds_add]
      refine ⟨count'' + (count' + count), rfl, fun running => ?_⟩
      rw [kept] at none none' none''
      rw [none running, none' running, none'' running]

theorem TakesTurns.settleValue [BEq ν] (world : World κ ν σ) (id : NodeId) (computed : Computed κ ν)
    (value : ν) : world.TakesTurns (world.settleValue id computed value) := by
  unfold World.settleValue
  extract_lets same
  split
  next => exact .mapGraph world _ _
  next =>
    have kept : world.TakesTurns (world.modifyComputed id ({ · with value := some value })) :=
      .modifyComputed world id fun _ => rfl
    exact (kept.trans (.mapGraph _ _ _)).trans (.record _ fun _ => rfl)

/-- An evaluation of a computed that was not being evaluated. -/
theorem TakesTurns.evaluation [BEq ν] {inner : World κ ν σ} {computed present : Computed κ ν}
    (found : world.computed? id = some present) (idle : present.computing = false)
    (leads : (world.enter id computed.reactor).Leads inner)
    (inside : (world.enter id computed.reactor).TakesTurns inner) (result : Except Panic ν) :
    world.TakesTurns (inner.afterEvaluation id computed result).2 := by
  rw [computed?_eq_some_iff] at found
  have idle' : world.isEngaged id = false := by
    unfold isEngaged
    rw [found]
    exact idle
  have begin : Marks id true world (world.modifyComputed id ({ · with computing := true })) :=
    .modifyCell found rfl
  have left : ∀ panicked, world.TakesTurns (inner.leave id computed.reactor panicked) := by
    intro panicked
    obtain ⟨present', found', _⟩ := ((leads_enter world id computed.reactor).trans leads).computed
      (computed?_eq_some_iff.mpr found)
    have known : (inner.leaveBody id computed.reactor panicked).cell? id = some (.computed present') :=
      computed?_eq_some_iff.mp found'
    have finish : Marks id false (inner.leaveBody id computed.reactor panicked)
        (inner.leave id computed.reactor panicked) := .modifyCell known rfl
    exact .round idle' begin (.mapGraph _ computed.reactor _) inside (.refl _) finish
  cases result with
  | error panic => exact (left true).trans (.mapGraph _ _ _)
  | ok value => exact (left false).trans (.settleValue _ id computed value)

end World

open World in
/-- On a trail bodies take turns. -/
theorem Trail.takesTurns [BEq ν] {program : Program κ ν σ} {phase : Phase}
    {world after : World κ ν σ} (trail : Trail program phase world after) :
    world.TakesTurns after := by
  induction trail with
  | refl => exact .refl _
  | trans _ _ start finish => exact start.trans finish
  | serve _ serving => exact serving
  | change change => exact change.takesTurns
  | read => exact .noteRead _ _ _
  | untracked owner _ inside =>
    exact ((TakesTurns.modifyReactor _ owner _).trans inside).trans (.modifyReactor _ owner _)
  | cleanup _ _ inside =>
    exact ((TakesTurns.modifyReactor _ _ _).trans inside).trans (.modifyReactor _ _ _)
  | batch owner _ _ inside =>
    exact ((TakesTurns.modifyReactor _ owner _).trans inside).trans (.closeBatch _ owner)
  | flush owner _ _ _ inside pass =>
    exact (((TakesTurns.modifyReactor _ owner _).trans inside).trans (.closeBatch _ owner)).trans pass
  | store _ _ _ _ pass => exact (TakesTurns.put _ _ _ _).trans pass
  | refresh _ _ inside => exact inside
  | @execute world id _ _ run =>
    have told : world.Change (world.record (.executed id)) := .record world trivial
    exact told.takesTurns.trans run
  | born owner body _ run =>
    exact (Change.addEffect owner body).takesTurns.trans run
  | confirm => exact .mapGraph _ _ _
  | evaluate found _ idle trail result inside =>
    exact .evaluation found idle trail.leads inside result
  | decline => exact .refl _
  | @run world id effect _ _ last _ panicked found _ idle _ cleaning running settling _ cleaned inside
      settled released =>
    have known : (world.hold (.reactor effect.reactor)).cell? id = some (.effect effect) :=
      effect?_eq_some_iff.mp found
    have idle' : (world.hold (.reactor effect.reactor)).isEngaged id = false := by
      unfold isEngaged
      rw [known]
      exact idle
    -- The effect is still there when its mark is taken away.
    have begun := (leads_engage _ id effect.reactor).trans cleaning.leads
    have through := ((begun.trans (leads_enterBody _ id effect.reactor)).trans running.leads).trans
      (leads_leaveBody _ id effect.reactor panicked)
    obtain ⟨_, found', _⟩ := ((through.trans (leads_countRun _ id)).trans settling.leads).effect
      (effect?_eq_some_iff.mpr known)
    have begin : Marks id true (world.hold (.reactor effect.reactor))
        ((world.hold (.reactor effect.reactor)).modifyEffect id ({ · with executing := true })) :=
      .modifyCell known rfl
    have ready := (TakesTurns.mapGraph ((world.hold (.reactor effect.reactor)).modifyEffect id
      ({ · with executing := true })) effect.reactor (·.unsubscribe id)).trans
        ((Change.takeCleanup _ id).takesTurns.trans cleaned)
    have counted : TakesTurns _ _ := (TakesTurns.countRun _ id).trans settled
    have finish : Marks id false last (last.endRun id) :=
      .modifyCell (effect?_eq_some_iff.mp found') rfl
    exact (TakesTurns.hold world _).trans
      ((TakesTurns.round idle' begin ready inside counted finish).trans released)
  | skip => exact .refl _
  | again => exact .mapGraph _ _ _
  | spare _ _ _ _ asked => exact asked
  | wake _ _ _ _ _ asked run =>
    exact (asked.trans ((TakesTurns.modifyReactor _ _ _).trans run)).trans (.modifyReactor _ _ _)
  | done => exact .refl _
  | next _ _ _ visit drop others => exact (visit.trans drop).trans others
  | pass _ visits =>
    exact ((TakesTurns.enterPass _ _ _).trans visits).trans (.record _ fun _ => rfl)

/-- Run a body in a frame of its own and check at its end that the frame is the one on top. If it is
not, nothing comes of the run. -/
def runInCheckedFrame {α : Type} (owner : ReactorId) (frame : Frame) (body : Run κ ν σ α) :
    Run κ ν σ α := do
  let there := ((← Run.world).reactor? owner).isSome
  Run.modify (·.modifyReactor owner (·.pushFrame frame))
  body.thenAlways do
    if there = true ∧ ((← Run.world).opened owner).1.head? ≠ some frame then Run.stuck
    else Run.modify (·.modifyReactor owner Reactor.popFrame)

theorem World.opened_pushFrame {world : World κ ν σ} {owner : ReactorId}
    (there : (world.reactor? owner).isSome = true) (frame : Frame) :
    ((world.modifyReactor owner (·.pushFrame frame)).opened owner).1.head? = some frame := by
  obtain ⟨state, found⟩ := Option.isSome_iff_exists.mp there
  unfold World.opened
  rw [reactor?_modifyReactor, if_pos rfl, found]
  rfl

/-- The check succeeds after a body that closes what it opens. -/
theorem runInFrame_eq_checked {α : Type} {body : Run κ ν σ α} (owner : ReactorId)
    (closes : ∀ world, body.Ends world fun _ after => after.opened owner = world.opened owner)
    (frame : Frame) : runInFrame owner frame body = runInCheckedFrame owner frame body := by
  funext world
  show body.thenAlways _ (world.modifyReactor owner (·.pushFrame frame)) =
    body.thenAlways _ (world.modifyReactor owner (·.pushFrame frame))
  cases ran : body (world.modifyReactor owner (·.pushFrame frame)) with
  | none => rw [Run.thenAlways_of_none ran, Run.thenAlways_of_none ran]
  | some outcome =>
    obtain ⟨result, inner⟩ := outcome
    have top : ¬ ((world.reactor? owner).isSome = true ∧
        (inner.opened owner).1.head? ≠ some frame) := by
      rintro ⟨there, other⟩
      rw [closes _ _ _ ran] at other
      exact other (World.opened_pushFrame there frame)
    rw [Run.thenAlways_modify_of ran]
    refine (Run.thenAlways_of ran ?_).symm
    rw [Run.world_bind, if_neg top]
    rfl

/-- However a run ends, by a value or a panic, every reactor has the frames, chains and batches open
that it had at the start, the closures marked as running are the same, and no body has begun while a
body of the same node was running. Every frame is on top when it is taken off. -/
theorem run_releases [BEq ν] (program : Program κ ν σ) (depth : Nat) :
    (∀ (α : Type) (act : Act κ ν σ α) (world : World κ ν σ),
      (program.run depth act).Ends world fun _ after =>
        (∀ owner, after.opened owner = world.opened owner) ∧
        (∀ id, after.isEngaged id = world.isEngaged id) ∧
        ∃ events, after.past = events ++ world.past ∧ ∀ id, ∃ count,
          turnsOf id events = rounds count ∧ (world.isEngaged id = true → count = 0)) ∧
    (∀ (α : Type) (act : Act κ ν σ α) (owner : ReactorId) (frame : Frame),
      runInFrame owner frame (program.run depth act) =
        runInCheckedFrame owner frame (program.run depth act)) ∧
    (∀ (owner : ReactorId) (frame : Frame) (id : NodeId) (effect : Effect κ),
      runInFrame owner frame (effectAct program (activate program depth) id effect) =
        runInCheckedFrame owner frame (effectAct program (activate program depth) id effect)) ∧
    ∀ (α : Type) (act : Act κ ν σ α) (owner : ReactorId),
      program.run depth (.within (.untracked owner) act) =
        runInCheckedFrame owner .untracked (program.run depth act) := by
  have closes : ∀ {α : Type} (act : Act κ ν σ α) (owner : ReactorId) (world : World κ ν σ),
      (program.run depth act).Ends world fun _ after => after.opened owner = world.opened owner :=
    fun act owner world result after ran =>
      (program.run_traces depth act world result after ran).opened owner
  have traced := activate_traced program depth
  refine ⟨fun α act world result after ran => ?_, fun α act owner frame => ?_,
    fun owner frame id effect => ?_, fun α act owner => ?_⟩
  · have trail := program.run_traces depth act world result after ran
    exact ⟨trail.opened, trail.takesTurns.engaged, trail.takesTurns.turns⟩
  · exact runInFrame_eq_checked owner (closes act owner) frame
  · refine runInFrame_eq_checked owner (fun world result after ran => ?_) frame
    exact (effectAct_traces traced id effect world result after ran).opened
      owner
  · exact runInFrame_eq_checked owner (closes act owner) .untracked

/-- An effect that reads two signals and panics in an untracked block of a batch in which it writes
the second one. -/
def Program.unwinding : Program Unit Nat Unit where
  compute _ := .pure 0
  effect _ := .bind (.call (.get ⟨0⟩)) fun value => .bind (.call (.get ⟨1⟩)) fun _ =>
    .within (.batch ⟨0⟩) (.within (.untracked ⟨0⟩) (.bind (.call (.set ⟨1⟩ value)) fun _ =>
      .raise (.text "lost")))
  cleanup _ := .pure ()
  callback _ _ := .pure ()
  render _ := .pure none
  handler _ := .pure ()

/-- Make the signals and the effect, which runs at once, and write the first signal. -/
def Act.unwinding : Act Unit Nat Unit Unit :=
  .bind (.call (.newReactor {})) fun _ => .bind (.call (.newSignal ⟨0⟩ 1)) fun _ =>
    .bind (.call (.newSignal ⟨0⟩ 0)) fun _ => .bind (.call (.newEffect ⟨0⟩ () true)) fun _ =>
      .call (.set ⟨0⟩ 2)

/-- The effect runs and panics twice, each time after a pass in which it was visited, and nothing
stays open. -/
theorem run_releases_unwinding : ∃ after,
    Program.unwinding.run 4 Act.unwinding (World.initial ()) = some (.ok (), after) ∧
      turnsOf ⟨2⟩ after.past = rounds 2 ∧ .ended ⟨2⟩ true ∈ after.past ∧
      .passStarted ⟨0⟩ [⟨1⟩] ∈ after.past ∧ after.opened ⟨0⟩ = ([], [], 0) ∧
      after.isEngaged ⟨2⟩ = false := by
  have made : ((Program.unwinding.run 4 Act.unwinding (World.initial ())).map fun reached =>
      decide (reached.1 = .ok () ∧ turnsOf ⟨2⟩ reached.2.past = rounds 2 ∧
        .ended ⟨2⟩ true ∈ reached.2.past ∧ .passStarted ⟨0⟩ [⟨1⟩] ∈ reached.2.past)) = some true := by
    decide +kernel
  obtain ⟨⟨_, after⟩, ran, made⟩ := Option.map_eq_some_iff.mp made
  obtain ⟨rfl, turns, panicked, visited⟩ := of_decide_eq_true made
  obtain ⟨opened, engaged, _⟩ :=
    (run_releases Program.unwinding 4).1 _ Act.unwinding (World.initial ()) _ _ ran
  exact ⟨after, ran, turns, panicked, visited, opened ⟨0⟩, engaged ⟨2⟩⟩

end ReactiveTree
