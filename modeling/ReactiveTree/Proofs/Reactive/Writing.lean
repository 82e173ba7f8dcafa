import ReactiveTree.Proofs.Graph.Inscribing
import ReactiveTree.Proofs.Reactive.Marking
import ReactiveTree.Proofs.Reactive.Recording

/-! # Writers are on record

A write is recorded for the closure whose frame is open, before it is seen whether the value is a new
one. From then on, whatever runs, the effect is among the writers of the signal and the signal among
what the effect writes, as long as both are live. In an untracked block no closure counts as the writer.
-/

namespace ReactiveTree

variable {κ ν σ α : Type}

namespace World

variable {world middle after : World κ ν σ} {source writer id other : NodeId} {owner home : ReactorId}

/-- A step tells of no write of a source by an effect, and leaves on record what was, if both are
there. -/
structure KeepsWrites (source writer : NodeId) (world after : World κ ν σ) : Prop where
  told : .wrote source (some writer) ∈ after.past → .wrote source (some writer) ∈ world.past
  known : ∀ id, (world.cell? id).isSome → (after.cell? id).isSome
  kept : (world.cell? source).isSome → (world.cell? writer).isSome → ∀ owner,
    Graph.KeepsWrites source writer (world.graph owner) (after.graph owner)

namespace KeepsWrites

theorem refl (world : World κ ν σ) : KeepsWrites source writer world world :=
  ⟨fun told => told, fun _ known => known, fun _ _ _ => .refl _⟩

theorem trans (start : KeepsWrites source writer world middle)
    (finish : KeepsWrites source writer middle after) : KeepsWrites source writer world after :=
  ⟨fun told => start.told (finish.told told), fun id known => finish.known id (start.known id known),
    fun known known' owner => (start.kept known known' owner).trans
      (finish.kept (start.known source known) (start.known writer known') owner)⟩

/-- A step that leaves cells alone. -/
theorem of_cells (past : after.past = world.past) (cells : after.cells = world.cells)
    (kept : ∀ owner, Graph.KeepsWrites source writer (world.graph owner) (after.graph owner)) :
    KeepsWrites source writer world after := by
  refine ⟨fun told => past ▸ told, fun id known => ?_, fun _ _ => kept⟩
  unfold cell? at known ⊢
  rwa [cells]

/-- A step that leaves cells and reactors alone. -/
theorem of_alike {events : List (Event κ ν)} (past : after.past = events ++ world.past)
    (apart : .wrote source (some writer) ∉ events) (cells : after.cells = world.cells)
    (reactors : after.reactors = world.reactors) : KeepsWrites source writer world after := by
  refine ⟨fun told => ?_, fun id known => ?_, fun _ _ owner => ?_⟩
  · rw [past] at told
    exact (List.mem_append.mp told).resolve_left apart
  · unfold cell? at known ⊢
    rwa [cells]
  · rw [graph_of_reactors reactors]
    exact .refl _

theorem record (world : World κ ν σ) {event : Event κ ν} (apart : event ≠ .wrote source (some writer)) :
    KeepsWrites source writer world (world.record event) := by
  have past : (world.record event).past = [event] ++ world.past := rfl
  exact .of_alike past (fun member => apart (List.mem_singleton.mp member).symm) rfl rfl

theorem modifyReactor (world : World κ ν σ) (home : ReactorId) {change : Reactor → Reactor}
    (kept : ∀ state, (change state).graph = state.graph) :
    KeepsWrites source writer world (world.modifyReactor home change) := by
  refine .of_cells rfl rfl fun owner => ?_
  rw [graph_modifyReactor world home fun state _ => kept state]
  exact .refl _

theorem mapGraph (world : World κ ν σ) (home : ReactorId) {change : Graph → Graph}
    (bare : change .empty = .empty)
    (kept : Graph.KeepsWrites source writer (world.graph home) (change (world.graph home))) :
    KeepsWrites source writer world (world.mapGraph home change) := by
  refine .of_cells rfl rfl fun owner => ?_
  rw [graph_mapGraph world home bare]
  split
  next same =>
    subst same
    exact kept
  next => exact .refl _

/-- A change of marks, versions and labels. -/
theorem modifyNode (world : World κ ν σ) (home : ReactorId) (other : NodeId) {change : Node → Node}
    (kept : ∀ node, (change node).id = node.id ∧ (change node).kind = node.kind ∧
      (change node).writers = node.writers ∧ (change node).writes = node.writes) :
    KeepsWrites source writer world (world.mapGraph home (·.modify other change)) := by
  refine .mapGraph world home rfl (.modify _ other fun node => ?_)
  obtain ⟨name, kind, writers, writes⟩ := kept node
  rw [writers, writes]
  exact ⟨name, kind, List.Subset.refl _, List.Subset.refl _⟩

theorem unsubscribe (world : World κ ν σ) (home : ReactorId) (other : NodeId) :
    KeepsWrites source writer world (world.mapGraph home (·.unsubscribe other)) :=
  .mapGraph world home rfl (.unsubscribe _ other)

theorem modifyCell (world : World κ ν σ) (other : NodeId) (change : Cell κ ν → Cell κ ν) :
    KeepsWrites source writer world (world.modifyCell other change) := by
  refine ⟨fun told => told, fun id known => ?_, fun _ _ _ => .refl _⟩
  rw [cell?_modifyCell]
  split
  next same => rwa [Option.isSome_map, ← same]
  next => exact known

theorem hold (world : World κ ν σ) (handle : Handle) :
    KeepsWrites source writer world (world.hold handle) := by
  cases handle with
  | reactor home => exact .modifyReactor world home fun _ => rfl
  | node other => exact .modifyCell world other _

theorem foldl_hold {α : Type} (members : List α) (handle : α → Handle) (world : World κ ν σ) :
    KeepsWrites source writer world
      (members.foldl (fun world member => world.hold (handle member)) world) := by
  induction members generalizing world with
  | nil => exact .refl world
  | cons member rest ih => exact (hold world (handle member)).trans (ih _)

theorem lose (world : World κ ν σ) (handle : Handle) :
    KeepsWrites source writer world (world.lose handle) := by
  cases handle with
  | reactor home => exact .modifyReactor world home fun _ => rfl
  | node other => exact .modifyCell world other _

theorem unregister (world : World κ ν σ) (other : NodeId) :
    KeepsWrites source writer world (world.unregister other).2 := by
  unfold World.unregister
  split
  next => exact .refl world
  next cell _ =>
    rw [removeNode_eq]
    exact (mapGraph world cell.reactor rfl (.remove _ other)).trans
      (.modifyReactor _ cell.reactor fun _ => rfl)

theorem shed (world : World κ ν σ) (handle : Handle) :
    KeepsWrites source writer world (world.shed handle) := by
  unfold World.shed
  split
  next =>
    refine (lose world handle).trans ?_
    cases handle with
    | reactor home =>
      have emptied : KeepsWrites source writer (world.lose (.reactor home))
          ((world.lose (.reactor home)).mapGraph home fun _ => .empty) :=
        .mapGraph _ home rfl (.empty _)
      exact emptied.trans (.record _ nofun)
    | node other =>
      unfold World.perish
      dsimp only
      split
      next => exact .refl _
      next => exact .unregister _ other
      next => exact .refl _
  next => exact .lose world handle

theorem put (world : World κ ν σ) (home : ReactorId) (other : NodeId) (value : ν) :
    KeepsWrites source writer world (world.put home other value) := by
  have stored : KeepsWrites source writer world
      (world.modifySignal other fun signal => { signal with value }) := .modifyCell world other _
  have bumped : KeepsWrites source writer (world.modifySignal other fun signal => { signal with value })
      ((world.modifySignal other fun signal => { signal with value }).mapGraph home
        (·.modify other Node.bump)) := .modifyNode _ home other fun _ => ⟨rfl, rfl, rfl, rfl⟩
  exact (stored.trans bumped).trans (.record _ nofun)

theorem noteRead (world : World κ ν σ) (home : ReactorId) (read : NodeId) :
    KeepsWrites source writer world (world.noteRead home read) := by
  unfold World.noteRead
  split
  next reader _ =>
    have connected : KeepsWrites source writer world (world.mapGraph home (·.connect read reader)) :=
      .mapGraph world home (Graph.connect_empty read reader) (.connect _ read reader)
    exact connected.trans (.record _ nofun)
  next => exact .record world nofun

/-- A write of another signal, or by someone else. -/
theorem noteWrite (world : World κ ν σ) (home : ReactorId) (written : NodeId)
    (apart : written = source → world.reader? home ≠ some writer) :
    KeepsWrites source writer world (world.noteWrite home written) := by
  unfold World.noteWrite
  split
  next reader reading =>
    have noted : KeepsWrites source writer world (world.mapGraph home (·.noteWrite written reader)) :=
      .mapGraph world home rfl (.noteWrite _ written reader)
    refine noted.trans (.record _ fun same => ?_)
    cases same
    exact apart rfl reading
  next => exact .record world nofun

theorem addCell (world : World κ ν σ) (cell : Cell κ ν) :
    KeepsWrites source writer world (world.addCell cell cell.kind).2 := by
  have old : ∀ id, (world.cell? id).isSome → id ≠ world.nextId := by
    rintro id known rfl
    rw [cell?_nextId] at known
    cases known
  refine ⟨fun told => told, fun id known => ?_, fun known known' owner => ?_⟩
  · rwa [cell?_addCell, if_neg (old id known)]
  · rcases graph_addCell_cases world cell owner with same | ⟨_, _, inserted⟩
    · rw [same]
      exact .refl _
    · rw [inserted]
      exact .insert _ cell.kind (old source known) (old writer known')

end KeepsWrites

/-- A change in which no closure takes part records no write by another closure than the running one. -/
theorem Change.keepsWrites (change : world.Change after) :
    KeepsWrites source writer world after ∨ ∃ signal, world.signal? source = some signal ∧
      world.reader? signal.reactor = some writer ∧ after = world.noteWrite signal.reactor source := by
  cases change with
  | aside events remarks past cells reactors =>
    exact Or.inl (.of_alike past (fun member => remarks _ member) cells reactors)
  | hold handle => exact Or.inl (.hold world handle)
  | shed handle => exact Or.inl (.shed world handle)
  | stop =>
    exact Or.inl (((KeepsWrites.modifyCell world _ _).trans (.hold _ _)).trans (.unregister _ _))
  | abandon => exact Or.inl (.modifyCell world _ _)
  | destroy => exact Or.inl ((KeepsWrites.modifyCell world _ _).trans (.unregister _ _))
  | @defer other signal state new =>
    exact Or.inl ((KeepsWrites.put world signal.reactor other new).trans
      (.modifyReactor _ _ fun _ => rfl))
  | putLost => exact Or.inl (.put world _ _ _)
  | @noteWrite other signal found =>
    by_cases same : other = source ∧ world.reader? signal.reactor = some writer
    · obtain ⟨rfl, reading⟩ := same
      exact Or.inr ⟨signal, found, reading, rfl⟩
    · exact Or.inl (.noteWrite world _ _ fun named reading => same ⟨named, reading⟩)
  | addReactor settings =>
    refine Or.inl (.of_cells rfl rfl fun owner => ?_)
    rw [graph_newReactor]
    exact .refl _
  | addHolding cell => exact Or.inl ((KeepsWrites.hold world _).trans (.addCell _ cell))
  | addEffect home body =>
    exact Or.inl (.addCell world (.effect ⟨home, body, false, none, true, false, 0, 2⟩))
  | label => exact Or.inl (.modifyNode world _ _ fun _ => ⟨rfl, rfl, rfl, rfl⟩)
  | tweak other => exact Or.inl (.modifyCell world other _)

namespace KeepsWrites

theorem enterBody (world : World κ ν σ) (id : NodeId) (home : ReactorId) :
    KeepsWrites source writer world (world.enterBody id home) := by
  have started : KeepsWrites source writer world (world.record (.started id)) := .record world nofun
  exact started.trans (.modifyReactor _ home fun _ => rfl)

theorem leaveBody (world : World κ ν σ) (id : NodeId) (home : ReactorId) (panicked : Bool) :
    KeepsWrites source writer world (world.leaveBody id home panicked) := by
  have popped : KeepsWrites source writer world (world.modifyReactor home Reactor.popFrame) :=
    .modifyReactor world home fun _ => rfl
  exact popped.trans (.record _ nofun)

theorem engage (world : World κ ν σ) (id : NodeId) (home : ReactorId) :
    KeepsWrites source writer world (world.engage id home) := by
  have executing : KeepsWrites source writer world
      (world.modifyEffect id ({ · with executing := true })) := .modifyCell world id _
  exact (executing.trans (.unsubscribe _ home id)).trans (.modifyCell _ id _)

theorem countRun (world : World κ ν σ) (id : NodeId) :
    KeepsWrites source writer world (world.countRun id) :=
  .modifyCell world id _

theorem endRun (world : World κ ν σ) (id : NodeId) :
    KeepsWrites source writer world (world.endRun id) :=
  .modifyCell world id _

theorem enter (world : World κ ν σ) (id : NodeId) (home : ReactorId) :
    KeepsWrites source writer world (world.enter id home) := by
  have computing : KeepsWrites source writer world
      (world.modifyComputed id ({ · with computing := true })) := .modifyCell world id _
  exact (computing.trans (.unsubscribe _ home id)).trans (.enterBody _ id home)

theorem afterEvaluation [BEq ν] (inner : World κ ν σ) (id : NodeId) (computed : Computed κ ν)
    (result : Except Panic ν) :
    KeepsWrites source writer inner (inner.afterEvaluation id computed result).2 := by
  have left : ∀ panicked, KeepsWrites source writer inner (inner.leave id computed.reactor panicked) :=
    fun panicked => (leaveBody inner id computed.reactor panicked).trans (.modifyCell _ id _)
  cases result with
  | error panic => exact (left true).trans (.modifyNode _ _ id fun _ => ⟨rfl, rfl, rfl, rfl⟩)
  | ok value =>
    refine (left false).trans ?_
    show KeepsWrites source writer _ (World.settleValue _ id computed value)
    unfold settleValue
    extract_lets same
    split
    next => exact .modifyNode _ _ id fun _ => ⟨rfl, rfl, rfl, rfl⟩
    next =>
      have kept : KeepsWrites source writer (inner.leave id computed.reactor false)
          ((inner.leave id computed.reactor false).modifyComputed id
            ({ · with value := some value })) := .modifyCell _ id _
      have marked := fun node : Node => (⟨rfl, rfl, rfl, rfl⟩ : node.bump.markClean.id = node.id ∧
        node.bump.markClean.kind = node.kind ∧ node.bump.markClean.writers = node.writers ∧
          node.bump.markClean.writes = node.writes)
      exact (kept.trans (.modifyNode _ computed.reactor id marked)).trans (.record _ nofun)

theorem enterPass (world : World κ ν σ) (home : ReactorId) (sources : List NodeId) :
    KeepsWrites source writer world (world.enterPass home sources) := by
  have told : KeepsWrites source writer world (world.record (.passStarted home sources)) :=
    .record world nofun
  have planned : KeepsWrites source writer (world.record (.passStarted home sources))
      ((world.record (.passStarted home sources)).planPass home sources).2 :=
    .of_cells rfl rfl fun owner => .of_marked fun id => marked_planPass _ home sources owner id
  exact (told.trans planned).trans (.foldl_hold _ _ _)

end KeepsWrites

/-- A write of a source by an effect that has been told of is on record, if both are live. -/
def Registered (source writer : NodeId) (world : World κ ν σ) : Prop :=
  .wrote source (some writer) ∈ world.past → ∃ signal, world.signal? source = some signal ∧
    (world.cell? writer).isSome ∧ (world.graph signal.reactor).Inscribed source writer

theorem Registered.keep (registered : world.Registered source writer)
    (keeps : KeepsWrites source writer world after) (leads : world.Leads after) :
    after.Registered source writer := by
  intro told
  obtain ⟨signal, found, known, inscribed⟩ := registered (keeps.told told)
  obtain ⟨signal', found', home⟩ := leads.signal found
  have present : (world.cell? source).isSome := by
    rw [signal?_eq_some_iff.mp found]
    rfl
  refine ⟨signal', found', keeps.known writer known, ?_⟩
  rw [home]
  exact inscribed.keep (keeps.kept present known signal.reactor)

theorem Registered.modifyReactor (registered : world.Registered source writer) (home : ReactorId)
    {change : Reactor → Reactor} (kept : ∀ state, (change state).graph = state.graph) :
    (world.modifyReactor home change).Registered source writer := by
  intro told
  obtain ⟨signal, found, known, inscribed⟩ := registered told
  refine ⟨signal, found, known, ?_⟩
  rwa [graph_modifyReactor world home fun state _ => kept state]

theorem Registered.closeBatch (registered : world.Registered source writer) (home : ReactorId) :
    (world.closeBatch home).2.Registered source writer := by
  rw [closeBatch_snd]
  exact registered.modifyReactor home fun state => state.closeBatch_kept.1

/-- A write that is told of just now is on record. -/
theorem registered_noteWrite {signal : Signal ν} (found : world.signal? source = some signal)
    (reading : world.reader? signal.reactor = some writer) (known : (world.cell? writer).isSome) :
    (world.noteWrite signal.reactor source).Registered source writer := by
  have noted : world.noteWrite signal.reactor source = (world.mapGraph signal.reactor
      (·.noteWrite source writer)).record (.wrote source (some writer)) := by
    unfold World.noteWrite
    change world.reader? signal.reactor = _ at reading
    unfold World.reader? at reading
    rw [reading]
  rw [noted]
  refine fun _ => ⟨signal, found, known, ?_⟩
  show ((world.mapGraph signal.reactor (·.noteWrite source writer)).graph signal.reactor).Inscribed _ _
  rw [graph_mapGraph world signal.reactor rfl, if_pos rfl]
  exact Graph.inscribed_noteWrite _ source writer

/-- Whoever has a frame open is there. -/
def Named (world : World κ ν σ) : Prop :=
  world.Framed fun reader => (world.cell? reader).isSome

theorem Named.onward (named : world.Named) (leads : world.Leads after)
    (frames : ∀ owner, (after.opened owner).1 ⊆ (world.opened owner).1) : after.Named :=
  (Framed.of_opened named frames).mono fun _ => leads.known

/-- A closure begins to run in a frame of its own. -/
theorem Named.pushTracked (named : world.Named) (home : ReactorId)
    (known : (world.cell? id).isSome) :
    (world.modifyReactor home (·.pushFrame (.tracked id))).Named := by
  refine Framed.pushFrame named home ?_
  rintro _ ⟨⟩
  exact known

theorem Named.enter (named : world.Named) {computed : Computed κ ν}
    (found : world.computed? id = some computed) (home : ReactorId) : (world.enter id home).Named := by
  have leads : world.Leads (((world.modifyComputed id ({ · with computing := true })).mapGraph home
      (·.unsubscribe id)).record (.started id)) := by
    have computing : world.Leads (world.modifyComputed id ({ · with computing := true })) :=
      Spares.leads (.modifyComputed world id (fun _ => rfl) fun _ => rfl)
    exact (computing.trans (leads_unsubscribe _ home id)).trans (.record _ (.started id) not_false)
  have told := named.onward leads fun owner => by
    rw [opened_record, opened_mapGraph]
    exact List.Subset.refl _
  refine told.pushTracked home (leads.known ?_)
  rw [computed?_eq_some_iff.mp found]
  rfl

theorem Named.reader (named : world.Named) (reading : world.reader? owner = some id) :
    (world.cell? id).isSome := by
  refine named owner id ?_
  unfold reader? at reading
  obtain ⟨state, found, reading⟩ := Option.bind_eq_some_iff.mp reading
  unfold opened
  rw [found]
  unfold Reactor.reader? at reading
  split at reading
  next frames =>
    cases reading
    show _ ∈ state.frames
    rw [frames]
    exact List.mem_cons_self
  next => cases reading

end World

section

variable [BEq ν] {program : Program κ ν σ} {world after : World κ ν σ}
  {source writer : NodeId}

theorem Trail.named {phase : Phase} (trail : Trail program phase world after)
    (named : world.Named) : after.Named := by
  refine named.onward trail.leads fun owner => ?_
  rw [trail.opened owner]
  exact List.Subset.refl _

open World in
/-- Whatever runs, what is told of as a write is on record. -/
theorem Trail.registered {phase : Phase} (trail : Trail program phase world after)
    (named : world.Named) (registered : world.Registered source writer) :
    after.Registered source writer := by
  induction trail with
  | refl => exact registered
  | trans start _ ih ih' => exact ih' (start.named named) (ih named registered)
  | serve _ ih => exact ih named registered
  | change change =>
    rcases change.keepsWrites with keeps | ⟨signal, found, reading, written⟩
    · exact registered.keep keeps change.leads
    · rw [written]
      exact registered_noteWrite found reading (named.reader reading)
  | read found readable =>
    obtain ⟨_, noted⟩ := spares_noteRead _ found readable
    exact registered.keep (.noteRead _ _ _) noted.leads
  | untracked owner _ ih =>
    have ran := ih (Framed.pushFrame named owner nofun) (registered.modifyReactor owner fun _ => rfl)
    exact ran.modifyReactor owner fun _ => rfl
  | @cleanup world id effect inner found _ ih =>
    have ran := ih (Framed.pushFrame named effect.reactor nofun)
      (registered.modifyReactor effect.reactor fun _ => rfl)
    exact ran.modifyReactor effect.reactor fun _ => rfl
  | batch owner _ _ ih =>
    have ran := ih (Framed.modifyReactor named owner fun _ => List.Subset.refl _)
      (registered.modifyReactor owner fun _ => rfl)
    exact ran.closeBatch owner
  | @flush world inner after owner inside _ _ ih ih' =>
    have batched : (world.modifyReactor owner Reactor.openBatch).Named :=
      Framed.modifyReactor named owner fun _ => List.Subset.refl _
    have ran := ih batched (registered.modifyReactor owner fun _ => rfl)
    refine ih' ?_ (ran.closeBatch owner)
    exact (Framed.closeBatch (inside.named batched) owner).mono fun _ known =>
      (leads_closeBatch inner owner).known known
  | @store world id signal value after _ _ _ _ ih =>
    refine ih (named.onward (leads_put _ _ _ _) fun owner => ?_)
      (registered.keep (.put _ _ _ _) (leads_put _ _ _ _))
    rw [opened_put]
    exact List.Subset.refl _
  | refresh _ _ ih => exact ih named registered
  | @execute world id _ _ ih =>
    have told : world.Change (world.record (.executed id)) := .record world trivial
    exact ih named (registered.keep (.record world nofun) told.leads)
  | @born world after owner body _ ih =>
    have made : world.Change
        (world.addCell (.effect ⟨owner, body, false, none, true, false, 0, 2⟩) .effect).2 :=
      .addEffect owner body
    have keeps : KeepsWrites source writer world
        (world.addCell (.effect ⟨owner, body, false, none, true, false, 0, 2⟩) .effect).2 :=
      .addCell world (.effect ⟨owner, body, false, none, true, false, 0, 2⟩)
    refine ih (named.onward made.leads fun other => ?_) (registered.keep keeps made.leads)
    rw [made.opened]
    exact List.Subset.refl _
  | confirm =>
    have marked := fun node : Node => (⟨rfl, rfl, rfl, rfl⟩ : node.markClean.id = node.id ∧
      node.markClean.kind = node.kind ∧ node.markClean.writers = node.writers ∧
        node.markClean.writes = node.writes)
    exact registered.keep (.modifyNode _ _ _ marked) (.mapGraph _ _ _ fun _ => ⟨rfl, rfl⟩)
  | @evaluate world id computed present inner found _ _ inside result ih =>
    have leads := leads_enter world id computed.reactor
    have ran := ih (named.enter found computed.reactor)
      (registered.keep (.enter world id computed.reactor) leads)
    obtain ⟨_, found', _⟩ := (leads.trans inside.leads).computed found
    exact ran.keep (.afterEvaluation _ id computed result) (leads_afterEvaluation _ found' _ result)
  | decline => exact registered
  | @run world id effect middle inner last after panicked found _ _ _ cleaned inside settled _
      cleans runs settles releases =>
    have held : world.Leads (world.hold (.reactor effect.reactor)) := (Change.hold _).leads
    have begun := held.trans (leads_engage _ id effect.reactor)
    have engaged : ((world.hold (.reactor effect.reactor)).engage id effect.reactor).Named := by
      refine named.onward begun fun owner => ?_
      rw [opened_engage, opened_hold]
      exact List.Subset.refl _
    have known : (middle.cell? id).isSome := by
      refine (begun.trans cleaned.leads).known ?_
      rw [effect?_eq_some_iff.mp found]
      rfl
    have told : (middle.record (.started id)).Named := cleaned.named engaged
    have entered : (middle.enterBody id effect.reactor).Named := told.pushTracked effect.reactor known
    have left : ((inner.leaveBody id effect.reactor panicked).countRun id).Named := by
      have popped : (inner.modifyReactor effect.reactor Reactor.popFrame).Named :=
        Framed.modifyReactor (inside.named entered) effect.reactor fun state =>
          List.tail_subset state.frames
      exact popped.onward ((Leads.record _ (.ended id panicked) not_false).trans
        (leads_countRun _ id)) fun _ => List.Subset.refl _
    have holding := registered.keep (.hold world (.reactor effect.reactor)) held
    have cleaned' := cleans engaged
      (holding.keep (.engage _ id effect.reactor) (leads_engage _ id effect.reactor))
    have ran := runs entered (cleaned'.keep (.enterBody middle id effect.reactor)
      (leads_enterBody middle id effect.reactor))
    have counted := (ran.keep (.leaveBody inner id effect.reactor panicked)
      (leads_leaveBody _ id _ _)).keep (.countRun _ id) (leads_countRun _ id)
    have stopped : (last.endRun id).Named := by
      refine (settled.named left).onward (leads_endRun last id) fun _ => ?_
      exact List.Subset.refl _
    exact releases stopped ((settles left counted).keep (.endRun last id) (leads_endRun last id))
  | skip => exact registered
  | again =>
    exact registered.keep (.mapGraph _ _ rfl (.resubscribe _ _)) (spares_resubscribe _ _ _).leads
  | spare _ _ _ _ ih => exact ih named registered
  | @wake world owner entry effect middle after _ _ _ asked _ ih ih' =>
    have pushed : (middle.modifyReactor owner (·.pushChain entry.wakeup.causes)).Named :=
      Framed.modifyReactor (asked.named named) owner fun _ => List.Subset.refl _
    have ran := ih' pushed ((ih named registered).modifyReactor owner fun _ => rfl)
    exact ran.modifyReactor owner fun _ => rfl
  | done => exact registered
  | next visit drop _ visits drops rest =>
    have visited := visit.named named
    exact rest (drop.named visited) (drops visited (visits named registered))
  | @pass world owner sources after _ ih =>
    have leads := leads_enterPass world owner sources
    have entered : (world.enterPass owner sources).Named := by
      refine named.onward leads fun other => ?_
      rw [opened_enterPass]
      exact List.Subset.refl _
    have visited := ih entered (registered.keep (.enterPass world owner sources) leads)
    exact visited.keep (.record _ nofun) (.record _ _ not_false)

omit [BEq ν] in
theorem World.named_initial (user : σ) : (World.initial user : World κ ν σ).Named :=
  fun _ _ member => nomatch member

open World in
/-- Wherever no closure runs, what has been told of as a write is on record. -/
theorem Program.Reached.registered {user : σ} (reached : program.Reached user world) :
    world.Named ∧ ∀ source writer, world.Registered source writer := by
  have traced := activate_traced program
  induction reached with
  | start => exact ⟨World.named_initial user, fun _ _ told => nomatch told⟩
  | @act _ _ _ depth act result _ ran ih =>
    have trail := Act.run_traces (traced depth) act _ _ _ ran
    exact ⟨trail.named ih.1, fun source writer => trail.registered ih.1 (ih.2 source writer)⟩
  | openBatch _ owner ih =>
    exact ⟨Framed.modifyReactor ih.1 owner fun _ => List.Subset.refl _,
      fun source writer => (ih.2 source writer).modifyReactor owner fun _ => rfl⟩
  | @closeBatch world after depth owner result _ ran ih =>
    have closed : (world.closeBatch owner).2.Named :=
      (Framed.closeBatch ih.1 owner).mono fun _ => (leads_closeBatch world owner).known
    have recorded := fun source writer => (ih.2 source writer).closeBatch owner
    rcases closeBatch_trails (traced depth) owner world _ _ ran with ⟨_, rfl⟩ | ⟨_, pass⟩
    · exact ⟨closed, recorded⟩
    · exact ⟨pass.named closed, fun source writer => pass.registered closed (recorded source writer)⟩
  | openUntracked _ owner ih =>
    exact ⟨Framed.pushFrame ih.1 owner nofun,
      fun source writer => (ih.2 source writer).modifyReactor owner fun _ => rfl⟩
  | closeUntracked _ owner ih =>
    exact ⟨Framed.modifyReactor ih.1 owner fun state => List.tail_subset state.frames,
      fun source writer => (ih.2 source writer).modifyReactor owner fun _ => rfl⟩

/-- A write of a live signal is told of, whatever the value, for the closure that reads are tracked
for. -/
theorem Program.set_told {signal : Signal ν} (found : world.signal? source = some signal)
    (kept : signal.destroyed = false) (reading : world.reader? signal.reactor = some writer)
    (value : ν) (depth : Nat) : (program.run depth (.call (.set source value))).Ends world
      fun _ after => .wrote source (some writer) ∈ after.past := by
  intro result after ran
  have traced : Traced program depth :=
    activate_traced program depth
  rcases writeSignal_noted traced source value world result after ran with ⟨_, dead⟩ | ⟨other, found', trail⟩
  · cases kept.symm.trans (dead signal found)
  · cases found.symm.trans found'
    obtain ⟨events, past⟩ := trail.leads.past
    rw [past]
    refine List.mem_append_right _ ?_
    unfold World.noteWrite
    change (world.reactor? signal.reactor).bind Reactor.reader? = some writer at reading
    rw [reading]
    exact List.mem_cons_self

end

/-- Writers are recorded. Wherever no closure runs, every write of a signal by an effect that has been
told of is on record on both sides, as long as both are live; and while an effect runs, outside
untracked blocks, every write of a live signal is told of as one of the effect, whatever the effect has
done before, in whatever batches, and whether the value is a new one or not. -/
theorem writers_recorded [BEq ν] (program : Program κ ν σ) (source writer : NodeId) :
    (∀ user world, program.Reached user world → .wrote source (some writer) ∈ world.past →
      ∀ signal node effect, world.signal? source = some signal →
        (world.graph signal.reactor).node? source = some node →
        (world.graph signal.reactor).node? writer = some effect → effect.kind = .effect →
          writer ∈ node.writers ∧ source ∈ effect.writes) ∧
    ∀ (world : World κ ν σ) owner, world.reader? owner = some writer →
      ∀ (α : Type) (act : Act κ ν σ α) depth, (program.run depth act).Ends world fun _ inner =>
        ∀ signal, inner.signal? source = some signal → signal.reactor = owner →
          signal.destroyed = false → ∀ value, (program.run depth (.call (.set source value))).Ends inner
            fun _ after => .wrote source (some writer) ∈ after.past := by
  refine ⟨fun user world reached told signal node effect found live live' kind => ?_,
    fun world owner reading α act depth => fun result inner ran signal found home kept value => ?_⟩
  · obtain ⟨signal', found', _, inscribed⟩ := reached.registered.2 source writer told
    cases found.symm.trans found'
    exact inscribed node live effect live' kind
  · subst home
    have trail := program.run_traces depth act world result inner ran
    have reading' : inner.reader? signal.reactor = some writer := by
      rw [World.reader?_congr (trail.opened _)]
      exact reading
    exact Program.set_told found kept reading' value depth

/-- An effect that writes what it reads to another signal, in a batch or in an untracked block. -/
def Program.relaying : Program Bool Nat Unit where
  compute _ := .pure 0
  effect batched := .bind (.call (.get ⟨0⟩)) fun value =>
    .bind (.within (if batched then .batch ⟨0⟩ else .untracked ⟨0⟩) (.call (.set ⟨1⟩ value))) fun _ =>
      .pure (.ok none)
  cleanup _ := .pure ()
  callback _ _ := .pure ()
  render _ := .pure none
  handler _ := .pure ()

/-- Make the two signals and the effect, which runs at once. -/
def Act.relaying (batched : Bool) : Act Bool Nat Unit Unit :=
  .bind (.call (.newReactor {})) fun _ => .bind (.call (.newSignal ⟨0⟩ 1)) fun _ =>
    .bind (.call (.newSignal ⟨0⟩ 1)) fun _ => .bind (.call (.newEffect ⟨0⟩ batched true)) fun _ =>
      .pure ()

/-- The effect writes in a batch a value that the signal has already, and is recorded. -/
theorem writers_recorded_relaying : ∃ world signal node effect after,
    Program.relaying.run 4 (Act.relaying true) (World.initial ()) = some (.ok (), world) ∧
      .wrote ⟨1⟩ (some ⟨2⟩) ∈ world.past ∧ world.signal? ⟨1⟩ = some signal ∧
      (world.graph signal.reactor).node? ⟨1⟩ = some node ∧
      (world.graph signal.reactor).node? ⟨2⟩ = some effect ∧ effect.kind = .effect ∧
      ⟨2⟩ ∈ node.writers ∧ ⟨1⟩ ∈ effect.writes ∧
      (world.enterBody ⟨2⟩ ⟨0⟩).reader? ⟨0⟩ = some ⟨2⟩ ∧ signal.reactor = ⟨0⟩ ∧
      Program.relaying.run 4 (.call (.set ⟨1⟩ 5)) (world.enterBody ⟨2⟩ ⟨0⟩) = some (.ok (), after) ∧
      .wrote ⟨1⟩ (some ⟨2⟩) ∈ after.past := by
  have made : ((Program.relaying.run 4 (Act.relaying true) (World.initial ())).bind fun reached =>
      (reached.2.signal? ⟨1⟩).bind fun signal =>
        ((reached.2.graph signal.reactor).node? ⟨1⟩).bind fun _ =>
          ((reached.2.graph signal.reactor).node? ⟨2⟩).bind fun effect =>
            (Program.relaying.run 4 (.call (.set ⟨1⟩ 5)) (reached.2.enterBody ⟨2⟩ ⟨0⟩)).map fun left =>
              decide (reached.1 = .ok () ∧ .wrote ⟨1⟩ (some ⟨2⟩) ∈ reached.2.past ∧
                effect.kind = .effect ∧ signal.reactor = ⟨0⟩ ∧ signal.destroyed = false ∧
                (reached.2.enterBody ⟨2⟩ ⟨0⟩).reader? ⟨0⟩ = some ⟨2⟩ ∧ left.1 = .ok ())) = some true := by
    decide +kernel
  obtain ⟨⟨_, world⟩, ran, made⟩ := Option.bind_eq_some_iff.mp made
  obtain ⟨signal, found, made⟩ := Option.bind_eq_some_iff.mp made
  obtain ⟨node, live, made⟩ := Option.bind_eq_some_iff.mp made
  obtain ⟨effect, live', made⟩ := Option.bind_eq_some_iff.mp made
  obtain ⟨⟨_, after⟩, wrote, made⟩ := Option.map_eq_some_iff.mp made
  obtain ⟨rfl, told, kind, home, kept, reading, rfl⟩ := of_decide_eq_true made
  have recorded := writers_recorded Program.relaying ⟨1⟩ ⟨2⟩
  obtain ⟨listed, listed'⟩ :=
    recorded.1 () world (.act .start ran) told signal node effect found live live' kind
  have idle : Program.relaying.run 4 (.pure () : Act Bool Nat Unit Unit) (world.enterBody ⟨2⟩ ⟨0⟩) =
      some (.ok (), world.enterBody ⟨2⟩ ⟨0⟩) := rfl
  exact ⟨world, signal, node, effect, after, ran, told, found, live, live', kind, listed, listed',
    reading, home, wrote, recorded.2 _ ⟨0⟩ reading Unit (.pure ()) 4 _ _ idle signal found home kept 5
      _ _ wrote⟩

/-- In an untracked block the effect writes the signal all the same, and is not recorded. -/
theorem untracked_write_unrecorded : ∃ world signal node effect,
    Program.relaying.run 4 (Act.relaying false) (World.initial ()) = some (.ok (), world) ∧
      world.effect? ⟨2⟩ = some effect ∧ effect.active = true ∧
      [.ended ⟨2⟩ false, .wrote ⟨1⟩ none, .read ⟨0⟩ (some ⟨2⟩), .started ⟨2⟩] = world.past ∧
      world.signal? ⟨1⟩ = some signal ∧ (world.graph signal.reactor).node? ⟨1⟩ = some node ∧
      ⟨2⟩ ∉ node.writers := by
  have made : ((Program.relaying.run 4 (Act.relaying false) (World.initial ())).bind fun reached =>
      (reached.2.effect? ⟨2⟩).bind fun effect => (reached.2.signal? ⟨1⟩).bind fun signal =>
        ((reached.2.graph signal.reactor).node? ⟨1⟩).map fun node =>
          decide (reached.1 = .ok () ∧ effect.active = true ∧
            [.ended ⟨2⟩ false, .wrote ⟨1⟩ none, .read ⟨0⟩ (some ⟨2⟩), .started ⟨2⟩] = reached.2.past ∧
            ⟨2⟩ ∉ node.writers)) = some true := by
    decide +kernel
  obtain ⟨⟨_, world⟩, ran, made⟩ := Option.bind_eq_some_iff.mp made
  obtain ⟨effect, present, made⟩ := Option.bind_eq_some_iff.mp made
  obtain ⟨signal, found, made⟩ := Option.bind_eq_some_iff.mp made
  obtain ⟨node, live, made⟩ := Option.map_eq_some_iff.mp made
  obtain ⟨rfl, active, past, missing⟩ := of_decide_eq_true made
  exact ⟨world, signal, node, effect, ran, present, active, past, found, live, missing⟩

end ReactiveTree
