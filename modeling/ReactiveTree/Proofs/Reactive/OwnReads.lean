import ReactiveTree.Proofs.Reactive.Accounts
import ReactiveTree.Proofs.Reactive.Recording

/-! # What a closure reads in its own frame

`Act.ownReads` says from the text of an act, and from the worlds in which its parts begin, which
tracked reads it makes in the frame of the closure that it belongs to. A read that is not tracked, an
untracked block, and whatever runs in another frame make none. `Run.Notes` says that exactly these
reads go on record while the act runs.
-/

namespace ReactiveTree

variable {κ ν σ α β : Type}

/-- What a tracked read of a node reads: a signal that was not destroyed, or a computed. -/
def World.readOf (world : World κ ν σ) (id : NodeId) : List NodeId :=
  match world.cell? id with
  | some (.signal signal) => if signal.destroyed then [] else [id]
  | some (.computed _) => [id]
  | _ => []

/-- What a call reads in the frame of its caller. An event handler runs in that frame too. -/
def Request.ownReads (handled : κ → World κ ν σ → List NodeId) (world : World κ ν σ) :
    Request κ ν σ → List NodeId
  | .get id => world.readOf id
  | .tryGet id => world.readOf id
  | .invoke handler => handled handler world
  | _ => []

/-- What is read after a run that gives a value. -/
def Run.andThen (first : Run κ ν σ α) (world : World κ ν σ)
    (next : α → World κ ν σ → List NodeId) : List NodeId :=
  match first world with
  | some (.ok value, after) => next value after
  | _ => []

section

variable [BEq ν]

/-- What an act reads in the frame of its closure, in order. -/
def Act.ownReads (engine : Engine κ ν σ) (handled : κ → World κ ν σ → List NodeId)
    (owner : ReactorId) : {α : Type} → Act κ ν σ α → World κ ν σ → List NodeId
  | _, .pure _, _ => []
  | _, .raise _, _ => []
  | _, .bind first next, world =>
    first.ownReads engine handled owner world ++
      (first.run engine).andThen world fun value => (next value).ownReads engine handled owner
  | _, .call request, world => request.ownReads handled world
  | _, .within (.batch home) body, world =>
    body.ownReads engine handled owner (world.modifyReactor home Reactor.openBatch)
  | _, .within (.untracked home) body, world =>
    if home = owner then []
    else body.ownReads engine handled owner (world.modifyReactor home (·.pushFrame .untracked))
  | _, .attempt body, world => body.ownReads engine handled owner world

/-- What an event handler reads in the frame of its caller. -/
def Program.handlerReads (program : Program κ ν σ) (owner : ReactorId) :
    Nat → κ → World κ ν σ → List NodeId
  | 0, _, _ => []
  | depth + 1, handler, world =>
    (program.handler handler).ownReads (activate program depth) (program.handlerReads owner depth)
      owner world

/-- What an act of a program reads in the frame of its closure. -/
def Program.ownReads (program : Program κ ν σ) (depth : Nat) (owner : ReactorId)
    (act : Act κ ν σ α) : World κ ν σ → List NodeId :=
  act.ownReads (activate program depth) (program.handlerReads owner depth) owner

/-- What an effect reads in its frame. A subscription reads its signal, and then runs its callback
unless this is its first run. -/
def Effect.ownReads (program : Program κ ν σ) (depth : Nat) (id : NodeId) (effect : Effect κ)
    (world : World κ ν σ) : List NodeId :=
  match effect.body with
  | .plain code => program.ownReads depth effect.reactor (program.effect code) world
  | .watch signal callback =>
    world.readOf signal ++
      (readNode (activate program depth) signal true).andThen world fun value after =>
        if (after.effect? id).any Effect.primed then
          program.ownReads depth effect.reactor (program.callback callback value)
            (after.record (.delivered id value))
        else []
  | .render mount =>
    match world.mount? mount with
    | none => []
    | some state => program.ownReads depth effect.reactor (program.render state.code) world

end

/-- What is on record of a node after more reads, as far as they last and are not of the node. -/
def World.noted (world final : World κ ν σ) (owner : ReactorId) (id : NodeId)
    (reads : List NodeId) : List NodeId :=
  addAll (world.onRecord final owner id)
    (reads.filter fun read => final.lasting owner read && decide (read ≠ id))

@[simp] theorem World.noted_nil (world final : World κ ν σ) (owner : ReactorId) (id : NodeId) :
    world.noted final owner id [] = world.onRecord final owner id :=
  rfl

theorem World.noted_append {world middle final : World κ ν σ} {owner : ReactorId} {id : NodeId}
    {reads : List NodeId} (recorded : middle.onRecord final owner id = world.noted final owner id reads)
    (more : List NodeId) : middle.noted final owner id more = world.noted final owner id (reads ++ more) := by
  unfold noted at recorded ⊢
  rw [recorded, List.filter_append, addAll_append]

@[simp] theorem Run.andThen_nil (first : Run κ ν σ α) (world : World κ ν σ) :
    (first.andThen world fun _ _ => []) = [] := by
  unfold andThen
  split <;> rfl

section

variable [BEq ν] {program : Program κ ν σ} {final : World κ ν σ} {owner : ReactorId} {id : NodeId}
  {reads : World κ ν σ → List NodeId}

/-- However the run ends, it has put on record of the running node what it has read. -/
structure Run.Notes (program : Program κ ν σ) (final : World κ ν σ) (owner : ReactorId) (id : NodeId)
    (reads : World κ ν σ → List NodeId) (run : Run κ ν σ α) : Prop where
  traces : Run.Traces program .acting run
  notes : ∀ world, world.reader? owner = some id → world.Engaged id → run.Ends world fun _ after =>
    after.Precedes final → after.onRecord final owner id = world.noted final owner id (reads world)

namespace Run

theorem Notes.attempt {body : Run κ ν σ α} (notes : Notes program final owner id reads body) :
    Notes program final owner id reads body.attempt := by
  refine ⟨notes.traces.attempt, fun world reading engaged => ?_⟩
  exact ((notes.notes world reading engaged).attempt).mono fun _ _ ⟨_, _, noted⟩ => noted

variable (single : final.Within owner) (lasts : final.lasting owner id = true)

include single lasts

/-- A run in which no read is tracked for its caller. -/
theorem Notes.silent {run : Run κ ν σ α} (serves : Traces program .serving run) :
    Notes program final owner id (fun _ => []) run := by
  refine ⟨serves.serve, fun world _ engaged result after ran leads => ?_⟩
  exact ((serves world result after ran).upholds leads single lasts engaged).onRecord And.left

theorem Notes.bind {first : Run κ ν σ α} {next : α → Run κ ν σ β}
    {more : α → World κ ν σ → List NodeId} (start : Notes program final owner id reads first)
    (goOn : ∀ value, Notes program final owner id (more value) (next value)) :
    Notes program final owner id (fun world => reads world ++ first.andThen world more)
      (first >>= next) := by
  refine ⟨start.traces.bind fun value => (goOn value).traces,
    fun world reading engaged result after ran leads => ?_⟩
  rcases of_bind_eq_some ran with ⟨panic, stopped, _⟩ | ⟨value, middle, returned, ran⟩
  · have rest : first.andThen world more = [] := by
      unfold andThen
      rw [stopped]
    rw [rest, List.append_nil]
    exact start.notes world reading engaged _ after stopped leads
  · have rest : first.andThen world more = more value middle := by
      unfold andThen
      rw [returned]
    have begun := start.traces world _ middle returned
    have leads' := ((goOn value).traces middle result after ran).leads.precedes.trans leads
    have stays := (begun.upholds leads' single lasts engaged).stays
    have reading' : middle.reader? owner = some id :=
      (World.reader?_congr (begun.opened owner)).trans reading
    rw [rest, (goOn value).notes middle reading' (stays.engaged engaged) result after ran leads]
    exact World.noted_append (start.notes world reading engaged _ middle returned leads') _

/-- What is silent after a run adds nothing to what it reads. -/
theorem Notes.then {first : Run κ ν σ α} {next : α → Run κ ν σ β}
    (start : Notes program final owner id reads first)
    (goOn : ∀ value, Traces program .serving (next value)) :
    Notes program final owner id reads (first >>= next) := by
  have noted := Notes.bind single lasts start fun value => .silent single lasts (goOn value)
  simpa only [andThen_nil, List.append_nil] using noted

omit single lasts in
/-- A run that looks at the world first. -/
theorem Notes.world_bind {next : World κ ν σ → Run κ ν σ α}
    (seen : World κ ν σ → World κ ν σ → List NodeId)
    (goOn : ∀ world, Notes program final owner id (seen world) (next world)) :
    Notes program final owner id (fun world => seen world world) (Run.world >>= next) :=
  ⟨.world_bind fun world => (goOn world).traces world, fun world => (goOn world).notes world⟩

/-- A run that changes the world first, for which no closure takes part. -/
theorem Notes.modify_bind {change : World κ ν σ → World κ ν σ} {next : Unit → Run κ ν σ α}
    (changed : ∀ world, World.Change world (change world))
    (goOn : Notes program final owner id reads (next ())) :
    Notes program final owner id (fun world => reads (change world)) (Run.modify change >>= next) :=
  .bind single lasts (.silent single lasts (.modify fun world => .change (changed world)))
    fun _ => goOn

end Run

variable {depth : Nat} (single : final.Within owner) (lasts : final.lasting owner id = true)

include single lasts

theorem readNode_notes (read : NodeId) : Run.Notes program final owner id (·.readOf read)
    (readNode (activate program depth) read true) := by
  have traced : Traced program depth :=
    activate_traced program depth
  refine ⟨readNode_traces traced read, fun world reading engaged => ?_⟩
  have known : (world.cell? id).isSome := by
    obtain ⟨_, found, _⟩ := engaged
    rw [found]
    rfl
  have recorded : ∀ {cell : Cell κ ν}, world.cell? read = some cell → cell.kind ≠ .effect →
      (world.noteRead cell.reactor read).Precedes final →
        (world.noteRead cell.reactor read).onRecord final owner id = world.noted final owner id [read] ∧
          World.Upholds final owner id True False world (world.noteRead cell.reactor read) := by
    intro cell found readable leads
    have read' : Trail program (.flat .acting) world
        (world.noteRead cell.reactor read) := .read found readable
    have here : cell.reactor = owner := (read'.leads.precedes.trans leads).belongs single found
    have known' : (world.cell? read).isSome := by rw [found]; rfl
    rw [here] at leads ⊢
    exact ⟨World.onRecord_ownRead reading leads lasts known known', .ownRead reading known'⟩
  have other : ∀ (signal : ∀ state, world.cell? read ≠ some (.signal state))
      (computed : ∀ state, world.cell? read ≠ some (.computed state)), world.readOf read = [] := by
    intro signal computed
    unfold World.readOf
    split
    next found => exact absurd found (signal _)
    next found => exact absurd found (computed _)
    next => rfl
  refine .of_world ?_
  split
  next signal found =>
    unfold requireLive
    cases gone : signal.destroyed with
    | true =>
      have unread : world.readOf read = [] := by simp [World.readOf, found, gone]
      rintro _ _ ⟨⟩ _
      rw [unread, World.noted_nil]
    | false =>
      have own : world.readOf read = [read] := by simp [World.readOf, found, gone]
      rintro _ _ ⟨⟩ leads
      rw [own]
      exact (recorded found (by rintro ⟨⟩) leads).1
  next computed found =>
    have own : world.readOf read = [read] := by simp [World.readOf, found]
    -- The node goes on record before it is brought up to date.
    refine .of_modify fun result after ran leads => ?_
    have refreshed := readComputed_traces traced read _ result after ran
    obtain ⟨noted, upholds⟩ := recorded found (by rintro ⟨⟩) (refreshed.leads.precedes.trans leads)
    rw [own, ← noted]
    exact (refreshed.upholds leads single lasts (upholds.stays.engaged engaged)).onRecord And.left
  next signal computed =>
    rintro _ _ ⟨⟩ _
    rw [other signal computed, World.noted_nil]

theorem tryComputed_notes (read : NodeId) : Run.Notes program final owner id (·.readOf read)
    (tryComputed (activate program depth) read) := by
  refine .then single lasts (readNode_notes single lasts read).attempt fun result => ?_
  cases result with
  | ok value => exact .pure _
  | error panic => exact .pure _

/-- What carries event handlers out puts on record what they read. -/
def Run.Handles (program : Program κ ν σ) (final : World κ ν σ) (owner : ReactorId) (id : NodeId)
    (depth : Nat) : Prop :=
  ∀ handler, Run.Notes program final owner id (program.handlerReads owner depth handler)
    (activate program depth (.invoke handler))

theorem perform_notes (handles : Run.Handles program final owner id depth) (request : Request κ ν σ) :
    Run.Notes program final owner id (fun world => request.ownReads (program.handlerReads owner depth) world)
      (perform (activate program depth) request) := by
  have traced : Traced program depth :=
    activate_traced program depth
  have silent : ¬ request.Tracks → Run.Notes program final owner id (fun _ => [])
      (perform (activate program depth) request) := fun untracked =>
    .silent single lasts (perform_serves traced request untracked)
  cases request with
  | get read => exact readNode_notes single lasts read
  | tryGet read => exact tryComputed_notes single lasts read
  | invoke handler => exact handles handler
  | _ => exact silent not_false

theorem Act.run_notes (handles : Run.Handles program final owner id depth) (act : Act κ ν σ α) :
    Run.Notes program final owner id (program.ownReads depth owner act)
      (act.run (activate program depth)) := by
  have traced : Traced program depth :=
    activate_traced program depth
  induction act with
  | pure value => exact .silent single lasts (.pure value)
  | raise panic => exact .silent single lasts (.raise panic)
  | bind first next ih ih' => exact .bind single lasts ih ih'
  | call request => exact perform_notes single lasts handles request
  | attempt body ih => exact ih.attempt
  | within scope body ih =>
    refine ⟨Act.run_traces traced (.within scope body),
      fun world reading engaged => ?_⟩
    cases scope with
    | batch home =>
      have opened : World.Attends final owner id world
          (world.modifyReactor home Reactor.openBatch) := .openBatch world home
      have reading' : (world.modifyReactor home Reactor.openBatch).reader? owner = some id :=
        (World.reader?_openBatch world home owner).trans reading
      intro result after ran leads
      obtain ⟨given, inner, _, inside, closed, _⟩ := Run.of_thenAlways ran
      have trail := ih.traces _ given inner inside
      have noted := ih.notes _ reading' (opened.engaged engaged) given inner inside
      have left : World.Attends final owner id inner (inner.closeBatch home).2 := .closeBatch inner home
      rw [World.noted, opened.onRecord] at noted
      rcases closeBatch_trails traced home inner _ after closed with ⟨_, rfl⟩ | ⟨_, pass⟩
      · rw [left.onRecord]
        exact noted ((inner.leads_closeBatch home).precedes.trans leads)
      · have leads' := pass.leads.precedes.trans leads
        have leads'' := (inner.leads_closeBatch home).precedes.trans leads'
        have engaged' := (trail.upholds leads'' single lasts (opened.engaged engaged)).stays.engaged
          (opened.engaged engaged)
        have passed := pass.upholds leads single lasts (left.engaged engaged')
        rw [passed.onRecord And.left, left.onRecord]
        exact noted leads''
    | untracked home =>
      have pushed : World.Attends final owner id world
          (world.modifyReactor home (·.pushFrame .untracked)) := .pushFrame world home .untracked
      intro result after ran leads
      obtain ⟨given, inner, _, inside, closed, _⟩ := Run.of_thenAlways ran
      cases closed
      have leads' : inner.Precedes final := (inner.leads_popFrame home).precedes.trans leads
      have popped : World.Attends final owner id inner (inner.modifyReactor home Reactor.popFrame) :=
        .popFrame inner home
      rw [popped.onRecord]
      show inner.onRecord final owner id = world.noted final owner id (if _ then _ else _)
      by_cases here : home = owner
      · subst here
        have apart : (world.modifyReactor home (·.pushFrame .untracked)).reader? home ≠ some id :=
          World.reader?_pushFrame_ne world nofun
        have trail := (ih.traces _ given inner inside).upholds leads' single lasts
          (pushed.engaged engaged)
        rw [if_pos rfl, World.noted_nil, trail.onRecord fun own => apart own.2, pushed.onRecord]
      · have reading' : (world.modifyReactor home (·.pushFrame .untracked)).reader? owner = some id := by
          rw [World.reader?_pushFrame, if_neg (Ne.symm here)]
          exact reading
        have noted := ih.notes _ reading' (pushed.engaged engaged) given inner inside leads'
        rw [World.noted, pushed.onRecord] at noted
        rw [if_neg here]
        exact noted

/-- At every depth of nesting event handlers put on record what they read. -/
theorem activate_handles (depth : Nat) : Run.Handles program final owner id depth := by
  induction depth with
  | zero => exact fun _ => ⟨fun _ _ _ => nofun, fun _ _ _ _ _ => nofun⟩
  | succ depth ih => exact fun handler => Act.run_notes single lasts ih (program.handler handler)

theorem Program.run_notes (depth : Nat) (act : Act κ ν σ α) :
    Run.Notes program final owner id (program.ownReads depth owner act) (program.run depth act) :=
  Act.run_notes single lasts (activate_handles single lasts depth) act

theorem Effect.run_notes (depth : Nat) (name : NodeId) (effect : Effect κ)
    (home : effect.reactor = owner) : Run.Notes program final owner id (effect.ownReads program depth name)
      (effectAct program (activate program depth) name effect) := by
  subst home
  have traced : Traced program depth :=
    activate_traced program depth
  unfold effectAct Effect.ownReads
  cases effect.body with
  | plain code => exact Program.run_notes single lasts depth (program.effect code)
  | watch signal callback =>
    refine .bind single lasts (readNode_notes single lasts signal) fun value => ?_
    refine .world_bind (fun seen after =>
      if (seen.effect? name).any Effect.primed then
        program.ownReads depth effect.reactor (program.callback callback value)
          (after.record (.delivered name value))
      else []) fun world => ?_
    split
    next =>
      have called : Run.Notes program final effect.reactor id _ _ :=
        Program.run_notes single lasts depth (program.callback callback value)
      exact .modify_bind single lasts (fun world => .record world trivial)
        (called.then single lasts fun _ => .pure _)
    next =>
      have primed : ∀ world : World κ ν σ, world.Change
          (world.modifyEffect name ({ · with primed := true })) :=
        fun world => .tweak name fun _ => ⟨rfl, rfl, rfl, rfl, rfl⟩
      exact .silent single lasts ((Run.Traces.modify fun world => .change (primed world)).bind
        fun _ => Run.Traces.pure _)
  | render mount =>
    refine .world_bind (fun seen after =>
      match seen.mount? mount with
      | none => []
      | some state => program.ownReads depth effect.reactor (program.render state.code) after)
      fun world => ?_
    cases world.mount? mount with
    | none => exact .silent single lasts (.pure _)
    | some state =>
      have rendered : Run.Notes program final effect.reactor id _ _ := Program.run_notes single lasts depth (program.render state.code)
      refine rendered.then single lasts fun next => ?_
      refine (Run.Traces.update fun world => .change (world.shown_present mount next).change).bind
        fun outcome => ?_
      cases outcome with
      | ok => exact .pure _
      | error => exact .pure _

end

end ReactiveTree
