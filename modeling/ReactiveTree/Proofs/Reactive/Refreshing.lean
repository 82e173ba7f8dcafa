import ReactiveTree.Proofs.Reactive.Readiness

/-! # Bringing computeds up to date

A read of a node, a run of a closure that only reads and a refresh of a computed are all described
in the same way: they always come to an end, they make nothing but progress, and in a world that is
up to date they give what the table of answers says. The proof is an induction on the levels of
nesting, and in each level on the act of a closure.
-/

namespace ReactiveTree

variable {κ ν σ : Type}

/-- A drift that leaves the skeleton alone and keeps the marks consistent. -/
structure Advance (chart : Chart) (bound : Nat) (reader : Option NodeId) (world after : World κ ν σ) :
    Prop where
  skeleton : after.skeleton = world.skeleton
  drift : Drift chart bound reader world after
  consistent : after.Consistent chart

/-- An advance that keeps a world up to date. -/
structure Progress (chart : Chart) (program : Program κ ν σ) (truth : NodeId → Except Panic ν)
    (level bound : Nat) (reader : Option NodeId) (world after : World κ ν σ) : Prop
    extends Advance chart bound reader world after where
  upToDate : world.UpToDate chart program truth level → after.UpToDate chart program truth level

/-- A run comes to an end and makes progress, and in an up-to-date world it gives what is wanted. -/
def Answers (chart : Chart) (program : Program κ ν σ) (truth : NodeId → Except Panic ν)
    (level bound : Nat) (reader : Option NodeId) {α : Type} (world : World κ ν σ) (body : Run κ ν σ α)
    (wanted : Except Panic α) : Prop :=
  ∃ result after, body world = some (result, after) ∧
    Progress chart program truth level bound reader world after ∧
    (world.UpToDate chart program truth level → result = wanted)

/-- The node, if it belongs to a computed, is clean. -/
def World.CleanAt (world : World κ ν σ) (id : NodeId) : Prop :=
  ∀ node, world.node? id = some node → node.kind = .derived → node.freshness = .clean

/-- A run brings a node up to date or fails; in an up-to-date world it fails like the node. -/
def Refreshed (chart : Chart) (program : Program κ ν σ) (truth : NodeId → Except Panic ν)
    (level : Nat) (id : NodeId) (world : World κ ν σ) (body : Run κ ν σ Unit) : Prop :=
  ∃ result after, body world = some (result, after) ∧
    Progress chart program truth level (chart.rank id + 1) none world after ∧
    (result = .ok () → after.CleanAt id) ∧
    (world.UpToDate chart program truth level → result = world.refreshed truth id)

/-- An engine refreshes every node below so many levels, at which worlds are up to date. -/
structure Refreshes (chart : Chart) (program : Program κ ν σ) (truth : NodeId → Except Panic ν)
    (level : Nat) (engine : Engine κ ν σ) (levels : Nat) : Prop where
  within : levels ≤ level
  refresh : ∀ id world, chart.rank id < levels → world.Ready chart program (chart.rank id + 1) →
    Refreshed chart program truth level id world (engine (.refresh id))

/-- Reads of the allowed nodes are recorded for the reader; if it is a computed, it is being evaluated
and may depend on them. -/
def World.Tracks (world : World κ ν σ) (chart : Chart) (reader : Option NodeId)
    (allowed : NodeId → Prop) : Prop :=
  ∀ id, allowed id → (∀ owner, chart.home id = some owner → world.reader? owner = reader) ∧
    ∀ node, reader = some node → (world.node? node).map Node.kind = some .derived →
      chart.Admits node id ∧ world.inProgress node = true

section

variable {chart : Chart} {program : Program κ ν σ} {truth : NodeId → Except Panic ν}
variable {level bound bound' : Nat} {reader : Option NodeId} {world middle after : World κ ν σ}

namespace Progress

theorem refl (consistent : world.Consistent chart) :
    Progress chart program truth level bound reader world world :=
  ⟨⟨rfl, Drift.refl world, consistent⟩, fun upToDate => upToDate⟩

theorem trans (first : Progress chart program truth level bound reader world middle)
    (second : Progress chart program truth level bound reader middle after) :
    Progress chart program truth level bound reader world after where
  skeleton := second.skeleton.trans first.skeleton
  drift := first.drift.trans second.drift
  consistent := second.consistent
  upToDate upToDate := second.upToDate (first.upToDate upToDate)

theorem mono (progress : Progress chart program truth level bound reader world after)
    (le : bound ≤ bound') : Progress chart program truth level bound' reader world after :=
  { progress with drift := progress.drift.mono le }

theorem watched (progress : Progress chart program truth level bound none world after) :
    Progress chart program truth level bound reader world after :=
  { progress with drift := progress.drift.watched }

end Progress

theorem World.Ready.progress (ready : world.Ready chart program bound')
    (progress : Progress chart program truth level bound reader world after) :
    after.Ready chart program bound' where
  wired := ready.wired.of_continues (continues_of_skeleton progress.skeleton) progress.drift.outline
  consistent := progress.consistent
  idle := ready.idle.of_skeleton progress.skeleton

theorem World.Ready.mono (ready : world.Ready chart program bound') (le : bound ≤ bound') :
    world.Ready chart program bound :=
  { ready with idle := ready.idle.mono le }

theorem World.Tracks.progress {allowed : NodeId → Prop} {reader' : Option NodeId}
    (tracks : world.Tracks chart reader allowed)
    (progress : Progress chart program truth level bound reader' world after) :
    after.Tracks chart reader allowed := by
  intro id permitted
  obtain ⟨read, admits⟩ := tracks id permitted
  constructor
  · intro owner home
    rw [reader?_of_skeleton progress.skeleton]
    exact read owner home
  · intro node same derived
    rw [World.inProgress_of_skeleton progress.skeleton]
    refine admits node same ?_
    have outline := progress.drift.outline node
    obtain ⟨new, found, kind⟩ := Option.map_eq_some_iff.mp derived
    obtain ⟨old, present, equal⟩ := progress.drift.before found
    rw [present, Option.map_some, ← Node.kind_of_outline equal, kind]

namespace Answers

variable {α β : Type}

theorem pure (consistent : world.Consistent chart) (value : α) :
    Answers chart program truth level bound reader world (Pure.pure value) (.ok value) :=
  ⟨.ok value, world, rfl, Progress.refl consistent, fun _ => rfl⟩

theorem raise (consistent : world.Consistent chart) (panic : Panic) :
    Answers (α := α) chart program truth level bound reader world (Run.raise panic) (.error panic) :=
  ⟨.error panic, world, rfl, Progress.refl consistent, fun _ => rfl⟩

theorem bind {first : Run κ ν σ α} {next : α → Run κ ν σ β} {wanted : Except Panic α}
    {wantedNext : α → Except Panic β}
    (start : Answers chart program truth level bound reader world first wanted)
    (finish : ∀ value after, Progress chart program truth level bound reader world after →
      Answers chart program truth level bound reader after (next value) (wantedNext value)) :
    Answers chart program truth level bound reader world (first >>= next) (wanted.bind wantedNext) := by
  obtain ⟨result, middle, ran, progress, right⟩ := start
  cases result with
  | error panic =>
    refine ⟨.error panic, middle, Run.bind_of_error ran next, progress, fun upToDate => ?_⟩
    rw [← right upToDate]
    rfl
  | ok value =>
    obtain ⟨result', after, ran', progress', right'⟩ := finish value middle progress
    refine ⟨result', after, (Run.bind_of_ok ran next).trans ran', progress.trans progress',
      fun upToDate => ?_⟩
    rw [← right upToDate]
    exact right' (progress.upToDate upToDate)

theorem attempt {body : Run κ ν σ α} {wanted : Except Panic α}
    (start : Answers chart program truth level bound reader world body wanted) :
    Answers chart program truth level bound reader world body.attempt (.ok wanted) := by
  obtain ⟨result, after, ran, progress, right⟩ := start
  refine ⟨.ok result, after, Run.attempt_of ran, progress, fun upToDate => ?_⟩
  rw [right upToDate]

end Answers

private theorem map_step {β : Type} {node? : Option Node} {step : Node → Node} {view : Node → β}
    (kept : ∀ old, view (step old) = view old) : (node?.map step).map view = node?.map view := by
  rw [Option.map_map]
  congr 1
  funext old
  exact kept old

theorem noteRead_progress (consistent : world.Consistent chart) {id : NodeId} {cell : Cell κ ν}
    (known : world.cell? id = some cell) (home : chart.home id = some cell.reactor)
    (read : world.reader? cell.reactor = reader)
    (admits : ∀ node, reader = some node → (world.node? node).map Node.kind = some .derived →
      chart.Admits node id ∧ world.inProgress node = true) :
    Progress chart program truth level bound reader world (world.noteRead cell.reactor id) := by
  have steps := world.noteRead_cases cell.reactor id
  have continues : world.Continues (world.noteRead cell.reactor id) :=
    World.continues_of_skeleton (World.skeleton_noteRead _ _ _)
  refine ⟨⟨World.skeleton_noteRead _ _ _, ⟨?_, ?_, ?_, ?_⟩, ?_⟩, ?_⟩
  · intro other
    obtain ⟨step, eq, kept⟩ := steps other
    rw [eq, map_step fun old => (kept old).1]
  · intro other _
    obtain ⟨step, eq, kept⟩ := steps other
    rw [eq, map_step fun old => (kept old).2.1]
  · intro other _
    rw [World.value?_noteRead]
  · intro other _ apart
    obtain ⟨step, eq, kept⟩ := steps other
    rw [eq, map_step fun old => (kept old).2.2.resolve_right fun ⟨same, _⟩ =>
      apart (read.symm.trans same)]
  · intro other node found derived
    obtain ⟨step, eq, kept⟩ := steps other
    rw [eq] at found
    obtain ⟨old, present, rfl⟩ := Option.map_eq_some_iff.mp found
    obtain ⟨outline, standing, dependencies⟩ := kept old
    have derived' : old.kind = .derived := (Node.kind_of_outline outline).symm.trans derived
    obtain ⟨valued, below⟩ := consistent other old present derived'
    constructor
    · intro marked
      rw [World.value?_noteRead]
      exact valued fun dirty => marked ((congrArg Prod.fst standing).trans dirty)
    · intro dependency member
      rw [World.cell?_noteRead]
      rcases dependencies with same | ⟨reading, added⟩
      · rw [same] at member
        exact below dependency member
      · rw [added, mem_addLast] at member
        rcases member with old | rfl
        · exact below dependency old
        · obtain ⟨⟨lower, elsewhere | here⟩, _⟩ := admits other (read.symm.trans reading) (by
            rw [present, Option.map_some, derived'])
          · rw [home] at elsewhere
            cases elsewhere
          · exact ⟨lower, here, cell, known⟩
  · intro upToDate
    refine ⟨upToDate.solves.of_continues continues, fun other node low found => ?_⟩
    obtain ⟨step, eq, kept⟩ := steps other
    rw [eq] at found
    obtain ⟨old, present, rfl⟩ := Option.map_eq_some_iff.mp found
    obtain ⟨outline, standing, dependencies⟩ := kept old
    have progress := World.inProgress_of_skeleton (World.skeleton_noteRead world cell.reactor id) other
    refine (upToDate.shows other old low present).of_same continues.isComputed outline standing
      (World.value?_noteRead _ _ _ _) (fun was => progress.trans was) fun derived idle => ?_
    -- The reader is being evaluated, so a computed that is not has read nothing more.
    refine dependencies.resolve_right fun ⟨reading, _⟩ => ?_
    obtain ⟨_, running⟩ := admits other (read.symm.trans reading) (by
      rw [present, Option.map_some, ← Node.kind_of_outline outline, derived])
    rw [progress, running] at idle
    cases idle

theorem computed?_value (world : World κ ν σ) (id : NodeId) :
    (world.computed? id).bind Computed.value = world.value? id := by
  unfold World.computed? World.value?
  cases world.cell? id with
  | none => rfl
  | some cell => cases cell <;> rfl

/-- A computed that is clean in an up-to-date world has the right value. -/
theorem value?_of_cleanAt (ready : world.Ready chart program bound')
    (upToDate : world.UpToDate chart program truth level) {id : NodeId} {cell : Cell κ ν}
    (known : world.cell? id = some cell) (derived : cell.kind = .derived)
    (low : chart.rank id < level) (below : chart.rank id < bound') (clean : world.CleanAt id) :
    ∃ value, world.value? id = some value ∧ truth id = .ok value := by
  obtain ⟨node, live⟩ := ready.wired.live id cell known derived
  have kind : node.kind = .derived := (ready.wired.kind id cell node known live).trans derived
  have mark : node.freshness = .clean := clean node live kind
  have shows := upToDate.shows id node low live kind (ready.idle.inProgress below) (by rw [mark]; decide)
  have unchecked : node.unchecked = [] := by
    unfold Node.unchecked
    rw [mark]
    rfl
  rw [unchecked] at shows
  obtain ⟨value, kept, right⟩ := Option.map_eq_some_iff.mp shows
  exact ⟨value, kept, right.symm⟩

section

variable {engine : Engine κ ν σ} {levels : Nat}

theorem readComputed_of_error {id : NodeId} {panic : Panic}
    (ran : engine (.refresh id) world = some (.error panic, after)) :
    readComputed engine id world = some (.error panic, after) :=
  Run.bind_of_error ran _

/-- A computed that was refreshed is read with the value that it has kept. -/
theorem readComputed_of_ok {id : NodeId} (ran : engine (.refresh id) world = some (.ok (), after)) :
    readComputed engine id world = match after.value? id with
      | some value => some (.ok value, after)
      | none => some (.error (.text ("computed " ++ id.text ++ " has no value")), after) := by
  unfold readComputed
  rw [Run.bind_of_ok ran, Run.world_bind, computed?_value]
  cases after.value? id <;> rfl

private theorem readComputed_answers (refreshes : Refreshes chart program truth level engine levels)
    (ready : world.Ready chart program bound) {id : NodeId} {cell : Cell κ ν}
    (known : world.cell? id = some cell) (derived : cell.kind = .derived)
    (low : chart.rank id < levels) (below : chart.rank id < bound) :
    Answers chart program truth level bound reader world (readComputed engine id) (truth id) := by
  obtain ⟨result, after, ran, progress, clean, fine⟩ :=
    refreshes.refresh id world low (ready.mono below)
  have progress' : Progress chart program truth level bound reader world after :=
    (progress.mono below).watched
  cases result with
  | error panic =>
    refine ⟨.error panic, after, readComputed_of_error ran, progress', fun upToDate => ?_⟩
    exact (World.truth_of_refreshed_error known derived (fine upToDate).symm).symm
  | ok done =>
    obtain ⟨new, present, goes⟩ :=
      (World.continues_of_skeleton progress.skeleton).after known
    have read := readComputed_of_ok ran
    have right := fun upToDate : world.UpToDate chart program truth level =>
      value?_of_cleanAt (ready.progress progress) (progress.upToDate upToDate) present
        (goes.kind.trans derived) (Nat.lt_of_lt_of_le low refreshes.within) below (clean rfl)
    cases value : after.value? id with
    | none =>
      rw [value] at read right
      refine ⟨_, after, read, progress', fun upToDate => ?_⟩
      obtain ⟨_, found, _⟩ := right upToDate
      cases found
    | some value' =>
      rw [value] at read right
      refine ⟨_, after, read, progress', fun upToDate => ?_⟩
      obtain ⟨_, found, answer⟩ := right upToDate
      cases found
      exact answer.symm

/-- A tracked read of a node below the bound gives its answer. -/
theorem readNode_answers (refreshes : Refreshes chart program truth level engine levels)
    (ready : world.Ready chart program bound) {allowed : NodeId → Prop}
    (tracks : world.Tracks chart reader allowed) {id : NodeId} (permitted : allowed id)
    (low : chart.rank id < levels) (below : chart.rank id < bound) :
    Answers chart program truth level bound reader world (readNode engine id true) (truth id) := by
  obtain ⟨read, admits⟩ := tracks id permitted
  have solved := fun upToDate : world.UpToDate chart program truth level => upToDate.solves id
  unfold World.answerBy at solved
  unfold readNode
  cases known : world.cell? id with
  | none =>
    rw [known] at solved
    refine ⟨.error (.text "unknown handle"), world, ?_, Progress.refl ready.consistent,
      fun upToDate => (solved upToDate).symm⟩
    rw [Run.world_bind, known]
    rfl
  | some cell =>
    have home := ready.wired.home id cell known
    have noted : Progress chart program truth level bound reader world
        (world.noteRead cell.reactor id) :=
      noteRead_progress ready.consistent known home (read _ home) admits
    rw [known] at solved
    cases cell with
    | effect state =>
      refine ⟨.error (.text "unknown handle"), world, ?_, Progress.refl ready.consistent,
        fun upToDate => (solved upToDate).symm⟩
      rw [Run.world_bind, known]
      rfl
    | signal state =>
      by_cases destroyed : state.destroyed
      · refine ⟨.error (.text ("signal " ++ id.text ++ " " ++ "read" ++ " after destroy")), world, ?_,
          Progress.refl ready.consistent, fun upToDate => ?_⟩
        · rw [Run.world_bind, known]
          refine Run.bind_of_error ?_ _
          unfold requireLive
          rw [if_pos destroyed]
          rfl
        · simp only [destroyed, if_true] at solved
          exact (solved upToDate).symm
      · refine ⟨.ok state.value, world.noteRead state.reactor id, ?_, noted, fun upToDate => ?_⟩
        · rw [Run.world_bind, known]
          have allowed : requireLive state id "read" world = some (.ok (), world) := by
            unfold requireLive
            rw [if_neg destroyed]
            rfl
          exact (Run.bind_of_ok allowed _).trans rfl
        · simp only [destroyed, Bool.false_eq_true, if_false] at solved
          exact (solved upToDate).symm
    | computed state =>
      have known' : (world.noteRead state.reactor id).cell? id = some (.computed state) := by
        rw [World.cell?_noteRead, known]
      obtain ⟨result, after, ran, progress, right⟩ :=
        readComputed_answers refreshes (ready.progress noted) known' rfl low below
      refine ⟨result, after, ?_, noted.trans progress,
        fun upToDate => right (noted.upToDate upToDate)⟩
      rw [Run.world_bind, known]
      exact ran

/-- What follows a read that is answered with its failure as a value. -/
private def afterTrying (node : NodeId) : Except Panic ν → Run κ ν σ (Except ReactiveFailure ν)
  | .ok value => pure (.ok value)
  | .error panic => pure (.error (.failedComputed node panic.message))

/-- A closure that reads below the bound gives its outcome on the right answers. -/
theorem act_answers [BEq ν] (refreshes : Refreshes chart program truth level engine levels)
    {allowed : NodeId → Prop} (low : ∀ id, allowed id → chart.rank id < levels)
    (below : ∀ id, allowed id → chart.rank id < bound) {α : Type} {act : Act κ ν σ α}
    (reads : act.OnlyReads allowed) (ready : world.Ready chart program bound)
    (tracks : world.Tracks chart reader allowed) :
    Answers chart program truth level bound reader world (act.run engine) (act.outcome truth) := by
  induction act generalizing world with
  | pure value => exact Answers.pure ready.consistent value
  | raise panic => exact Answers.raise ready.consistent panic
  | bind first next ihFirst ihNext =>
    refine Answers.bind (ihFirst reads.1 ready tracks) fun value after progress => ?_
    exact ihNext value (reads.2 value) (ready.progress progress) (tracks.progress progress)
  | call request =>
    cases request with
    | get node => exact readNode_answers refreshes ready tracks reads (low _ reads) (below _ reads)
    | tryGet node =>
      have read := readNode_answers refreshes ready tracks reads (low _ reads) (below _ reads)
      have finish : ∀ (result : Except Panic ν) (after : World κ ν σ),
          Progress chart program truth level bound reader world after →
          Answers chart program truth level bound reader after (afterTrying node result)
            (.ok (Request.tried node result)) := by
        intro result after progress
        cases result with
        | ok value => exact Answers.pure progress.consistent _
        | error panic => exact Answers.pure progress.consistent _
      exact Answers.bind read.attempt finish
    | _ => exact reads.elim
  | within scope body => exact reads.elim
  | attempt body ih => exact (ih reads ready tracks).attempt

end

end

end ReactiveTree
