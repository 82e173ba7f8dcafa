import ReactiveTree.Proofs.Reactive.Nesting

/-! # Guarding refreshes

The engine asks whether a computed is being evaluated only when it is about to evaluate it again.
`activateGuarded` asks before every refresh, so that with it every read of a computed in progress
fails as a cycle. In a guarded world both engines do the same, and with more levels of nesting than
there are nodes both come to an end.
-/

namespace ReactiveTree

variable {κ ν σ : Type}

section

variable [BEq ν] (program : Program κ ν σ)

/-- Bring a computed up to date, unless it is being evaluated. -/
def refreshGuarded (engine : Engine κ ν σ) (id : NodeId) : Run κ ν σ Unit := do
  if (← Run.world).inProgress id then
    Run.raise (.text ("cycle detected: computed " ++ id.text ++ " depends on itself"))
  else refreshComputed program engine id

/-- Carry out an activation as `activate` does, but with a guard before every refresh. -/
def activateGuarded : Nat → Engine κ ν σ
  | 0, _ => Run.stuck
  | depth + 1, .refresh id => refreshGuarded program (activateGuarded depth) id
  | depth + 1, .execute id => executeEffect program (activateGuarded depth) id
  | depth + 1, .cleanUp id code => callCleanup program (activateGuarded depth) id code
  | depth + 1, .invoke handler => (program.handler handler).run (activateGuarded depth)

end

/-- A run keeps the world nested. Where that is safe and the world is guarded, it comes to an end,
the guarded run does the same, and the world stays guarded. -/
structure Stays (program : Program κ ν σ) (nodes : List (Making κ)) (stack : List NodeId)
    (safe : Prop) {α : Type} (world : World κ ν σ) (body guarded : Run κ ν σ α) : Prop where
  kept : ∀ result after, body world = some (result, after) → Kept program nodes world after
  ends : safe → world.Guarded program nodes stack → ∃ result after,
    body world = some (result, after) ∧ guarded world = some (result, after) ∧
      after.Guarded program nodes stack

/-- Two engines refresh what the computeds at work lead to; with so many levels left, both come to
an end and do the same. -/
def Guards (program : Program κ ν σ) (nodes : List (Making κ)) (depth : Nat)
    (engine guarded : Engine κ ν σ) : Prop :=
  ∀ stack world id, world.Nested program nodes stack →
    (∀ other ∈ stack, LeadsTo program nodes other id) →
    Stays program nodes stack (nodes.length < depth + stack.length) world
      (engine (.refresh id)) (guarded (.refresh id))

section

variable {program : Program κ ν σ} {nodes : List (Making κ)} {stack : List NodeId} {safe : Prop}
variable {world middle after inner : World κ ν σ} {id : NodeId} {depth : Nat}
variable {engine guarded : Engine κ ν σ} {α β : Type}

namespace Stays

theorem returns (led : world.Led program nodes) {body guarded : Run κ ν σ α}
    {result : Except Panic α} (ran : body world = some (result, world))
    (ran' : guarded world = some (result, world)) :
    Stays program nodes stack safe world body guarded where
  kept result' after eq := by
    rw [ran] at eq
    cases eq
    exact ⟨rfl, led⟩
  ends _ guarded := ⟨result, world, ran, ran', guarded⟩

/-- A change of the world may come before a run. -/
theorem prepend (kept : Kept program nodes world middle)
    (guards : safe → world.Guarded program nodes stack → middle.Guarded program nodes stack)
    {body guarded rest rest' : Run κ ν σ α} (ran : body world = rest middle)
    (ran' : guarded world = rest' middle)
    (stays : Stays program nodes stack safe middle rest rest') :
    Stays program nodes stack safe world body guarded where
  kept result after eq := by
    have kept' := stays.kept result after (ran.symm.trans eq)
    exact ⟨kept'.skeleton.trans kept.skeleton, kept'.led⟩
  ends safe guarded := by
    obtain ⟨result, after, eq, eq', last⟩ := stays.ends safe (guards safe guarded)
    exact ⟨result, after, ran.trans eq, ran'.trans eq', last⟩

theorem bind {first first' : Run κ ν σ α} {next next' : α → Run κ ν σ β}
    (start : Stays program nodes stack safe world first first')
    (finish : ∀ value middle, Kept program nodes world middle →
      Stays program nodes stack safe middle (next value) (next' value)) :
    Stays program nodes stack safe world (first >>= next) (first' >>= next') where
  kept result after eq := by
    rcases Run.of_bind_eq_some eq with ⟨panic, stopped, _⟩ | ⟨value, middle, began, went⟩
    · exact start.kept _ after stopped
    · have kept := start.kept _ middle began
      have kept' := (finish value middle kept).kept result after went
      exact ⟨kept'.skeleton.trans kept.skeleton, kept'.led⟩
  ends safe guarded := by
    obtain ⟨result, middle, began, began', guarded'⟩ := start.ends safe guarded
    cases result with
    | error panic =>
      exact ⟨.error panic, middle, Run.bind_of_error began next, Run.bind_of_error began' next',
        guarded'⟩
    | ok value =>
      obtain ⟨result, after, went, went', last⟩ :=
        (finish value middle (start.kept _ middle began)).ends safe guarded'
      exact ⟨result, after, (Run.bind_of_ok began next).trans went,
        (Run.bind_of_ok began' next').trans went', last⟩

theorem attempt {body guarded : Run κ ν σ α}
    (stays : Stays program nodes stack safe world body guarded) :
    Stays program nodes stack safe world body.attempt guarded.attempt where
  kept result after eq := by
    cases ran : body world with
    | none =>
      rw [Run.attempt_of_none ran] at eq
      cases eq
    | some outcome =>
      obtain ⟨given, last⟩ := outcome
      rw [Run.attempt_of ran] at eq
      cases eq
      exact stays.kept given _ ran
  ends safe guarded := by
    obtain ⟨result, after, ran, ran', last⟩ := stays.ends safe guarded
    exact ⟨.ok result, after, Run.attempt_of ran, Run.attempt_of ran', last⟩

theorem modify {change : World κ ν σ → World κ ν σ} (kept : Kept program nodes world (change world))
    (guards : safe → world.Guarded program nodes stack →
      (change world).Guarded program nodes stack) :
    Stays program nodes stack safe world (Run.modify change) (Run.modify change) where
  kept result after eq := by
    cases eq
    exact kept
  ends safe guarded := ⟨.ok (), change world, rfl, rfl, guards safe guarded⟩

/-- A computed may be counted among those at work while a run goes on. -/
theorem within {safe' : Prop} {body guarded : Run κ ν σ α}
    (stays : Stays program nodes (id :: stack) safe' world body guarded) (implies : safe → safe')
    (begins : safe → world.Guarded program nodes stack →
      world.Guarded program nodes (id :: stack)) :
    Stays program nodes stack safe world body guarded where
  kept := stays.kept
  ends safe guarded := by
    obtain ⟨result, after, ran, ran', last⟩ := stays.ends (implies safe) (begins safe guarded)
    exact ⟨result, after, ran, ran', last.tail⟩

end Stays

private theorem readComputed_stays (refreshes : Stays program nodes stack safe world
      (engine (.refresh id)) (guarded (.refresh id))) :
    Stays program nodes stack safe world (readComputed engine id) (readComputed guarded id) := by
  refine refreshes.bind fun _ middle kept => ?_
  refine Stays.prepend ⟨rfl, kept.led⟩ (fun _ guarded => guarded) (Run.world_bind _ middle)
    (Run.world_bind _ middle) ?_
  cases (middle.computed? id).bind Computed.value with
  | none => exact Stays.returns kept.led rfl rfl
  | some value => exact Stays.returns kept.led rfl rfl

theorem readNode_stays (guards : Guards program nodes depth engine guarded)
    (nested : world.Nested program nodes stack)
    (leads : ∀ other ∈ stack, LeadsTo program nodes other id) :
    Stays program nodes stack (nodes.length < depth + stack.length) world
      (readNode engine id true) (readNode guarded id true) := by
  unfold readNode
  refine Stays.prepend ⟨rfl, nested.led⟩ (fun _ guarded => guarded) (Run.world_bind _ world)
    (Run.world_bind _ world) ?_
  have noted : ∀ owner, Edits program nodes stack world (world.noteRead owner id) := fun owner =>
    edits_noteRead fun reader read => leads reader (nested.readers owner reader read)
  have kept : ∀ owner, Kept program nodes world (world.noteRead owner id) := fun owner =>
    ⟨World.skeleton_noteRead _ _ _, nested.led.edits (noted owner)⟩
  have guarded' : ∀ owner, world.Guarded program nodes stack →
      (world.noteRead owner id).Guarded program nodes stack := fun owner guarded =>
    guarded.edits (noted owner) fun other _ =>
      World.inProgress_of_skeleton (World.skeleton_noteRead _ _ _) other
  cases world.cell? id with
  | none => exact Stays.returns nested.led rfl rfl
  | some cell =>
    cases cell with
    | effect state => exact Stays.returns nested.led rfl rfl
    | signal state =>
      dsimp only
      unfold requireLive
      by_cases destroyed : state.destroyed
      · rw [if_pos destroyed]
        exact Stays.returns nested.led (Run.bind_of_error rfl _) (Run.bind_of_error rfl _)
      · rw [if_neg destroyed]
        have answers : Stays program nodes stack (nodes.length < depth + stack.length)
            (world.noteRead state.reactor id) (Pure.pure state.value) (Pure.pure state.value) :=
          Stays.returns (kept state.reactor).led rfl rfl
        exact answers.prepend (kept state.reactor) (fun _ => guarded' state.reactor) rfl rfl
    | computed state =>
      refine Stays.prepend (kept state.reactor) (fun _ => guarded' state.reactor)
        (Run.modify_bind _ _ _) (Run.modify_bind _ _ _) ?_
      exact readComputed_stays (guards stack _ id (nested.kept (kept state.reactor)) leads)

/-- A closure that reads only what the computeds at work lead to. -/
theorem act_stays [BEq ν] (guards : Guards program nodes depth engine guarded)
    {act : Act κ ν σ α}
    (reads : act.OnlyReads fun node => ∀ other ∈ stack, LeadsTo program nodes other node)
    (nested : world.Nested program nodes stack) :
    Stays program nodes stack (nodes.length < depth + stack.length) world (act.run engine)
      (act.run guarded) := by
  induction act generalizing world with
  | pure value => exact Stays.returns nested.led rfl rfl
  | raise panic => exact Stays.returns nested.led rfl rfl
  | bind first next ihFirst ihNext =>
    exact (ihFirst reads.1 nested).bind fun value middle kept =>
      ihNext value (reads.2 value) (nested.kept kept)
  | call request =>
    cases request with
    | get node => exact readNode_stays guards nested reads
    | tryGet node =>
      refine (readNode_stays guards nested reads).attempt.bind fun result middle kept => ?_
      cases result with
      | ok value => exact Stays.returns kept.led rfl rfl
      | error panic => exact Stays.returns kept.led rfl rfl
    | _ => exact reads.elim
  | within scope body => exact reads.elim
  | attempt body ih => exact (ih reads nested).attempt

/-- A run may be carried out while its computed is held. -/
private theorem holding_stays {body body' : Run κ ν σ Unit}
    (nested : world.Nested program nodes stack) {state : Computed κ ν}
    (known : world.cell? id = some (.computed state))
    (held : (world.hold (.node id)).Nested program nodes stack →
      Stays program nodes stack safe (world.hold (.node id)) body body') :
    Stays program nodes stack safe world (Run.holding (.node id) body)
      (Run.holding (.node id) body') := by
  have taken : Edits program nodes stack world (world.hold (.node id)) :=
    Edits.of_same (World.node?_hold world id)
  have holding : (world.hold (.node id)).Nested program nodes stack := by
    refine nested.of_continues (World.continues_hold world id) nested.readers
      (fun other progress => ?_) (nested.led.edits taken)
    rw [World.inProgress_hold] at progress
    exact nested.evaluated other progress
  have stays := held holding
  have released : ∀ result after, body (world.hold (.node id)) = some (result, after) →
      (after.lose (.node id)).skeleton = world.skeleton ∧
        after.drop (.node id) = after.lose (.node id) := by
    intro result after ran
    have skeleton := (stays.kept result after ran).skeleton
    constructor
    · rw [World.skeleton_lose, skeleton, ← World.skeleton_lose, World.lose_hold]
    · exact World.drop_eq_lose
        (World.holdersOf_ne_one known (nested.held id _ known rfl) skeleton)
  have given : ∀ after : World κ ν σ, Edits program nodes stack after (after.lose (.node id)) :=
    fun after => Edits.of_same (World.node?_lose after id)
  constructor
  · intro result after eq
    cases ran : body (world.hold (.node id)) with
    | none =>
      rw [Run.holding_of_none ran] at eq
      cases eq
    | some outcome =>
      obtain ⟨result', inner⟩ := outcome
      obtain ⟨skeleton, dropped⟩ := released result' inner ran
      rw [Run.holding_of ran, dropped] at eq
      cases eq
      exact ⟨skeleton, (stays.kept result inner ran).led.edits (given inner)⟩
  · intro safely guarding
    have guarding' : (world.hold (.node id)).Guarded program nodes stack :=
      guarding.edits taken fun other _ => World.inProgress_hold world id other
    obtain ⟨result, inner, ran, ran', last⟩ := stays.ends safely guarding'
    obtain ⟨skeleton, dropped⟩ := released result inner ran
    refine ⟨result, inner.lose (.node id), ?_, ?_, last.edits (given inner) fun other _ => ?_⟩
    · rw [Run.holding_of ran, dropped]
    · rw [Run.holding_of ran', dropped]
    · rw [World.inProgress_of_skeleton skeleton, World.inProgress_of_skeleton
        (stays.kept result inner ran).skeleton, World.inProgress_hold]

/-- A refresh of a cell without a computed, or of a computed without a node, does nothing. -/
private theorem refreshComputed_of_absent [BEq ν]
    (absent : ∀ state, world.cell? id = some (.computed state) → world.node? id = none) :
    refreshComputed program engine id world = some (.ok (), world) := by
  unfold refreshComputed
  rw [Run.world_bind]
  cases known : world.computed? id with
  | none => rfl
  | some state =>
    have present := World.computed?_eq_some_iff.mp known
    have gone : (world.graph state.reactor).node? id = none :=
      (World.node?_eq present).symm.trans (absent state present)
    dsimp only
    rw [gone]
    rfl

/-- An evaluation of a computed in progress is a cycle. -/
private theorem evaluate_of_inProgress [BEq ν] (progress : world.inProgress id = true)
    (computed : Computed κ ν) :
    evaluate program engine id computed world =
      some (.error (.text ("cycle detected: computed " ++ id.text ++ " depends on itself")),
        world) := by
  have busy : (world.computed? id).any Computed.computing = true := progress
  unfold evaluate
  rw [Run.world_bind, busy]
  rfl

/-- In a guarded world the guard before a refresh makes no difference. -/
private theorem refreshGuarded_eq [BEq ν] (nested : world.Nested program nodes stack)
    (leads : ∀ other ∈ stack, LeadsTo program nodes other id)
    (guarding : world.Guarded program nodes stack) :
    refreshGuarded program engine id world = refreshComputed program engine id world := by
  unfold refreshGuarded
  rw [Run.world_bind]
  by_cases progress : world.inProgress id = true
  · rw [if_pos progress]
    obtain ⟨state, present, _⟩ := (Option.any_eq_true _ _).mp progress
    have known := World.computed?_eq_some_iff.mp present
    have member := nested.evaluated id progress
    obtain ⟨_, node, live, mark⟩ := guarding.engaged id member (leads id member)
    have others : (world.hold (.node id)).holdersOf (.node id) ≠ 1 :=
      World.holdersOf_ne_one known (nested.held id _ known rfl) rfl
    have cycle : evaluate program engine id state (world.hold (.node id)) = _ :=
      evaluate_of_inProgress ((World.inProgress_hold world id id).trans progress) state
    have refreshed : refreshComputed program engine id world =
        Run.holding (.node id) (evaluate program engine id state) world := by
      rw [refreshComputed_of known live, mark]
    rw [refreshed, Run.holding_of cycle, World.drop_eq_lose others, World.lose_hold]
    rfl
  · rw [if_neg progress]

section

variable (onlyReads : ∀ making body, making ∈ nodes → making.code? = some body →
  (program.compute body).OnlyReads fun _ => True)
include onlyReads

/-- The closure of a computed reads what it leads to. -/
private theorem closure_leads {state : Computed κ ν} (nested : world.Nested program nodes stack)
    (known : world.cell? id = some (.computed state))
    (leads : ∀ other ∈ stack, LeadsTo program nodes other id) :
    (program.compute state.body).OnlyReads
      fun node => ∀ other ∈ id :: stack, LeadsTo program nodes other node := by
  have made := nested.made id _ known
  have closure := onlyReads _ state.body (List.mem_of_getElem? made) rfl
  refine closure.restrict fun node may other member => ?_
  have direct : MayRead program nodes id node := ⟨_, _, made, rfl, may⟩
  rcases List.mem_cons.mp member with rfl | member
  · exact Relation.TransGen.single direct
  · exact (leads other member).tail direct

variable [BEq ν]

/-- An evaluation of a computed that the computeds at work lead to. -/
theorem evaluate_stays (guards : Guards program nodes depth engine guarded)
    (nested : world.Nested program nodes stack) {state computed : Computed κ ν}
    (known : world.cell? id = some (.computed state)) (owner : computed.reactor = state.reactor)
    (code : computed.body = state.body)
    (leads : ∀ other ∈ stack, LeadsTo program nodes other id)
    (deep : safe → nodes.length < depth + (stack.length + 1))
    (dirty : safe → LeadsTo program nodes id id →
      ∃ node, world.node? id = some node ∧ node.freshness = .dirty) :
    Stays program nodes stack safe world (evaluate program engine id computed)
      (evaluate program guarded id computed) := by
  by_cases progress : world.inProgress id = true
  · exact Stays.returns nested.led (evaluate_of_inProgress progress computed)
      (evaluate_of_inProgress progress computed)
  have idle : (world.computed? id).any Computed.computing = false := Bool.eq_false_iff.mpr progress
  have reads := closure_leads onlyReads nested known leads
  have closure := act_stays guards reads (nested.enter known)
  rw [← owner, ← code] at closure
  have returned : ∀ inner, Kept program nodes (world.enter id computed.reactor) inner →
      ∃ state', inner.cell? id = some (.computed state') ∧ computed.reactor = state'.reactor := by
    intro inner kept
    obtain ⟨first, present, owner', _⟩ :=
      (World.continues_enter world id computed.reactor).computed known
    obtain ⟨last, present', owner'', _⟩ :=
      (World.continues_of_skeleton kept.skeleton).computed present
    exact ⟨last, present', owner.trans (owner''.trans owner').symm⟩
  constructor
  · intro result after eq
    cases ran : (program.compute computed.body).run engine (world.enter id computed.reactor) with
    | none =>
      rw [evaluate_of_none idle ran] at eq
      cases eq
    | some outcome =>
      obtain ⟨given, inner⟩ := outcome
      have same := congrArg Prod.snd (Option.some.inj ((evaluate_of idle ran).symm.trans eq))
      have kept := closure.kept given inner ran
      obtain ⟨state', present, owner'⟩ := returned inner kept
      obtain ⟨edits, panicked, skeleton⟩ :
          Edits program nodes [] inner (inner.afterEvaluation id computed given).2 ∧ _ :=
        afterEvaluation_edits present owner' List.not_mem_nil given
      rw [same] at edits skeleton
      exact ⟨skeleton.trans (World.skeleton_leave_enter idle kept.skeleton panicked),
        kept.led.edits edits⟩
  · intro safely guarding
    have apart : id ∉ stack := fun member => progress (guarding.engaged id member (leads id member)).1
    have within := guarding.enter nested known apart (dirty safely)
    rw [← owner] at within
    obtain ⟨given, inner, ran, ran', last⟩ := closure.ends (deep safely) within
    obtain ⟨state', present, owner'⟩ := returned inner (closure.kept given inner ran)
    obtain ⟨edits, panicked, skeleton⟩ :
        Edits program nodes stack inner (inner.afterEvaluation id computed given).2 ∧ _ :=
      afterEvaluation_edits present owner' apart given
    refine ⟨(inner.afterEvaluation id computed given).1, (inner.afterEvaluation id computed given).2,
      evaluate_of idle ran, evaluate_of idle ran', last.tail.edits edits fun other member => ?_⟩
    rw [World.inProgress_of_skeleton skeleton]
    exact World.inProgress_leave inner id _ _ fun same => apart (same ▸ member)

/-- A check of inputs that the computed has read. -/
theorem checkInputs_stays (guards : Guards program nodes depth engine guarded)
    {inputs : List (NodeId × Nat)} (led : ∀ entry ∈ inputs, LeadsTo program nodes id entry.1)
    (nested : world.Nested program nodes stack) {state computed : Computed κ ν}
    (known : world.cell? id = some (.computed state)) (owner : computed.reactor = state.reactor)
    (code : computed.body = state.body)
    (leads : ∀ other ∈ stack, LeadsTo program nodes other id)
    (deep : safe → nodes.length < depth + (stack.length + 1))
    (once : safe → ¬ LeadsTo program nodes id id) :
    Stays program nodes stack safe world (checkInputs program engine id computed inputs)
      (checkInputs program guarded id computed inputs) := by
  have apart : safe → id ∉ stack := fun safely member => once safely (leads id member)
  induction inputs generalizing world state with
  | nil =>
    have kept : ∀ node : Node, node.markClean.id = node.id := fun _ => rfl
    have changes := World.node?_mapGraph_modify known kept
    rw [show (Cell.computed state : Cell κ ν).reactor = computed.reactor from owner.symm] at changes
    have edits : ∀ stack, id ∉ stack → Edits program nodes stack world
        (world.mapGraph computed.reactor (·.modify id Node.markClean)) := fun stack idle =>
      edits_single idle changes fun _ => ⟨rfl, fun doubtful => nomatch doubtful⟩
    have skeleton := World.skeleton_mapGraph world computed.reactor (·.modify id Node.markClean)
    refine Stays.modify ⟨skeleton, nested.led.edits (edits [] List.not_mem_nil)⟩ ?_
    exact fun safely guarding => guarding.edits (edits stack (apart safely)) fun other _ =>
      World.inProgress_of_skeleton skeleton other
  | cons entry rest ih =>
    obtain ⟨input, version⟩ := entry
    have direct : LeadsTo program nodes id input := led _ List.mem_cons_self
    have refreshed := guards (id :: stack) world input nested.push fun other member => by
      rcases List.mem_cons.mp member with rfl | member
      · exact direct
      · exact (leads other member).trans direct
    unfold checkInputs
    refine (refreshed.within deep fun safely guarding =>
      guarding.push nested known (apart safely) (once safely)).bind fun _ middle kept => ?_
    refine Stays.prepend ⟨rfl, kept.led⟩ (fun _ guarding => guarding) (Run.world_bind _ middle)
      (Run.world_bind _ middle) ?_
    have nested' := nested.kept kept
    obtain ⟨state', known', owner', code'⟩ :=
      (World.continues_of_skeleton kept.skeleton).computed known
    split
    next =>
      exact evaluate_stays onlyReads guards nested' known' (owner.trans owner'.symm)
        (code.trans code'.symm) leads deep fun safely around => absurd around (once safely)
    next =>
      exact ih (fun entry member => led entry (List.mem_cons_of_mem _ member)) nested' known'
        (owner.trans owner'.symm) (code.trans code'.symm)

private theorem refreshComputed_stays (guards : Guards program nodes depth engine guarded)
    (nested : world.Nested program nodes stack)
    (leads : ∀ other ∈ stack, LeadsTo program nodes other id) :
    Stays program nodes stack (nodes.length < depth + 1 + stack.length) world
      (refreshComputed program engine id) (refreshComputed program guarded id) := by
  by_cases present : ∃ state node, world.cell? id = some (.computed state) ∧
      world.node? id = some node
  · obtain ⟨state, node, known, live⟩ := present
    obtain ⟨held, known', owner, code⟩ := (World.continues_hold world id).computed known
    have deep : nodes.length < depth + 1 + stack.length →
        nodes.length < depth + (stack.length + 1) := fun enough => by omega
    cases mark : node.freshness with
    | clean =>
      have same : ∀ engine : Engine κ ν σ,
          refreshComputed program engine id world = some (.ok (), world) := by
        intro engine
        rw [refreshComputed_of known live, mark]
        rfl
      exact Stays.returns nested.led (same engine) (same guarded)
    | dirty =>
      have same : ∀ engine : Engine κ ν σ, refreshComputed program engine id world =
          Run.holding (.node id) (evaluate program engine id state) world := by
        intro engine
        rw [refreshComputed_of known live, mark]
      have evaluated := holding_stays nested known fun holding =>
        evaluate_stays onlyReads guards holding known' owner.symm code.symm leads deep
          fun _ _ => ⟨node, (World.node?_hold world id id).trans live, mark⟩
      exact evaluated.prepend ⟨rfl, nested.led⟩ (fun _ guarding => guarding) (same engine)
        (same guarded)
    | doubtful =>
      have same : ∀ engine : Engine κ ν σ, refreshComputed program engine id world =
          Run.holding (.node id) (checkInputs program engine id state
            ((world.graph state.reactor).derivedInputs id)) world := by
        intro engine
        rw [refreshComputed_of known live, mark]
      have found : (world.graph state.reactor).node? id = some node :=
        (World.node?_eq known).symm.trans live
      have led : ∀ entry ∈ (world.graph state.reactor).derivedInputs id,
          LeadsTo program nodes id entry.1 := fun entry member =>
        nested.led id node live entry.1 (mem_derivedInputs found member).1
      have checked : Stays program nodes stack
          (nodes.length < depth + 1 + stack.length ∧ ¬ LeadsTo program nodes id id) world _ _ :=
        holding_stays nested known fun holding =>
          checkInputs_stays onlyReads guards led holding known' owner.symm code.symm leads
            (fun safely => deep safely.1) And.right
      have checked' := checked.prepend ⟨rfl, nested.led⟩ (fun _ guarding => guarding) (same engine)
        (same guarded)
      exact ⟨checked'.kept, fun enough guarding =>
        checked'.ends ⟨enough, guarding.undoubted id node live mark⟩ guarding⟩
  · have absent : ∀ engine : Engine κ ν σ,
        refreshComputed program engine id world = some (.ok (), world) := fun engine =>
      refreshComputed_of_absent fun state known => Option.eq_none_iff_forall_not_mem.mpr
        fun node live => present ⟨state, node, known, live⟩
    exact Stays.returns nested.led (absent engine) (absent guarded)

/-- With one level of nesting more, the engines refresh through one computed at work less. -/
theorem activate_guards (depth : Nat) :
    Guards program nodes depth (activate program depth) (activateGuarded program depth) := by
  induction depth with
  | zero =>
    intro stack world id nested leads
    refine Stays.mk (fun result after eq => nomatch eq) fun enough guarding => ?_
    have distinct : (stack.map NodeId.index).Nodup :=
      guarding.nodup.map fun first second same => NodeId.ext same
    have bounded : stack.map NodeId.index ⊆ List.range nodes.length := by
      intro index member
      obtain ⟨id, listed, rfl⟩ := List.mem_map.mp member
      exact List.mem_range.mpr (guarding.known id listed)
    have few := (distinct.subperm bounded).length_le
    rw [List.length_map, List.length_range] at few
    omega
  | succ depth ih =>
    intro stack world id nested leads
    have stays := refreshComputed_stays onlyReads ih nested leads
    refine ⟨stays.kept, fun enough guarding => ?_⟩
    obtain ⟨result, after, ran, ran', last⟩ := stays.ends enough guarding
    exact ⟨result, after, ran, (refreshGuarded_eq nested leads guarding).trans ran', last⟩

end

end

end ReactiveTree
