import ReactiveTree.Proofs.Reactive.OwnReads

/-! # Dependencies are what the last run has read

Before the closure of a node runs, its record is cleared; while it runs, exactly its own reads go on
record. So when it ends, its dependencies are what it has read with tracked reads in its own frame,
as far as that is still live: each node once, in the order of first reads, and the node itself left
out. Passes that begin meanwhile take a running effect off the changed sources, and put it back; so
every live dependency of an effect lists it when its body ends.
-/

namespace ReactiveTree

variable {κ ν σ α : Type}

namespace World

variable {world after final : World κ ν σ} {owner : ReactorId} {id : NodeId}

/-- A reactor with a live node is there. -/
theorem reactor?_of_contains (live : (world.graph owner).contains id = true) :
    ∃ state, world.reactor? owner = some state := by
  cases found : world.reactor? owner with
  | some state => exact ⟨state, rfl⟩
  | none =>
    have bare : world.graph owner = .empty := by
      unfold graph
      rw [found]
      rfl
    rw [bare] at live
    cases live

/-- In its own frame reads are tracked for a node that is live. -/
theorem reader?_enterBody (live : ((world.enterBody id owner).graph owner).contains id = true) :
    (world.enterBody id owner).reader? owner = some id := by
  obtain ⟨_, found⟩ := reactor?_of_contains live
  unfold enterBody at found ⊢
  rw [reactor?_modifyReactor, if_pos rfl] at found
  obtain ⟨state, present, _⟩ := Option.map_eq_some_iff.mp found
  rw [reader?_pushFrame, if_pos rfl, present]
  rfl

/-- The closure of a node is to run, and nothing is on record of the node. -/
structure Cleared (world : World κ ν σ) (owner : ReactorId) (id : NodeId) : Prop where
  engaged : world.Engaged id
  clear : (world.graph owner).dependenciesOf id = []

theorem cell?_engage {effect : Effect κ} (found : world.effect? id = some effect) :
    (world.engage id owner).cell? id =
      some (.effect { effect with executing := true, cleanup := none }) := by
  have executing : (world.modifyEffect id ({ · with executing := true })).cell? id =
      some (.effect { effect with executing := true }) := by
    unfold World.modifyEffect
    rw [cell?_modifyCell, if_pos rfl, effect?_eq_some_iff.mp found]
    rfl
  show (World.modifyEffect ((world.modifyEffect id ({ · with executing := true })).mapGraph owner
    (·.unsubscribe id)) id ({ · with cleanup := none })).cell? id = _
  unfold World.modifyEffect at executing ⊢
  rw [cell?_modifyCell, if_pos rfl]
  show Option.map _ ((world.modifyCell id _).cell? id) = _
  rw [executing]
  rfl

theorem dependenciesOf_unsubscribe (world : World κ ν σ) (owner : ReactorId) (id : NodeId) :
    ((world.mapGraph owner (·.unsubscribe id)).graph owner).dependenciesOf id = [] := by
  rw [graph_mapGraph world owner rfl, if_pos rfl]
  exact Graph.dependenciesOf_unsubscribe _

theorem cleared_engage {effect : Effect κ} (found : world.effect? id = some effect)
    (owner : ReactorId) : (world.engage id owner).Cleared owner id :=
  ⟨⟨_, cell?_engage found, rfl⟩, dependenciesOf_unsubscribe _ owner id⟩

/-- What comes before the closure of a computed: its record is cleared. -/
def clearComputed (world : World κ ν σ) (id : NodeId) (owner : ReactorId) : World κ ν σ :=
  (world.modifyComputed id ({ · with computing := true })).mapGraph owner (·.unsubscribe id)

theorem cleared_clearComputed {computed : Computed κ ν} (found : world.computed? id = some computed)
    (owner : ReactorId) : (world.clearComputed id owner).Cleared owner id := by
  refine ⟨⟨.computed { computed with computing := true }, ?_, rfl⟩, dependenciesOf_unsubscribe _ owner id⟩
  show (world.modifyComputed id ({ · with computing := true })).cell? id = _
  unfold World.modifyComputed
  rw [cell?_modifyCell, if_pos rfl, computed?_eq_some_iff.mp found]
  rfl

end World

section

variable [BEq ν]

/-- What comes before the body of an effect: its record is cleared, and its last cleanup is called. -/
def clearEffect (engine : Engine κ ν σ) (id : NodeId) (effect : Effect κ) : Run κ ν σ Unit := do
  Run.modify (·.modifyEffect id ({ · with executing := true }))
  Run.modify (·.mapGraph effect.reactor (·.unsubscribe id))
  match ← Run.update (·.takeCleanup id) with
  | some code => engine (.cleanUp id code)
  | none => pure ()

/-- A run of an effect is a run of its body, with its record cleared before and its result dealt with
afterwards. -/
theorem runEffect_eq (program : Program κ ν σ) (engine : Engine κ ν σ) (id : NodeId)
    (effect : Effect κ) : runEffect program engine id effect = (do
      clearEffect engine id effect
      let given ← runBody effect.reactor id (effectAct program engine id effect)
      Run.modify (·.modifyEffect id fun effect => { effect with runs := effect.runs + 1 })
      settleRun engine id effect given
      Run.modify (·.modifyEffect id ({ · with executing := false }))) := by
  unfold runEffect clearEffect
  simp only [bind_assoc]
  refine bind_congr fun _ => bind_congr fun _ => bind_congr fun due => ?_
  cases due <;> rfl

/-- An evaluation of a computed is a run of its closure, with its record cleared before and the result
kept afterwards. -/
theorem evaluate_eq (program : Program κ ν σ) (engine : Engine κ ν σ) {world : World κ ν σ}
    {id : NodeId} (computed : Computed κ ν)
    (idle : (world.computed? id).any Computed.computing = false) :
    evaluate program engine id computed world = (do
      let given ← runBody computed.reactor id ((program.compute computed.body).run engine)
      Run.modify (·.modifyComputed id ({ · with computing := false }))
      match given with
      | .ok value => Run.modify (·.settleValue id computed value)
      | .error panic =>
        Run.modify (·.mapGraph computed.reactor (·.modify id Node.markDirty))
        Run.raise panic : Run κ ν σ Unit) (world.clearComputed id computed.reactor) := by
  unfold evaluate
  rw [Run.world_bind, idle]
  rfl

/-- A run of the closure of a node, from a clear record to the end of the closure: what it reads in
its own frame, and the world in which it ends. The closure may return, fail or panic. -/
inductive ClosureRun (program : Program κ ν σ) (depth : Nat) (id : NodeId) :
    ReactorId → NodeKind → List NodeId → World κ ν σ → Prop
  | effect {world middle ended : World κ ν σ} {effect : Effect κ}
      {given : Except Panic (Except String (Option κ))} (found : world.effect? id = some effect)
      (active : effect.active = true) (alive : world.isAlive effect.reactor = true)
      (cleared : clearEffect (activate program depth) id effect world = some (.ok (), middle))
      (ran : runBody effect.reactor id (effectAct program (activate program depth) id effect) middle =
        some (.ok given, ended)) :
      ClosureRun program depth id effect.reactor .effect
        (effect.ownReads program depth id (middle.enterBody id effect.reactor)) ended
  | computed {world ended : World κ ν σ} {computed : Computed κ ν} {given : Except Panic ν}
      (found : world.computed? id = some computed)
      (ran : runBody computed.reactor id (program.run depth (program.compute computed.body))
        (world.clearComputed id computed.reactor) = some (.ok given, ended)) :
      ClosureRun program depth id computed.reactor .derived
        (program.ownReads depth computed.reactor (program.compute computed.body)
          ((world.clearComputed id computed.reactor).enterBody id computed.reactor)) ended

variable {program : Program κ ν σ} {depth : Nat} {id : NodeId} {owner : ReactorId}

omit [BEq ν] in
/-- A body runs in a frame of its own, and its panic becomes a value. -/
theorem of_runBody {body : Run κ ν σ α} {world ended : World κ ν σ}
    {result : Except Panic (Except Panic α)}
    (ran : runBody owner id body world = some (result, ended)) :
    ∃ given inner, result = .ok given ∧ body (world.enterBody id owner) = some (given, inner) ∧
      ended = inner.leaveBody id owner (!given.isOk) := by
  unfold runBody at ran
  rw [Run.modify_bind] at ran
  cases inside : body (world.enterBody id owner) with
  | none =>
    have stuck : (runInFrame owner (.tracked id) body).attempt (world.record (.started id)) = none :=
      Run.attempt_of_none (Run.thenAlways_of_none inside _)
    rw [Run.bind_of_none stuck] at ran
    cases ran
  | some outcome =>
    obtain ⟨given, inner⟩ := outcome
    have framed : (runInFrame owner (.tracked id) body).attempt (world.record (.started id)) =
        some (.ok given, inner.modifyReactor owner Reactor.popFrame) :=
      Run.attempt_of (Run.thenAlways_modify_of inside _)
    rw [Run.bind_of_ok framed] at ran
    cases ran
    exact ⟨given, inner, rfl, rfl, rfl⟩

open World in
/-- What a body puts on record of a node whose record was clear, and what it upholds. -/
theorem runBody_records {body : Run κ ν σ α} {reads : World κ ν σ → List NodeId}
    {world ended : World κ ν σ} {given : Except Panic α} (single : ended.Within owner)
    (lasts : ended.lasting owner id = true) (notes : Run.Notes program ended owner id reads body)
    (engaged : world.Engaged id) (ran : runBody owner id body world = some (.ok given, ended)) :
    ended.onRecord ended owner id = world.noted ended owner id (reads (world.enterBody id owner)) ∧
      Upholds ended owner id True False world ended := by
  obtain ⟨_, inner, ⟨⟩, inside, rfl⟩ := of_runBody ran
  have trail := notes.traces _ given inner inside
  have leads : inner.Precedes (inner.leaveBody id owner (!given.isOk)) :=
    (leads_leaveBody inner id owner (!given.isOk)).precedes
  have begun : Attends (inner.leaveBody id owner (!given.isOk)) owner id world
      (world.enterBody id owner) := .enterBody world id owner
  have known : ((world.enterBody id owner).cell? id).isSome := by
    obtain ⟨_, found, _⟩ := begun.engaged engaged
    rw [found]
    rfl
  have reading : (world.enterBody id owner).reader? owner = some id :=
    reader?_enterBody ((trail.leads.precedes.trans leads).live owner id known lasts)
  have left : Attends (inner.leaveBody id owner (!given.isOk)) owner id inner
      (inner.leaveBody id owner (!given.isOk)) := .leaveBody inner id owner (!given.isOk)
  refine ⟨?_, ?_⟩
  · have noted := notes.notes _ reading (begun.engaged engaged) given inner inside leads
    rw [World.noted, begun.onRecord] at noted
    rw [left.onRecord]
    exact noted
  · exact (Upholds.onward begun ((trail.upholds leads single lasts (begun.engaged engaged)).mono
      (fun _ => trivial) False.elim)).then left

theorem clearEffect_trails (id : NodeId) (effect : Effect κ) (world : World κ ν σ) :
    (clearEffect (activate program depth) id effect).Ends world fun _ middle =>
      Trail program (.flat .serving) (world.engage id effect.reactor) middle := by
  have traced : Traced program depth :=
    activate_traced program depth
  refine .of_modify (.of_modify (.of_update ?_))
  split
  next code _ => exact cleanUp_traces traced id code _
  next =>
    rintro _ _ ⟨⟩
    exact .refl _ _

open World in
/-- A body that runs after the record of its node was cleared. -/
theorem runBody_of_cleared {body : Run κ ν σ α} {reads : World κ ν σ → List NodeId}
    {start world ended : World κ ν σ} {given : Except Panic α} (single : ended.Within owner)
    (lasts : ended.lasting owner id = true) (notes : Run.Notes program ended owner id reads body)
    (cleared : start.Cleared owner id)
    (called : Trail program (.flat .serving) start world)
    (ran : runBody owner id body world = some (.ok given, ended)) :
    ended.onRecord ended owner id = ((reads (world.enterBody id owner)).filter fun read =>
        ended.lasting owner read && decide (read ≠ id)).eraseDups ∧
      Upholds ended owner id True False start ended := by
  have leads : world.Precedes ended := by
    obtain ⟨_, inner, ⟨⟩, inside, rfl⟩ := of_runBody ran
    exact (((leads_enterBody world id owner).trans (notes.traces _ given inner inside).leads).trans
      (leads_leaveBody inner id owner _)).precedes
  have calls : Upholds ended owner id False False start world :=
    (called.upholds leads single lasts cleared.engaged).quiet And.left
  obtain ⟨noted, upholds⟩ :=
    runBody_records single lasts notes (calls.stays.engaged cleared.engaged) ran
  have bare : world.onRecord ended owner id = [] := by
    rw [calls.onRecord not_false, World.onRecord, cleared.clear]
    rfl
  refine ⟨?_, (calls.mono False.elim fun due => due).trans upholds⟩
  rw [noted, World.noted, bare, addAll_nil_eq_eraseDups]

/-- When the closure of a node ends and the node is still registered, its dependencies are what the
closure has read with tracked reads in its own frame, as far as it is live: every other node once, in
the order of first reads. Every live dependency of an effect lists it. -/
theorem dependencies_eq_ownReads {kind : NodeKind} {reads : List NodeId} {ended : World κ ν σ}
    (run : ClosureRun program depth id owner kind reads ended) (single : ended.Within owner)
    (registered : (ended.graph owner).kind? id = some kind) :
    ((ended.graph owner).dependenciesOf id).filter (ended.graph owner).contains =
        (reads.filter fun read =>
          (ended.graph owner).contains read && decide (read ≠ id)).eraseDups ∧
      (kind = .effect → ∀ read ∈ (ended.graph owner).dependenciesOf id,
        (ended.graph owner).contains read = true → id ∈ (ended.graph owner).dependentsOf read) := by
  have lasts : ended.lasting owner id = true := Graph.contains_of_kind? registered
  cases run with
  | @effect world middle ended effect given found active alive cleared ran =>
    have notes : Run.Notes program ended effect.reactor id _ _ :=
      Effect.run_notes single lasts depth id effect rfl
    obtain ⟨recorded, upholds⟩ := runBody_of_cleared single lasts notes
      (World.cleared_engage found effect.reactor) (clearEffect_trails id effect world _ middle cleared)
      ran
    have clear := (World.cleared_engage found effect.reactor).clear
    have unread : ∀ {condition : NodeId → Prop},
        ∀ read ∈ ((world.engage id effect.reactor).graph effect.reactor).dependenciesOf id,
          condition read := by
      rw [clear]
      exact nofun
    have atWork : (world.engage id effect.reactor).AtWork effect.reactor id :=
      ⟨⟨_, World.cell?_engage found, rfl, active⟩, World.isAlive_mapGraph alive,
        upholds.stays.kind.symm.trans registered⟩
    exact ⟨recorded, fun _ => upholds.heeded atWork unread (Or.inr unread)⟩
  | @computed world ended computed given found ran =>
    have notes : Run.Notes program ended computed.reactor id _ _ :=
      Program.run_notes single lasts depth (program.compute computed.body)
    obtain ⟨recorded, _⟩ := runBody_of_cleared single lasts notes
      (World.cleared_clearComputed found computed.reactor) (.refl _ _) ran
    exact ⟨recorded, nofun⟩

end

/-- A computed that reads a signal, and an effect that reads the computed and another signal, and looks
at the first signal without tracking. -/
def Program.tracking : Program Unit Nat Unit where
  compute _ := .call (.get ⟨1⟩)
  effect _ :=
    .bind (.call (.get ⟨2⟩)) fun _ => .bind (.call (.get ⟨3⟩)) fun _ =>
      .bind (.call (.peek ⟨0⟩)) fun _ =>
        .bind (.within (.untracked ⟨0⟩) (.call (.get ⟨1⟩))) fun _ =>
          .bind (.call (.get ⟨2⟩)) fun _ => .pure (.ok none)
  cleanup _ := .pure ()
  callback _ _ := .pure ()
  render _ := .pure none
  handler _ := .pure ()

/-- Make the signals, the computed and the effect. -/
def Act.tracking : Act Unit Nat Unit Unit :=
  .bind (.call (.newReactor {})) fun _ => .bind (.call (.newSignal ⟨0⟩ 1)) fun _ =>
    .bind (.call (.newSignal ⟨0⟩ 2)) fun _ => .bind (.call (.newSignal ⟨0⟩ 3)) fun _ =>
      .bind (.call (.newComputed ⟨0⟩ ())) fun _ =>
        .bind (.call (.newEffect ⟨0⟩ () false)) fun _ => .pure ()

/-- The effect reads a signal, the computed and the signal again; what the computed reads is not in
its frame. -/
theorem dependencies_eq_ownReads_tracking :
    ∃ reads ended, ClosureRun Program.tracking 3 ⟨4⟩ ⟨0⟩ .effect reads ended ∧
      ended.Within ⟨0⟩ ∧ (ended.graph ⟨0⟩).kind? ⟨4⟩ = some .effect ∧ reads = [⟨2⟩, ⟨3⟩, ⟨2⟩] ∧
      ((ended.graph ⟨0⟩).dependenciesOf ⟨4⟩).filter (ended.graph ⟨0⟩).contains = [⟨2⟩, ⟨3⟩] ∧
      ∀ read ∈ (ended.graph ⟨0⟩).dependenciesOf ⟨4⟩, (ended.graph ⟨0⟩).contains read = true →
        ⟨4⟩ ∈ (ended.graph ⟨0⟩).dependentsOf read := by
  have runs : ((Program.tracking.run 3 Act.tracking (World.initial ())).bind fun reached =>
      (reached.2.effect? ⟨4⟩).bind fun effect =>
        (clearEffect (activate Program.tracking 3) ⟨4⟩ effect reached.2).bind fun cleared =>
          (runBody effect.reactor ⟨4⟩
            (effectAct Program.tracking (activate Program.tracking 3) ⟨4⟩ effect) cleared.2).map
              fun left => decide (effect.reactor = ⟨0⟩ ∧ effect.active = true ∧
                reached.2.isAlive effect.reactor = true ∧ cleared.1 = .ok () ∧ left.1.isOk = true ∧
                effect.ownReads Program.tracking 3 ⟨4⟩ (cleared.2.enterBody ⟨4⟩ effect.reactor) =
                  [⟨2⟩, ⟨3⟩, ⟨2⟩] ∧
                (∀ cell ∈ left.2.cells, cell.reactor = ⟨0⟩) ∧
                (left.2.graph ⟨0⟩).kind? ⟨4⟩ = some .effect ∧
                (left.2.graph ⟨0⟩).contains ⟨2⟩ = true ∧ (left.2.graph ⟨0⟩).contains ⟨3⟩ = true)) =
      some true := by
    decide +kernel
  obtain ⟨⟨_, world⟩, _, reached⟩ := Option.bind_eq_some_iff.mp runs
  obtain ⟨effect, found, reached⟩ := Option.bind_eq_some_iff.mp reached
  obtain ⟨⟨result, middle⟩, cleared, reached⟩ := Option.bind_eq_some_iff.mp reached
  obtain ⟨⟨given, ended⟩, ran, reached⟩ := Option.map_eq_some_iff.mp reached
  obtain ⟨home, active, alive, same, returned, reads, single, registered, live, live'⟩ :=
    of_decide_eq_true reached
  dsimp only at home active alive same returned reads single registered live live'
  subst same
  have ended' : ended.Within ⟨0⟩ := fun id cell found => single cell (List.mem_of_getElem? found)
  cases given with
  | error => cases returned
  | ok given =>
    have run := ClosureRun.effect found active alive cleared ran
    rw [home] at run reads
    obtain ⟨recorded, listed⟩ := dependencies_eq_ownReads run ended' registered
    refine ⟨_, ended, run, ended', registered, reads, recorded.trans ?_, listed rfl⟩
    rw [reads]
    simp [live, live', List.eraseDups_cons]

end ReactiveTree
