import ReactiveTree.Proofs.Reactive.Refreshing

/-! # Evaluating a computed

An evaluation enters, runs its closure on lower ranks, leaves and settles; a check of the inputs of
a doubtful computed refreshes them one by one. Both are refreshes in the sense of `Refreshed`, and so
an engine with one level of nesting more refreshes one rank more.
-/

namespace ReactiveTree

variable {κ ν σ : Type} {chart : Chart} {program : Program κ ν σ}
variable {truth : NodeId → Except Panic ν} {level bound : Nat} {world inner : World κ ν σ} {id : NodeId}

/-- The node of a computed that is not clean may change while its rank is below the bound. -/
private theorem not_settled {node : Node} (live : world.node? id = some node)
    (derived : node.kind = .derived) (stale : node.freshness ≠ .clean)
    (below : chart.rank id < bound) : ¬ world.Settled chart bound id := by
  rintro (far | clean)
  · omega
  · exact stale (clean node live derived)

private theorem map_view {β : Type} {node? : Option Node} {step : Node → Node} {view : Node → β}
    (kept : ∀ old, view (step old) = view old) : (node?.map step).map view = node?.map view := by
  rw [Option.map_map]
  congr 1
  funext old
  exact kept old

private theorem enter_drift {cell : Cell κ ν} (known : world.cell? id = some cell)
    (unsettled : ¬ world.Settled chart bound id) :
    Drift chart bound none world (world.enter id cell.reactor) := by
  have steps := World.enter_cases known
  refine Drift.of_single unsettled ?_ ?_ ?_ ?_
  · intro other
    obtain ⟨step, eq, kept⟩ := steps other
    rw [eq, map_view fun old => (kept old).1]
  · intro other _
    obtain ⟨step, eq, kept⟩ := steps other
    rw [eq, map_view fun old => (kept old).2.1]
  · intro other _
    rw [World.value?_enter]
  · intro other apart
    obtain ⟨step, eq, kept⟩ := steps other
    rw [eq, map_view fun old => ((kept old).2.2.trans (if_neg apart))]

private theorem enter_consistent {cell : Cell κ ν} (known : world.cell? id = some cell)
    (consistent : world.Consistent chart) :
    (world.enter id cell.reactor).Consistent chart := by
  intro other node found derived
  obtain ⟨step, eq, kept⟩ := World.enter_cases known other
  rw [eq] at found
  obtain ⟨old, present, rfl⟩ := Option.map_eq_some_iff.mp found
  obtain ⟨outline, standing, dependencies⟩ := kept old
  obtain ⟨valued, below⟩ := consistent other old present
    ((Node.kind_of_outline outline).symm.trans derived)
  constructor
  · intro marked
    rw [World.value?_enter]
    exact valued fun dirty => marked ((congrArg Prod.fst standing).trans dirty)
  · intro dependency member
    rw [dependencies] at member
    split at member
    next => cases member
    next =>
      obtain ⟨lower, home, cell', found'⟩ := below dependency member
      obtain ⟨new, present', _⟩ := (World.continues_enter world id cell.reactor).after found'
      exact ⟨lower, home, new, present'⟩

private theorem enter_ready {cell : Cell κ ν} (known : world.cell? id = some cell)
    (ready : world.Ready chart program (chart.rank id + 1)) :
    (world.enter id cell.reactor).Ready chart program (chart.rank id) where
  wired := by
    refine ready.wired.of_continues (World.continues_enter world id cell.reactor) fun other => ?_
    obtain ⟨step, eq, kept⟩ := World.enter_cases known other
    rw [eq, map_view fun old => (kept old).1]
  consistent := enter_consistent known ready.consistent
  idle := by
    intro other computed found below
    have apart : other ≠ id := by
      rintro rfl
      exact Nat.lt_irrefl _ below
    refine ready.idle other computed ?_ (Nat.lt_succ_of_lt below)
    unfold World.computed? at found ⊢
    rwa [World.cell?_enter, if_neg apart] at found

private theorem enter_upToDate {state : Computed κ ν}
    (known : world.cell? id = some (.computed state))
    (upToDate : world.UpToDate chart program truth level) :
    (world.enter id state.reactor).UpToDate chart program truth level where
  solves := upToDate.solves.of_continues (World.continues_enter world id state.reactor)
  shows other node low found := by
    obtain ⟨step, eq, kept⟩ := World.enter_cases known other
    have stepped := eq.symm.trans found
    obtain ⟨old, present, rfl⟩ := Option.map_eq_some_iff.mp stepped
    obtain ⟨outline, standing, dependencies⟩ := kept old
    have running := World.inProgress_enter known state.reactor other
    refine (upToDate.shows other old low present).of_same
      (World.continues_enter world id state.reactor).isComputed outline standing
      (World.value?_enter _ _ _ _) (fun was => by rw [running, was, Bool.or_true]) fun _ idle => ?_
    rw [running, Bool.or_eq_false_iff, decide_eq_false_iff_not] at idle
    rw [dependencies, if_neg idle.1]

private theorem enter_tracks {state : Computed κ ν}
    (known : world.cell? id = some (.computed state)) {node : Node}
    (live : world.node? id = some node) (home : chart.home id = some state.reactor) :
    (world.enter id state.reactor).Tracks chart (some id) (chart.Admits id) := by
  intro read admitted
  constructor
  · intro owner owned
    have same : owner = state.reactor := by
      rcases admitted.2 with nobody | same
      · rw [nobody] at owned
        cases owned
      · rw [same, home] at owned
        exact (Option.some.inj owned).symm
    rw [same]
    exact World.reader?_enter known live
  · intro reader same _
    cases same
    refine ⟨admitted, ?_⟩
    rw [World.inProgress_enter known, decide_eq_true rfl, Bool.true_or]

/-- A last change, at the node itself: it becomes dirty, or it has a value that is right in an
up-to-date world. -/
private theorem settle_progress {left after : World κ ν σ}
    (start : Advance chart (chart.rank id + 1) none world left)
    (unsettled : ¬ left.Settled chart (chart.rank id + 1) id)
    (before : world.UpToDate chart program truth level → left.Solves program truth ∧
      ∀ other node, chart.rank other < level → other ≠ id → left.node? other = some node →
        left.Shows truth other node)
    (skeleton : after.skeleton = left.skeleton) {step : Node → Node}
    (nodes : ∀ other, after.node? other =
      if other = id then (left.node? id).map step else left.node? other)
    (kept : ∀ old, (step old).outline = old.outline ∧ (step old).dependencies = old.dependencies)
    (values : ∀ other, other ≠ id → after.value? other = left.value? other)
    (fresh : (∀ old, (step old).freshness = .dirty) ∨
      (∀ old, (step old).freshness = .clean) ∧ ∃ value, after.value? id = some value ∧
        (world.UpToDate chart program truth level → truth id = .ok value)) :
    Progress chart program truth level (chart.rank id + 1) none world after := by
  have continues := World.continues_of_skeleton skeleton
  have away : ∀ other, other ≠ id → after.node? other = left.node? other := fun other apart => by
    rw [nodes, if_neg apart]
  have outlines : ∀ other, (after.node? other).map Node.outline =
      (left.node? other).map Node.outline := by
    intro other
    by_cases same : other = id
    · subst same
      rw [nodes, if_pos rfl, map_view fun old => (kept old).1]
    · rw [away other same]
  have drift : Drift chart (chart.rank id + 1) none left after := by
    refine Drift.of_single unsettled outlines ?_ values ?_
    · intro other apart
      rw [away other apart]
    · intro other apart
      rw [away other apart]
  refine ⟨⟨skeleton.trans start.skeleton, start.drift.trans drift, ?_⟩, fun upToDate =>
    ⟨(before upToDate).1.of_continues continues, fun other node low found => ?_⟩⟩
  · intro other node found derived
    by_cases same : other = id
    · subst same
      rw [nodes, if_pos rfl] at found
      obtain ⟨old, present, rfl⟩ := Option.map_eq_some_iff.mp found
      obtain ⟨outline, dependencies⟩ := kept old
      obtain ⟨_, below⟩ := start.consistent other old present
        ((Node.kind_of_outline outline).symm.trans derived)
      constructor
      · intro marked
        rcases fresh with dirty | ⟨_, value, valued, _⟩
        · exact (marked (dirty old)).elim
        · rw [valued]
          simp
      · intro dependency member
        rw [dependencies] at member
        obtain ⟨lower, home, cell, known⟩ := below dependency member
        obtain ⟨new, present', _⟩ := continues.after known
        exact ⟨lower, home, new, present'⟩
    · rw [away other same] at found
      obtain ⟨valued, below⟩ := start.consistent other node found derived
      refine ⟨by rwa [values other same], fun dependency member => ?_⟩
      obtain ⟨lower, home, cell, known⟩ := below dependency member
      obtain ⟨new, present', _⟩ := continues.after known
      exact ⟨lower, home, new, present'⟩
  · by_cases same : other = id
    · subst same
      rw [nodes, if_pos rfl] at found
      obtain ⟨old, present, rfl⟩ := Option.map_eq_some_iff.mp found
      rcases fresh with dirty | ⟨clean, value, valued, right⟩
      · exact fun _ _ usable => (usable (dirty old)).elim
      · exact World.shows_of_clean (clean old) valued (right upToDate)
    · refine ((before upToDate).2 other node low same ((away other same).symm.trans found)).of_same
        continues.isComputed rfl rfl (values other same) (fun was => ?_) fun _ _ => rfl
      rwa [World.inProgress_of_skeleton skeleton]

section

variable {engine : Engine κ ν σ} {levels : Nat}

/-- The closure has run and the frame is left: everything but the value is in place. -/
private theorem leave_advance {state : Computed κ ν}
    (ready : world.Ready chart program (chart.rank id + 1))
    (known : world.cell? id = some (.computed state)) {node : Node}
    (live : world.node? id = some node) (stale : node.freshness ≠ .clean)
    (ran : Progress chart program truth level (chart.rank id) (some id) (world.enter id state.reactor)
      inner) (panicked : Bool) :
    Advance chart (chart.rank id + 1) none world (inner.leave id state.reactor panicked) ∧
      ¬ (inner.leave id state.reactor panicked).Settled chart (chart.rank id + 1) id ∧
      (world.UpToDate chart program truth level →
        (inner.leave id state.reactor panicked).Solves program truth ∧
        ∀ other node, chart.rank other < level → other ≠ id →
          (inner.leave id state.reactor panicked).node? other = some node →
          (inner.leave id state.reactor panicked).Shows truth other node) := by
  have derived : node.kind = .derived := ready.wired.kind id _ node known live
  have below : chart.rank id < chart.rank id + 1 := Nat.lt_succ_self _
  obtain ⟨step, eq, kept⟩ := World.enter_cases known id
  rw [live] at eq
  have entered : (world.enter id state.reactor).node? id = some (step node) := eq
  obtain ⟨outline, standing, _⟩ := kept node
  have derived' : (step node).kind = .derived := (Node.kind_of_outline outline).trans derived
  have stale' : (step node).freshness ≠ .clean := fun clean =>
    stale ((congrArg Prod.fst standing).symm.trans clean)
  have unsettled := not_settled live derived stale below
  have unsettled' := not_settled entered derived' stale' below
  have idle : world.inProgress id = false := ready.idle.inProgress below
  have skeleton := World.skeleton_leave_enter idle ran.skeleton panicked
  have same : Drift chart (chart.rank id + 1) none inner (inner.leave id state.reactor panicked) :=
    Drift.of_same (fun other => World.node?_leave inner id other _ _)
      fun other => World.value?_leave inner id other _ _
  have continues := World.continues_leave inner id state.reactor panicked
  refine ⟨⟨skeleton, ?_, ?_⟩, ?_, fun upToDate => ?_⟩
  · exact ((enter_drift known unsettled).trans (ran.drift.forget (Nat.le_succ _) unsettled')).trans
      same
  · exact ran.consistent.of_same (fun other => World.node?_leave inner id other _ _)
      (fun other => World.value?_leave inner id other _ _) continues.known
  · have far : (world.enter id state.reactor).Settled chart (chart.rank id) id :=
      Or.inl (Nat.le_refl _)
    have standing' := ran.drift.standing id far
    rw [entered, Option.map_some] at standing'
    obtain ⟨last, present, equal⟩ := Option.map_eq_some_iff.mp standing'
    obtain ⟨old, present', outline'⟩ := ran.drift.before present
    rw [entered] at present'
    cases present'
    refine not_settled ((World.node?_leave inner id id _ _).trans present) ?_ ?_ below
    · exact (Node.kind_of_outline outline').trans derived'
    · exact fun clean => stale' ((congrArg Prod.fst equal).symm.trans clean)
  · have inside := ran.upToDate (enter_upToDate known upToDate)
    refine ⟨inside.solves.of_continues continues, fun other node low apart found => ?_⟩
    refine (inside.shows other node low ((World.node?_leave inner id other _ _).symm.trans
      found)).of_same continues.isComputed rfl rfl (World.value?_leave inner id other _ _)
      (fun was => ?_) fun _ _ => rfl
    rwa [World.inProgress_leave inner id _ _ apart]

/-- An evaluation of a computed that is not clean brings it up to date. -/
theorem evaluate_refreshed [BEq ν] [LawfulBEq ν]
    (refreshes : Refreshes chart program truth level engine levels)
    (low : chart.rank id ≤ levels) {state computed : Computed κ ν}
    (ready : world.Ready chart program (chart.rank id + 1))
    (known : world.cell? id = some (.computed state)) (owner : computed.reactor = state.reactor)
    (code : computed.body = state.body) {node : Node} (live : world.node? id = some node)
    (stale : node.freshness ≠ .clean) :
    Refreshed chart program truth level id world (evaluate program engine id computed) := by
  have home : chart.home id = some state.reactor := ready.wired.home id _ known
  have idle : world.inProgress id = false := ready.idle.inProgress (Nat.lt_succ_self _)
  have reads : (program.compute computed.body).OnlyReads (chart.Admits id) := by
    rw [code]
    exact ready.wired.body id _ _ known rfl
  have entered : (world.enter id state.reactor).Ready chart program (chart.rank id) :=
    enter_ready known ready
  obtain ⟨result, inner, ran, progress, right⟩ :=
    act_answers refreshes
      (fun other admitted => Nat.lt_of_lt_of_le admitted.1 low) (fun other admitted => admitted.1)
      reads entered (enter_tracks known live home)
  have solved : world.UpToDate chart program truth level → result = truth id := by
    intro upToDate
    have solves := upToDate.solves id
    unfold World.answerBy at solves
    rw [known] at solves
    rw [solves, right (enter_upToDate known upToDate), code]
  rw [← owner] at ran
  have evaluated := evaluate_of idle ran
  cases result with
  | ok value =>
    simp only [World.afterEvaluation, owner] at evaluated
    obtain ⟨left, unsettled, before⟩ := leave_advance ready known live stale progress false
    obtain ⟨state', known', owner', _⟩ :=
      (World.continues_of_skeleton left.skeleton).computed known
    obtain ⟨skeleton, values, step, nodes, kept⟩ :=
      World.settleValue_cases known' (owner.trans owner'.symm) value
    refine ⟨.ok (), _, evaluated, settle_progress left unsettled before skeleton nodes
      (fun old => ⟨(kept old).1, (kept old).2.2⟩) (fun other apart => by rw [values, if_neg apart])
      (Or.inr ⟨fun old => (kept old).2.1, value, by rw [values, if_pos rfl],
        fun upToDate => (solved upToDate).symm⟩), fun _ => ?_, fun upToDate => ?_⟩
    · intro last found _
      rw [nodes, if_pos rfl] at found
      obtain ⟨old, _, rfl⟩ := Option.map_eq_some_iff.mp found
      exact (kept old).2.1
    · rw [World.refreshed_of_derived known rfl, ← solved upToDate]
      rfl
  | error panic =>
    simp only [World.afterEvaluation, owner] at evaluated
    obtain ⟨left, unsettled, before⟩ := leave_advance ready known live stale progress true
    obtain ⟨state', known', owner', _⟩ :=
      (World.continues_of_skeleton left.skeleton).computed known
    have kept : ∀ node : Node, node.markDirty.id = node.id := fun _ => rfl
    have nodes := World.node?_mapGraph_modify known' kept
    rw [show (Cell.computed state' : Cell κ ν).reactor = state.reactor from owner'] at nodes
    refine ⟨.error panic, _, evaluated, settle_progress left unsettled before
      (World.skeleton_mapGraph _ _ _) nodes (fun _ => ⟨rfl, rfl⟩) (fun _ _ => rfl)
      (Or.inl fun _ => rfl), fun failed => ?_, fun upToDate => ?_⟩
    · cases failed
    · rw [World.refreshed_of_derived known rfl, ← solved upToDate]
      rfl

/-- Progress may come before a refresh. -/
private theorem Refreshed.prepend {middle : World κ ν σ} {body rest : Run κ ν σ Unit}
    (progress : Progress chart program truth level (chart.rank id + 1) none world middle)
    (refreshed : Refreshed chart program truth level id middle rest) (eq : body world = rest middle) :
    Refreshed chart program truth level id world body := by
  obtain ⟨result, after, ran, progress', clean, fine⟩ := refreshed
  refine ⟨result, after, eq.trans ran, progress.trans progress', clean, fun upToDate => ?_⟩
  rw [fine (progress.upToDate upToDate),
    World.refreshed_of_same (World.continues_of_skeleton progress.skeleton).isComputed]

section

variable {origin : World κ ν σ} {body : Run κ ν σ Unit} {state computed : Computed κ ν}
variable {node : Node} (start : Progress chart program truth level (chart.rank id + 1) none origin world)
variable (ready : world.Ready chart program (chart.rank id + 1))
variable (known : world.cell? id = some (.computed state))
variable (owner : computed.reactor = state.reactor) (live : world.node? id = some node)
variable (doubtful : node.freshness = .doubtful)
include start ready known owner live doubtful

/-- When all inputs were checked, a doubtful computed may keep its value. -/
private theorem markClean_refreshed
    (shows : origin.UpToDate chart program truth level → world.shown? truth [] id = some (truth id))
    (eq : body origin =
      (Run.modify (·.mapGraph computed.reactor (·.modify id Node.markClean)) : Run κ ν σ Unit)
        world) :
    Refreshed chart program truth level id origin body := by
  have derived : node.kind = .derived := ready.wired.kind id _ node known live
  have stale : node.freshness ≠ .clean := by
    rw [doubtful]
    decide
  have usable : node.freshness ≠ .dirty := by
    rw [doubtful]
    decide
  have unsettled : ¬ world.Settled chart (chart.rank id + 1) id :=
    not_settled live derived stale (Nat.lt_succ_self _)
  have kept : ∀ node : Node, node.markClean.id = node.id := fun _ => rfl
  have nodes := World.node?_mapGraph_modify known kept
  obtain ⟨value, valued⟩ := Option.ne_none_iff_exists'.mp
    ((ready.consistent id node live derived).1 usable)
  have right : origin.UpToDate chart program truth level → truth id = .ok value := fun upToDate => by
    have shown : (world.value? id).map Except.ok = some (truth id) := shows upToDate
    rw [valued] at shown
    exact (Option.some.inj shown).symm
  have continues := World.continues_of_skeleton start.skeleton
  rw [owner] at eq
  refine ⟨.ok (), _, eq, settle_progress start.toAdvance unsettled
    (fun upToDate => ⟨(start.upToDate upToDate).solves,
      fun other node low _ => (start.upToDate upToDate).shows other node low⟩)
    (World.skeleton_mapGraph _ _ _) nodes (fun _ => ⟨rfl, rfl⟩) (fun _ _ => rfl)
    (Or.inr ⟨fun _ => rfl, value, valued, right⟩), fun _ => ?_, fun upToDate => ?_⟩
  · intro last found _
    have marked := (nodes id).symm.trans found
    rw [if_pos rfl] at marked
    obtain ⟨old, _, rfl⟩ := Option.map_eq_some_iff.mp marked
    rfl
  · rw [← World.refreshed_of_same continues.isComputed, World.refreshed_of_derived known rfl,
      right upToDate]
    rfl

/-- A check of lower inputs of a doubtful computed brings it up to date, if it shows its answer once
they are checked. -/
theorem checkInputs_refreshed [BEq ν] [LawfulBEq ν]
    (refreshes : Refreshes chart program truth level engine levels) (low : chart.rank id ≤ levels)
    {inputs : List (NodeId × Nat)} (lower : ∀ input ∈ inputs, chart.rank input.1 < chart.rank id)
    (code : computed.body = state.body)
    (shows : origin.UpToDate chart program truth level →
      world.shown? truth (inputs.map Prod.fst) id = some (truth id))
    (eq : body origin = checkInputs program engine id computed inputs world) :
    Refreshed chart program truth level id origin body := by
  induction inputs generalizing world state node with
  | nil => exact markClean_refreshed start ready known owner live doubtful shows eq
  | cons entry rest ih =>
    obtain ⟨input, version⟩ := entry
    have below : chart.rank input < chart.rank id := lower _ List.mem_cons_self
    obtain ⟨result, middle, ran, progress, _, fine⟩ := refreshes.refresh input world
      (Nat.lt_of_lt_of_le below low) (ready.mono (by omega))
    have whole := start.trans (progress.mono (by omega))
    unfold checkInputs at eq
    cases result with
    | error panic =>
      refine ⟨.error panic, middle, eq.trans (Run.bind_of_error ran _), whole, fun failed => ?_,
        fun upToDate => ?_⟩
      · cases failed
      · have shown := shows upToDate
        rw [List.map_cons,
          World.shown?_of_failure (fine (start.upToDate upToDate)).symm] at shown
        rw [← World.refreshed_of_same (World.continues_of_skeleton start.skeleton).isComputed,
          World.refreshed_of_derived known rfl, ← Option.some.inj shown]
        rfl
    | ok done =>
      have continues := World.continues_of_skeleton progress.skeleton
      obtain ⟨state', known', owner', code'⟩ := continues.computed known
      have standing := progress.drift.standing id (Or.inl below)
      rw [live, Option.map_some] at standing
      obtain ⟨node', live', same⟩ := Option.map_eq_some_iff.mp standing
      have doubtful' : node'.freshness = .doubtful := (congrArg Prod.fst same).trans doubtful
      have ready' := ready.progress progress
      have step := (Run.bind_of_ok ran fun _ => Run.world >>= fun after =>
        if (after.graph computed.reactor).version? input ≠ some version then
          evaluate program engine id computed
        else checkInputs program engine id computed rest).trans (Run.world_bind _ middle)
      by_cases changed : (middle.graph computed.reactor).version? input ≠ some version
      · rw [if_pos changed] at step
        refine Refreshed.prepend whole (evaluate_refreshed refreshes low ready' known'
          (owner.trans owner'.symm) (code.trans code'.symm) live' ?_) (eq.trans step)
        rw [doubtful']
        decide
      · rw [if_neg changed] at step
        refine ih whole ready' known' (owner.trans owner'.symm) live' doubtful'
          (fun entry member => lower entry (List.mem_cons_of_mem _ member))
          (code.trans code'.symm) (fun upToDate => ?_) (eq.trans step)
        rw [World.shown?_of_same continues.isComputed _ (progress.drift.value id (Or.inl below)),
          ← World.shown?_of_refreshed (fine (start.upToDate upToDate)).symm]
        exact shows upToDate

end

theorem World.Ready.hold (ready : world.Ready chart program bound) (id : NodeId) :
    (world.hold (.node id)).Ready chart program bound where
  wired := ready.wired.of_continues (World.continues_hold world id) fun other => by
    rw [World.node?_hold]
  consistent := ready.consistent.of_same (fun other => World.node?_hold world id other)
    (fun other => World.value?_hold world id other) (World.continues_hold world id).known
  idle := by
    intro other computed found below
    have progress : world.inProgress other = false := ready.idle.inProgress below
    rw [← World.inProgress_hold world id other] at progress
    unfold World.inProgress at progress
    rwa [found] at progress

theorem World.UpToDate.hold (upToDate : world.UpToDate chart program truth level) (id : NodeId) :
    (world.hold (.node id)).UpToDate chart program truth level :=
  upToDate.of_same (fun other => World.node?_hold world id other)
    (fun other => World.value?_hold world id other) (World.continues_hold world id)
    fun other => World.inProgress_hold world id other

/-- A refresh may be carried out while the computed is held. -/
private theorem holding_refreshed {body : Run κ ν σ Unit}
    (ready : world.Ready chart program bound) {cell : Cell κ ν}
    (known : world.cell? id = some cell) (derived : cell.kind = .derived)
    (held : Refreshed chart program truth level id (world.hold (.node id)) body) :
    Refreshed chart program truth level id world (Run.holding (.node id) body) := by
  obtain ⟨result, after, ran, progress, clean, fine⟩ := held
  have others : after.holdersOf (.node id) ≠ 1 :=
    World.holdersOf_ne_one known (ready.wired.held id cell known derived) progress.skeleton
  have skeleton : (after.lose (.node id)).skeleton = world.skeleton := by
    rw [World.skeleton_lose, progress.skeleton, ← World.skeleton_lose, World.lose_hold]
  have continues := World.continues_of_skeleton skeleton
  have taking : Drift chart (chart.rank id + 1) none world (world.hold (.node id)) :=
    Drift.of_same (fun other => World.node?_hold world id other)
      fun other => World.value?_hold world id other
  have giving : Drift chart (chart.rank id + 1) none after (after.lose (.node id)) :=
    Drift.of_same (fun other => World.node?_lose after id other)
      fun other => World.value?_lose after id other
  have computeds : ∀ other,
      ((after.lose (.node id)).computed? other).isSome = (after.computed? other).isSome := by
    intro other
    rw [continues.isComputed, ← (World.continues_hold world id).isComputed,
      ← (World.continues_of_skeleton progress.skeleton).isComputed]
  refine ⟨result, after.lose (.node id), ?_, ⟨⟨skeleton, (taking.trans progress.drift).trans giving,
    ?_⟩, fun upToDate => ⟨upToDate.solves.of_continues continues, fun other node low found => ?_⟩⟩,
    fun ok => ?_, fun upToDate => ?_⟩
  · rw [Run.holding_of ran, World.drop_eq_lose others]
  · refine progress.consistent.of_same (fun other => World.node?_lose after id other)
      (fun other => World.value?_lose after id other) fun other cell' found => ?_
    obtain ⟨old, present, _⟩ := (World.continues_of_skeleton progress.skeleton).before found
    obtain ⟨first, present', _⟩ := (World.continues_hold world id).before present
    exact continues.known other first present'
  · rw [World.node?_lose] at found
    refine ((progress.upToDate (upToDate.hold id)).shows other node low found).of_same computeds
      rfl rfl (World.value?_lose after id other) (fun was => ?_) fun _ _ => rfl
    rwa [World.inProgress_of_skeleton skeleton, ← World.inProgress_hold world id,
      ← World.inProgress_of_skeleton progress.skeleton]
  · intro node found kind
    rw [World.node?_lose] at found
    exact clean ok node found kind
  · rw [fine (upToDate.hold id), World.refreshed_of_same (World.continues_hold world id).isComputed]

/-- A node that has no computed is up to date as it is. -/
private theorem pure_refreshed (ready : world.Ready chart program bound)
    (clean : world.CleanAt id)
    (shows : world.UpToDate chart program truth level → .ok () = world.refreshed truth id) :
    Refreshed chart program truth level id world (Pure.pure ()) :=
  ⟨.ok (), world, rfl, Progress.refl ready.consistent, fun _ => clean, shows⟩

/-- What a refresh does depends on how fresh the node is. -/
theorem refreshComputed_of [BEq ν] {state : Computed κ ν}
    (known : world.cell? id = some (.computed state)) {node : Node}
    (live : world.node? id = some node) :
    refreshComputed program engine id world =
      (match node.freshness with
        | .clean => Pure.pure ()
        | .dirty => Run.holding (.node id) (evaluate program engine id state)
        | .doubtful => Run.holding (.node id)
            (checkInputs program engine id state ((world.graph state.reactor).derivedInputs id)) :
        Run κ ν σ Unit) world := by
  have present : world.computed? id = some state := by simp only [World.computed?, known]
  have found : (world.graph state.reactor).node? id = some node :=
    (World.node?_eq known).symm.trans live
  unfold refreshComputed
  rw [Run.world_bind, present]
  dsimp only
  rw [found, Option.map_some]
  cases node.freshness <;> rfl

theorem mem_derivedInputs {graph : Graph} {entry : NodeId × Nat} {node : Node}
    (found : graph.node? id = some node) (member : entry ∈ graph.derivedInputs id) :
    entry.1 ∈ node.dependencies ∧ ∃ input, graph.node? entry.1 = some input ∧
      input.kind = .derived ∧ entry.2 = input.version := by
  unfold Graph.derivedInputs Graph.dependenciesOf at member
  rw [found] at member
  obtain ⟨dependency, listed, eq⟩ := List.mem_filterMap.mp member
  split at eq
  next input present =>
    split at eq
    next derived =>
      cases eq
      exact ⟨listed, input, present, derived, rfl⟩
    next => cases eq
  next => cases eq

/-- A node of the same reactor is an input to refresh exactly if it is a computed. -/
private theorem isInput_iff (wired : world.Wired chart program) {state : Computed κ ν}
    (known : world.cell? id = some (.computed state)) {dependency : NodeId}
    (home : chart.home dependency = chart.home id) {cell : Cell κ ν}
    (known' : world.cell? dependency = some cell) :
    (∃ input, (world.graph state.reactor).node? dependency = some input ∧
      input.kind = .derived) ↔ (world.computed? dependency).isSome := by
  have owner : cell.reactor = state.reactor := by
    rw [wired.home dependency cell known', wired.home id _ known] at home
    exact Option.some.inj home
  have present := World.node?_eq known'
  rw [owner] at present
  constructor
  · rintro ⟨input, found, derived⟩
    obtain ⟨state', isComputed⟩ := wired.computed_of_derived (present.trans found) derived
    rw [World.computed?_eq_some_iff.mpr isComputed]
    rfl
  · intro isComputed
    obtain ⟨state', found⟩ := Option.isSome_iff_exists.mp isComputed
    have same := World.computed?_eq_some_iff.mp found
    obtain ⟨input, live⟩ := wired.live dependency _ same rfl
    exact ⟨input, present.symm.trans live, wired.kind dependency _ input same live⟩

/-- Refreshing the inputs gives what refreshing all dependencies would give. -/
theorem refreshedAll_derivedInputs (wired : world.Wired chart program)
    (consistent : world.Consistent chart) {state : Computed κ ν}
    (known : world.cell? id = some (.computed state)) {node : Node}
    (live : world.node? id = some node) :
    world.refreshedAll truth (((world.graph state.reactor).derivedInputs id).map Prod.fst) =
      world.refreshedAll truth node.dependencies := by
  have derived : node.kind = .derived := wired.kind id _ node known live
  have found : (world.graph state.reactor).node? id = some node :=
    (World.node?_eq known).symm.trans live
  have below := (consistent id node live derived).2
  unfold Graph.derivedInputs Graph.dependenciesOf
  rw [found, Option.map_some, Option.getD_some]
  revert below
  induction node.dependencies with
  | nil => exact fun _ => rfl
  | cons dependency rest ih =>
    intro below
    obtain ⟨_, home, cell, known'⟩ := below dependency List.mem_cons_self
    have rest' := ih fun other member => below other (List.mem_cons_of_mem _ member)
    have input := isInput_iff wired known home known'
    by_cases isComputed : (world.computed? dependency).isSome
    · obtain ⟨node', present, kind⟩ := input.mpr isComputed
      rw [List.filterMap_cons_some (b := (dependency, node'.version)) (by rw [present]; simp [kind])]
      simp only [List.map_cons, World.refreshedAll, rest']
    · have skipped : world.refreshed truth dependency = .ok () := if_neg isComputed
      rw [List.filterMap_cons_none ?_, rest', World.refreshedAll, skipped]
      · rfl
      · cases present : (world.graph state.reactor).node? dependency with
        | none => rfl
        | some node' => exact if_neg fun kind => isComputed (input.mp ⟨node', present, kind⟩)

theorem refreshComputed_refreshed [BEq ν] [LawfulBEq ν]
    (refreshes : Refreshes chart program truth level engine levels) (low : chart.rank id ≤ levels)
    (below : chart.rank id < level)
    (ready : world.Ready chart program (chart.rank id + 1)) :
    Refreshed chart program truth level id world (refreshComputed program engine id) := by
  have stays (absent : world.computed? id = none) (clean : world.CleanAt id) :
      Refreshed chart program truth level id world (refreshComputed program engine id) := by
    refine Refreshed.prepend (Progress.refl ready.consistent) (pure_refreshed ready clean
      fun _ => ?_) ?_
    · unfold World.refreshed
      rw [absent]
      rfl
    · unfold refreshComputed
      rw [Run.world_bind, absent]
  cases known : world.cell? id with
  | none =>
    refine stays (by simp only [World.computed?, known]) fun node found _ => ?_
    rw [World.node?, known] at found
    cases found
  | some cell =>
    have kinds := fun node found => ready.wired.kind id cell node known found
    cases cell with
    | signal state =>
      refine stays (by simp only [World.computed?, known]) fun node found derived => ?_
      rw [kinds node found] at derived
      cases derived
    | effect state =>
      refine stays (by simp only [World.computed?, known]) fun node found derived => ?_
      rw [kinds node found] at derived
      cases derived
    | computed state =>
      obtain ⟨node, live⟩ := ready.wired.live id _ known rfl
      have derived : node.kind = .derived := kinds node live
      have eq : refreshComputed program engine id world = _ := refreshComputed_of known live
      have ready' := ready.hold id
      obtain ⟨held, known', owner, code⟩ := (World.continues_hold world id).computed known
      have live' : (world.hold (.node id)).node? id = some node := by
        rw [World.node?_hold, live]
      cases mark : node.freshness with
      | clean =>
        rw [mark] at eq
        have clean : world.CleanAt id := fun node' found _ => by
          rw [live] at found
          cases found
          exact mark
        refine Refreshed.prepend (Progress.refl ready.consistent) (pure_refreshed ready clean
          fun upToDate => ?_) eq
        obtain ⟨value, _, right⟩ :=
          value?_of_cleanAt ready upToDate known rfl below (Nat.lt_succ_self _) clean
        rw [World.refreshed_of_derived known rfl, right]
        rfl
      | dirty =>
        rw [mark] at eq
        refine Refreshed.prepend (Progress.refl ready.consistent)
          (holding_refreshed ready known rfl ?_) eq
        refine evaluate_refreshed refreshes low ready' known' owner.symm code.symm live' ?_
        rw [mark]
        decide
      | doubtful =>
        rw [mark] at eq
        refine Refreshed.prepend (Progress.refl ready.consistent)
          (holding_refreshed ready known rfl ?_) eq
        refine checkInputs_refreshed (Progress.refl ready'.consistent) ready' known' owner.symm live'
          mark refreshes low (fun entry member => ?_) code.symm (fun upToDate => ?_) rfl
        · have found := (World.node?_eq known).symm.trans live
          exact ((ready.consistent id node live derived).2 _ (mem_derivedInputs found member).1).1
        · have shows := upToDate.shows id node below live' derived
            (ready'.idle.inProgress (Nat.lt_succ_self _)) (by rw [mark]; decide)
          rw [Node.unchecked, if_pos mark] at shows
          rw [← shows]
          unfold World.shown?
          rw [← refreshedAll_derivedInputs ready'.wired ready'.consistent known' live', owner]
          rfl

/-- With one level of nesting more an engine refreshes one rank more. -/
theorem activate_refreshes [BEq ν] [LawfulBEq ν] {depth : Nat} (deep : levels ≤ depth)
    (within : levels ≤ level) :
    Refreshes chart program truth level (activate program depth) levels := by
  induction depth generalizing levels with
  | zero => exact ⟨within, fun id world low => absurd (Nat.lt_of_lt_of_le low deep) (Nat.not_lt_zero _)⟩
  | succ depth ih =>
    refine ⟨within, fun id world low ready => ?_⟩
    have inner : Refreshes chart program truth level (activate program depth) (chart.rank id) :=
      ih (Nat.le_of_lt_succ (Nat.lt_of_lt_of_le low deep)) (Nat.le_trans (Nat.le_of_lt low) within)
    exact refreshComputed_refreshed inner (Nat.le_refl _) (Nat.lt_of_lt_of_le low within) ready

end

end ReactiveTree
