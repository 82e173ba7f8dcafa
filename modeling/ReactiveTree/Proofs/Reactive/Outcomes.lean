import ReactiveTree.Proofs.Reactive.Reaching

/-! # When reads give their outcomes

A computed that is not dirty shows what a check of its inputs leaves it: it fails like the first of
them that fails, if it is doubtful, and otherwise it has the value that it has kept. Once something
else has brought the inputs up to date, the check finds no change in them. So acts of reads give
what evaluating from scratch gives, failures included, exactly in the worlds in which every computed
that is not dirty shows its outcome.
-/

namespace ReactiveTree

variable {κ ν σ : Type} {chart : Chart} {program : Program κ ν σ} {world after : World κ ν σ}
variable {truth : NodeId → Except Panic ν}

/-- Acts of reads give what they give when reads are answered from scratch. -/
def World.AnswersReads [BEq ν] (world : World κ ν σ) (program : Program κ ν σ) (depth : Nat) :
    Prop :=
  ∀ (α : Type) (act : Act κ ν σ α), act.OnlyReads (fun _ => True) →
    ∃ after, program.run depth act world = some (act.outcome (world.scratch program), after)

/-- Every computed that is not dirty shows its outcome from scratch. -/
def World.ShowsOutcomes (world : World κ ν σ) (program : Program κ ν σ) : Prop :=
  ∀ id computed node, world.computed? id = some computed → world.node? id = some node →
    node.freshness ≠ .dirty →
    world.shown? (world.scratch program) node.unchecked id = some (world.scratch program id)

/-- Read nodes one after the other, whatever that gives. -/
def readEach : List NodeId → Act κ ν σ Unit
  | [] => .pure ()
  | id :: rest => .bind (.attempt (.call (.get id))) fun _ => readEach rest

theorem readEach_onlyReads (ids : List NodeId) :
    (readEach ids : Act κ ν σ Unit).OnlyReads fun _ => True := by
  induction ids with
  | nil => trivial
  | cons id rest ih => exact ⟨trivial, fun _ => ih⟩

theorem outcome_readEach (ids : List NodeId) :
    (readEach ids : Act κ ν σ Unit).outcome truth = .ok () := by
  induction ids with
  | nil => rfl
  | cons id rest ih => exact ih

section

variable {engine : Engine κ ν σ} {levels level : Nat}

theorem readNode_of_computed {id : NodeId} {state : Computed κ ν}
    (known : world.cell? id = some (.computed state)) :
    readNode engine id true world = readComputed engine id (world.noteRead state.reactor id) := by
  unfold readNode
  rw [Run.world_bind, known]
  rfl

theorem cleanAt_of_drift {bound : Nat} {reader : Option NodeId} {id : NodeId}
    (drift : Drift chart bound reader world after) (clean : world.CleanAt id) :
    after.CleanAt id := by
  intro node found derived
  obtain ⟨old, present, outline⟩ := drift.before found
  have standing := drift.standing id (Or.inr clean)
  rw [found, present] at standing
  have oldClean := clean old present ((Node.kind_of_outline outline).symm.trans derived)
  exact (congrArg Prod.fst (Option.some.inj standing)).trans oldClean

/-- At top level a tracked read is only recorded. -/
private theorem noted_progress (steady : world.Steady chart program) {id : NodeId}
    {state : Computed κ ν} (known : world.cell? id = some (.computed state)) (bound : Nat) :
    Progress chart program truth level bound none world (world.noteRead state.reactor id) :=
  noteRead_progress steady.consistent known (steady.wired.home id _ known)
    (steady.unread state.reactor) fun _ same => nomatch same

/-- A top-level read of a computed in an up-to-date world leaves it clean unless it fails. -/
private theorem topRead_clean (refreshes : Refreshes chart program truth level engine levels)
    (steady : world.Steady chart program) (upToDate : world.UpToDate chart program truth level)
    {id : NodeId} {state : Computed κ ν} (known : world.cell? id = some (.computed state))
    (low : chart.rank id < levels) :
    ∃ result after, readNode engine id true world = some (result, after) ∧
      Progress chart program truth level (chart.rank id + 1) none world after ∧
      (world.refreshed truth id = .ok () → after.CleanAt id) := by
  have noted : Progress chart program truth level (chart.rank id + 1) none world
      (world.noteRead state.reactor id) := noted_progress steady known _
  obtain ⟨result, after, ran, progress, clean, fine⟩ := refreshes.refresh id
    (world.noteRead state.reactor id) low ((steady.progress noted).ready _)
  rw [readNode_of_computed known]
  cases result with
  | error panic =>
    refine ⟨_, after, readComputed_of_error ran, noted.trans progress, fun done => ?_⟩
    have failed := fine (noted.upToDate upToDate)
    rw [World.refreshed_of_same (World.continues_of_skeleton noted.skeleton).isComputed,
      done] at failed
    cases failed
  | ok done =>
    have read := readComputed_of_ok ran
    cases value : after.value? id with
    | none =>
      rw [value] at read
      exact ⟨_, after, read, noted.trans progress, fun _ => clean rfl⟩
    | some value' =>
      rw [value] at read
      exact ⟨_, after, read, noted.trans progress, fun _ => clean rfl⟩

/-- Reads in an up-to-date world leave what was read clean unless it fails. -/
private theorem readEach_clean [BEq ν]
    (refreshes : Refreshes chart program truth level engine levels) {bound : Nat}
    {ids : List NodeId} (low : ∀ id ∈ ids, chart.rank id < levels)
    (below : ∀ id ∈ ids, chart.rank id < bound) (steady : world.Steady chart program)
    (upToDate : world.UpToDate chart program truth level)
    (known : ∀ id ∈ ids, (world.computed? id).isSome) :
    ∃ after, (readEach ids).run engine world = some (.ok (), after) ∧
      Progress chart program truth level bound none world after ∧
      ∀ id ∈ ids, world.refreshed truth id = .ok () → after.CleanAt id := by
  induction ids generalizing world with
  | nil => exact ⟨world, rfl, Progress.refl steady.consistent, fun id member => nomatch member⟩
  | cons id rest ih =>
    obtain ⟨state, present⟩ := Option.isSome_iff_exists.mp (known id List.mem_cons_self)
    obtain ⟨result, middle, first, progress, clean⟩ := topRead_clean refreshes steady upToDate
      (World.computed?_eq_some_iff.mp present) (low id List.mem_cons_self)
    have computeds := (World.continues_of_skeleton progress.skeleton).isComputed
    obtain ⟨after, others, progress', cleans⟩ :=
      ih (fun id member => low id (List.mem_cons_of_mem _ member))
        (fun id member => below id (List.mem_cons_of_mem _ member)) (steady.progress progress)
        (progress.upToDate upToDate)
        fun id member => (computeds id).trans (known id (List.mem_cons_of_mem _ member))
    refine ⟨after, (Run.bind_of_ok (Run.attempt_of first) _).trans others,
      (progress.mono (below id List.mem_cons_self)).trans progress', fun other member done => ?_⟩
    rcases List.mem_cons.mp member with rfl | later
    · exact cleanAt_of_drift progress'.drift (clean done)
    · exact cleans other later ((World.refreshed_of_same computeds other).trans done)

/-- The computeds that a refresh of a node checks first. -/
def World.inputs (world : World κ ν σ) (node : Node) : List NodeId :=
  node.unchecked.filter fun input => (world.computed? input).isSome

/-- After reads of the inputs of a node these are clean unless they fail. -/
private theorem readInputs_clean [BEq ν] {id : NodeId}
    (refreshes : Refreshes chart program truth level engine (chart.rank id))
    (steady : world.Steady chart program) (upToDate : world.UpToDate chart program truth level)
    {node : Node} (live : world.node? id = some node) (derived : node.kind = .derived) :
    ∃ after, (readEach (world.inputs node)).run engine world = some (.ok (), after) ∧
      Progress chart program truth level (chart.rank id) none world after ∧
      ∀ input ∈ node.unchecked, world.refreshed truth input = .ok () → after.CleanAt input := by
  have lower : ∀ input ∈ world.inputs node, chart.rank input < chart.rank id := fun input member =>
    ((steady.consistent id node live derived).2 input
      (node.unchecked_subset (List.mem_of_mem_filter member))).1
  obtain ⟨after, ran, progress, cleans⟩ := readEach_clean refreshes lower lower steady upToDate
    fun input member => (List.mem_filter.mp member).2
  refine ⟨after, ran, progress, fun input member done found present kind => ?_⟩
  obtain ⟨old, wasLive, outline⟩ := progress.drift.before present
  obtain ⟨_, isComputed⟩ := steady.wired.computed_of_derived wasLive
    ((Node.kind_of_outline outline).symm.trans kind)
  refine cleans input (List.mem_filter.mpr ⟨member, ?_⟩) done found present kind
  rw [World.computed?_eq_some_iff.mpr isComputed]
  rfl

/-- A refresh of a clean node does nothing. -/
private theorem refresh_of_clean [BEq ν] {depth : Nat} (wired : world.Wired chart program)
    {id : NodeId} (clean : world.CleanAt id) :
    activate program (depth + 1) (.refresh id) world = some (.ok (), world) := by
  show refreshComputed program (activate program depth) id world = _
  cases present : world.computed? id with
  | none =>
    unfold refreshComputed
    rw [Run.world_bind, present]
    rfl
  | some state =>
    have known := World.computed?_eq_some_iff.mp present
    obtain ⟨node, live⟩ := wired.live id _ known rfl
    rw [refreshComputed_of known live, clean node live (wired.kind id _ node known live)]
    rfl

/-- When the inputs that do not fail are clean and have the versions that are asked for, a check
fails at the first input that fails, and keeps the value. -/
private theorem checkInputs_checked [BEq ν] {depth bound : Nat}
    (refreshes : Refreshes chart program truth bound (activate program (depth + 1)) bound)
    (ready : world.Ready chart program bound)
    (upToDate : world.UpToDate chart program truth bound) {id : NodeId} (far : bound ≤ chart.rank id)
    {computed : Computed κ ν} {inputs : List (NodeId × Nat)}
    (lower : ∀ input ∈ inputs, chart.rank input.1 < bound)
    (checked : ∀ input ∈ inputs, world.refreshed truth input.1 = .ok () → world.CleanAt input.1)
    (same : ∀ input ∈ inputs,
      (world.graph computed.reactor).version? input.1 = some input.2) :
    ∃ after, checkInputs program (activate program (depth + 1)) id computed inputs world =
        some (world.refreshedAll truth (inputs.map Prod.fst), after) ∧
      after.skeleton = world.skeleton ∧ after.value? id = world.value? id := by
  induction inputs with
  | nil => exact ⟨_, rfl, World.skeleton_mapGraph _ _ _, World.value?_mapGraph _ _ _ _⟩
  | cons entry rest ih =>
    obtain ⟨input, version⟩ := entry
    unfold checkInputs
    rw [List.map_cons, World.refreshedAll]
    cases outcome : world.refreshed truth input with
    | ok done =>
      obtain ⟨after, ran, kept⟩ := ih (fun input member => lower input (List.mem_cons_of_mem _ member))
        (fun input member => checked input (List.mem_cons_of_mem _ member))
        fun input member => same input (List.mem_cons_of_mem _ member)
      refine ⟨after, ?_, kept⟩
      have clean := checked _ List.mem_cons_self outcome
      rw [Run.bind_of_ok (refresh_of_clean ready.wired clean), Run.world_bind,
        if_neg (not_not_intro (same _ List.mem_cons_self))]
      exact ran
    | error panic =>
      have below : chart.rank input < bound := lower _ List.mem_cons_self
      obtain ⟨result, after, ran, progress, _, fine⟩ :=
        refreshes.refresh input world below (ready.mono below)
      rw [fine upToDate, outcome] at ran
      exact ⟨after, Run.bind_of_error ran _, progress.skeleton,
        progress.drift.value id (Or.inl (Nat.le_trans below far))⟩

section

variable [BEq ν] [LawfulBEq ν] {depth : Nat} (steady : world.Steady chart program) {id : NodeId}
variable (upToDate : world.UpToDate chart program truth (chart.rank id))
variable (low : chart.rank id < depth + 2) {state : Computed κ ν}
variable (known : world.cell? id = some (.computed state)) {node : Node}
variable (live : world.node? id = some node) (usable : node.freshness ≠ .dirty)
variable (checked : ∀ input ∈ node.unchecked, world.refreshed truth input = .ok () →
  world.CleanAt input)
include steady upToDate low known live usable checked

/-- A refresh of a computed whose inputs were read fails as they do, and keeps the value. -/
private theorem refresh_checked :
    ∃ after, activate program (depth + 2) (.refresh id) world =
        some (world.refreshedAll truth node.unchecked, after) ∧
      after.value? id = world.value? id := by
  have eq : refreshComputed program (activate program (depth + 1)) id world = _ :=
    refreshComputed_of known live
  cases mark : node.freshness with
  | dirty => exact absurd mark usable
  | clean =>
    have unchecked : node.unchecked = [] := if_neg (by rw [mark]; decide)
    rw [mark] at eq
    rw [unchecked]
    exact ⟨world, eq, rfl⟩
  | doubtful =>
    have unchecked : node.unchecked = node.dependencies := if_pos mark
    rw [unchecked] at checked ⊢
    rw [mark] at eq
    have found : (world.graph state.reactor).node? id = some node :=
      (World.node?_eq known).symm.trans live
    have derived : node.kind = .derived := steady.wired.kind id _ node known live
    have refreshes : Refreshes chart program truth (chart.rank id) (activate program (depth + 1))
        (chart.rank id) := activate_refreshes (Nat.le_of_lt_succ low) le_rfl
    have computeds := (World.continues_hold world id).isComputed
    obtain ⟨after, ran, skeleton, kept⟩ := checkInputs_checked refreshes
      ((steady.ready (chart.rank id)).hold id) (upToDate.hold id) le_rfl
      (fun entry member => ((steady.consistent id node live derived).2 _
        (mem_derivedInputs found member).1).1)
      (fun entry member done other present => by
        rw [World.node?_hold] at present
        rw [World.refreshed_of_same computeds] at done
        exact checked entry.1 (mem_derivedInputs found member).1 done other present)
      (fun entry member => by
        obtain ⟨_, input, present, _, version⟩ := mem_derivedInputs found member
        show ((world.graph state.reactor).node? entry.1).map Node.version = _
        rw [present, version]
        rfl)
    have others : after.holdersOf (.node id) ≠ 1 :=
      World.holdersOf_ne_one known (steady.wired.held id _ known rfl) skeleton
    rw [World.refreshedAll_of_same computeds,
      refreshedAll_derivedInputs steady.wired steady.consistent known live] at ran
    refine ⟨after.drop (.node id), eq.trans (Run.holding_of ran), ?_⟩
    rw [World.drop_eq_lose others, World.value?_lose, kept, World.value?_hold]

/-- A read of a computed whose inputs were read gives what it shows. -/
private theorem read_shows {result : Except Panic ν}
    (ran : readComputed (activate program (depth + 2)) id world = some (result, after)) :
    world.shown? truth node.unchecked id = some result := by
  obtain ⟨middle, refreshed, kept⟩ := refresh_checked steady upToDate low known live usable checked
  unfold World.shown?
  cases outcome : world.refreshedAll truth node.unchecked with
  | error panic =>
    rw [outcome] at refreshed
    rw [readComputed_of_error refreshed] at ran
    cases ran
    rfl
  | ok done =>
    rw [outcome] at refreshed
    have derived : node.kind = .derived := steady.wired.kind id _ node known live
    obtain ⟨value, valued⟩ := Option.ne_none_iff_exists'.mp
      ((steady.consistent id node live derived).1 usable)
    rw [readComputed_of_ok refreshed, kept, valued] at ran
    cases ran
    rw [valued]
    rfl

end

end

section

variable [BEq ν] [LawfulBEq ν] {depth : Nat}

/-- If reads give the answers of a table whatever was read before, computeds show these answers: read
the inputs of a computed first, then itself. -/
theorem World.upToDate_of_reads (steady : world.Steady chart program)
    (low : ∀ id, chart.rank id < depth + 2) (solves : world.Solves program truth)
    (reads : ∀ ids id, (∀ other ∈ ids, (world.computed? other).isSome) →
      (world.computed? id).isSome → ∃ middle after,
        program.run (depth + 2) (readEach ids) world = some (.ok (), middle) ∧
          readNode (activate program (depth + 2)) id true middle = some (truth id, after))
    (level : Nat) : world.UpToDate chart program truth level := by
  induction level with
  | zero => exact ⟨solves, fun id node none => absurd none (Nat.not_lt_zero _)⟩
  | succ level ih =>
    refine ⟨solves, fun id node within live => ?_⟩
    rcases Nat.lt_succ_iff_lt_or_eq.mp within with lower | rfl
    · exact ih.shows id node lower live
    intro derived _ usable
    obtain ⟨state, known⟩ := steady.wired.computed_of_derived live derived
    have refreshes : Refreshes chart program truth (chart.rank id) (activate program (depth + 2))
        (chart.rank id) := activate_refreshes (Nat.le_of_lt (low id)) le_rfl
    obtain ⟨middle, ran, progress, cleans⟩ := readInputs_clean refreshes steady ih live derived
    obtain ⟨_, after, earlier, later⟩ := reads (world.inputs node) id
      (fun input member => (List.mem_filter.mp member).2)
      (by rw [World.computed?_eq_some_iff.mpr known]; rfl)
    cases (Prod.mk.inj (Option.some.inj (ran.symm.trans earlier))).2
    obtain ⟨state', known', _⟩ := (World.continues_of_skeleton progress.skeleton).computed known
    rw [readNode_of_computed known'] at later
    have noted : Progress chart program truth (chart.rank id) (chart.rank id) none middle
        (middle.noteRead state'.reactor id) := noted_progress (steady.progress progress) known' _
    have whole := progress.trans noted
    have computeds := (World.continues_of_skeleton whole.skeleton).isComputed
    -- The inputs are of lower rank, so that reading them left the computed itself alone.
    obtain ⟨node', live', mark, dependencies⟩ := whole.drift.far le_rfl live
    have unchecked : node'.unchecked = node.unchecked := by
      unfold Node.unchecked
      rw [mark, dependencies]
    have shown := read_shows (steady.progress whole) (whole.upToDate ih) (low id)
      ((World.cell?_noteRead _ _ _ _).trans known') live' (mark ▸ usable) (fun input member done => by
        rw [unchecked] at member
        rw [World.refreshed_of_same computeds] at done
        exact cleanAt_of_drift noted.drift (cleans input member done)) later
    rwa [World.shown?_of_same computeds _ (whole.drift.value id (Or.inl le_rfl)), unchecked] at shown

theorem World.showsOutcomes_of_reads (steady : world.Steady chart program)
    (low : ∀ id, chart.rank id < depth + 2) (solves : world.Solves program (world.scratch program))
    (reads : ∀ ids id, (∀ other ∈ ids, (world.computed? other).isSome) →
      (world.computed? id).isSome → ∃ middle after,
        program.run (depth + 2) (readEach ids) world = some (.ok (), middle) ∧
          readNode (activate program (depth + 2)) id true middle =
            some (world.scratch program id, after)) :
    world.ShowsOutcomes program := by
  intro id state node present live usable
  have known := World.computed?_eq_some_iff.mp present
  have idle : world.inProgress id = false := by
    unfold World.inProgress
    rw [present]
    exact steady.idle id state present
  exact (World.upToDate_of_reads steady low solves reads (depth + 2)).shows id node (low id) live
    (steady.wired.kind id _ node known live) idle usable

theorem World.AnswersReads.showsOutcomes (steady : world.Steady chart program)
    (low : ∀ id, chart.rank id < depth + 2) (solves : world.Solves program (world.scratch program))
    (answers : world.AnswersReads program (depth + 2)) : world.ShowsOutcomes program := by
  refine World.showsOutcomes_of_reads steady low solves fun ids id _ _ => ?_
  have reads := readEach_onlyReads (κ := κ) (ν := ν) (σ := σ) ids
  obtain ⟨middle, first⟩ := answers Unit (readEach ids) reads
  obtain ⟨after, both⟩ := answers ν (.bind (readEach ids) fun _ => .call (.get id))
    ⟨reads, fun _ => trivial⟩
  rw [outcome_readEach] at first
  refine ⟨middle, after, first, ((Run.bind_of_ok first _).symm.trans both).trans ?_⟩
  show some (((readEach ids).outcome _).bind _, after) = _
  rw [outcome_readEach]
  rfl

/-- Where computeds show their outcomes, acts of reads give them. -/
theorem World.ShowsOutcomes.answersReads (steady : world.Steady chart program)
    (low : ∀ id, chart.rank id < depth) (solves : world.Solves program (world.scratch program))
    (shows : world.ShowsOutcomes program) : world.AnswersReads program depth := by
  have upToDate : world.UpToDate chart program (world.scratch program) depth := by
    refine ⟨solves, fun id node _ live derived _ usable => ?_⟩
    obtain ⟨state, known⟩ := steady.wired.computed_of_derived live derived
    exact shows id state node (World.computed?_eq_some_iff.mpr known) live usable
  have refreshes : Refreshes chart program (world.scratch program) depth (activate program depth)
      depth := activate_refreshes le_rfl le_rfl
  intro α act reads
  obtain ⟨result, after, ran, _, gives⟩ := act_answers refreshes (fun id _ => low id)
    (fun id _ => low id) reads (steady.ready depth) (steady.tracks _)
  exact ⟨after, ran.trans (by rw [gives upToDate])⟩

end

theorem World.initial_steady (user : σ) :
    (World.initial user : World κ ν σ).Steady chart program where
  toQuiet := World.initial_quiet user
  wired :=
    { home := fun _ _ found => nomatch found
      body := fun _ _ _ found => nomatch found
      held := fun _ _ found => nomatch found
      kind := fun _ _ _ found => nomatch found
      live := fun _ _ found => nomatch found }
  consistent := fun _ _ found => nomatch found

/-- A history whose closures only read leaves a steady world, in which the outcomes from scratch are
right. -/
theorem History.reaches [BEq ν] [LawfulBEq ν] (program : Program κ ν σ) (history : History κ ν)
    (fits : history.Fits 0 []) (readsOnly : ReadsOnly program history.made) (user : σ)
    (depth : Nat) (deep : history.made.length < depth) :
    ∃ world, program.run depth history.act (World.initial user) = some (.ok (), world) ∧
      world.Steady (chartOf program history.made) program ∧
      world.Solves program (world.scratch program) ∧
      (∀ id, (world.computed? id).isSome → 2 ≤ depth) := by
  obtain ⟨⟨⟩, world, ran, steady, making, _⟩ := history.makes readsOnly deep 0 []
    (World.initial_steady user) fits (Nat.zero_le _) (List.append_nil _)
  have cells : world.cells.length = history.made.length := by
    rw [← List.length_map (f := Cell.making), making]
    rfl
  refine ⟨world, ran, steady, World.scratch_solves (fun id state known =>
    (steady.wired.body id _ _ (World.computed?_eq_some_iff.mp known) rfl).mono
      fun node admitted => admitted.1) fun id => ?_, fun id known => ?_⟩
  · rw [cells]
    exact rankIn_le readsOnly id
  · obtain ⟨state, present⟩ := Option.isSome_iff_exists.mp known
    have inside := (List.getElem?_eq_some_iff.mp (World.computed?_eq_some_iff.mp present)).1
    omega

/-- After any history without effects whose closures only read and may panic, acts of reads give
their outcomes from scratch exactly if every computed that is not dirty shows its outcome. -/
theorem answers_reads_iff_shows_outcomes [BEq ν] [LawfulBEq ν] (program : Program κ ν σ)
    (history : History κ ν) (fits : history.Fits 0 []) (readsOnly : ReadsOnly program history.made)
    (user : σ) (depth : Nat) (deep : history.made.length < depth) :
    ∃ world, program.run depth history.act (World.initial user) = some (.ok (), world) ∧
      (world.AnswersReads program depth ↔ world.ShowsOutcomes program) := by
  obtain ⟨world, ran, steady, solves, two⟩ :=
    history.reaches program fits readsOnly user depth deep
  have low : ∀ id, (chartOf program history.made).rank id < depth := fun id =>
    Nat.lt_of_le_of_lt (rankIn_le readsOnly id) deep
  refine ⟨world, ran, fun answers id state node known => ?_,
    fun shows => shows.answersReads steady low solves⟩
  obtain ⟨less, rfl⟩ : ∃ less, depth = less + 2 :=
    ⟨depth - 2, by have := two id (by rw [known]; rfl); omega⟩
  exact answers.showsOutcomes steady low solves id state node known

/-- One computed fails while the first signal is two; another one takes the failure for zero. An effect
reads the first of them. -/
def Program.recovering : Program Bool Nat Unit where
  compute
    | false => .bind (.call (.get ⟨0⟩)) fun value : Nat =>
        if value = 2 then .raise (.text "two") else .pure value
    | true => .bind (.call (.tryGet ⟨1⟩)) fun
        | Except.ok value => .pure value
        | Except.error _ => .pure 0
  effect _ := .bind (.call (.tryGet ⟨1⟩)) fun _ => .pure (.ok none)
  cleanup _ := .pure ()
  callback _ _ := .pure ()
  render _ := .pure none
  handler _ := .pure ()

/-- The signal is written, so that the computed below fails. -/
def History.failBelow : History Bool Nat :=
  .newReactor {} <| .newSignal ⟨0⟩ 1 <| .newComputed ⟨0⟩ false <| .newComputed ⟨0⟩ true <|
    .set ⟨0⟩ 2 .done

theorem History.failBelow_fits : History.failBelow.Fits 0 [] := by
  refine ⟨?_, ?_, ?_, ⟨_, rfl, rfl⟩, trivial⟩ <;> decide

/-- Each computed reads the node before it. -/
theorem History.failBelow_readsOnly : ReadsOnly Program.recovering History.failBelow.made := by
  refine readsOnly_of_earlier ⟨0⟩ (by decide) fun ⟨index⟩ making body found code => ?_
  match index, found with
  | 0, rfl => cases code
  | 1, rfl =>
    cases code
    exact ⟨Nat.one_pos, fun value : Nat => by dsimp only; split <;> trivial⟩
  | 2, rfl =>
    cases code
    exact ⟨Nat.lt_succ_self 1, fun
      | Except.ok _ => trivial
      | Except.error _ => trivial⟩

/-- A computed fails like its input, although its closure takes that failure for zero. -/
theorem failure_below_not_recovered :
    History.failBelow.Fits 0 [] ∧ ReadsOnly Program.recovering History.failBelow.made ∧
      ∃ world, Program.recovering.run 4 History.failBelow.act (World.initial ()) =
          some (.ok (), world) ∧
        (Program.recovering.run 4 (.attempt (.call (.get ⟨2⟩))) world).map Prod.fst =
          some (.ok (.error (.text "two"))) ∧
        world.scratch Program.recovering ⟨2⟩ = .ok 0 := by
  refine ⟨History.failBelow_fits, History.failBelow_readsOnly, ?_⟩
  have ends : (Program.recovering.run 4 History.failBelow.act (World.initial ())).map Prod.fst =
      some (.ok ()) := by
    decide +kernel
  have read : (Program.recovering.run 4 History.failBelow.act (World.initial ())).map
      (fun reached =>
        ((Program.recovering.run 4 (.attempt (.call (.get ⟨2⟩))) reached.2).map Prod.fst,
          reached.2.scratch Program.recovering ⟨2⟩)) =
      some (some (.ok (.error (.text "two"))), .ok 0) := by
    decide +kernel
  obtain ⟨⟨result, world⟩, ran, rfl⟩ := Option.map_eq_some_iff.mp ends
  rw [ran] at read
  obtain ⟨fails, recovers⟩ := Prod.mk.inj (Option.some.inj read)
  exact ⟨world, ran, fails, recovers⟩

end ReactiveTree
