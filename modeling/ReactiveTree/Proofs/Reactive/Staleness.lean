import ReactiveTree.Proofs.Reactive.Outcomes

/-! # When reads are right

A doubtful computed compares the versions of its computed inputs with what they are when it is
checked, not with what they were when it read them. An input that something else has brought up to
date in between therefore looks unchanged, and the computed keeps what it had. So reads in any order
are right exactly in the worlds in which no computed needs its mark to be trusted: each one that is
not dirty has already kept the right value.
-/

namespace ReactiveTree

variable {κ ν σ : Type} {chart : Chart} {program : Program κ ν σ} {world after : World κ ν σ}

/-- Read nodes one after the other. -/
def readAll : List NodeId → Act κ ν σ (List ν)
  | [] => .pure []
  | id :: rest =>
    .bind (.call (.get id)) fun value => .bind (readAll rest) fun values => .pure (value :: values)

/-- Reading computeds, any of them in any order, gives what evaluating them from scratch gives. -/
def World.ReadsRight [BEq ν] (world : World κ ν σ) (program : Program κ ν σ) (depth : Nat) : Prop :=
  ∀ ids : List NodeId, (∀ id ∈ ids, (world.computed? id).isSome) →
    ∃ values after, program.run depth (readAll ids) world = some (.ok values, after) ∧
      values.map Except.ok = ids.map (world.scratch program)

/-- Every computed that is not marked dirty has kept what evaluating it from scratch gives. -/
def World.KeepsRight (world : World κ ν σ) (program : Program κ ν σ) : Prop :=
  ∀ id computed node, world.computed? id = some computed → world.node? id = some node →
    node.freshness ≠ .dirty →
    ∃ value, computed.value = some value ∧ world.scratch program id = .ok value

theorem readAll_onlyReads (ids : List NodeId) :
    (readAll ids : Act κ ν σ (List ν)).OnlyReads fun _ => True := by
  induction ids with
  | nil => trivial
  | cons id rest ih => exact ⟨trivial, fun _ => ⟨ih, fun _ => trivial⟩⟩

theorem outcome_readAll {truth : NodeId → Except Panic ν} {ids : List NodeId}
    (defined : ∀ id ∈ ids, ∃ value, truth id = .ok value) :
    ∃ values, (readAll ids : Act κ ν σ (List ν)).outcome truth = .ok values ∧
      values.map Except.ok = ids.map truth := by
  induction ids with
  | nil => exact ⟨[], rfl, rfl⟩
  | cons id rest ih =>
    obtain ⟨value, answer⟩ := defined id List.mem_cons_self
    obtain ⟨values, outcome, equal⟩ := ih fun id member => defined id (List.mem_cons_of_mem _ member)
    refine ⟨value :: values, ?_, ?_⟩
    · show (truth id).bind _ = _
      rw [answer]
      show ((readAll rest : Act κ ν σ (List ν)).outcome truth).bind _ = _
      rw [outcome]
      rfl
    · rw [List.map_cons, List.map_cons, equal, answer]

section

variable [BEq ν] {engine : Engine κ ν σ}

private theorem readAll_append {ids : List NodeId} {last : NodeId} {values : List ν}
    (ran : (readAll (ids ++ [last])).run engine world = some (.ok values, after)) :
    ∃ firsts middle value, (readAll ids).run engine world = some (.ok firsts, middle) ∧
      readNode engine last true middle = some (.ok value, after) ∧ values = firsts ++ [value] := by
  induction ids generalizing world values with
  | nil =>
    obtain ⟨value, middle, read, ran⟩ := Run.of_bind_eq_ok ran
    cases ran
    exact ⟨[], world, value, rfl, read, rfl⟩
  | cons id rest ih =>
    obtain ⟨value, middle, read, ran⟩ := Run.of_bind_eq_ok ran
    obtain ⟨values', after', others, ran⟩ := Run.of_bind_eq_ok ran
    cases ran
    obtain ⟨firsts, middle', value', earlier, later, rfl⟩ := ih others
    refine ⟨value :: firsts, middle', value', ?_, later, rfl⟩
    exact (Run.bind_of_ok read _).trans ((Run.bind_of_ok earlier _).trans rfl)

/-- Reads that succeed can be made whatever they give. -/
private theorem readEach_of_readAll {ids : List NodeId} {values : List ν}
    (ran : (readAll ids).run engine world = some (.ok values, after)) :
    (readEach ids).run engine world = some (.ok (), after) := by
  induction ids generalizing world values with
  | nil =>
    cases ran
    rfl
  | cons id rest ih =>
    obtain ⟨value, middle, read, ran⟩ := Run.of_bind_eq_ok ran
    obtain ⟨values', after', others, ran⟩ := Run.of_bind_eq_ok ran
    cases ran
    exact (Run.bind_of_ok (Run.attempt_of read) _).trans (ih others)

end

/-- Where nothing fails, what a computed shows is the value that it has kept. -/
theorem World.keepsRight_iff_showsOutcomes
    (defined : ∀ id, (world.computed? id).isSome → ∃ value, world.scratch program id = .ok value) :
    world.KeepsRight program ↔ world.ShowsOutcomes program := by
  have fine : ∀ ids, world.refreshedAll (world.scratch program) ids = .ok () := by
    intro ids
    induction ids with
    | nil => rfl
    | cons id rest ih =>
      have done : world.refreshed (world.scratch program) id = .ok () := by
        unfold World.refreshed
        split
        next known =>
          obtain ⟨value, answer⟩ := defined id known
          rw [answer]
          rfl
        next => rfl
      rw [World.refreshedAll, done]
      exact ih
  have shown : ∀ id computed (node : Node), world.computed? id = some computed →
      world.shown? (world.scratch program) node.unchecked id = computed.value.map .ok := by
    intro id computed node known
    unfold World.shown?
    rw [fine, ← computed?_value, known]
    rfl
  constructor
  · intro keeps id computed node known live usable
    obtain ⟨value, kept, right⟩ := keeps id computed node known live usable
    rw [shown id computed node known, kept, right]
    rfl
  · intro shows id computed node known live usable
    have same := shows id computed node known live usable
    rw [shown id computed node known] at same
    obtain ⟨value, kept, right⟩ := Option.map_eq_some_iff.mp same
    exact ⟨value, kept, right.symm⟩

/-- Where acts of reads give their outcomes and nothing fails, reads in any order are right. -/
theorem World.AnswersReads.readsRight [BEq ν] {depth : Nat}
    (defined : ∀ id, (world.computed? id).isSome → ∃ value, world.scratch program id = .ok value)
    (answers : world.AnswersReads program depth) : world.ReadsRight program depth := by
  intro ids computeds
  obtain ⟨after, ran⟩ := answers (List ν) (readAll ids) (readAll_onlyReads ids)
  obtain ⟨values, outcome, right⟩ := outcome_readAll (κ := κ) (σ := σ) fun id member =>
    defined id (computeds id member)
  exact ⟨values, after, ran.trans (by rw [outcome]), right⟩

/-- Where reads are right, computeds show their outcomes. -/
theorem World.ReadsRight.showsOutcomes [BEq ν] [LawfulBEq ν] {depth : Nat}
    (steady : world.Steady chart program)
    (low : ∀ id, chart.rank id < depth + 2) (solves : world.Solves program (world.scratch program))
    (reads : world.ReadsRight program (depth + 2)) : world.ShowsOutcomes program := by
  refine World.showsOutcomes_of_reads steady low solves fun ids id computeds known => ?_
  obtain ⟨values, after, ran, right⟩ := reads (ids ++ [id]) fun other member => by
    rcases List.mem_append.mp member with first | last
    · exact computeds other first
    · rwa [List.mem_singleton.mp last]
  obtain ⟨firsts, middle, value, earlier, later, rfl⟩ := readAll_append ran
  rw [List.map_append, List.map_append] at right
  have last : Except.ok value = world.scratch program id :=
    (List.cons.inj (List.append_inj' right rfl).2).1
  exact ⟨middle, after, readEach_of_readAll earlier, by rw [← last]; exact later⟩

/-- After any history without effects whose closures only read, and once no closure panics on the
present values, reads of computeds in any order give what evaluating from scratch gives exactly if
every computed that is not dirty has kept that. -/
theorem reads_right_iff_keeps_right [BEq ν] [LawfulBEq ν] (program : Program κ ν σ)
    (history : History κ ν) (fits : history.Fits 0 []) (readsOnly : ReadsOnly program history.made)
    (user : σ) (depth : Nat) (deep : history.made.length < depth) :
    ∃ world, program.run depth history.act (World.initial user) = some (.ok (), world) ∧
      ((∀ id, (world.computed? id).isSome → ∃ value, world.scratch program id = .ok value) →
        (world.ReadsRight program depth ↔ world.KeepsRight program)) := by
  obtain ⟨world, ran, steady, solves, two⟩ :=
    history.reaches program fits readsOnly user depth deep
  have low : ∀ id, (chartOf program history.made).rank id < depth := fun id =>
    Nat.lt_of_le_of_lt (rankIn_le readsOnly id) deep
  refine ⟨world, ran, fun defined => ⟨fun reads => ?_, fun keeps => ?_⟩⟩
  · refine (World.keepsRight_iff_showsOutcomes defined).mpr fun id state node known => ?_
    obtain ⟨less, rfl⟩ : ∃ less, depth = less + 2 :=
      ⟨depth - 2, by have := two id (by rw [known]; rfl); omega⟩
    exact reads.showsOutcomes steady low solves id state node known
  · exact (((World.keepsRight_iff_showsOutcomes defined).mp keeps).answersReads steady low
      solves).readsRight defined

/-- Every computed adds an amount to one node. -/
def Program.adding : Program (NodeId × Nat) Nat Unit where
  compute code := .bind (.call (.get code.1)) fun value => .pure (value + code.2)
  effect _ := .pure (.ok none)
  cleanup _ := .pure ()
  callback _ _ := .pure ()
  render _ := .pure none
  handler _ := .pure ()

/-- A signal is copied and ten is added to the copy; the signal is written and the copy is read. -/
def History.copyReadFirst : History (NodeId × Nat) Nat :=
  .newReactor {} <| .newSignal ⟨0⟩ 1 <| .newComputed ⟨0⟩ (⟨0⟩, 0) <|
    .newComputed ⟨0⟩ (⟨1⟩, 10) <| .set ⟨0⟩ 2 <| .read ⟨1⟩ .done

theorem History.copyReadFirst_fits : History.copyReadFirst.Fits 0 [] := by
  refine ⟨?_, ?_, ?_, ⟨_, rfl, rfl⟩, trivial⟩ <;> decide

/-- Each node reads the one before it. -/
theorem History.copyReadFirst_readsOnly :
    ReadsOnly Program.adding History.copyReadFirst.made := by
  refine readsOnly_of_earlier ⟨0⟩ (by decide) fun ⟨index⟩ making body found code => ?_
  match index, found with
  | 0, rfl => cases code
  | 1, rfl =>
    cases code
    exact ⟨Nat.one_pos, fun _ => trivial⟩
  | 2, rfl =>
    cases code
    exact ⟨Nat.lt_succ_self 1, fun _ => trivial⟩

theorem reads_right_iff_keeps_right_adding :
    ∃ world, Program.adding.run 4 History.copyReadFirst.act (World.initial ()) =
        some (.ok (), world) ∧
      ((∀ id, (world.computed? id).isSome →
          ∃ value, world.scratch Program.adding id = .ok value) →
        (world.ReadsRight Program.adding 4 ↔ world.KeepsRight Program.adding)) :=
  reads_right_iff_keeps_right Program.adding History.copyReadFirst History.copyReadFirst_fits
    History.copyReadFirst_readsOnly () 4 (by decide)

/-- After its input was read first, a computed still has the value of the old input. -/
theorem stale_after_reading_input :
    History.copyReadFirst.Fits 0 [] ∧ ReadsOnly Program.adding History.copyReadFirst.made ∧
      ∃ world, Program.adding.run 4 History.copyReadFirst.act (World.initial ()) =
          some (.ok (), world) ∧
        (∀ id, (world.computed? id).isSome →
          ∃ value, world.scratch Program.adding id = .ok value) ∧
        (Program.adding.run 4 (readAll [⟨2⟩]) world).map Prod.fst = some (.ok [11]) ∧
        world.scratch Program.adding ⟨2⟩ = .ok 12 := by
  refine ⟨History.copyReadFirst_fits, History.copyReadFirst_readsOnly, ?_⟩
  have ends : (Program.adding.run 4 History.copyReadFirst.act (World.initial ())).map Prod.fst =
      some (.ok ()) := by
    decide +kernel
  have answers : (Program.adding.run 4 History.copyReadFirst.act (World.initial ())).map
      (fun reached => (reached.2.cells.length,
        (List.range 3).map fun index => reached.2.scratch Program.adding ⟨index⟩)) =
      some (3, [.ok 2, .ok 2, .ok 12]) := by
    decide +kernel
  have read : (Program.adding.run 4 History.copyReadFirst.act (World.initial ())).map
      (fun reached => (Program.adding.run 4 (readAll [⟨2⟩]) reached.2).map Prod.fst) =
      some (some (.ok [11])) := by
    decide +kernel
  obtain ⟨⟨result, world⟩, ran, rfl⟩ := Option.map_eq_some_iff.mp ends
  rw [ran] at answers read
  obtain ⟨cells, answers⟩ := Prod.mk.inj (Option.some.inj answers)
  have first : world.scratch Program.adding ⟨0⟩ = .ok 2 := (List.cons.inj answers).1
  have copy : world.scratch Program.adding ⟨1⟩ = .ok 2 :=
    (List.cons.inj (List.cons.inj answers).2).1
  have last : world.scratch Program.adding ⟨2⟩ = .ok 12 :=
    (List.cons.inj (List.cons.inj (List.cons.inj answers).2).2).1
  refine ⟨world, ran, fun id known => ?_, Option.some.inj read, last⟩
  obtain ⟨state, present⟩ := Option.isSome_iff_exists.mp known
  have inside := (List.getElem?_eq_some_iff.mp (World.computed?_eq_some_iff.mp present)).1
  rw [cells] at inside
  match id, inside with
  | ⟨0⟩, _ => exact ⟨2, first⟩
  | ⟨1⟩, _ => exact ⟨2, copy⟩
  | ⟨2⟩, _ => exact ⟨12, last⟩

end ReactiveTree
