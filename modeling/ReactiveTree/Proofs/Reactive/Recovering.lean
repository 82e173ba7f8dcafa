import ReactiveTree.Proofs.Reactive.Dating
import ReactiveTree.Proofs.Reactive.Isolation
import ReactiveTree.Proofs.Reactive.Outcomes

/-! # When failures and recoveries are noticed

A pass that reaches an effect through computeds alone brings these up to date and looks for news: a
failure, a change that is recorded meanwhile, or an input that has left the graph. Nothing else makes
it run the effect again, whatever the last run saw. In particular a computed that recovers from a
failure with the value that it had before is no news, and neither is one that something else has
brought up to date already.
-/

namespace ReactiveTree

variable {κ ν σ : Type}

/-- Bringing inputs up to date, one after the other, comes to one that fails, for which a change was
recorded since the start, or that has left the graph. -/
inductive FindsNews (engine : Engine κ ν σ) (owner : ReactorId) (start : World κ ν σ) :
    List NodeId → World κ ν σ → Prop
  | failed {input rest world panic after}
      (asked : engine (.refresh input) world = some (.error panic, after)) :
      FindsNews engine owner start (input :: rest) world
  | changed {input rest world after}
      (asked : engine (.refresh input) world = some (.ok (), after))
      (news : after.changesOf input ≠ start.changesOf input) :
      FindsNews engine owner start (input :: rest) world
  | left {input rest world after}
      (asked : engine (.refresh input) world = some (.ok (), after))
      (gone : (after.graph owner).node? input = none) :
      FindsNews engine owner start (input :: rest) world
  | later {input rest world after}
      (asked : engine (.refresh input) world = some (.ok (), after))
      (others : FindsNews engine owner start rest after) :
      FindsNews engine owner start (input :: rest) world

/-- The effect of a visit is active and idle and has not run since the pass began. -/
def Visit.IsReady (entry : Visit) (start : World κ ν σ) : Prop :=
  ∃ effect, start.effect? entry.wakeup.effect = some effect ∧ effect.active = true ∧
    effect.executing = false ∧ effect.runs = entry.runs

/-- The computed inputs of an effect. -/
def World.computedInputs (world : World κ ν σ) (owner : ReactorId) (effect : NodeId) :
    List NodeId :=
  ((world.graph owner).derivedInputs effect).map Prod.fst

/-- The version of an input has moved if a change of it was recorded since, or if it is gone. -/
theorem World.Dated.version_moved_iff {start after : World κ ν σ} (dated : after.Dated)
    (leads : start.Leads after) (owner : ReactorId) (input : NodeId) :
    (after.graph owner).version? input ≠ some (start.changesOf input).length ↔
      after.changesOf input ≠ start.changesOf input ∨ (after.graph owner).node? input = none := by
  unfold Graph.version?
  cases live : (after.graph owner).node? input with
  | none => simp
  | some node =>
    obtain ⟨events, past⟩ := leads.past
    have grown : after.changesOf input =
        events.filterMap (Event.change? input) ++ start.changesOf input := by
      unfold World.changesOf
      rw [past, List.filterMap_append]
    rw [Option.map_some, dated.version owner input node live, grown]
    simp

section

variable [BEq ν] {program : Program κ ν σ} {depth : Nat} {owner : ReactorId}
  {world start : World κ ν σ}

/-- Inputs are found to have changed if there is news of one of them. -/
theorem anyChanged_iff_findsNews (dated : start.Dated) {inputs : List (NodeId × Nat)}
    (noted : ∀ entry ∈ inputs, entry.2 = (start.changesOf entry.1).length)
    (trail : Trail program (.flat .serving) start world) :
    (∃ after, anyChanged (activate program depth) owner inputs world = some (.ok true, after)) ↔
      FindsNews (activate program depth) owner start (inputs.map Prod.fst) world := by
  induction inputs generalizing world with
  | nil =>
    refine ⟨fun ⟨_, ran⟩ => ?_, nofun⟩
    cases ran
  | cons entry rest ih =>
    obtain ⟨input, version⟩ := entry
    unfold anyChanged
    rw [List.map_cons]
    cases asked : activate program depth (.refresh input) world with
    | none =>
      rw [Run.bind_of_none (Run.attempt_of_none asked)]
      refine ⟨nofun, fun news => ?_⟩
      cases news <;> rename_i asked' <;> cases asked.symm.trans asked'
    | some outcome =>
      obtain ⟨result, after⟩ := outcome
      rw [Run.bind_of_ok (Run.attempt_of asked)]
      cases result with
      | error panic => exact ⟨fun _ => .failed asked, fun _ => ⟨after, rfl⟩⟩
      | ok done =>
        have trail' := trail.trans ((activate_traced program depth).refresh input _ _ _ asked)
        have same : version = (start.changesOf input).length := noted _ List.mem_cons_self
        have moved := (trail'.dated dated).version_moved_iff trail'.leads owner input
        have others := ih (fun entry member => noted entry (List.mem_cons_of_mem _ member)) trail'
        subst same
        show (∃ last, (if (after.graph owner).version? input ≠ some (start.changesOf input).length then
          pure true else anyChanged (activate program depth) owner rest : Run κ ν σ Bool) after =
            some (.ok true, last)) ↔ _
        by_cases news : after.changesOf input ≠ start.changesOf input ∨
            (after.graph owner).node? input = none
        · rw [if_pos (moved.mpr news)]
          exact ⟨fun _ => news.elim (.changed asked) (.left asked), fun _ => ⟨after, rfl⟩⟩
        · rw [if_neg fun apart => news (moved.mp apart), others]
          refine ⟨.later asked, fun found => ?_⟩
          cases found with
          | failed asked' => cases asked.symm.trans asked'
          | changed asked' changed =>
            cases asked.symm.trans asked'
            exact (news (Or.inl changed)).elim
          | left asked' gone =>
            cases asked.symm.trans asked'
            exact (news (Or.inr gone)).elim
          | later asked' others' =>
            cases asked.symm.trans asked'
            exact others'

/-- An effect that did not read a changed source itself has to run if there is news of one of its
inputs. -/
theorem needsRun_iff_findsNews (dated : start.Dated) (program : Program κ ν σ) (depth : Nat)
    (owner : ReactorId) (effect : NodeId) :
    (∃ after, needsRun (activate program depth) owner effect start = some (.ok true, after)) ↔
      FindsNews (activate program depth) owner start (start.computedInputs owner effect) start := by
  refine anyChanged_iff_findsNews dated (fun entry member => ?_) (.refl _ start)
  cases live : (start.graph owner).node? effect with
  | none =>
    unfold Graph.derivedInputs Graph.dependenciesOf at member
    rw [live] at member
    cases member
  | some node =>
    obtain ⟨_, input, present, _, version⟩ := mem_derivedInputs live member
    rw [version, dated.version owner entry.1 input present]

/-- A visit starts its effect if this is ready and either read a changed source itself or there is
news of one of its inputs. -/
theorem starts_iff (dated : start.Dated) (entry : Visit) :
    (∃ begun, Starts (activate program depth) owner entry start begun) ↔
      entry.IsReady start ∧ (entry.wakeup.certain = true ∨
        FindsNews (activate program depth) owner start
          (start.computedInputs owner entry.wakeup.effect) start) := by
  have asked := needsRun_iff_findsNews dated program depth owner entry.wakeup.effect
  constructor
  · rintro ⟨begun, ready, middle, wanted, _⟩
    refine ⟨ready, ?_⟩
    rcases wanted with ⟨certain, _⟩ | ⟨_, wanted⟩
    · exact Or.inl certain
    · exact Or.inr (asked.mp ⟨middle, wanted⟩)
  · rintro ⟨ready, wanted⟩
    cases certain : entry.wakeup.certain with
    | true => exact ⟨_, ready, start, Or.inl ⟨certain, rfl⟩, rfl⟩
    | false =>
      rw [certain] at wanted
      obtain ⟨middle, wanted⟩ := asked.mpr (wanted.resolve_left nofun)
      exact ⟨_, ready, middle, Or.inr ⟨certain, wanted⟩, rfl⟩

/-- A pass comes to its visits in dated worlds if it began in one. -/
theorem ComesTo.dated {sources : List NodeId} {entry : Visit}
    (comes : ComesTo (activate program depth) owner sources world entry start)
    (dated : world.Dated) : start.Dated := by
  obtain ⟨before, _, _, made⟩ := comes
  have entered : (world.enterPass owner sources).Dated :=
    (World.Dateless.enterPass world owner sources).dated dated
  obtain ⟨_, trail⟩ := visits_trail (activate_traced program depth) owner before _ _ _ made
  exact trail.dated entered

end

/-- After any history without effects whose closures only read and may panic, acts of reads give
their outcomes from scratch exactly if every computed that is not dirty shows its outcome. And in any
pass of any program a visit starts its effect, whatever its last run saw, exactly if it is ready and
either it read a changed source itself or one of its computed inputs fails, changes or leaves the
graph while it is asked. A change is one of the kept value, which failures leave alone: every world
that a program comes to is dated. -/
theorem answers_reads_iff_and_starts_iff [BEq ν] [LawfulBEq ν] (program : Program κ ν σ) :
    (∀ history : History κ ν, history.Fits 0 [] → ReadsOnly program history.made →
      ∀ (user : σ) (depth : Nat), history.made.length < depth →
        ∃ world, program.run depth history.act (World.initial user) = some (.ok (), world) ∧
          (world.AnswersReads program depth ↔ world.ShowsOutcomes program)) ∧
    (∀ (depth : Nat) (owner : ReactorId) (sources : List NodeId) (world start : World κ ν σ)
      (entry : Visit), world.Dated →
        ComesTo (activate program depth) owner sources world entry start →
          ((∃ begun, Starts (activate program depth) owner entry start begun) ↔
            entry.IsReady start ∧ (entry.wakeup.certain = true ∨
              FindsNews (activate program depth) owner start
                (start.computedInputs owner entry.wakeup.effect) start))) ∧
    ∀ (α : Type) (act : Act κ ν σ α) (depth : Nat) (user : σ) (result : Except Panic α)
      (world : World κ ν σ), program.run depth act (World.initial user) = some (result, world) →
        world.Dated :=
  ⟨fun history fits readsOnly user depth deep =>
      answers_reads_iff_shows_outcomes program history fits readsOnly user depth deep,
    fun _ _ _ _ _ entry dated comes => starts_iff (comes.dated dated) entry,
    fun _ _ _ _ _ _ ran => program.run_dated ran⟩

/-- Make a signal of one, the computed that fails at two and the effect; then set the signal to two,
so that the effect runs and sees the failure. -/
def Act.failAbove : Act Bool Nat Unit Unit :=
  .bind (.call (.newReactor {})) fun _ =>
    .bind (.call (.newSignal ⟨0⟩ 1)) fun _ =>
      .bind (.call (.newComputed ⟨0⟩ false)) fun _ =>
        .bind (.call (.newEffect ⟨0⟩ false true)) fun _ => .call (.set ⟨0⟩ 2)

/-- When the signal is one again, the computed recovers with the value that it had before, and the
effect that saw it fail finds no news. -/
theorem answers_reads_iff_and_starts_iff_recovering :
    (∃ world, Program.recovering.run 4 History.failBelow.act (World.initial ()) =
        some (.ok (), world) ∧
      (world.AnswersReads Program.recovering 4 ↔ world.ShowsOutcomes Program.recovering)) ∧
    ∃ world start entry, Program.recovering.run 4 Act.failAbove (World.initial ()) =
        some (.ok (), world) ∧ .ended ⟨1⟩ true ∈ world.past ∧
      ComesTo (activate Program.recovering 4) ⟨0⟩ [⟨0⟩] (world.put ⟨0⟩ ⟨0⟩ 1) entry start ∧
      entry.wakeup.effect = ⟨2⟩ ∧ entry.IsReady start ∧
      ¬ FindsNews (activate Program.recovering 4) ⟨0⟩ start (start.computedInputs ⟨0⟩ ⟨2⟩) start := by
  obtain ⟨reads, starts, dated⟩ := answers_reads_iff_and_starts_iff Program.recovering
  refine ⟨reads History.failBelow History.failBelow_fits History.failBelow_readsOnly () 4 (by decide),
    ?_⟩
  have ends : (Program.recovering.run 4 Act.failAbove (World.initial ())).map (fun reached =>
      (reached.1, (reached.2.signal? ⟨0⟩).map Signal.reactor,
        decide (.ended ⟨1⟩ true ∈ reached.2.past))) = some (.ok (), some ⟨0⟩, true) := by
    decide +kernel
  have plans : (Program.recovering.run 4 Act.failAbove (World.initial ())).map (fun reached =>
      (reached.2.put ⟨0⟩ ⟨0⟩ 1).passVisits ⟨0⟩ [⟨0⟩]) =
        some [⟨⟨⟨2⟩, false, [⟨0⟩]⟩, 2⟩] := by
    decide +kernel
  have asks : (Program.recovering.run 4 Act.failAbove (World.initial ())).map (fun reached =>
      (((reached.2.put ⟨0⟩ ⟨0⟩ 1).enterPass ⟨0⟩ [⟨0⟩]).effect? ⟨2⟩,
        (needsRun (activate Program.recovering 4) ⟨0⟩ ⟨2⟩
          ((reached.2.put ⟨0⟩ ⟨0⟩ 1).enterPass ⟨0⟩ [⟨0⟩])).map Prod.fst)) =
        some (some ⟨⟨0⟩, .plain false, false, none, true, false, 2, 3⟩, some (.ok false)) := by
    decide +kernel
  obtain ⟨⟨result, world⟩, ran, reached⟩ := Option.map_eq_some_iff.mp ends
  obtain ⟨rfl, reached⟩ := Prod.mk.inj reached
  obtain ⟨home, failed⟩ := Prod.mk.inj reached
  rw [ran] at plans asks
  obtain ⟨signal, found, home⟩ := Option.map_eq_some_iff.mp home
  obtain ⟨effect, refused⟩ := Prod.mk.inj (Option.some.inj asks)
  have dated' : (world.put ⟨0⟩ ⟨0⟩ 1).Dated := home ▸ (dated _ _ _ _ _ _ ran).put found 1
  have comes : ComesTo (activate Program.recovering 4) ⟨0⟩ [⟨0⟩] (world.put ⟨0⟩ ⟨0⟩ 1)
      ⟨⟨⟨2⟩, false, [⟨0⟩]⟩, 2⟩ ((world.put ⟨0⟩ ⟨0⟩ 1).enterPass ⟨0⟩ [⟨0⟩]) :=
    ⟨[], [], Option.some.inj plans, rfl⟩
  have ready : Visit.IsReady ⟨⟨⟨2⟩, false, [⟨0⟩]⟩, 2⟩
      ((world.put ⟨0⟩ ⟨0⟩ 1).enterPass ⟨0⟩ [⟨0⟩]) := ⟨_, effect, rfl, rfl, rfl⟩
  refine ⟨world, _, _, ran, of_decide_eq_true failed, comes, rfl, ready, fun news => ?_⟩
  obtain ⟨_, _, middle, wanted, _⟩ := (starts 4 _ _ _ _ _ dated' comes).mpr ⟨ready, Or.inr news⟩
  rcases wanted with ⟨certain, _⟩ | ⟨_, asked⟩
  · cases certain
  · rw [show needsRun (activate Program.recovering 4) ⟨0⟩ ⟨2⟩ _ = _ from asked] at refused
    cases refused

end ReactiveTree
