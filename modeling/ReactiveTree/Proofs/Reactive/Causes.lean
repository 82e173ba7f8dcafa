import ReactiveTree.Proofs.Reactive.Passes

/-! # The causes of a run stay as they are

While a pass runs an effect, the chain holds the sources that led to it in this pass and those that
led to the effects around it. No write reaches a signal on the chain, however deeply the effect and
its cleanup nest what they set off: the innermost chain only grows on the way down.
-/

namespace ReactiveTree

variable {κ ν σ : Type} {engine : Engine κ ν σ} {owner : ReactorId} {sources : List NodeId}
  {world start begun ended : World κ ν σ} {entry : Visit} {id : NodeId} {signal : Signal ν}

namespace World

/-- The causes are on the innermost chain, along with what was there. -/
theorem chained_pushChain {causes : List NodeId} (present : (world.reactor? owner).isSome)
    (onChain : id ∈ causes ∨ world.Chained owner id) :
    (world.modifyReactor owner (·.pushChain causes)).Chained owner id := by
  rcases onChain with cause | chained
  · obtain ⟨state, found⟩ := Option.isSome_iff_exists.mp present
    refine ⟨state.pushChain causes, ?_, ?_⟩
    · rw [reactor?_modifyReactor, if_pos rfl, found]
      rfl
    · exact decide_eq_true (mem_addAll.mpr (Or.inr cause))
  · exact chained.pushChain owner causes

theorem Becomes.chained {writes : Prop} (becomes : world.Becomes writes start)
    (chained : world.Chained owner id) : start.Chained owner id := by
  obtain ⟨_, course⟩ := becomes
  exact course.spares_all.chained chained

theorem Becomes.reactor {writes : Prop} (becomes : world.Becomes writes start)
    (present : (world.reactor? owner).isSome) : (start.reactor? owner).isSome := by
  obtain ⟨_, course⟩ := becomes
  obtain ⟨state, found⟩ := Option.isSome_iff_exists.mp present
  obtain ⟨_, found', _⟩ := course.spares_all.reactors owner state found
  rw [found']
  rfl

/-- A course leaves a signal alone that is on the innermost chain of its reactor. -/
theorem Becomes.fixes {writes : Prop} (becomes : begun.Becomes writes ended)
    (found : begun.signal? id = some signal) (chained : begun.Chained signal.reactor id) :
    (∃ signal', ended.signal? id = some signal' ∧ signal'.value = signal.value) ∧
      (∀ node, (ended.graph signal.reactor).node? id = some node → ∃ old,
        (begun.graph signal.reactor).node? id = some old ∧ node.version = old.version) ∧
      ∃ events, ended.past = events ++ begun.past ∧ ∀ value, .changed id value ∉ events := by
  obtain ⟨events, course⟩ := becomes
  have spares := course.spares_chained found chained
  have untouched : ¬ id ≠ id := Classical.not_not.mpr rfl
  obtain ⟨signal', found', _, value⟩ := spares.signal found
  refine ⟨⟨signal', found', value untouched⟩, fun node live => ?_, events, spares.past,
    fun value member => ?_⟩
  · obtain ⟨old, was, kept⟩ := spares.nodes signal.reactor id _ node
      (signal?_eq_some_iff.mp found) live
    exact ⟨old, was, (kept untouched nofun).1⟩
  · rcases spares.quiet _ member id rfl with apart | ⟨state, computed⟩
    · exact apart rfl
    · rw [computed?_eq_some_iff] at computed
      cases (signal?_eq_some_iff.mp found').symm.trans computed

end World

variable [BEq ν]

/-- When a pass runs an effect, body and cleanup, in a program whose closures do whatever they like,
then no signal changes value or version which led to the effect in this pass or is on the chain of
the run around the pass: at no time is a new value of it recorded, and at the end it still has the
value and, while it is live, the version that it had. -/
theorem causes_stay_fixed (program : Program κ ν σ) (depth : Nat) {result : Except Panic Unit}
    (comes : ComesTo (activate program depth) owner sources world entry start)
    (starts : Starts (activate program depth) owner entry start begun)
    (ran : activate program depth (.execute entry.wakeup.effect) begun = some (result, ended))
    (found : begun.signal? id = some signal) (home : signal.reactor = owner)
    (onChain : id ∈ entry.wakeup.causes ∨ world.Chained owner id) :
    (∃ signal', ended.signal? id = some signal' ∧ signal'.value = signal.value) ∧
      (∀ node, (ended.graph owner).node? id = some node → ∃ old,
        (begun.graph owner).node? id = some old ∧ node.version = old.version) ∧
      ∃ events, ended.past = events ++ begun.past ∧ ∀ value, .changed id value ∉ events := by
  have charts : Charts True (activate program depth) := activate_charts (Or.inl trivial) depth
  obtain ⟨middle, wanted, rfl⟩ := starts.wanted
  have before : world.Becomes True middle :=
    (comes.becomes charts trivial).trans (wanted.becomes charts)
  have chained := World.chained_pushChain (before.reactor comes.owner_present)
    (onChain.imp_right before.chained)
  have during := charts.execute trivial entry.wakeup.effect _ _ _ ran
  subst home
  exact during.fixes found chained

/-- An effect that writes what it reads: it counts the signal up. -/
def Program.counting : Program Unit Nat Unit where
  compute _ := .pure 0
  effect _ := .bind (.call (.get ⟨0⟩)) fun value =>
    .bind (.call (.set ⟨0⟩ (value + 1))) fun _ => .pure (.ok none)
  cleanup _ := .pure ()
  callback _ _ := .pure ()
  render _ := .pure none
  handler _ := .pure ()

/-- Make a signal of one, and the effect, which runs at once. -/
def Act.counting : Act Unit Nat Unit Unit :=
  .bind (.call (.newReactor {})) fun _ =>
    .bind (.call (.newSignal ⟨0⟩ 1)) fun _ =>
      .bind (.call (.newEffect ⟨0⟩ () true)) fun _ => .pure ()

/-- A pass from the signal runs the effect, and its write is dropped: the signal keeps the value that
the effect has counted up to in its first run. -/
theorem causes_stay_fixed_counting :
    ∃ world, Program.counting.run 3 Act.counting (World.initial ()) = some (.ok (), world) ∧
      ∃ entry start begun ended,
        ComesTo (activate Program.counting 3) ⟨0⟩ [⟨0⟩] world entry start ∧
        Starts (activate Program.counting 3) ⟨0⟩ entry start begun ∧
        activate Program.counting 3 (.execute entry.wakeup.effect) begun = some (.ok (), ended) ∧
        .circularWrite ⟨0⟩ "" ∈ ended.past ∧
        ∃ signal, ended.signal? ⟨0⟩ = some signal ∧ signal.value = 2 := by
  have ends : (Program.counting.run 3 Act.counting (World.initial ())).map Prod.fst =
      some (.ok ()) := by
    decide +kernel
  have plans : (Program.counting.run 3 Act.counting (World.initial ())).map
      (fun reached => reached.2.passVisits ⟨0⟩ [⟨0⟩]) =
        some [⟨⟨⟨1⟩, true, [⟨0⟩]⟩, 1⟩] := by
    decide +kernel
  have enters : (Program.counting.run 3 Act.counting (World.initial ())).map
      (fun reached => (((reached.2.enterPass ⟨0⟩ [⟨0⟩]).signal? ⟨0⟩).map fun signal =>
        (signal.reactor, signal.value), ((reached.2.enterPass ⟨0⟩ [⟨0⟩]).effect? ⟨1⟩).map
          fun effect => (effect.active, effect.executing, effect.runs))) =
      some (some (⟨0⟩, 2), some (true, false, 1)) := by
    decide +kernel
  have runs : (Program.counting.run 3 Act.counting (World.initial ())).map
      (fun reached => (activate Program.counting 3 (.execute ⟨1⟩)
        ((reached.2.enterPass ⟨0⟩ [⟨0⟩]).modifyReactor ⟨0⟩ (·.pushChain [⟨0⟩]))).map
          fun left => (left.1, decide (.circularWrite ⟨0⟩ "" ∈ left.2.past))) =
      some (some (.ok (), true)) := by
    decide +kernel
  obtain ⟨⟨result, world⟩, ran, rfl⟩ := Option.map_eq_some_iff.mp ends
  rw [ran] at plans enters runs
  obtain ⟨read, ready⟩ := Prod.mk.inj (Option.some.inj enters)
  obtain ⟨signal, found, known⟩ := Option.map_eq_some_iff.mp read
  obtain ⟨effect, present, idle⟩ := Option.map_eq_some_iff.mp ready
  obtain ⟨⟨result, ended⟩, executed, left⟩ := Option.map_eq_some_iff.mp (Option.some.inj runs)
  obtain ⟨rfl, dropped⟩ := Prod.mk.inj left
  have comes : ComesTo (activate Program.counting 3) ⟨0⟩ [⟨0⟩] world ⟨⟨⟨1⟩, true, [⟨0⟩]⟩, 1⟩
      (world.enterPass ⟨0⟩ [⟨0⟩]) := ⟨[], [], Option.some.inj plans, rfl⟩
  have starts : Starts (activate Program.counting 3) ⟨0⟩ ⟨⟨⟨1⟩, true, [⟨0⟩]⟩, 1⟩
      (world.enterPass ⟨0⟩ [⟨0⟩])
      ((world.enterPass ⟨0⟩ [⟨0⟩]).modifyReactor ⟨0⟩ (·.pushChain [⟨0⟩])) :=
    ⟨⟨effect, present, congrArg Prod.fst idle, congrArg (·.2.1) idle, congrArg (·.2.2) idle⟩,
      _, Or.inl ⟨rfl, rfl⟩, rfl⟩
  obtain ⟨⟨signal', found', value⟩, _⟩ := causes_stay_fixed Program.counting 3 comes starts executed
    found (congrArg Prod.fst known) (Or.inl List.mem_cons_self)
  exact ⟨world, ran, _, _, _, ended, comes, starts, executed, of_decide_eq_true dropped, signal',
    found', value.trans (congrArg Prod.snd known)⟩

end ReactiveTree
