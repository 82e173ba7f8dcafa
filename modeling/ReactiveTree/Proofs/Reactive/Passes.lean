import ReactiveTree.Proofs.Reactive.Charting

/-! # Inside a pass

A pass plans its visits, holds their effects and then makes the visits one by one. A visit starts its
effect in some world or passes it by; up to that world a pass has followed a course, and the chains
that were in force when it began still are.
-/

namespace ReactiveTree

variable {κ ν σ : Type} {engine : Engine κ ν σ} {owner : ReactorId} {sources : List NodeId}
  {world start begun : World κ ν σ} {entry : Visit}

/-- The visits of a pass, in order. -/
def World.passVisits (world : World κ ν σ) (owner : ReactorId) (sources : List NodeId) :
    List Visit :=
  ((world.record (.passStarted owner sources)).planPass owner sources).1

/-- The world in which a pass makes its first visit. -/
def World.enterPass (world : World κ ν σ) (owner : ReactorId) (sources : List NodeId) :
    World κ ν σ :=
  (world.passVisits owner sources).foldl (fun world entry => world.hold (.node entry.wakeup.effect))
    ((world.record (.passStarted owner sources)).planPass owner sources).2

/-- A visit, after which its effect is held no longer. -/
def visitHeld (engine : Engine κ ν σ) (owner : ReactorId) (entry : Visit) : Run κ ν σ Unit :=
  (visit engine owner entry).thenAlways (Run.modify (·.drop (.node entry.wakeup.effect)))

theorem notify_apply (engine : Engine κ ν σ) (owner : ReactorId) (sources : List NodeId)
    (world : World κ ν σ) : notify engine owner sources world =
      (Run.forEach (world.passVisits owner sources) (visitHeld engine owner) >>= fun _ =>
        Run.modify (·.record (.passEnded owner))) (world.enterPass owner sources) :=
  rfl

/-- A pass from a world comes to one of its visits when those before it are made. -/
def ComesTo (engine : Engine κ ν σ) (owner : ReactorId) (sources : List NodeId)
    (world : World κ ν σ) (entry : Visit) (start : World κ ν σ) : Prop :=
  ∃ before rest, world.passVisits owner sources = before ++ entry :: rest ∧
    Run.forEach before (visitHeld engine owner) (world.enterPass owner sources) =
      some (.ok (), start)

/-- A visit finds that its effect has to run: it read a changed source itself, or one of its computed
inputs fails or has changed. -/
def Wanted (engine : Engine κ ν σ) (owner : ReactorId) (entry : Visit)
    (start middle : World κ ν σ) : Prop :=
  entry.wakeup.certain = true ∧ middle = start ∨
    entry.wakeup.certain = false ∧
      needsRun engine owner entry.wakeup.effect start = some (.ok true, middle)

/-- A visit starts its effect: the effect is active and idle, has not run since the pass began, and
has to run. Its causes are on the chain then. -/
structure Starts (engine : Engine κ ν σ) (owner : ReactorId) (entry : Visit)
    (start begun : World κ ν σ) : Prop where
  ready : ∃ effect, start.effect? entry.wakeup.effect = some effect ∧ effect.active = true ∧
    effect.executing = false ∧ effect.runs = entry.runs
  wanted : ∃ middle, Wanted engine owner entry start middle ∧
    begun = middle.modifyReactor owner (·.pushChain entry.wakeup.causes)

section

variable {writes : Prop}

theorem visitHeld_follows (charts : Charts writes engine) (may : writes) (owner : ReactorId)
    (entry : Visit) : Run.Follows writes (visitHeld engine owner entry) :=
  (visit_follows charts may owner entry).thenAlways (.modify fun world => world.becomes_drop _)

theorem becomes_enterPass (world : World κ ν σ) (owner : ReactorId) (sources : List NodeId) :
    world.Becomes writes (world.enterPass owner sources) := by
  have told : world.Becomes writes (world.record (.passStarted owner sources)) :=
    world.becomes_record _ (fun _ => not_false) not_false
  exact (told.trans (World.spares_planPass _ owner sources).becomes).trans
    (World.spares_foldl_hold _ _ _).becomes

theorem ComesTo.becomes (comes : ComesTo engine owner sources world entry start)
    (charts : Charts writes engine) (may : writes) : world.Becomes writes start := by
  obtain ⟨before, _, _, made⟩ := comes
  have follows : Run.Follows writes (Run.forEach before (visitHeld engine owner)) :=
    .forEach fun entry => visitHeld_follows charts may owner entry
  exact (becomes_enterPass world owner sources).trans (follows _ _ _ made)

theorem Wanted.becomes {middle : World κ ν σ} (wanted : Wanted engine owner entry start middle)
    (charts : Charts writes engine) : start.Becomes writes middle := by
  rcases wanted with ⟨_, rfl⟩ | ⟨_, asked⟩
  · exact .refl _
  · exact needsRun_follows charts.refresh owner entry.wakeup.effect _ _ _ asked

end

/-- A pass with visits is one of a reactor that is there. -/
theorem ComesTo.owner_present (comes : ComesTo engine owner sources world entry start) :
    (world.reactor? owner).isSome := by
  obtain ⟨before, rest, planned, _⟩ := comes
  have member : entry ∈ world.passVisits owner sources := by
    rw [planned]
    exact List.mem_append_right _ List.mem_cons_self
  have live : (world.graph owner).kind? entry.wakeup.effect = some .effect :=
    (World.of_mem_planPass member).2
  cases absent : world.reactor? owner with
  | some state => rfl
  | none =>
    unfold World.graph at live
    rw [absent] at live
    cases live

end ReactiveTree
