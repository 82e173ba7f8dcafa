import ReactiveTree.Proofs.Reactive.Charting

/-! # Ends of effects

An effect stays active, and in its graph, until its end is recorded or its reactor dies. While it
runs, it goes on running unless it is stopped.
-/

namespace ReactiveTree

variable {κ ν σ : Type}

namespace World

variable {writes : Prop} {within : Option NodeId} {world middle after : World κ ν σ}
  {events : List (Event κ ν)} {touched : NodeId → Prop} {id : NodeId} {effect effect' : Effect κ}

/-- An effect stays as active as it is, and in its graph as long as its reactor lives, and its end is
recorded when it ceases to be. -/
def Ceases (id : NodeId) (world : World κ ν σ) (events : List (Event κ ν)) (after : World κ ν σ) :
    Prop :=
  ∀ effect, world.effect? id = some effect → ∃ effect', after.effect? id = some effect' ∧
    ((effect'.active = effect.active ∧ .stopped id ∉ events ∧
        ∀ owner, ((world.graph owner).node? id).isSome →
          ((after.graph owner).node? id).isSome ∨ .died owner ∈ events) ∨
      effect.active = true ∧ effect'.active = false ∧ .stopped id ∈ events)

theorem Ceases.trans {later : List (Event κ ν)} (start : Ceases id world events middle)
    (finish : Ceases id middle later after) : Ceases id world (later ++ events) after := by
  intro effect found
  obtain ⟨effect', found', before⟩ := start effect found
  obtain ⟨effect'', found'', behind⟩ := finish effect' found'
  refine ⟨effect'', found'', ?_⟩
  rcases before with ⟨same, absent, lives⟩ | ⟨active, ceased, member⟩
  · rcases behind with ⟨same', absent', lives'⟩ | ⟨active, ceased, member⟩
    · refine Or.inl ⟨same'.trans same, List.not_mem_append absent' absent, fun owner live => ?_⟩
      rcases lives owner live with live | died
      · exact (lives' owner live).imp_right (List.mem_append_left _)
      · exact Or.inr (List.mem_append_right _ died)
    · exact Or.inr ⟨same ▸ active, ceased, List.mem_append_left _ member⟩
  · rcases behind with ⟨same, _⟩ | ⟨active', _⟩
    · exact Or.inr ⟨active, same.trans ceased, List.mem_append_right _ member⟩
    · rw [ceased] at active'
      cases active'

theorem Spares.unconcerned (spares : world.Spares touched events after) (apart : ¬ touched id)
    (found : after.effect? id = some effect) : ∀ event ∈ events, ¬ event.Concerns id := by
  intro event member concerns
  rcases spares.quiet event member id concerns with own | ⟨state, computed⟩
  · exact apart own
  · rw [computed?_eq_some_iff] at computed
    cases (effect?_eq_some_iff.mp found).symm.trans computed

theorem Spares.ceases (spares : world.Spares touched events after) (apart : ¬ touched id) :
    Ceases id world events after := by
  intro effect found
  obtain ⟨effect', found', _, core⟩ := spares.effect found
  obtain ⟨_, active, _⟩ := Effect.of_core (core apart)
  exact ⟨effect', found', Or.inl ⟨active, fun member =>
    spares.unconcerned apart found' _ member rfl, fun owner => spares.lives owner id effect found apart⟩⟩

/-- A change that touches one effect is judged by that effect. -/
theorem Spares.ceases_of_own {other : NodeId} (spares : world.Spares (· = other) events after)
    (own : Ceases other world events after) (id : NodeId) : Ceases id world events after := by
  by_cases same : id = other
  · exact same ▸ own
  · exact spares.ceases same

theorem ceases_record (world : World κ ν σ) (event : Event κ ν) (apart : .stopped id ≠ event) :
    Ceases id world [event] (world.record event) :=
  fun effect found => ⟨effect, found,
    Or.inl ⟨rfl, fun member => apart (List.mem_singleton.mp member), fun _ => Or.inl⟩⟩

/-- A change of an effect by itself. -/
theorem ceases_modifyEffect (world : World κ ν σ) (other : NodeId) (change : Effect κ → Effect κ)
    (home : ∀ state, (change state).reactor = state.reactor)
    (active : ∀ state, (change state).active = state.active) (id : NodeId) :
    Ceases id world [] (world.modifyEffect other change) := by
  refine Spares.ceases_of_own (.modifyEffect world other home fun apart => (apart rfl).elim)
    (fun effect found => ⟨change effect, effect?_modifyEffect found change, Or.inl ?_⟩) id
  exact ⟨active effect, List.not_mem_nil, fun _ => Or.inl⟩

theorem ceases_countRun (world : World κ ν σ) (other id : NodeId) :
    Ceases id world [] (world.countRun other) :=
  world.ceases_modifyEffect other (fun effect => { effect with runs := effect.runs + 1 })
    (fun _ => rfl) (fun _ => rfl) id

theorem ceases_endRun (world : World κ ν σ) (other id : NodeId) :
    Ceases id world [] (world.endRun other) :=
  world.ceases_modifyEffect other ({ · with executing := false }) (fun _ => rfl) (fun _ => rfl) id

theorem not_mem_calls {other : NodeId} {cleanup : Option κ} :
    (.stopped id : Event κ ν) ∉ calls other cleanup := by
  cases cleanup with
  | none => exact List.not_mem_nil
  | some code => exact fun member => nomatch List.mem_singleton.mp member

theorem Deaths.not_stopped (deaths : Deaths events) : (.stopped id : Event κ ν) ∉ events := by
  intro member
  obtain ⟨_, same⟩ := deaths _ member
  cases same

/-- An effect is stopped once it is inactive, in whatever it does until its end is recorded. -/
theorem Course.ceases (course : Course writes within world events after) (id : NodeId) :
    Ceases id world events after := by
  induction course with
  | spare spares => exact spares.ceases not_false
  | trans _ _ start finish => exact start.trans finish
  | @store world other signal value after may found free stored =>
    refine stored.ceases_of_own (fun effect known => ?_) id
    rw [signal?_eq_some_iff] at found
    cases found.symm.trans (effect?_eq_some_iff.mp known)
  | @chain world events after may owner causes _ within =>
    intro effect found
    obtain ⟨effect', found', outcome⟩ := within effect found
    refine ⟨effect', found', outcome.imp_left fun ⟨same, absent, lives⟩ =>
      ⟨same, absent, fun other there => ?_⟩⟩
    have before : ∀ other, (world.modifyReactor owner (·.pushChain causes)).graph other =
        world.graph other := graph_modifyReactor world owner fun _ _ => rfl
    have behind : ∀ other, (after.modifyReactor owner Reactor.popChain).graph other =
        after.graph other := graph_modifyReactor after owner fun _ _ => rfl
    rw [behind]
    exact lives other ((before other).symm ▸ there)
  | @body world other effect start cleaning middle running last may found active idle alive begun
      executing live bare cleaned ran cleaning' running' =>
    have began : Ceases id world (calls other effect.cleanup) start :=
      begun.ceases_of_own (fun effect' known => by
        cases found.symm.trans known
        exact ⟨_, executing, Or.inl ⟨rfl, not_mem_calls, fun owner there =>
          Or.inl (live owner there)⟩⟩) id
    have started := (began.trans cleaning').trans (ceases_record middle (.started other) nofun)
    exact (started.trans running').trans (last.ceases_countRun other id)
  | finish ran reported ih =>
    exact (ih.trans (reported.ceases not_false)).trans (ceases_endRun _ _ id)
  | @keep world other events last effect code ran found active ih =>
    have left := ih.trans (ceases_record last (.leftCleanup other code) nofun)
    exact (left.trans (ceases_modifyEffect _ other ({ · with cleanup := some code })
      (fun _ => rfl) (fun _ => rfl) id)).trans (ceases_endRun _ other id)
  | @late world other events last effect code cleaning after ran found stopped cleaned ih ih' =>
    have left := ih.trans (ceases_record last (.leftCleanup other code) nofun)
    have called := left.trans (ceases_record _ (.cleanedUp other code) nofun)
    exact (called.trans ih').trans (ceases_endRun _ other id)
  | @stop world other effect start events ended cleaning after may found active begun deaths now
      stopped cleaned ih =>
    by_cases same : id = other
    · subst same
      intro effect' known
      cases found.symm.trans known
      obtain ⟨last, known', rest⟩ := ih ended now
      refine ⟨last, known', Or.inr ⟨active, ?_, List.mem_cons_self⟩⟩
      exact rest.elim (fun kept => kept.1.trans stopped.1) fun ceased => ceased.2.1
    · exact ((begun.ceases same).trans ih).trans
        (ceases_record after (.stopped other) fun eq => same (Event.stopped.inj eq))
  | @abandon world other effect ended after may found active dead given now stopped =>
    refine given.ceases_of_own (fun effect' known => ?_) id
    cases found.symm.trans known
    exact ⟨ended, now, Or.inr ⟨active, stopped.1, List.mem_cons_self⟩⟩

/-- A running effect goes on running, and a stopped one stays stopped. -/
theorem Course.busy (course : Course writes within world events after)
    (found : world.effect? id = some effect) (busy : effect.executing = true ∨ effect.active = false) :
    ∃ effect', after.effect? id = some effect' ∧
      (effect'.executing = true ∨ effect'.active = false) := by
  obtain ⟨effect', found', outcome⟩ := course.ceases id effect found
  refine ⟨effect', found', ?_⟩
  rcases outcome with ⟨same, unstopped, _⟩ | ⟨_, ceased, _⟩
  · rcases busy with running | inactive
    · obtain ⟨_, known, _, core⟩ := (course.spares_running found running unstopped).effect found
      cases known.symm.trans found'
      obtain ⟨_, _, executing, _⟩ := Effect.of_core (core (Classical.not_not.mpr rfl))
      exact Or.inl (executing.trans running)
    · exact Or.inr (same.trans inactive)
  · exact Or.inr ceased

end World

end ReactiveTree
