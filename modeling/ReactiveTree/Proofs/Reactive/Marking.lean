import ReactiveTree.Proofs.Reactive.Abiding
import ReactiveTree.Proofs.Reactive.Mending

/-! # Marks can be trusted

Effects write, batch, create and stop as they like, and computeds are brought up to date at any time.
By induction on the trail of a run marks can be trusted all along, except while a computed is being
brought up to date. So they can be trusted wherever no closure runs.
-/

namespace ReactiveTree

variable {κ ν σ α : Type}

namespace World

variable {world inner after : World κ ν σ} {id : NodeId} {owner : ReactorId}

/-- Something is known of whoever has a frame open. -/
def Framed (known : NodeId → Prop) (world : World κ ν σ) : Prop :=
  ∀ owner reader, .tracked reader ∈ (world.opened owner).1 → known reader

section

variable {known known' : NodeId → Prop}

theorem Framed.mono (framed : world.Framed known) (implies : ∀ reader, known reader → known' reader) :
    world.Framed known' :=
  fun owner reader member => implies reader (framed owner reader member)

/-- The open frames are among those that were open before. -/
theorem Framed.of_opened (framed : world.Framed known)
    (frames : ∀ owner, (after.opened owner).1 ⊆ (world.opened owner).1) : after.Framed known :=
  fun owner reader member => framed owner reader (frames owner member)

theorem Framed.modifyReactor (framed : world.Framed known) (home : ReactorId)
    {change : Reactor → Reactor} (fewer : ∀ state, (change state).frames ⊆ state.frames) :
    (world.modifyReactor home change).Framed known := by
  intro owner reader member
  refine framed owner reader ?_
  unfold opened at member ⊢
  rw [reactor?_modifyReactor] at member
  split at member
  next same =>
    subst same
    cases found : world.reactor? owner with
    | none =>
      rw [found] at member
      cases member
    | some state =>
      rw [found] at member
      exact fewer state member
  next => exact member

theorem Framed.closeBatch (framed : world.Framed known) (owner : ReactorId) :
    (world.closeBatch owner).2.Framed known := by
  rw [closeBatch_snd]
  refine framed.modifyReactor owner fun state => ?_
  unfold Reactor.closeBatch
  split <;> exact List.Subset.refl _

theorem Framed.pushFrame (framed : world.Framed known) (home : ReactorId) {frame : Frame}
    (named : ∀ reader, frame = .tracked reader → known reader) :
    (world.modifyReactor home (·.pushFrame frame)).Framed known := by
  intro owner reader member
  unfold opened at member
  rw [reactor?_modifyReactor] at member
  have before := framed owner reader
  unfold opened at before
  split at member
  next same =>
    subst same
    cases found : world.reactor? owner with
    | none =>
      rw [found] at member
      cases member
    | some state =>
      rw [found] at member before
      rcases List.mem_cons.mp member with top | below
      · exact named reader top.symm
      · exact before below
  next => exact before member

end

theorem Attributed.of_opened (attributed : world.Attributed) (leads : world.Leads after)
    (frames : ∀ owner, (after.opened owner).1 ⊆ (world.opened owner).1) : after.Attributed := by
  refine (Framed.of_opened attributed frames).mono fun reader present => ?_
  obtain ⟨effect, found⟩ := Option.isSome_iff_exists.mp present
  obtain ⟨effect', found', _⟩ := leads.effect found
  rw [found']
  rfl

theorem Attributed.modifyReactor (attributed : world.Attributed) (home : ReactorId)
    {change : Reactor → Reactor} (fewer : ∀ state, (change state).frames ⊆ state.frames) :
    (world.modifyReactor home change).Attributed :=
  Framed.modifyReactor attributed home fewer

theorem Attributed.closeBatch (attributed : world.Attributed) (owner : ReactorId) :
    (world.closeBatch owner).2.Attributed := by
  refine (Framed.closeBatch attributed owner).mono fun reader present => ?_
  rw [closeBatch_snd]
  exact present

theorem Attributed.pushFrame (attributed : world.Attributed) (home : ReactorId) {frame : Frame}
    (known : ∀ reader, frame = .tracked reader → (world.effect? reader).isSome) :
    (world.modifyReactor home (·.pushFrame frame)).Attributed :=
  Framed.pushFrame attributed home known

end World

variable [BEq ν] {program : Program κ ν σ}
  {world after : World κ ν σ}

theorem Trail.attributed {phase : Phase} (trail : Trail program phase world after)
    (attributed : world.Attributed) : after.Attributed :=
  attributed.of_opened trail.leads fun owner => by
    rw [trail.opened owner]
    exact List.Subset.refl _

omit [BEq ν] in
/-- Closures that only read make no effects and do not write. -/
theorem Act.Gets.looks {act : Act κ ν σ α} (gets : act.Gets) : act.Looks := by
  induction act with
  | pure => trivial
  | raise => trivial
  | bind first next ih ih' => exact ⟨ih gets.1, fun value => ih' value (gets.2 value)⟩
  | call request =>
    cases request with
    | get => trivial
    | _ => exact gets.elim
  | within => exact gets.elim
  | attempt => exact gets.elim

/-- A refresh for the library, while nothing is pending. -/
theorem refresh_trusted (gets : ∀ code, (program.compute code).Gets) (attributed : world.Attributed)
    (trusted : world.Trusted) (depth : Nat) (id : NodeId) :
    (activate program depth (.refresh id)).Ends world fun _ after =>
      after.NoSelfReads → after.Trusted := by
  intro result after ran apart
  obtain ⟨owed, listed⟩ := trusted.listed
  have sustains := activate_sustains (fun code => (gets code).looks) depth
  have staged := trusted.staged attributed
  obtain ⟨⟨matures, sound, _⟩, _⟩ :=
    activate_renews gets depth world _ id ⟨staged, trusted.sound, nofun⟩ result after ran apart
  have staged' := staged.of_matures matures
  refine ⟨⟨owed, sustains.refresh _ id world listed result after ran⟩, sound, staged'.held,
    fun other state found => ?_⟩
  rw [← Bool.not_eq_true]
  exact staged'.busy other state found

open World in
/-- Marks can be trusted all along a trail, except while a computed is being brought up to date. -/
theorem Trail.trusted (gets : ∀ code, (program.compute code).Gets) {phase : Phase}
    (trail : Trail program phase world after) (steady : ∀ id, phase ≠ .flat (.updating id))
    (attributed : world.Attributed) (trusted : world.Trusted) (apart : after.NoSelfReads) :
    after.Trusted := by
  induction trail with
  | refl => exact trusted
  | trans start finish ih ih' =>
    exact ih' steady (start.attributed attributed)
      (ih steady attributed trusted (apart.of_leads finish.leads)) apart
  | serve _ ih => exact ih nofun attributed trusted apart
  | change change => exact trusted.change change
  | read found readable => exact trusted.noteRead attributed found readable
  | untracked owner inside ih =>
    have pushed := ih nofun (attributed.pushFrame owner nofun)
      (trusted.modifyRecords owner fun _ => ⟨rfl, rfl⟩) (apart.of_leads (leads_popFrame _ owner))
    exact pushed.modifyRecords owner fun _ => ⟨rfl, rfl⟩
  | @cleanup world id effect inner found inside ih =>
    have pushed := ih nofun (attributed.pushFrame effect.reactor nofun)
      (trusted.modifyRecords effect.reactor fun _ => ⟨rfl, rfl⟩)
      (apart.of_leads (leads_popFrame _ effect.reactor))
    exact pushed.modifyRecords effect.reactor fun _ => ⟨rfl, rfl⟩
  | batch owner inside bare ih =>
    have opened := ih nofun (attributed.modifyReactor owner fun _ => List.Subset.refl _)
      (trusted.modifyRecords owner fun _ => ⟨rfl, rfl⟩) (apart.of_leads (leads_closeBatch _ owner))
    exact opened.closeBatch owner
  | @flush world inner after owner inside due pass ih ih' =>
    have attributed' : (world.modifyReactor owner Reactor.openBatch).Attributed :=
      attributed.modifyReactor owner fun _ => List.Subset.refl _
    have opened := ih nofun attributed' (trusted.modifyRecords owner fun _ => ⟨rfl, rfl⟩)
      ((apart.of_leads pass.leads).of_leads (leads_closeBatch _ owner))
    exact ih' nofun ((inside.attributed attributed').closeBatch owner) (opened.closeBatch owner) apart
  | @store world id signal value after found kept unbatched pass ih =>
    refine ih nofun (attributed.of_opened (leads_put _ _ _ _) fun owner => ?_)
      (trusted.put signal.reactor id value) apart
    rw [opened_put]
    exact List.Subset.refl _
  | refresh ran _ _ => exact refresh_trusted gets attributed trusted _ _ _ _ ran apart
  | @execute world id after _ ih =>
    exact ih nofun attributed (trusted.change (.record world trivial)) apart
  | @born world after owner body _ ih =>
    have made : world.Change
        (world.addCell (.effect ⟨owner, body, false, none, true, false, 0, 2⟩) .effect).2 :=
      .addEffect owner body
    refine ih nofun (attributed.of_opened made.leads fun other => ?_) (trusted.change made) apart
    rw [made.opened]
    exact List.Subset.refl _
  | confirm => exact absurd rfl (steady _)
  | evaluate => exact absurd rfl (steady _)
  | decline => exact trusted
  | @run world id effect middle inner last after panicked found _ _ _ cleaned inside settled released
      cleans runs settles releases =>
    have ended := apart.of_leads released.leads
    have counted := (ended.of_leads (leads_endRun _ id)).of_leads settled.leads
    have left := (counted.of_leads (leads_countRun _ id)).of_leads
      (leads_leaveBody inner id effect.reactor panicked)
    have begun := (left.of_leads inside.leads).of_leads (leads_enterBody middle id effect.reactor)
    -- The frame of the body belongs to the effect, which is there all along.
    have held : world.Change (world.hold (.reactor effect.reactor)) := .hold _
    have engaged : ((world.hold (.reactor effect.reactor)).engage id effect.reactor).Attributed := by
      refine attributed.of_opened (held.leads.trans (leads_engage _ id effect.reactor)) fun owner => ?_
      rw [opened_engage, opened_hold]
      exact List.Subset.refl _
    have entered : (middle.enterBody id effect.reactor).Attributed := by
      have told : (middle.record (.started id)).Attributed := cleaned.attributed engaged
      refine told.pushFrame effect.reactor fun reader same => ?_
      cases same
      obtain ⟨_, known, _⟩ := ((held.leads.trans (leads_engage _ id effect.reactor)).trans
        cleaned.leads).effect found
      show (middle.effect? id).isSome
      rw [known]
      rfl
    have closed : ((inner.leaveBody id effect.reactor panicked).countRun id).Attributed := by
      have popped : (inner.modifyReactor effect.reactor Reactor.popFrame).Attributed :=
        (inside.attributed entered).modifyReactor effect.reactor fun state =>
          List.tail_subset state.frames
      exact popped.of_opened ((Leads.record _ (.ended id panicked) not_false).trans
        (leads_countRun _ id)) fun _ => List.Subset.refl _
    have cleaned' := cleans nofun engaged ((trusted.change held).engage found) begun
    have ran := runs nofun entered ((cleaned'.record (.started id)).modifyRecords effect.reactor
      fun _ => ⟨rfl, rfl⟩) left
    have popped : (inner.modifyReactor effect.reactor Reactor.popFrame).Trusted :=
      ran.modifyRecords effect.reactor fun _ => ⟨rfl, rfl⟩
    have stopped := settles nofun closed ((popped.record (.ended id panicked)).countRun id)
      (ended.of_leads (leads_endRun _ id))
    exact releases nofun ((settled.attributed closed).of_opened (leads_endRun _ id) fun _ =>
      List.Subset.refl _) (stopped.modifyEffect id fun _ => ⟨rfl, rfl, rfl⟩) apart
  | skip => exact trusted
  | again => exact trusted.resubscribe _ _
  | spare _ _ _ _ ih => exact ih nofun attributed trusted apart
  | @wake world owner entry effect middle after _ _ _ asked run ih ih' =>
    have popped : after.NoSelfReads := apart
    have pushed : (middle.modifyReactor owner (·.pushChain entry.wakeup.causes)).NoSelfReads :=
      popped.of_leads run.leads
    have ran := ih' nofun ((asked.attributed attributed).modifyReactor owner fun _ =>
      List.Subset.refl _) ((ih nofun attributed trusted pushed).modifyRecords owner fun _ =>
        ⟨rfl, rfl⟩) popped
    exact ran.modifyRecords owner fun _ => ⟨rfl, rfl⟩
  | done => exact trusted
  | next visit drop others visits drops rest =>
    have dropped := apart.of_leads others.leads
    exact rest nofun (drop.attributed (visit.attributed attributed)) (drops nofun
      (visit.attributed attributed) (visits nofun attributed trusted (dropped.of_leads drop.leads))
        dropped) apart
  | @pass world owner sources after visits ih =>
    have entered : (world.enterPass owner sources).Attributed := by
      refine attributed.of_opened (leads_enterPass world owner sources) fun other => ?_
      rw [opened_enterPass]
      exact List.Subset.refl _
    exact (ih nofun entered (trusted.enterPass owner sources)
      (apart.of_leads (.record _ _ not_false))).record (.passEnded owner)

/-- The worlds in which no closure of the program runs: it acts, and in between it may have batches
and untracked blocks open. -/
inductive Program.Reached (program : Program κ ν σ) (user : σ) : World κ ν σ → Prop
  | start : Reached program user (World.initial user)
  | act {α : Type} {world after : World κ ν σ} {depth : Nat} {act : Act κ ν σ α} {result : Except Panic α}
      (before : Reached program user world)
      (ran : program.run depth act world = some (result, after)) : Reached program user after
  | openBatch {world : World κ ν σ} (before : Reached program user world) (owner : ReactorId) :
      Reached program user (world.modifyReactor owner Reactor.openBatch)
  | closeBatch {world after : World κ ν σ} {depth : Nat} {owner : ReactorId} {result : Except Panic Unit}
      (before : Reached program user world)
      (ran : closeBatch (activate program depth) owner world = some (result, after)) :
      Reached program user after
  | openUntracked {world : World κ ν σ} (before : Reached program user world) (owner : ReactorId) :
      Reached program user (world.modifyReactor owner (·.pushFrame .untracked))
  | closeUntracked {world : World κ ν σ} (before : Reached program user world) (owner : ReactorId) :
      Reached program user (world.modifyReactor owner Reactor.popFrame)

omit [BEq ν] in
theorem World.attributed_initial (user : σ) : (World.initial user : World κ ν σ).Attributed :=
  fun _ _ member => nomatch member

omit [BEq ν] in
theorem World.trusted_initial (user : σ) : (World.initial user : World κ ν σ).Trusted where
  listed := ⟨[], World.initial_listed user⟩
  sound := ⟨fun _ => Graph.settled_empty, fun _ _ _ found => nomatch found⟩
  held _ _ found := nomatch found
  idle _ _ found := nomatch found

open World in
/-- Marks can be trusted wherever no closure runs. -/
theorem Program.Reached.trusted (gets : ∀ code, (program.compute code).Gets) {user : σ}
    (reached : program.Reached user world) (apart : world.NoSelfReads) :
    world.Attributed ∧ world.Trusted := by
  have traced := activate_traced program
  induction reached with
  | start => exact ⟨attributed_initial user, trusted_initial user⟩
  | @act _ _ _ depth act result before ran ih =>
    have trail := Act.run_traces (traced depth) act _ _ _ ran
    obtain ⟨attributed, trusted⟩ := ih (apart.of_leads trail.leads)
    exact ⟨trail.attributed attributed, trail.trusted gets nofun attributed trusted apart⟩
  | openBatch before owner ih =>
    obtain ⟨attributed, trusted⟩ := ih apart
    exact ⟨attributed.modifyReactor owner fun _ => List.Subset.refl _,
      trusted.modifyRecords owner fun _ => ⟨rfl, rfl⟩⟩
  | @closeBatch world after depth owner result before ran ih =>
    have leads := leads_closeBatch world owner
    rcases closeBatch_trails (traced depth) owner world _ _ ran with ⟨_, rfl⟩ | ⟨_, pass⟩
    · obtain ⟨attributed, trusted⟩ := ih (apart.of_leads leads)
      exact ⟨attributed.closeBatch owner, trusted.closeBatch owner⟩
    · obtain ⟨attributed, trusted⟩ := ih ((apart.of_leads pass.leads).of_leads leads)
      have closed := attributed.closeBatch owner
      exact ⟨pass.attributed closed, pass.trusted gets nofun closed (trusted.closeBatch owner) apart⟩
  | openUntracked before owner ih =>
    obtain ⟨attributed, trusted⟩ := ih apart
    exact ⟨attributed.pushFrame owner nofun, trusted.modifyRecords owner fun _ => ⟨rfl, rfl⟩⟩
  | closeUntracked before owner ih =>
    obtain ⟨attributed, trusted⟩ := ih apart
    exact ⟨attributed.modifyReactor owner fun state => List.tail_subset state.frames,
      trusted.modifyRecords owner fun _ => ⟨rfl, rfl⟩⟩

/-- What the mark of a computed promises: a clean one has a value, reads clean computeds only and is
listed by all that it reads; a doubtful one has a value and is listed; so only dirty ones may be
missing. What is no longer live does not matter. -/
structure Computed.Vouched (computed : Computed κ ν) (graph : Graph) (id : NodeId) (node : Node) :
    Prop where
  clean : node.freshness = .clean → computed.value.isSome ∧
    ∀ read ∈ node.dependencies, ∀ input, graph.node? read = some input →
      (input.kind = .derived → input.freshness = .clean) ∧ id ∈ input.dependents
  doubtful : node.freshness = .doubtful → computed.value.isSome ∧
    ∀ read ∈ node.dependencies, ∀ input, graph.node? read = some input → id ∈ input.dependents
  missing : ∀ read ∈ node.dependencies, ∀ input, graph.node? read = some input →
    id ∉ input.dependents → node.freshness = .dirty

/-- Dirty marking is sound. If compute closures only read, and pass on whatever fails, and no computed
has read itself, then wherever no closure runs the mark of every computed keeps its promise, whatever
effects and the program have done. -/
theorem marks_vouched (gets : ∀ code, (program.compute code).Gets) {user : σ}
    (reached : program.Reached user world) (apart : world.NoSelfReads) {id : NodeId}
    {computed : Computed κ ν} {node : Node} (found : world.computed? id = some computed)
    (live : (world.graph computed.reactor).node? id = some node) :
    computed.Vouched (world.graph computed.reactor) id node := by
  obtain ⟨attributed, trusted⟩ := reached.trusted gets apart
  obtain ⟨owed, listed⟩ := trusted.listed
  have derived := (trusted.staged attributed).derived found live
  have lists : node.freshness ≠ .dirty → ∀ read ∈ node.dependencies, ∀ input,
      (world.graph computed.reactor).node? read = some input → id ∈ input.dependents := by
    intro mark read member input present
    refine listed.lists _ id node live ?_ read input member present
    unfold Demand.Wants
    rw [derived]
    exact fun dirty => absurd dirty mark
  have valued : node.freshness ≠ .dirty → computed.value.isSome :=
    trusted.sound.valued id computed node found live
  refine ⟨fun clean => ?_, fun doubtful => ?_, fun read member input present missing => ?_⟩
  · have mark : node.freshness ≠ .dirty := by
      rw [clean]
      nofun
    exact ⟨valued mark, fun read member input present =>
      ⟨trusted.sound.settled _ id node live derived clean read member input present,
        lists mark read member input present⟩⟩
  · have mark : node.freshness ≠ .dirty := by
      rw [doubtful]
      nofun
    exact ⟨valued mark, lists mark⟩
  · exact of_not_not fun mark => missing (lists mark read member input present)

omit [BEq ν] in
theorem World.noSelfReads_iff : world.NoSelfReads ↔ world.past.all (fun event =>
    match event with
    | .read id (some reader) => decide (id ≠ reader)
    | _ => true) = true := by
  rw [List.all_eq_true]
  constructor
  · intro apart event member
    split
    next id reader =>
      refine decide_eq_true fun same => ?_
      subst same
      exact apart id member
    next => rfl
  · intro apart id member
    exact of_decide_eq_true (apart _ member) rfl

instance (world : World κ ν σ) : Decidable world.NoSelfReads :=
  decidable_of_iff _ World.noSelfReads_iff.symm

/-- A computed that reads a signal, one that reads the first, and an effect that reads the second. -/
def Program.doubting : Program Bool Nat Unit where
  compute code := .call (.get (if code then ⟨1⟩ else ⟨0⟩))
  effect _ := .bind (.call (.get ⟨2⟩)) fun _ => .pure (.ok none)
  cleanup _ := .pure ()
  callback _ _ := .pure ()
  render _ := .pure none
  handler _ := .pure ()

/-- Count the signal up to three, and stop the effect in between. -/
def Act.doubting : Act Bool Nat Unit Unit :=
  .bind (.call (.newReactor {})) fun _ =>
    .bind (.call (.newSignal ⟨0⟩ 1)) fun _ =>
      .bind (.call (.newComputed ⟨0⟩ false)) fun _ =>
        .bind (.call (.newComputed ⟨0⟩ true)) fun _ =>
          .bind (.call (.newEffect ⟨0⟩ false true)) fun _ =>
            .bind (.call (.set ⟨0⟩ 2)) fun _ =>
              .bind (.call (.stop ⟨3⟩)) fun _ => .call (.set ⟨0⟩ 3)

/-- In the end the second computed is in doubt; so it has a value, and the first one lists it. -/
theorem marks_vouched_doubting :
    ∃ world computed node, Program.doubting.run 5 Act.doubting (World.initial ()) =
        some (.ok (), world) ∧ world.NoSelfReads ∧ world.computed? ⟨2⟩ = some computed ∧
      (world.graph computed.reactor).node? ⟨2⟩ = some node ∧ node.freshness = .doubtful ∧
        node.dependencies = [⟨1⟩] ∧ computed.Vouched (world.graph computed.reactor) ⟨2⟩ node := by
  have ends : (Program.doubting.run 5 Act.doubting (World.initial ())).map
      (fun reached => (reached.1, decide reached.2.NoSelfReads)) = some (.ok (), true) := by
    decide +kernel
  have gets : ∀ code, (Program.doubting.compute code).Gets := fun _ => trivial
  have marks : (Program.doubting.run 5 Act.doubting (World.initial ())).bind (fun reached =>
      (reached.2.computed? ⟨2⟩).bind fun computed =>
        ((reached.2.graph computed.reactor).node? ⟨2⟩).map fun node =>
          (node.freshness, node.dependencies)) = some (.doubtful, [⟨1⟩]) := by
    decide +kernel
  obtain ⟨⟨result, world⟩, ran, outcome⟩ := Option.map_eq_some_iff.mp ends
  obtain ⟨rfl, apart⟩ := Prod.mk.inj outcome
  have apart := of_decide_eq_true apart
  rw [ran, Option.bind_some] at marks
  obtain ⟨computed, found, marks⟩ := Option.bind_eq_some_iff.mp marks
  obtain ⟨node, live, marks⟩ := Option.map_eq_some_iff.mp marks
  obtain ⟨doubtful, reads⟩ := Prod.mk.inj marks
  exact ⟨world, computed, node, ran, apart, found, live, doubtful, reads,
    marks_vouched gets (.act .start ran) apart found live⟩

end ReactiveTree
