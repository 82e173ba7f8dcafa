import ReactiveTree.Proofs.Reactive.Accounts
import ReactiveTree.Proofs.Reactive.Renewing

/-! # Closures that only read keep marks sound

A tracked read of a node that is in doubt puts it in front of everything that the reader could still
check; a read of any other node leaves the reader as attentive as it was. From this, by induction on
the act, closures that do nothing but read keep marks sound, provided that the refreshes do which they
ask for.
-/

namespace ReactiveTree

variable {κ ν σ α β : Type}

namespace World

variable {world middle after : World κ ν σ} {pending : NodeId → Prop} {home owner : ReactorId}
  {read id : NodeId}

theorem graph_noteRead_of {reader : NodeId} (reading : world.reader? home = some reader)
    (read : NodeId) (owner : ReactorId) : (world.noteRead home read).graph owner =
      if owner = home then (world.graph home).connect read reader else world.graph owner := by
  have reading' : (world.reactor? home).bind Reactor.reader? = some reader := reading
  unfold World.noteRead
  rw [reading']
  exact @graph_mapGraph _ _ _ world home (·.connect read reader) (Graph.connect_empty read reader) owner

theorem graph_noteRead (world : World κ ν σ) (home : ReactorId) (read : NodeId) (owner : ReactorId) :
    (world.noteRead home read).graph owner = world.graph owner ∨
      owner = home ∧ ∃ reader, world.reader? home = some reader ∧
        (world.noteRead home read).graph owner = (world.graph home).connect read reader := by
  cases reading : world.reader? home with
  | none =>
    have reading' : (world.reactor? home).bind Reactor.reader? = none := reading
    refine Or.inl ?_
    unfold World.noteRead
    rw [reading']
    rfl
  | some reader =>
    have graphs := graph_noteRead_of reading read owner
    by_cases here : owner = home
    · exact Or.inr ⟨here, reader, rfl, graphs.trans (if_pos here)⟩
    · exact Or.inl (graphs.trans (if_neg here))

/-- A read leaves marks alone, and adds to the dependencies of the reader at most. -/
theorem noteRead_nodes (world : World κ ν σ) (home : ReactorId) (read : NodeId) (owner : ReactorId)
    (id : NodeId) : Option.Rel (fun old new : Node => new.kind = old.kind ∧
      new.freshness = old.freshness ∧ (new.dependencies = old.dependencies ∨
        owner = home ∧ new.dependencies = addLast old.dependencies read))
      ((world.graph owner).node? id) (((world.noteRead home read).graph owner).node? id) := by
  rcases graph_noteRead world home read owner with same | ⟨rfl, reader, _, connected⟩
  · rw [same]
    exact relOption_refl (fun _ => ⟨rfl, rfl, Or.inl rfl⟩) _
  · rw [connected]
    obtain ⟨step, eq, kept⟩ := Graph.connect_cases (world.graph owner) read reader id
    rw [eq]
    cases (world.graph owner).node? id with
    | none => exact .none
    | some old =>
      obtain ⟨outline, standing, dependencies⟩ := kept old
      exact .some ⟨Node.kind_of_outline outline, congrArg Prod.fst standing,
        dependencies.imp_right fun added => ⟨rfl, added.2⟩⟩

theorem computed?_noteRead (world : World κ ν σ) (home : ReactorId) (read id : NodeId) :
    (world.noteRead home read).computed? id = world.computed? id := by
  unfold computed?
  rw [cell?_noteRead]

theorem matures_noteRead (world : World κ ν σ) (home : ReactorId) (read : NodeId) :
    world.Matures pending (world.noteRead home read) where
  skeleton := skeleton_noteRead world home read
  nodes owner id := relOption_mono (fun _ _ ⟨kind, mark, _⟩ =>
    ⟨kind, fun clean => mark.trans clean, fun _ => mark⟩) (world.noteRead_nodes home read owner id)

theorem Attentive.noteRead (attentive : world.Attentive pending) (home : ReactorId) (read : NodeId) :
    (world.noteRead home read).Sound where
  settled owner := by
    rcases graph_noteRead world home read owner with same | ⟨rfl, reader, reading, connected⟩
    · rw [same]
      exact attentive.sound.settled owner
    · rw [connected]
      refine (attentive.sound.settled owner).of_sameMarks (.connect _ read fun node found derived => ?_)
      rcases attentive.staged.readers owner reader reading with waits | isEffect
      · exact attentive.stale waits found
      · obtain ⟨state, known, _⟩ := attentive.staged.computed found derived
        obtain ⟨effect, known'⟩ := Option.isSome_iff_exists.mp isEffect
        rw [computed?_eq_some_iff] at known
        rw [effect?_eq_some_iff, known] at known'
        cases known'
  valued id state node found live mark := by
    rw [computed?_noteRead] at found
    have related := world.noteRead_nodes home read state.reactor id
    rw [live] at related
    obtain ⟨old, was, _, same, _⟩ := relOption_some related
    exact attentive.sound.valued id state old found was (same ▸ mark)

/-- A read is a gain once the node that was read is firm. -/
theorem Gains.of_noteRead (gains : (world.noteRead home read).Gains pending after)
    (firm : (after.graph home).Firm read) : world.Gains pending after := by
  intro owner id old new waits was is
  have related := world.noteRead_nodes home read owner id
  rw [was] at related
  obtain ⟨between, present, _⟩ :=
    (matures_noteRead world home read : world.Matures pending _).node was
  rw [present] at related
  obtain ⟨more, grown, firm'⟩ := gains owner id between new waits present is
  cases related with
  | some holds =>
    rcases holds.2.2 with same | ⟨rfl, added⟩
    · exact ⟨more, same ▸ grown, firm'⟩
    · by_cases known : read ∈ old.dependencies
      · rw [addLast_of_mem known] at added
        exact ⟨more, added ▸ grown, firm'⟩
      · rw [addLast_of_not_mem known] at added
        refine ⟨read :: more, ?_, fun other member => ?_⟩
        · rw [grown, added, List.append_assoc, List.singleton_append]
        · rcases List.mem_cons.mp member with rfl | later
          · exact firm
          · exact firm' other later

/-- A read of a node that is firm. -/
theorem Attentive.noteRead_firm (attentive : world.Attentive pending)
    (firm : (world.graph home).Firm read) (result : Except Panic α) :
    world.Renewed pending result (world.noteRead home read) := by
  have matures : world.Matures pending (world.noteRead home read) := matures_noteRead world home read
  exact ⟨matures, attentive.noteRead home read, fun _ _ => (Gains.refl _).of_noteRead (matures.firm firm)⟩

/-- The reader of a node in doubt that has read nothing in doubt so far waits for that node now. -/
private theorem Collects.blocked {inWay : NodeId → Prop} {state : Computed κ ν}
    (collects : world.Collects id state) (apart : read ≠ id) {node : Node}
    (live : (world.graph state.reactor).node? read = some node) (derived : node.kind = .derived)
    (stale : node.freshness ≠ .clean) (waits : inWay read) :
    (world.noteRead state.reactor read).Blocked inWay id := by
  obtain ⟨old, was, doubtful, firm⟩ := collects.firm
  have matures : world.Matures (fun _ => False) (world.noteRead state.reactor read) :=
    matures_noteRead world state.reactor read
  have related := world.noteRead_nodes state.reactor read state.reactor id
  obtain ⟨input, present, kind, _⟩ := matures.node live
  obtain ⟨new, is, _⟩ := matures.node was
  rw [was, is] at related
  cases related with
  | some holds =>
    have fresh : read ∉ old.dependencies := fun member => stale (firm read member node live derived)
    have reads : new.dependencies = old.dependencies ++ [read] := by
      rcases holds.2.2 with same | ⟨_, added⟩
      · -- The read is recorded, since both of its ends are live.
        rw [graph_noteRead_of collects.reading, if_pos rfl] at is present
        rcases Graph.connect_adds apart is with member | absent
        · exact absurd (same ▸ member) fresh
        · rw [present] at absent
          cases absent
      · rw [added, addLast_of_not_mem fresh]
    exact .behind ((computed?_noteRead world state.reactor read id).trans collects.found) is
      (holds.2.1.trans doubtful) reads (fun other member => matures.firm (firm other member)) waits
      present (kind.trans derived)

/-- A read of a node in doubt, unless it is recorded for the node itself. -/
theorem Attentive.noteRead_poised (attentive : world.Attentive pending) {state : Computed κ ν}
    (found : world.computed? read = some state) {node : Node}
    (live : (world.graph state.reactor).node? read = some node) (stale : node.freshness ≠ .clean)
    (apart : (world.noteRead state.reactor read).NoSelfReads) :
    (world.noteRead state.reactor read).Poised pending read where
  staged := attentive.staged.of_matures (matures_noteRead world state.reactor read)
  sound := attentive.noteRead state.reactor read
  waits id waits := by
    have matures : world.Matures pending (world.noteRead state.reactor read) :=
      matures_noteRead world state.reactor read
    have derived := attentive.staged.derived found live
    rcases attentive.waits id waits with blocked | ⟨state', collects⟩
    · refine Or.inl (blocked.of_matures matures waits (fun owner old new was is => ?_) fun _ => Or.inr)
      have related := world.noteRead_nodes state.reactor read owner id
      rw [was, is] at related
      cases related with
      | some holds =>
        rcases holds.2.2 with same | ⟨_, added⟩
        · rw [same]
        · rw [added, addLast]
          split
          next => exact List.prefix_refl _
          next => exact List.prefix_append _ _
    · by_cases here : state'.reactor = state.reactor
      · refine Or.inl ?_
        rw [← here] at apart live ⊢
        refine collects.blocked (fun same => ?_) live derived stale (Or.inl rfl)
        subst same
        refine apart read ?_
        have reading : (world.reactor? state'.reactor).bind Reactor.reader? = some read :=
          collects.reading
        unfold World.noteRead
        rw [reading]
        exact List.mem_cons_self
      · have same : (world.noteRead state.reactor read).graph state'.reactor =
            world.graph state'.reactor :=
          (graph_noteRead world state.reactor read state'.reactor).resolve_right
            fun elsewhere => here elsewhere.1
        refine Or.inr ⟨state', ⟨?_, ?_, ?_⟩, ?_⟩
        · rw [computed?_noteRead]
          exact collects.found
        · rw [reader?_of_skeleton matures.skeleton]
          exact collects.reading
        · rw [same]
          exact collects.firm
        · rw [same]
          refine Option.eq_none_iff_forall_ne_some.mpr fun other present => ?_
          obtain ⟨cell, known, elsewhere, _⟩ := attentive.staged.homes _ read other present
          rw [computed?_eq_some_iff.mp found] at known
          cases known
          exact here elsewhere.symm

end World

/-- The act reads, and passes on whatever fails. -/
def Act.Gets : {α : Type} → Act κ ν σ α → Prop
  | _, .pure _ => True
  | _, .raise _ => True
  | _, .bind first next => first.Gets ∧ ∀ value, (next value).Gets
  | _, .call (.get _) => True
  | _, .call _ => False
  | _, .within _ _ => False
  | _, .attempt _ => False

theorem World.NoSelfReads.of_leads {world after : World κ ν σ} (apart : after.NoSelfReads)
    (leads : world.Leads after) : world.NoSelfReads := by
  obtain ⟨events, past⟩ := leads.past
  intro id member
  refine apart id ?_
  rw [past]
  exact List.mem_append_right _ member

variable [BEq ν] {program : Program κ ν σ} {depth : Nat}

/-- Refreshes at some depth keep marks sound, and what they refresh is firm if they succeed. -/
def Renews (program : Program κ ν σ) (depth : Nat) : Prop :=
  ∀ (world : World κ ν σ) (pending : NodeId → Prop) (id : NodeId), world.Poised pending id →
    (activate program depth (.refresh id)).Ends world fun result after => after.NoSelfReads →
      world.Renewed pending result after ∧ (result = .ok () →
        ∀ state, after.computed? id = some state → (after.graph state.reactor).Firm id)

section

variable {world : World κ ν σ} {pending : NodeId → Prop}

theorem readComputed_renews (renews : Renews program depth) {id : NodeId}
    (poised : world.Poised pending id) :
    (readComputed (activate program depth) id).Ends world fun result after => after.NoSelfReads →
      world.Renewed pending result after ∧ (∀ value, result = .ok value →
        ∀ state, after.computed? id = some state → (after.graph state.reactor).Firm id) := by
  refine (renews world pending id poised).bind (fun _ after renewed => .of_world ?_)
    fun panic after renewed apart => ⟨(renewed apart).1.failure, fun _ => nofun⟩
  split
  next value _ =>
    rintro _ _ ⟨⟩ apart
    obtain ⟨⟨matures, sound, gains⟩, firm⟩ := renewed apart
    exact ⟨⟨matures, sound, fun _ _ => gains () rfl⟩, fun _ _ => firm rfl⟩
  next =>
    rintro _ _ ⟨⟩ apart
    obtain ⟨⟨matures, sound, _⟩, _⟩ := renewed apart
    exact ⟨⟨matures, sound, fun _ => nofun⟩, fun _ => nofun⟩

theorem readNode_renews (renews : Renews program depth) (attentive : world.Attentive pending)
    (id : NodeId) : (readNode (activate program depth) id true).Ends world fun result after =>
      after.NoSelfReads → world.Renewed pending result after := by
  have traced := activate_traced program depth
  refine .of_world ?_
  split
  next signal found =>
    have firm : (world.graph signal.reactor).Firm id := by
      intro node live derived
      obtain ⟨cell, known, _, kind⟩ := attentive.staged.homes _ id node live
      rw [found] at known
      cases known
      rw [derived] at kind
      cases kind
    refine (requireLive_ends signal id "read" world).bind (fun _ after same => ?_)
      fun _ after same _ => same ▸ .refl attentive.sound _
    subst same
    rintro _ _ ⟨⟩ _
    exact attentive.noteRead_firm firm _
  next computed found =>
    have found := World.computed?_eq_some_iff.mpr found
    have matures : world.Matures pending (world.noteRead computed.reactor id) :=
      World.matures_noteRead world computed.reactor id
    by_cases firm : (world.graph computed.reactor).Firm id
    · have noted := attentive.renew (attentive.noteRead_firm firm (.ok ()))
      have firm' : ∀ state, (world.noteRead computed.reactor id).computed? id = some state →
          ((world.noteRead computed.reactor id).graph state.reactor).Firm id := by
        intro state found'
        rw [World.computed?_noteRead, found] at found'
        cases found'
        exact matures.firm firm
      refine .of_modify ((refresh_firm program noted.staged id firm' depth).bind
        (fun _ after same => .of_world ?_) fun _ _ ran => nomatch ran.1)
      obtain ⟨_, rfl⟩ := same
      split
      next =>
        rintro _ _ ⟨⟩ _
        exact attentive.noteRead_firm firm _
      next =>
        rintro _ _ ⟨⟩ _
        exact attentive.noteRead_firm firm _
    · obtain ⟨node, firm⟩ := not_forall.mp firm
      obtain ⟨live, firm⟩ := not_forall.mp firm
      obtain ⟨_, stale⟩ := not_forall.mp firm
      refine .of_modify fun result after ran apart => ?_
      have leads := (readComputed_traces traced id _ result after ran).leads
      have poised := attentive.noteRead_poised found live stale (apart.of_leads leads)
      obtain ⟨renewed, firm⟩ := readComputed_renews renews poised result after ran apart
      refine ⟨matures.trans renewed.matures, renewed.sound, fun value ok => ?_⟩
      obtain ⟨state, found', home, _⟩ := (matures.trans renewed.matures).computed found
      exact (renewed.gains value ok).of_noteRead (home ▸ firm value ok state found')
  next =>
    rintro _ _ ⟨⟩ _
    exact .refl attentive.sound _

/-- A closure that only reads, and passes on whatever fails. -/
theorem Act.Gets.renews (renews : Renews program depth) {act : Act κ ν σ α} (gets : act.Gets)
    (attentive : world.Attentive pending) : (act.run (activate program depth)).Ends world
      fun result after => after.NoSelfReads → world.Renewed pending result after := by
  have traced := activate_traced program depth
  induction act generalizing world with
  | pure value =>
    rintro _ _ ⟨⟩ _
    exact .refl attentive.sound _
  | raise panic =>
    rintro _ _ ⟨⟩ _
    exact .refl attentive.sound _
  | bind first next ih ih' =>
    refine (ih gets.1 attentive).bind (fun value middle begun result after ran apart => ?_)
      fun _ _ begun apart => (begun apart).failure
    have leads := (Act.run_traces traced (next value) middle result after
      ran).leads
    have begun := begun (apart.of_leads leads)
    exact begun.then (ih' value (gets.2 value) (attentive.renew begun) result after ran apart)
  | call request =>
    cases request with
    | get node => exact readNode_renews renews attentive node
    | _ => exact gets.elim
  | within => exact gets.elim
  | attempt => exact gets.elim

end

end ReactiveTree
