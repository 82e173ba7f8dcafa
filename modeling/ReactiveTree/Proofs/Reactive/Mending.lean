import ReactiveTree.Proofs.Reactive.Restoring

/-! # Refreshes keep marks sound

A computed is checked with the first of its inputs that may be in doubt in its way; once all are firm it
is clean, and where one has changed it is evaluated. By induction on the depth of nesting a refresh
keeps marks sound, however it ends, and leaves the pending computeds as they were.
-/

namespace ReactiveTree

variable {κ ν σ : Type}

namespace World

variable {world after : World κ ν σ} {pending pending' : NodeId → Prop} {id other : NodeId}

theorem Matures.mono (matures : world.Matures pending' after) (more : ∀ id, pending id → pending' id) :
    world.Matures pending after where
  skeleton := matures.skeleton
  nodes owner id := relOption_mono (fun _ _ holds => ⟨holds.1, holds.2.1, fun waits =>
    holds.2.2 (more id waits)⟩) (matures.nodes owner id)

theorem Renewed.mono {α : Type} {result : Except Panic α} (renewed : world.Renewed pending' result after)
    (more : ∀ id, pending id → pending' id) : world.Renewed pending result after where
  matures := renewed.matures.mono more
  sound := renewed.sound
  gains value ok owner id old new waits := renewed.gains value ok owner id old new (more id waits)

theorem Staged.mono (staged : world.Staged pending) (more : ∀ id, pending id → pending' id) :
    world.Staged pending' where
  homes := staged.homes
  held := staged.held
  busy id state found computing := more id (staged.busy id state found computing)
  readers owner reader reading := (staged.readers owner reader reading).imp_left (more reader)

theorem Blocked.mono {inWay inWay' : NodeId → Prop} (blocked : world.Blocked inWay id)
    (more : ∀ next, inWay next → inWay' next) : world.Blocked inWay' id := by
  cases blocked with
  | busy found live dirty computing => exact .busy found live dirty computing
  | behind found live doubtful reads firm waits present derived =>
    exact .behind found live doubtful reads firm (more _ waits) present derived

theorem Poised.hold (poised : world.Poised pending id) (other : NodeId) :
    (world.hold (.node other)).Poised pending id where
  staged := poised.staged.hold other
  sound := by
    refine ⟨poised.sound.settled, fun reader state node found live mark => ?_⟩
    rw [computed?_hold] at found
    obtain ⟨old, was, rfl⟩ := Option.map_eq_some_iff.mp found
    have valued := poised.sound.valued reader old node was
    split at live <;> split <;> exact valued live mark
  waits reader waits := by
    rcases poised.waits reader waits with blocked | ⟨state, collects, absent⟩
    · exact Or.inl (blocked.hold other)
    · obtain ⟨state', found', home, _⟩ := computed_hold world other collects.found
      refine Or.inr ⟨state', ⟨found', ?_, ?_⟩, ?_⟩
      · rw [home]
        exact collects.reading
      · rw [home]
        exact collects.firm
      · rw [home]
        exact absent

/-- A request for a pending computed fails. -/
theorem Poised.blocked (poised : world.Poised pending id) (waits : pending id) :
    ∃ inWay : NodeId → Prop, inWay id ∧ ∀ other, inWay other → world.Blocked inWay other := by
  refine ⟨fun other => pending other ∧ ∃ state, world.computed? other = some state ∧
    ((world.graph state.reactor).node? id).isSome, ⟨waits, ?_⟩, ?_⟩
  · rcases poised.waits id waits with blocked | ⟨state, collects, absent⟩
    · cases blocked with
      | busy found live => exact ⟨_, found, by rw [live]; rfl⟩
      | behind found live => exact ⟨_, found, by rw [live]; rfl⟩
    · obtain ⟨node, live, _⟩ := collects.firm
      rw [absent] at live
      cases live
  · rintro other ⟨waits', state, found, same⟩
    rcases poised.waits other waits' with blocked | ⟨state', collects, absent⟩
    · cases blocked with
      | busy found live dirty computing => exact .busy found live dirty computing
      | behind found' live doubtful reads firm inWay present derived =>
        cases Option.some.inj (found.symm.trans found')
        refine .behind found live doubtful reads firm ⟨?_, ?_⟩ present derived
        · rcases inWay with rfl | inWay
          · exact waits
          · exact inWay
        · obtain ⟨next, known, home⟩ := poised.staged.computed present derived
          exact ⟨next, known, home ▸ same⟩
    · cases Option.some.inj (found.symm.trans collects.found)
      rw [absent] at same
      cases same

end World

variable [BEq ν] {program : Program κ ν σ} {depth : Nat} {world : World κ ν σ}
  {pending : NodeId → Prop} {id : NodeId} {state computed : Computed κ ν} {node : Node}

/-- A refresh of a computed of that reactor keeps marks sound, and makes the computed firm. -/
def Mends (world : World κ ν σ) (pending : NodeId → Prop) (id : NodeId) (home : ReactorId)
    (run : Run κ ν σ Unit) : Prop :=
  run.Ends world fun result after => after.NoSelfReads →
    world.Renewed pending result after ∧ (result = .ok () → (after.graph home).Firm id)

theorem evaluate_mends (renews : Renews program depth) (gets : ∀ code, (program.compute code).Gets)
    (poised : world.Poised pending id) (fresh : ¬ pending id)
    (found : world.computed? id = some state) (place : computed.reactor = state.reactor)
    (live : (world.graph state.reactor).node? id = some node) (stale : node.freshness ≠ .clean) :
    Mends world pending id state.reactor (evaluate program (activate program depth) id computed) := by
  intro result after ran apart
  have idle : state.computing = false := by
    rw [← Bool.not_eq_true]
    exact fun computing => fresh (poised.staged.busy id state found computing)
  have idle' : (world.computed? id).any Computed.computing = false := by
    rw [found]
    exact idle
  cases inside : (program.compute computed.body).run (activate program depth)
      (world.enter id computed.reactor) with
  | none =>
    rw [evaluate_of_none idle' inside] at ran
    cases ran
  | some outcome =>
    obtain ⟨given, inner⟩ := outcome
    rw [evaluate_of idle' inside] at ran
    have last : inner.afterEvaluation id computed given = (result, after) := Option.some.inj ran
    rw [place] at inside
    have traced := activate_traced program depth
    have entered := Act.run_traces traced _ _ _ _ inside
    obtain ⟨_, found', _⟩ := ((world.leads_enter id state.reactor).trans entered.leads).computed found
    have leads := inner.leads_afterEvaluation found' computed given
    rw [last] at leads
    have renewed := (gets computed.body).renews renews (poised.enter fresh found live stale) given inner
      inside (apart.of_leads leads)
    cases given with
    | ok value =>
      obtain ⟨settled, firm⟩ := World.Renewed.settle poised.staged fresh found live stale place idle
        renewed
      rw [last] at settled firm
      exact ⟨settled, fun _ => firm⟩
    | error panic =>
      have spoilt := World.Renewed.spoil poised.staged fresh found live stale place idle renewed
      rw [last] at spoilt
      refine ⟨spoilt, fun ok => ?_⟩
      cases last
      cases ok

/-- A computed in doubt whose inputs are checked. Of the rest of its inputs nothing is known yet; all
others are firm. -/
structure World.Checking (world : World κ ν σ) (pending : NodeId → Prop) (id : NodeId)
    (home : ReactorId) (snapshot : Graph) (rest : List NodeId) : Prop where
  poised : world.Poised pending id
  fresh : ¬ pending id
  found : ∃ state, world.computed? id = some state ∧ state.reactor = home
  reads : ∃ node before more, (world.graph home).node? id = some node ∧ node.freshness = .doubtful ∧
    node.dependencies = before ++ (rest ++ more) ∧
      ∀ read ∈ before ++ more, (world.graph home).Firm read
  kinds : ∀ read, (world.graph home).kind? read = snapshot.kind? read

namespace World.Checking

variable {home : ReactorId} {snapshot : Graph} {read : NodeId} {rest : List NodeId}

omit [BEq ν]

/-- An input that is firm is done with. -/
theorem pass (checking : world.Checking pending id home snapshot (read :: rest))
    (firm : (world.graph home).Firm read) : world.Checking pending id home snapshot rest := by
  refine ⟨checking.poised, checking.fresh, checking.found, ?_, checking.kinds⟩
  obtain ⟨node, before, more, live, doubtful, reads, firms⟩ := checking.reads
  refine ⟨node, before ++ [read], more, live, doubtful, by simp [reads], fun other member => ?_⟩
  rcases List.mem_append.mp member with early | late
  · rcases List.mem_append.mp early with earlier | last
    · exact firms other (List.mem_append_left _ earlier)
    · exact List.mem_singleton.mp last ▸ firm
  · exact firms other (List.mem_append_right _ late)

/-- The next input is refreshed with the computed waiting for it. -/
theorem input (checking : world.Checking pending id home snapshot (read :: rest)) {input : Node}
    (present : (world.graph home).node? read = some input) (derived : input.kind = .derived) :
    world.Poised (fun other => other = id ∨ pending other) read where
  staged := checking.poised.staged.mono fun _ => Or.inr
  sound := checking.poised.sound
  waits other waits := by
    obtain ⟨state, found, rfl⟩ := checking.found
    obtain ⟨node, before, more, live, doubtful, reads, firms⟩ := checking.reads
    by_cases same : other = id
    · subst same
      exact Or.inl (.behind found live doubtful reads
        (fun read member => firms read (List.mem_append_left _ member)) (Or.inl rfl) present derived)
    rcases checking.poised.waits other (waits.resolve_left same) with
      blocked | ⟨state', collects, absent⟩
    · exact Or.inl (blocked.mono fun _ => Or.inr)
    · refine Or.inr ⟨state', collects, Option.eq_none_iff_forall_ne_some.mpr fun other' elsewhere => ?_⟩
      -- The input is a node of the reactor that the computed belongs to.
      obtain ⟨cell, known, here, _⟩ := checking.poised.staged.homes _ read input present
      obtain ⟨cell', known', here', _⟩ := checking.poised.staged.homes _ read other' elsewhere
      cases Option.some.inj (known.symm.trans known')
      rw [← here', here, live] at absent
      cases absent

/-- What the snapshot says about the next input is still true, its version apart. -/
theorem entry (checking : world.Checking pending id home snapshot (read :: rest))
    {checked : NodeId × Nat} (entry : snapshot.input? read = some checked) :
    checked.1 = read ∧ ∃ input, (world.graph home).node? read = some input ∧ input.kind = .derived := by
  unfold Graph.input? at entry
  split at entry
  next old was =>
    split at entry
    next derived =>
      cases entry
      have kind : (world.graph home).kind? read = some .derived := by
        rw [checking.kinds, Graph.kind?, was, ← derived]
        rfl
      exact ⟨rfl, Option.map_eq_some_iff.mp kind⟩
    next => cases entry
  next => cases entry

/-- Once the next input has been refreshed it is firm. -/
theorem renew {middle : World κ ν σ} (checking : world.Checking pending id home snapshot (read :: rest))
    (renewed : world.Renewed (fun other => other = id ∨ pending other) (.ok () : Except Panic Unit)
      middle) (firm : (middle.graph home).Firm read) :
    middle.Checking pending id home snapshot rest := by
  obtain ⟨state, found, place⟩ := checking.found
  obtain ⟨node, before, more, live, doubtful, reads, firms⟩ := checking.reads
  obtain ⟨state', found', place', _⟩ := renewed.matures.computed found
  obtain ⟨node', live', matured⟩ := renewed.matures.node live
  obtain ⟨gained, grown, firm'⟩ := renewed.gains () rfl home id node node' (Or.inl rfl) live live'
  refine pass ⟨?_, checking.fresh, ⟨state', found', place'.trans place⟩, ⟨node', before,
    more ++ gained, live', (matured.2.2 (Or.inl rfl)).trans doubtful, by simp [grown, reads],
    fun other member => ?_⟩, fun other => ?_⟩ firm
  · exact checking.poised.renew (fun _ => Or.inr) renewed
      (checking.poised.staged.of_matures (renewed.matures.mono fun _ => Or.inr))
  · rw [← List.append_assoc] at member
    rcases List.mem_append.mp member with known | new
    · exact renewed.matures.firm (firms other known)
    · exact firm' other new
  · rw [← checking.kinds other, Graph.kind?, Graph.kind?]
    have related := renewed.matures.nodes home other
    revert related
    generalize (world.graph home).node? other = old
    generalize (middle.graph home).node? other = new
    intro related
    cases related with
    | none => rfl
    | some holds => exact congrArg some holds.1

/-- A computed in doubt that turns out to read firm nodes only is clean. -/
theorem confirm (checking : world.Checking pending id home snapshot []) {computed : Computed κ ν}
    (place : computed.reactor = home) :
    Mends world pending id home
      (Run.modify (·.mapGraph computed.reactor (·.modify id Node.markClean))) := by
  obtain ⟨node, before, more, live, doubtful, reads, firms⟩ := checking.reads
  have kept : ∀ node : Node, node.markClean.id = node.id := fun _ => rfl
  have graphs : ∀ owner, (world.mapGraph computed.reactor (·.modify id Node.markClean)).graph owner =
      if owner = home then (world.graph home).modify id Node.markClean else world.graph owner := by
    intro owner
    rw [place]
    exact graph_mapGraph world home rfl owner
  have own : ∀ {node'}, (world.graph home).node? id = some node' → node' = node :=
    fun live' => Option.some.inj (live'.symm.trans live)
  have sound := checking.poised.sound
  rintro _ _ ⟨⟩ _
  refine ⟨⟨⟨skeleton_mapGraph _ _ _, fun owner other => ?_⟩, ⟨fun owner => ?_,
    fun other state node' found live' mark => ?_⟩, fun _ _ owner other old new waits was is => ?_⟩,
    fun _ node' present _ => ?_⟩
  · rw [graphs]
    split
    next here =>
      subst here
      refine Graph.relOption_modify Node.Matured.refl _ id _ kept fun same node' => ?_
      exact ⟨rfl, fun _ => rfl, fun waits => absurd (same ▸ waits) checking.fresh⟩
    next => exact relOption_refl Node.Matured.refl _
  · rw [graphs]
    split
    next =>
      refine (sound.settled home).renew (fun _ => ⟨rfl, rfl, rfl, rfl⟩) fun node' live' => ?_
      rw [own live', reads]
      exact firms
    next => exact sound.settled owner
  · have found : world.computed? other = some state := found
    rw [graphs] at live'
    split at live'
    next here =>
      obtain ⟨before, present, rfl | ⟨rfl, rfl⟩⟩ := Graph.modify_cases kept live'
      · exact sound.valued other state node' found (here ▸ present) mark
      · refine sound.valued other state before found (here ▸ present) ?_
        rw [own present, doubtful]
        nofun
    next => exact sound.valued other state node' found live' mark
  · refine ⟨[], ?_, nofun⟩
    rw [graphs] at is
    split at is
    next here =>
      subst here
      obtain ⟨before, present, rfl | ⟨rfl, rfl⟩⟩ := Graph.modify_cases kept is
      · rw [Option.some.inj (was.symm.trans present), List.append_nil]
      · exact absurd waits checking.fresh
    next => rw [Option.some.inj (was.symm.trans is), List.append_nil]
  · rw [graphs, if_pos rfl, Graph.node?_modify _ kept, if_pos rfl] at present
    obtain ⟨old, _, rfl⟩ := Option.map_eq_some_iff.mp present
    rfl

end World.Checking

/-- The inputs of a computed in doubt are checked one by one. -/
theorem checkInputs_mends (renews : Renews program depth)
    (gets : ∀ code, (program.compute code).Gets) {home : ReactorId} {snapshot : Graph}
    {rest : List NodeId} (checking : world.Checking pending id home snapshot rest)
    (place : computed.reactor = home) : Mends world pending id home
      (checkInputs program (activate program depth) id computed (rest.filterMap snapshot.input?)) := by
  have traced := activate_traced program depth
  subst place
  induction rest generalizing world with
  | nil => exact checking.confirm rfl
  | cons read rest ih =>
    rw [List.filterMap_cons]
    cases entry : snapshot.input? read with
    | none =>
      refine ih (checking.pass fun input present derived => ?_)
      have kind : snapshot.kind? read = some .derived := by
        rw [← checking.kinds, Graph.kind?, present, ← derived]
        rfl
      obtain ⟨input', present', derived'⟩ := Option.map_eq_some_iff.mp kind
      rw [Graph.input?_of_derived present' derived'] at entry
      cases entry
    | some checked =>
      obtain ⟨rfl, input, present, derived⟩ := checking.entry entry
      have poised := checking.input present derived
      intro result after ran apart
      obtain ⟨state, found, home⟩ := checking.found
      rcases Run.of_bind_eq_some ran with ⟨panic, stopped, rfl⟩ | ⟨_, middle, refreshed, ran⟩
      · exact ⟨(renews world _ checked.1 poised _ _ stopped apart).1.failure.mono fun _ => Or.inr,
          fun ended => by cases ended⟩
      rw [Run.world_bind] at ran
      obtain ⟨state', found', home'⟩ := (traced.refresh checked.1 world _ _ refreshed).leads.computed found
      have place' : state'.reactor = computed.reactor := home'.trans home
      have leads : middle.Leads after := by
        split at ran
        next =>
          exact (evaluate_updates traced found' place' _ _ ran).leads
        next =>
          exact (checkInputs_updates traced _ found' place' _ _ ran).leads
      obtain ⟨renewed, firm⟩ := renews world _ checked.1 poised _ _ refreshed (apart.of_leads leads)
      obtain ⟨reader, known, here⟩ := checking.poised.staged.computed present derived
      obtain ⟨reader', known', here', _⟩ := renewed.matures.computed known
      have checking' : middle.Checking pending id computed.reactor snapshot rest :=
        checking.renew renewed ((here'.trans here) ▸ firm rfl reader' known')
      have rest : middle.Renewed pending result after ∧
          (result = .ok () → (after.graph computed.reactor).Firm id) := by
        split at ran
        next =>
          obtain ⟨node, _, _, live, doubtful, _⟩ := checking'.reads
          have evaluated := evaluate_mends renews gets checking'.poised checking'.fresh found'
            place'.symm (by rw [place']; exact live) (by rw [doubtful]; decide) _ _ ran apart
          rwa [place'] at evaluated
        next => exact ih checking' _ _ ran apart
      exact ⟨(renewed.mono fun _ => Or.inr).then rest.1, rest.2⟩

omit [BEq ν] in
theorem World.computed_lose {other : NodeId}
    (found : (world.lose (.node id)).computed? other = some state) :
    ∃ old, world.computed? other = some old ∧ state.reactor = old.reactor ∧
      state.value = old.value := by
  have cells : (world.lose (.node id)).cell? other = _ := cell?_modifyCell world id other _
  rw [computed?_eq_some_iff, cells] at found
  split at found
  next same =>
    subst same
    obtain ⟨cell, known, equal⟩ := Option.map_eq_some_iff.mp found
    cases cell with
    | signal => cases equal
    | effect => cases equal
    | computed old =>
      cases equal
      exact ⟨old, computed?_eq_some_iff.mpr known, rfl, rfl⟩
  next => exact ⟨state, computed?_eq_some_iff.mpr found, rfl, rfl⟩

omit [BEq ν] in
/-- The handle that is held meanwhile is given back. -/
theorem World.Renewed.lose {α : Type} {result : Except Panic α} {inner : World κ ν σ}
    (renewed : (world.hold (.node id)).Renewed pending result inner) :
    world.Renewed pending result (inner.lose (.node id)) where
  matures := {
    skeleton := by
      rw [skeleton_lose, renewed.matures.skeleton, ← skeleton_lose, lose_hold]
    nodes := renewed.matures.nodes }
  sound := {
    settled := renewed.sound.settled
    valued := fun other state node found live mark => by
      obtain ⟨old, was, home, value⟩ := computed_lose found
      rw [home] at live
      rw [value]
      exact renewed.sound.valued other old node was live mark }
  gains := renewed.gains

theorem Mends.holding (program : Program κ ν σ) {body : Run κ ν σ Unit} (staged : world.Staged pending)
    (found : world.computed? id = some state)
    (live : (world.graph state.reactor).node? id = some node)
    (mends : Mends (world.hold (.node id)) pending id state.reactor body) :
    Mends world pending id state.reactor (Run.holding (.node id) body) := by
  have known := World.computed?_eq_some_iff.mp found
  have held : 0 < state.holders := staged.held id state found (by rw [live]; rfl)
  refine .of_modify (mends.thenAlways fun result inner ended apart => ?_)
  have leads : inner.Leads (inner.drop (.node id)) :=
    (inner.trail_drop (.node id) : Trail program (.flat .serving) inner _).leads
  obtain ⟨renewed, firm⟩ := ended (apart.of_leads leads)
  rw [World.drop_eq_lose (World.holdersOf_ne_one known held renewed.matures.skeleton)]
  exact ⟨renewed.lose, firm⟩

/-- A refresh of any depth keeps marks sound, if the closures of computeds only read. -/
theorem activate_renews (gets : ∀ code, (program.compute code).Gets) (depth : Nat) :
    Renews program depth := by
  induction depth with
  | zero => exact fun _ _ _ _ _ _ => nofun
  | succ depth ih =>
    intro world pending id poised
    by_cases waits : pending id
    · obtain ⟨inWay, ahead, blocked⟩ := poised.blocked waits
      intro result after ran _
      obtain ⟨rfl, panic, rfl⟩ := refresh_blocked poised.staged blocked ahead _ _ _ ran
      exact ⟨.refl poised.sound _, nofun⟩
    refine .of_world ?_
    split
    next absent =>
      rintro _ _ ⟨⟩ _
      refine ⟨.refl poised.sound _, fun _ state found => ?_⟩
      rw [absent] at found
      cases found
    next state found =>
      have firmly : ∀ {after : World κ ν σ} {result : Except Panic Unit},
          (world.Renewed pending result after ∧
            (result = .ok () → (after.graph state.reactor).Firm id)) →
          world.Renewed pending result after ∧ (result = .ok () → ∀ state,
            after.computed? id = some state → (after.graph state.reactor).Firm id) := by
        rintro after result ⟨renewed, firm⟩
        refine ⟨renewed, fun ok state' found' => ?_⟩
        obtain ⟨again, known, home, _⟩ := renewed.matures.computed found
        cases Option.some.inj (known.symm.trans found')
        exact home ▸ firm ok
      dsimp only
      cases live : (world.graph state.reactor).node? id with
      | none =>
        rintro _ _ ⟨⟩ _
        refine firmly ⟨.refl poised.sound _, fun _ node found => ?_⟩
        rw [live] at found
        cases found
      | some node =>
        rw [Option.map_some]
        cases mark : node.freshness with
        | clean =>
          rintro _ _ ⟨⟩ _
          refine firmly ⟨.refl poised.sound _, fun _ node' found' _ => ?_⟩
          rw [live] at found'
          cases found'
          exact mark
        | dirty =>
          refine Run.Ends.mono (Mends.holding program poised.staged found live ?_)
            fun _ _ mends apart => firmly (mends apart)
          obtain ⟨held, found', home, _⟩ := World.computed_hold world id found
          have evaluated := evaluate_mends ih gets (poised.hold id) waits found'
            home.symm (by rw [home]; exact live) (by rw [mark]; nofun)
          rwa [home] at evaluated
        | doubtful =>
          refine Run.Ends.mono (Mends.holding program poised.staged found live ?_)
            fun _ _ mends apart => firmly (mends apart)
          obtain ⟨held, found', home, _⟩ := World.computed_hold world id found
          rw [Graph.derivedInputs_eq live]
          exact checkInputs_mends ih gets ⟨poised.hold id, waits, ⟨held, found', home⟩,
            ⟨node, [], [], live, mark, by simp, nofun⟩, fun _ => rfl⟩ rfl

end ReactiveTree
