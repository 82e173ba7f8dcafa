import ReactiveTree.Proofs.Reactive.Guarding
import ReactiveTree.Proofs.Reactive.Reaching

/-! # Computeds that read themselves

Closures may read one another in any pattern, through whatever histories and marks. Where no doubtful
computed leads to itself, every act that only reads comes to an end, and every read of a computed in
progress fails as a cycle: the engine does what it does with a guard before every refresh. A doubtful
computed that leads to itself may be read again without being noticed.
-/

namespace ReactiveTree

variable {κ ν σ : Type} {program : Program κ ν σ} {nodes : List (Making κ)}
variable {world after : World κ ν σ}

/-- With a guard before every refresh, a read of a computed in progress fails as a cycle. -/
theorem readNode_guarded_of_inProgress [BEq ν] {id : NodeId} (progress : world.inProgress id = true)
    (depth : Nat) (tracked : Bool) :
    ∃ after, readNode (activateGuarded program (depth + 1)) id tracked world =
      some (.error (.text ("cycle detected: computed " ++ id.text ++ " depends on itself")),
        after) := by
  obtain ⟨state, present, _⟩ := (Option.any_eq_true _ _).mp progress
  have known := World.computed?_eq_some_iff.mp present
  have refreshes : ∀ middle : World κ ν σ, middle.inProgress id = true →
      readComputed (activateGuarded program (depth + 1)) id middle =
        some (.error (.text ("cycle detected: computed " ++ id.text ++ " depends on itself")),
          middle) := by
    intro middle progress
    refine Run.bind_of_error ?_ _
    show refreshGuarded program _ id middle = _
    unfold refreshGuarded
    rw [Run.world_bind, if_pos progress]
    rfl
  unfold readNode
  rw [Run.world_bind, known]
  cases tracked with
  | false => exact ⟨world, refreshes world progress⟩
  | true =>
    refine ⟨world.noteRead state.reactor id, refreshes _ ?_⟩
    rwa [World.inProgress_of_skeleton (World.skeleton_noteRead _ _ _)]

namespace World

/-- Between operations no computed is at work. -/
private theorem Quiet.nested (quiet : world.Quiet)
    (made : ∀ id cell, world.cell? id = some cell → nodes[id.index]? = some cell.making)
    (held : ∀ id cell, world.cell? id = some cell → cell.kind = .derived → 0 < cell.holders)
    (led : world.Led program nodes) : world.Nested program nodes [] where
  made := made
  held := held
  readers owner reader read := by
    rw [quiet.unread] at read
    cases read
  evaluated id progress := by
    obtain ⟨state, present, computing⟩ := (Option.any_eq_true _ _).mp progress
    rw [quiet.idle id state present] at computing
    cases computing
  led := led

private theorem Shift.nested (shift : world.Shift after) (quiet : world.Quiet)
    (nested : world.Nested program nodes []) : after.Nested program nodes [] := by
  refine (shift.quiet quiet).nested (fun id cell found => ?_) (fun id cell found derived => ?_)
    fun id node found dependency member => ?_
  · have related := shift.cells id
    rw [found] at related
    obtain ⟨old, known, carried⟩ := relOption_some related
    rw [nested.made id old known]
    cases carried <;> rfl
  · have related := shift.cells id
    rw [found] at related
    obtain ⟨old, known, carried⟩ := relOption_some related
    exact Nat.lt_of_lt_of_le (nested.held id old known (carried.alike.kind.symm.trans derived))
      carried.alike.holders
  · have related := shift.nodes id
    rw [found] at related
    obtain ⟨old, live, weakened⟩ := relOption_some related
    exact nested.led id old live dependency (weakened.dependencies ▸ member)

private theorem Nested.addCell (nested : world.Nested program nodes []) {cell : Cell κ ν}
    (quiet : (world.addCell cell cell.kind).2.Quiet) (owned : (world.reactor? cell.reactor).isSome)
    (next : nodes[world.nextId.index]? = some cell.making) (held : 0 < cell.holders) :
    (world.addCell cell cell.kind).2.Nested program nodes [] := by
  refine quiet.nested (forall_addCell _ next nested.made)
    (forall_addCell _ (fun _ => held) nested.held) fun id node found dependency member => ?_
  rw [node?_addCell world cell cell.kind owned] at found
  split at found
  next =>
    cases found
    cases member
  next => exact nested.led id node found dependency member

end World

/-- Every operation that comes to an end leaves no computed at work. -/
private theorem nested_tended [BEq ν] (onlyReads : ∀ making body, making ∈ nodes →
      making.code? = some body → (program.compute body).OnlyReads fun _ => True) (depth : Nat) :
    Tended program nodes depth True
      fun world : World κ ν σ => world.Quiet ∧ world.Nested program nodes [] := by
  have guards : Guards program nodes depth (activate program depth)
      (activateGuarded program depth) := activate_guards onlyReads depth
  have leaves : ∀ {α : Type} {world : World κ ν σ} {safe : Prop} {body guarded : Run κ ν σ α},
      world.Quiet ∧ world.Nested program nodes [] →
      Stays program nodes [] safe world body guarded →
      Leaves True (fun world => world.Quiet ∧ world.Nested program nodes []) world body.attempt
        [] 0 := by
    intro α world safe body guarded ⟨quiet, nested⟩ stays
    cases ran : body world with
    | none => exact Or.inl ⟨trivial, Run.attempt_of_none ran⟩
    | some outcome =>
      have kept := stays.kept outcome.1 outcome.2 ran
      exact Leaves.of_skeleton (Run.attempt_of ran)
        ⟨quiet.of_skeleton kept.skeleton, nested.kept kept⟩ kept.skeleton
  refine ⟨And.left, fun kept shift => ⟨shift.quiet kept.1, shift.nested kept.1 kept.2⟩,
    fun {world owner} value kept owned next => ?_, fun {world owner body} kept owned next => ?_,
    fun {world} node kept => leaves kept (readNode_stays guards kept.2 nofun)⟩
  · have quiet := kept.1.addCell (.signal ⟨owner, value, false, 1⟩) .source nofun
      (by rintro state ⟨⟩; rfl) nofun
    exact ⟨quiet, kept.2.addCell quiet owned next Nat.one_pos⟩
  · have quiet := kept.1.addCell (.computed ⟨owner, body, none, false, 1⟩) .derived
      (by rintro state ⟨⟩; rfl) nofun nofun
    have nested := kept.2.addCell quiet owned next Nat.one_pos
    exact leaves ⟨quiet, nested⟩ (guards [] _ _ nested nofun)

/-- After any history without effects whose closures only read, in any pattern, and once no doubtful
computed leads to itself, every act that only reads comes to an end, and does what it does when every
read of a computed in progress fails as a cycle. -/
theorem reads_as_guarded [BEq ν] (program : Program κ ν σ) (history : History κ ν)
    (fits : history.Fits 0 []) (onlyReads : ∀ making body, making ∈ history.made →
      making.code? = some body → (program.compute body).OnlyReads fun _ => True)
    (user : σ) (past : Nat) {world : World κ ν σ}
    (reached : program.run past history.act (World.initial user) = some (.ok (), world))
    (undoubted : ∀ id node, world.node? id = some node → node.freshness = .doubtful →
      ¬ LeadsTo program history.made id id)
    {α : Type} (act : Act κ ν σ α) (reads : act.OnlyReads fun _ => True) (depth : Nat)
    (deep : history.made.length < depth) :
    ∃ result after, program.run depth act world = some (result, after) ∧
      act.run (activateGuarded program depth) world = some (result, after) := by
  have start : (World.initial user : World κ ν σ).Nested program history.made [] :=
    (World.initial_quiet user).nested (fun _ _ found => nomatch found)
      (fun _ _ found => nomatch found) fun _ _ found => nomatch found
  rcases history.leaves (nested_tended onlyReads past) 0 []
      ⟨World.initial_quiet user, start⟩ fits (Nat.zero_le _) (List.append_nil _) with
    ⟨_, stuck⟩ | ⟨_, last, ran, ⟨_, nested⟩, _⟩
  · rw [show program.run past history.act (World.initial user) = none from stuck] at reached
    cases reached
  have same : last = world :=
    congrArg Prod.snd (Option.some.inj (ran.symm.trans reached))
  subst same
  have guarded : last.Guarded program history.made [] := ⟨List.nodup_nil, nofun, undoubted, nofun⟩
  have reads' : act.OnlyReads
      fun node => ∀ other ∈ ([] : List NodeId), LeadsTo program history.made other node :=
    reads.mono fun _ _ => nofun
  have stays := act_stays (activate_guards onlyReads depth) reads' nested
  obtain ⟨result, after, ran, ran', _⟩ := stays.ends deep guarded
  exact ⟨result, after, ran, ran'⟩

/-- One closure copies the first node; the other reads the second, and itself if that is two. -/
def Program.selfReading : Program Bool Nat Unit where
  compute
    | false => .call (.get ⟨0⟩)
    | true => .bind (.call (.get ⟨1⟩)) fun copy =>
      if copy = 2 then .bind (.call (.get ⟨2⟩)) fun value => .pure (value + 1) else .pure 10
  effect _ := .pure (.ok none)
  cleanup _ := .pure ()
  callback _ _ := .pure ()
  render _ := .pure none
  handler _ := .pure ()

/-- Whether some node of a world is doubtful. -/
def World.hasDoubt (world : World κ ν σ) : Bool :=
  world.reactors.any fun reactor => reactor.graph.nodes.any fun node => node.freshness = .doubtful

theorem World.fresh_of_not_hasDoubt (sure : world.hasDoubt = false) {id : NodeId} {node : Node}
    (live : world.node? id = some node) : node.freshness ≠ .doubtful := by
  intro doubtful
  obtain ⟨cell, _, found⟩ := Option.bind_eq_some_iff.mp live
  unfold World.graph at found
  cases known : world.reactor? cell.reactor with
  | none =>
    rw [known] at found
    cases found
  | some reactor =>
    rw [known] at found
    have doubt : world.hasDoubt = true := List.any_eq_true.mpr
      ⟨reactor, List.mem_of_getElem? known, List.any_eq_true.mpr
        ⟨node, Graph.node?_mem found, decide_eq_true doubtful⟩⟩
    rw [sure] at doubt
    cases doubt

/-- The signal is two from the start. -/
def History.twoFirst : History Bool Nat :=
  .newReactor {} <| .newSignal ⟨0⟩ 2 <| .newComputed ⟨0⟩ false <| .newComputed ⟨0⟩ true .done

/-- The signal becomes two when both computeds have been evaluated. -/
def History.twoLater : History Bool Nat :=
  .newReactor {} <| .newSignal ⟨0⟩ 1 <| .newComputed ⟨0⟩ false <| .newComputed ⟨0⟩ true <|
    .set ⟨0⟩ 2 .done

theorem Program.selfReading_onlyReads (body : Bool) :
    (Program.selfReading.compute body).OnlyReads fun _ => True := by
  cases body with
  | false => trivial
  | true =>
    refine ⟨trivial, fun copy => ?_⟩
    dsimp only
    split
    · exact ⟨trivial, fun _ => trivial⟩
    · trivial

theorem reads_as_guarded_self_reading :
    ∃ world, Program.selfReading.run 4 History.twoFirst.act (World.initial ()) =
        some (.ok (), world) ∧
      ∃ result after, Program.selfReading.run 4 (.call (.tryGet ⟨2⟩)) world = some (result, after) ∧
        Act.run (activateGuarded Program.selfReading 4) (.call (.tryGet ⟨2⟩)) world =
          some (result, after) := by
  have ends : (Program.selfReading.run 4 History.twoFirst.act (World.initial ())).map Prod.fst =
      some (.ok ()) := by
    decide +kernel
  have sure : (Program.selfReading.run 4 History.twoFirst.act (World.initial ())).map
      (fun reached => reached.2.hasDoubt) = some false := by
    decide +kernel
  obtain ⟨⟨result, world⟩, ran, rfl⟩ := Option.map_eq_some_iff.mp ends
  rw [ran] at sure
  exact ⟨world, ran, reads_as_guarded Program.selfReading History.twoFirst
    ⟨by decide, by decide, by decide, trivial⟩
    (fun _ body _ _ => Program.selfReading_onlyReads body) () 4 ran
    (fun id node live doubtful _ =>
      World.fresh_of_not_hasDoubt (Option.some.inj sure) live doubtful)
    (.call (.tryGet ⟨2⟩)) trivial 4 (by decide)⟩

/-- Read while it is doubtful, a computed that reads itself gets the value of its last evaluation. -/
theorem self_read_unnoticed :
    ∃ world, Program.selfReading.run 4 History.twoLater.act (World.initial ()) =
        some (.ok (), world) ∧
      (Program.selfReading.run 4 (.call (.get ⟨2⟩)) world).map Prod.fst = some (.ok 11) ∧
      (Act.run (activateGuarded Program.selfReading 4) (.call (.get ⟨2⟩)) world).map Prod.fst =
        some (.error (.text "cycle detected: computed #2 depends on itself")) := by
  have ends : (Program.selfReading.run 4 History.twoLater.act (World.initial ())).map Prod.fst =
      some (.ok ()) := by
    decide +kernel
  have reads : (Program.selfReading.run 4 History.twoLater.act (World.initial ())).map
      (fun reached => ((Program.selfReading.run 4 (.call (.get ⟨2⟩)) reached.2).map Prod.fst,
        (Act.run (activateGuarded Program.selfReading 4) (.call (.get ⟨2⟩)) reached.2).map
          Prod.fst)) =
      some (some (.ok 11),
        some (.error (.text "cycle detected: computed #2 depends on itself"))) := by
    decide +kernel
  obtain ⟨⟨result, world⟩, ran, rfl⟩ := Option.map_eq_some_iff.mp ends
  rw [ran] at reads
  obtain ⟨plain, guarded⟩ := Prod.mk.inj (Option.some.inj reads)
  exact ⟨world, ran, plain, guarded⟩

/-- A computed is doubtful, and the first computed that it has read is another node. -/
def World.DoubtsOn (world : World κ ν σ) (id input : NodeId) : Prop :=
  ∃ owner, (world.computed? id).map Computed.reactor = some owner ∧
    (world.node? id).map Node.freshness = some .doubtful ∧
    ((world.graph owner).derivedInputs id).head?.map Prod.fst = some input

private theorem World.DoubtsOn.hold {id input : NodeId} (doubts : world.DoubtsOn id input)
    (other : NodeId) : (world.hold (.node other)).DoubtsOn id input := by
  obtain ⟨owner, computed, mark, first⟩ := doubts
  refine ⟨owner, ?_, by rwa [World.node?_hold], first⟩
  obtain ⟨state, present, home⟩ := Option.map_eq_some_iff.mp computed
  obtain ⟨state', known, owner', _⟩ :=
    (World.continues_hold world other).computed (World.computed?_eq_some_iff.mp present)
  rw [World.computed?_eq_some_iff.mpr known, Option.map_some, owner', home]

/-- Two doubtful computeds that have read one another first are refreshed without an end. -/
theorem activate_of_mutual_doubt [BEq ν] {first second : NodeId}
    (doubts : world.DoubtsOn first second) (doubts' : world.DoubtsOn second first) (depth : Nat) :
    activate program depth (.refresh first) world = none := by
  induction depth generalizing world first second with
  | zero => rfl
  | succ depth ih =>
    have ⟨owner, computed, mark, head⟩ := doubts
    obtain ⟨state, present, rfl⟩ := Option.map_eq_some_iff.mp computed
    obtain ⟨node, live, doubtful⟩ := Option.map_eq_some_iff.mp mark
    obtain ⟨⟨input, version⟩, listed, rfl⟩ := Option.map_eq_some_iff.mp head
    obtain ⟨rest, inputs⟩ := List.head?_eq_some_iff.mp listed
    have refreshed : refreshComputed program (activate program depth) first world =
        Run.holding (.node first) (checkInputs program (activate program depth) first state
          ((input, version) :: rest)) world := by
      rw [refreshComputed_of (World.computed?_eq_some_iff.mp present) live, doubtful, inputs]
    refine refreshed.trans (Run.holding_of_none ?_)
    unfold checkInputs
    exact Run.bind_of_none (ih (doubts'.hold first) (doubts.hold first)) _

/-- One closure copies the first node, the next tries the last one before it reads others, and the
last one tries that one. -/
def Program.entangled : Program (Fin 3) Nat Unit where
  compute
    | 0 => .call (.get ⟨0⟩)
    | 1 => .bind (.call (.tryGet ⟨4⟩)) fun _ => .bind (.call (.get ⟨2⟩)) fun _ => .call (.get ⟨1⟩)
    | 2 => .bind (.call (.tryGet ⟨3⟩)) fun _ => .pure 0
  effect _ := .pure (.ok none)
  cleanup _ := .pure ()
  callback _ _ := .pure ()
  render _ := .pure none
  handler _ := .pure ()

/-- The computeds are entangled by a write and two reads; another write makes both doubtful. -/
def History.entangling : History (Fin 3) Nat :=
  .newReactor {} <| .newSignal ⟨0⟩ 1 <| .newSignal ⟨0⟩ 1 <| .newComputed ⟨0⟩ 0 <|
    .newComputed ⟨0⟩ 1 <| .newComputed ⟨0⟩ 2 <| .set ⟨1⟩ 2 <| .read ⟨3⟩ <| .read ⟨4⟩ <|
    .set ⟨0⟩ 2 .done

/-- Closures that only read can lead to a world in which a read does not end, however deep. -/
theorem read_without_end :
    ∃ world, Program.entangled.run 6 History.entangling.act (World.initial ()) =
        some (.ok (), world) ∧
      ∀ depth, Program.entangled.run depth (.call (.get ⟨3⟩)) world = none := by
  have ends : (Program.entangled.run 6 History.entangling.act (World.initial ())).map Prod.fst =
      some (.ok ()) := by
    decide +kernel
  have marks : (Program.entangled.run 6 History.entangling.act (World.initial ())).map
      (fun reached => (reached.2.reader? ⟨0⟩, ([⟨3⟩, ⟨4⟩] : List NodeId).map fun id =>
        ((reached.2.computed? id).map Computed.reactor, (reached.2.node? id).map Node.freshness,
          ((reached.2.graph ⟨0⟩).derivedInputs id).head?.map Prod.fst))) =
      some (none,
        [(some ⟨0⟩, some .doubtful, some ⟨4⟩), (some ⟨0⟩, some .doubtful, some ⟨3⟩)]) := by
    decide +kernel
  obtain ⟨⟨result, world⟩, ran, rfl⟩ := Option.map_eq_some_iff.mp ends
  rw [ran] at marks
  simp only [Option.map_some, Option.some.injEq, Prod.mk.injEq, List.map_cons, List.map_nil,
    List.cons.injEq, and_true] at marks
  obtain ⟨unread, ⟨computed, mark, first⟩, computed', mark', first'⟩ := marks
  refine ⟨world, ran, fun depth => ?_⟩
  obtain ⟨state, present, owner⟩ := Option.map_eq_some_iff.mp computed
  have noted : world.noteRead ⟨0⟩ ⟨3⟩ = world.record (.read ⟨3⟩ none) := by
    have nobody : (world.reactor? ⟨0⟩).bind Reactor.reader? = none := unread
    unfold World.noteRead
    rw [nobody]
  show readNode (activate Program.entangled depth) ⟨3⟩ true world = none
  unfold readNode
  rw [Run.world_bind, World.computed?_eq_some_iff.mp present]
  show readComputed _ _ (world.noteRead state.reactor ⟨3⟩) = none
  rw [owner, noted]
  have doubts : (world.record (.read ⟨3⟩ none)).DoubtsOn ⟨3⟩ ⟨4⟩ := ⟨⟨0⟩, computed, mark, first⟩
  have doubts' : (world.record (.read ⟨3⟩ none)).DoubtsOn ⟨4⟩ ⟨3⟩ :=
    ⟨⟨0⟩, computed', mark', first'⟩
  exact Run.bind_of_none (activate_of_mutual_doubt doubts doubts' depth) _

end ReactiveTree
