import ReactiveTree.Proofs.Reactive.Making

/-! # Running a history

Between operations a history leaves worlds that keep what one operation keeps. Writes and batches
only shift the world here, so an invariant has to be kept by shifts, by new cells and by reads;
`Tended` says so, and then the invariant holds after every history. Where no computed may read
itself, a history that fits runs to its end and leaves a steady world.
-/

namespace ReactiveTree

variable {κ ν σ α β : Type} {chart : Chart} {program : Program κ ν σ} {world : World κ ν σ}

/-- A run is lost, where that may be, or ends without a panic in a world that keeps an invariant,
having made those nodes and reactors. -/
def Leaves (lost : Prop) (keeps : World κ ν σ → Prop) (world : World κ ν σ) (body : Run κ ν σ α)
    (made : List (Making κ)) (reactors : Nat) : Prop :=
  (lost ∧ body world = none) ∨
    ∃ value after, body world = some (.ok value, after) ∧ keeps after ∧
      after.cells.map Cell.making = world.cells.map Cell.making ++ made ∧
      world.reactors.length + reactors ≤ after.reactors.length

/-- An invariant of the worlds between operations, which runs with so many levels of nesting keep
unless they are lost. -/
structure Tended [BEq ν] (program : Program κ ν σ) (nodes : List (Making κ)) (depth : Nat)
    (lost : Prop) (keeps : World κ ν σ → Prop) : Prop where
  quiet : ∀ {world}, keeps world → world.Quiet
  shift : ∀ {world after}, keeps world → world.Shift after → keeps after
  signal : ∀ {world owner} (value : ν), keeps world → (world.reactor? owner).isSome →
    nodes[world.nextId.index]? = some ⟨owner, none⟩ →
    keeps (world.addCell (.signal ⟨owner, value, false, 1⟩) .source).2
  computed : ∀ {world owner body}, keeps world → (world.reactor? owner).isSome →
    nodes[world.nextId.index]? = some ⟨owner, some body⟩ →
    Leaves lost keeps (world.addCell (.computed ⟨owner, body, none, false, 1⟩) .derived).2
      (activate program depth (.refresh world.nextId)).attempt [] 0
  read : ∀ {world} node, keeps world →
    Leaves lost keeps world (readNode (activate program depth) node true).attempt [] 0

section

variable {lost : Prop} {keeps : World κ ν σ → Prop} {nodes : List (Making κ)} {depth : Nat}

namespace Leaves

theorem bind {first : Run κ ν σ α} {next : α → Run κ ν σ β} {made made' : List (Making κ)}
    {reactors reactors' : Nat} (start : Leaves lost keeps world first made reactors)
    (finish : ∀ value after, keeps after →
      after.cells.map Cell.making = world.cells.map Cell.making ++ made →
      world.reactors.length + reactors ≤ after.reactors.length →
      Leaves lost keeps after (next value) made' reactors') :
    Leaves lost keeps world (first >>= next) (made ++ made') (reactors + reactors') := by
  rcases start with ⟨may, stuck⟩ | ⟨value, middle, ran, kept, making, count⟩
  · exact Or.inl ⟨may, Run.bind_of_none stuck next⟩
  rcases finish value middle kept making count with
    ⟨may, stuck⟩ | ⟨value', after, ran', kept', making', count'⟩
  · exact Or.inl ⟨may, (Run.bind_of_ok ran next).trans stuck⟩
  · refine Or.inr ⟨value', after, (Run.bind_of_ok ran next).trans ran', kept', ?_, by omega⟩
    rw [making', making, List.append_assoc]

/-- A run that makes nothing comes before the rest. -/
theorem prepend {first : Run κ ν σ α} {next : α → Run κ ν σ β} {made : List (Making κ)}
    {reactors : Nat} (start : Leaves lost keeps world first [] 0)
    (finish : ∀ value after, keeps after →
      after.cells.map Cell.making = world.cells.map Cell.making →
      world.reactors.length ≤ after.reactors.length →
      Leaves lost keeps after (next value) made reactors) :
    Leaves lost keeps world (first >>= next) made reactors := by
  have whole := start.bind fun value after kept making count =>
    finish value after kept (making.trans (List.append_nil _)) count
  rwa [Nat.zero_add, List.nil_append] at whole

theorem of_shift [BEq ν] (tended : Tended program nodes depth lost keeps) {body : Run κ ν σ α}
    {value : α} {after : World κ ν σ} (kept : keeps world)
    (ran : body world = some (.ok value, after)) (shift : world.Shift after) :
    Leaves lost keeps world body [] 0 :=
  Or.inr ⟨value, after, ran, tended.shift kept shift, by rw [shift.making, List.append_nil],
    shift.reactors⟩

/-- What leaves the skeleton alone makes nothing. -/
theorem of_skeleton {body : Run κ ν σ α} {value : α} {after : World κ ν σ}
    (ran : body world = some (.ok value, after)) (kept : keeps after)
    (same : after.skeleton = world.skeleton) : Leaves lost keeps world body [] 0 :=
  Or.inr ⟨value, after, ran, kept,
    by rw [World.making_of_skeleton same, List.append_nil],
    Nat.le_of_eq (World.reactors_of_skeleton same).symm⟩

/-- A change that makes nodes comes before a run. -/
theorem of_step {middle : World κ ν σ} {body rest : Run κ ν σ α} {made made' : List (Making κ)}
    {reactors : Nat} (leaves : Leaves lost keeps middle rest made' reactors)
    (eq : body world = rest middle)
    (making : middle.cells.map Cell.making = world.cells.map Cell.making ++ made)
    (count : world.reactors.length ≤ middle.reactors.length) :
    Leaves lost keeps world body (made ++ made') reactors := by
  rcases leaves with ⟨may, stuck⟩ | ⟨value, after, ran, kept, making', count'⟩
  · exact Or.inl ⟨may, eq.trans stuck⟩
  · refine Or.inr ⟨value, after, eq.trans ran, kept, ?_, by omega⟩
    rw [making', making, List.append_assoc]

end Leaves

/-- The next node is the next one that was to be made. -/
private theorem next_making {made : List (Making κ)} {making : Making κ}
    (all : world.cells.map Cell.making ++ making :: made = nodes) :
    nodes[world.nextId.index]? = some making := by
  rw [← all]
  show (world.cells.map Cell.making ++ making :: made)[world.cells.length]? = some making
  rw [List.getElem?_append_right (Nat.le_of_eq (List.length_map ..)), List.length_map,
    Nat.sub_self]
  rfl

section

variable [BEq ν] (tended : Tended program nodes depth lost keeps)
include tended

/-- A write of a signal that was made comes to an end. -/
private theorem write_leaves (kept : keeps world) {id : NodeId} {making : Making κ}
    (found : (world.cells.map Cell.making)[id.index]? = some making)
    (plain : making.code? = none) (engine : Engine κ ν σ) :
    ∃ state, world.signal? id = some state ∧
      ∀ value, Leaves lost keeps world (writeSignal engine id value) [] 0 := by
  have quiet := tended.quiet kept
  rw [List.getElem?_map] at found
  obtain ⟨cell, known, rfl⟩ := Option.map_eq_some_iff.mp found
  have known' : world.cell? id = some cell := known
  cases cell with
  | signal state =>
    have present : world.signal? id = some state := by
      unfold World.signal?
      rw [known']
    refine ⟨state, present, fun value => ?_⟩
    obtain ⟨after, wrote, shift⟩ := writeSignal_effectless quiet present value
    exact Leaves.of_shift tended kept wrote shift
  | computed state => cases plain
  | effect state =>
    have absent := quiet.effectless id
    unfold World.effect? at absent
    rw [known'] at absent
    cases absent

/-- A batch around operations makes what they make. -/
private theorem batch_leaves {engine : Engine κ ν σ} {body : Run κ ν σ Unit}
    {made : List (Making κ)} {reactors : Nat} (owner : ReactorId)
    (inner : Leaves lost keeps (world.modifyReactor owner Reactor.openBatch) body made reactors) :
    Leaves lost keeps world (runWithin engine (.batch owner) body) made reactors := by
  have opened : world.Shift (world.modifyReactor owner Reactor.openBatch) :=
    world.shift_modifyReactor owner fun _ _ => ⟨rfl, rfl⟩
  rcases inner with ⟨may, stuck⟩ | ⟨value, middle, ran, kept, making, count⟩
  · exact Or.inl ⟨may, Run.thenAlways_of_none stuck _⟩
  obtain ⟨after, closed, shift⟩ := closeBatch_effectless (tended.quiet kept).effectless owner
  refine Or.inr ⟨value, after, Run.thenAlways_of ran closed, tended.shift kept shift, ?_, ?_⟩
  · rw [shift.making, making, opened.making]
  · have := opened.reactors
    have := shift.reactors
    omega

theorem newSignal_leaves (kept : keeps world) {owner : ReactorId}
    (known : owner.index < world.reactors.length)
    (next : nodes[world.nextId.index]? = some ⟨owner, none⟩) (value : ν) (engine : Engine κ ν σ) :
    Leaves lost keeps world (perform engine (.newSignal owner value)) [⟨owner, none⟩] 0 := by
  have shift := world.shift_holdReactor owner
  have owned : ((world.hold (.reactor owner)).reactor? owner).isSome :=
    World.reactor?_isSome (Nat.lt_of_lt_of_le known shift.reactors)
  refine Or.inr ⟨_, _, rfl, tended.signal value (tended.shift kept shift) owned next, ?_, ?_⟩
  · exact (World.making_addCell _ _ _).trans (by rw [shift.making]; rfl)
  · exact Nat.le_trans shift.reactors (Nat.le_of_eq (World.reactors_addCell _ _ _).symm)

/-- What follows the first evaluation of a new computed. -/
private def afterMaking (owner : ReactorId) (id : NodeId) : Except Panic Unit → Run κ ν σ NodeId
  | .ok _ => pure id
  | .error panic => do
    Run.modify (·.report owner (.failedComputed id panic.message))
    return id

theorem newComputed_leaves (kept : keeps world) {owner : ReactorId}
    (known : owner.index < world.reactors.length) {body : κ}
    (next : nodes[world.nextId.index]? = some ⟨owner, some body⟩) :
    Leaves lost keeps world (perform (activate program depth) (.newComputed owner body))
      [⟨owner, some body⟩] 0 := by
  have shift := world.shift_holdReactor owner
  have owned : ((world.hold (.reactor owner)).reactor? owner).isSome :=
    World.reactor?_isSome (Nat.lt_of_lt_of_le known shift.reactors)
  have reported : ∀ (result : Except Panic Unit) after, keeps after →
      Leaves lost keeps after (afterMaking owner world.nextId result) [] 0 := by
    intro result after kept'
    cases result with
    | ok done => exact Leaves.of_shift tended kept' rfl (World.Shift.refl after)
    | error panic => exact Leaves.of_shift tended kept' rfl (after.shift_report _ _)
  have refreshed := (tended.computed (tended.shift kept shift) owned next).prepend
    fun result after kept' _ _ => reported result after kept'
  have making := World.making_addCell (world.hold (.reactor owner))
    (.computed ⟨owner, body, none, false, 1⟩) .derived
  rw [shift.making] at making
  have reactors := World.reactors_addCell (world.hold (.reactor owner))
    (.computed ⟨owner, body, none, false, 1⟩) .derived
  have whole : Leaves lost keeps world (perform (activate program depth) (.newComputed owner body))
      ([⟨owner, some body⟩] ++ []) 0 :=
    refreshed.of_step rfl making (Nat.le_trans shift.reactors (Nat.le_of_eq reactors.symm))
  exact whole

/-- A history that fits leaves a world that keeps the invariant, with the nodes that it makes. -/
theorem History.leaves (history : History κ ν) {world : World κ ν σ} (count : Nat)
    (more : List (Making κ)) (kept : keeps world)
    (fits : history.Fits count (world.cells.map Cell.making))
    (enough : count ≤ world.reactors.length)
    (all : world.cells.map Cell.making ++ (history.made ++ more) = nodes) :
    Leaves lost keeps world (history.act.run (activate program depth)) history.made
      history.reactors := by
  induction history generalizing world count more with
  | done => exact Leaves.of_shift tended kept rfl (World.Shift.refl world)
  | newReactor settings rest ih =>
    have shift := world.shift_newReactor settings
    have more' : count + 1 ≤ (world.reactors ++ [Reactor.new settings]).length := by
      rw [List.length_append]
      exact Nat.succ_le_succ enough
    rcases ih (count + 1) more (tended.shift kept shift) fits more' all with
      ⟨may, stuck⟩ | ⟨value, after, ran, kept', making, reactors⟩
    · exact Or.inl ⟨may, stuck⟩
    · refine Or.inr ⟨value, after, ran, kept', making, ?_⟩
      rw [List.length_append] at reactors
      unfold History.reactors
      simp only [List.length_singleton] at reactors
      omega
  | newSignal owner value rest ih =>
    have made := newSignal_leaves tended kept (Nat.lt_of_lt_of_le fits.1 enough) (next_making all)
      value (activate program depth)
    have whole := made.bind fun _ after kept' making reactors =>
      ih count more kept' (by rw [making]; exact fits.2) (Nat.le_trans enough reactors) (by
        rw [making, ← all, List.append_assoc]
        rfl)
    rwa [Nat.zero_add] at whole
  | newComputed owner body rest ih =>
    have made := newComputed_leaves tended kept (Nat.lt_of_lt_of_le fits.1 enough)
      (next_making all)
    have whole := made.bind fun _ after kept' making reactors =>
      ih count more kept' (by rw [making]; exact fits.2) (Nat.le_trans enough reactors) (by
        rw [making, ← all, List.append_assoc]
        rfl)
    rwa [Nat.zero_add] at whole
  | set signal value rest ih =>
    obtain ⟨⟨making, found, plain⟩, fits⟩ := fits
    obtain ⟨state, _, wrote⟩ := write_leaves tended kept found plain (activate program depth)
    exact (wrote value).prepend fun _ after kept' making reactors =>
      ih count more kept' (by rw [making]; exact fits) (Nat.le_trans enough reactors)
        (by rw [making]; exact all)
  | update signal change rest ih =>
    obtain ⟨⟨making, found, plain⟩, fits⟩ := fits
    obtain ⟨state, known, wrote⟩ := write_leaves tended kept found plain (activate program depth)
    have stored : perform (activate program depth) (.stored signal) world =
        some (.ok (some state.value), world) := by
      show some (Except.ok ((world.signal? signal).map Signal.value), world) = _
      rw [known]
      rfl
    have whole := (wrote (change state.value)).prepend fun _ after kept' making reactors =>
      ih count more kept' (by rw [making]; exact fits) (Nat.le_trans enough reactors)
        (by rw [making]; exact all)
    exact whole.of_step (Run.bind_of_ok stored _) (List.append_nil _).symm (Nat.le_refl _)
  | read node rest ih =>
    exact (tended.read node kept).prepend fun _ after kept' making reactors =>
      ih count more kept' (by rw [making]; exact fits) (Nat.le_trans enough reactors)
        (by rw [making]; exact all)
  | batch owner inner rest ihInner ihRest =>
    have opened : world.Shift (world.modifyReactor owner Reactor.openBatch) :=
      world.shift_modifyReactor owner fun _ _ => ⟨rfl, rfl⟩
    have inside := ihInner count (rest.made ++ more) (tended.shift kept opened)
      (by rw [opened.making]; exact fits.1) (Nat.le_trans enough opened.reactors) (by
        rw [opened.making, ← all]
        simp only [History.made, List.append_assoc])
    exact (batch_leaves tended owner inside).bind fun _ after kept' making reactors =>
      ihRest (count + inner.reactors) more kept' (by rw [making]; exact fits.2) (by omega) (by
        rw [making, ← all]
        simp only [History.made, List.append_assoc])

end

/-- At top level reads are recorded for nobody. -/
theorem World.Steady.tracks (steady : world.Steady chart program) (allowed : NodeId → Prop) :
    world.Tracks chart none allowed := by
  intro id _
  exact ⟨fun owner _ => steady.unread owner, fun node same => nomatch same⟩

/-- Every operation comes to an end and keeps a world steady. -/
private theorem steady_tended [BEq ν] [LawfulBEq ν] (readsOnly : ReadsOnly program nodes)
    (deep : nodes.length < depth) :
    Tended program nodes depth False
      fun world : World κ ν σ => world.Steady (chartOf program nodes) program := by
  have low : ∀ id, (chartOf program nodes).rank id < depth := fun id =>
    Nat.lt_of_le_of_lt (rankIn_le readsOnly id) deep
  have refreshes : Refreshes (chartOf program nodes) program (fun _ => .error .other) depth
      (activate program depth) depth := activate_refreshes le_rfl le_rfl
  have homes : ∀ {id : NodeId} {making : Making κ}, nodes[id.index]? = some making →
      (chartOf program nodes).home id = some making.owner := by
    intro id making found
    simp only [chartOf, found, Option.map_some]
  refine ⟨fun steady => steady.toQuiet, fun steady shift => shift.steady steady,
    fun {world owner} value steady owned next => ?_, fun {world owner body} steady owned next => ?_,
    fun {world} node steady => ?_⟩
  · refine steady.addCell (.signal ⟨owner, value, false, 1⟩) owned (homes next) ?_ Nat.one_pos ?_ ?_ ?_
    · rintro code ⟨⟩
    · rintro state ⟨⟩
    · rintro state ⟨⟩
      rfl
    · rintro ⟨⟩
  · have added : (world.addCell (.computed ⟨owner, body, none, false, 1⟩) .derived).2.Steady
        (chartOf program nodes) program := by
      refine steady.addCell (.computed ⟨owner, body, none, false, 1⟩) owned (homes next) ?_
        Nat.one_pos ?_ ?_ ?_
      · rintro code ⟨⟩
        exact readsOnly.admits next rfl
      · rintro state ⟨⟩
        rfl
      · rintro state ⟨⟩
      · rintro ⟨⟩
    obtain ⟨result, after, ran, progress, _, _⟩ :=
      refreshes.refresh world.nextId _ (low _) (added.ready _)
    exact Leaves.of_skeleton (Run.attempt_of ran) (added.progress progress) progress.skeleton
  · obtain ⟨result, after, ran, progress, _⟩ := readNode_answers refreshes (steady.ready depth)
      (steady.tracks fun _ => True) trivial (low node) (low node)
    exact Leaves.of_skeleton (Run.attempt_of ran) (steady.progress progress) progress.skeleton

/-- A history runs to its end and leaves a steady world with the nodes that it makes. -/
theorem History.makes [BEq ν] [LawfulBEq ν] (readsOnly : ReadsOnly program nodes)
    (deep : nodes.length < depth) (history : History κ ν) {world : World κ ν σ} (count : Nat)
    (more : List (Making κ)) (steady : world.Steady (chartOf program nodes) program)
    (fits : history.Fits count (world.cells.map Cell.making))
    (enough : count ≤ world.reactors.length)
    (all : world.cells.map Cell.making ++ (history.made ++ more) = nodes) :
    ∃ value after, history.act.run (activate program depth) world = some (.ok value, after) ∧
      after.Steady (chartOf program nodes) program ∧
      after.cells.map Cell.making = world.cells.map Cell.making ++ history.made ∧
      world.reactors.length + history.reactors ≤ after.reactors.length :=
  (history.leaves (steady_tended readsOnly deep) count more steady fits enough all).resolve_left
    And.left

end

end ReactiveTree
