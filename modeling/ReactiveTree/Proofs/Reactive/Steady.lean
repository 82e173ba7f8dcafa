import ReactiveTree.Proofs.Reactive.Evaluating
import ReactiveTree.Proofs.Reactive.History

/-! # The state between top-level operations

Between operations no closure is running. `Steady` is the invariant of such worlds when there are
no effects; every operation keeps it. Operations that make nothing are a `Shift`: signals may be
written and marks may move, everything else stays.
-/

namespace ReactiveTree

variable {κ ν σ : Type} {chart : Chart} {program : Program κ ν σ} {world middle after : World κ ν σ}

/-- A cell is the same, or a signal that was written. -/
inductive Cell.Carried : Cell κ ν → Cell κ ν → Prop where
  | same (cell : Cell κ ν) : Carried cell cell
  | written (state : Signal ν) (value : ν) :
    Carried (.signal state) (.signal { state with value })

namespace Cell.Carried

theorem trans {first second third : Cell κ ν} (start : Carried first second)
    (finish : Carried second third) : Carried first third := by
  cases start with
  | same => exact finish
  | written state value =>
    cases finish with
    | same => exact .written state value
    | written _ value' => exact .written state value'

theorem alike {before after : Cell κ ν} (carried : Carried before after) : before.Alike after := by
  cases carried with
  | same => exact ⟨rfl, rfl, rfl, Nat.le_refl _⟩
  | written => exact ⟨rfl, rfl, rfl, Nat.le_refl _⟩

end Cell.Carried

/-- A node may have lost dependents, may be less fresh and may have a new version. -/
structure Node.Weakened (before after : Node) : Prop where
  outline : after.outline = before.outline
  dependencies : after.dependencies = before.dependencies
  dirty : before.freshness = .dirty → after.freshness = .dirty

theorem Node.Weakened.refl (node : Node) : node.Weakened node :=
  ⟨rfl, rfl, fun dirty => dirty⟩

theorem Node.Weakened.trans {first second third : Node} (start : first.Weakened second)
    (finish : second.Weakened third) : first.Weakened third :=
  ⟨finish.outline.trans start.outline, finish.dependencies.trans start.dependencies,
    fun dirty => finish.dirty (start.dirty dirty)⟩

theorem Graph.MarkedFrom.weakened {before after : Node} (marked : Graph.MarkedFrom before after) :
    before.Weakened after := by
  obtain ⟨outline, _, dependencies, mark⟩ := marked
  refine ⟨outline, dependencies, fun dirty => ?_⟩
  rcases mark with same | now | ⟨clean, _⟩
  · rwa [same]
  · exact now
  · rw [dirty] at clean
    cases clean

/-- Signals may have been written, marks may have moved, and reactors may have been added. -/
structure World.Shift (world after : World κ ν σ) : Prop where
  cells : ∀ id, Option.Rel Cell.Carried (world.cell? id) (after.cell? id)
  nodes : ∀ id, Option.Rel Node.Weakened (world.node? id) (after.node? id)
  readers : ∀ id, after.reader? id = world.reader? id
  reactors : world.reactors.length ≤ after.reactors.length

/-- Between top-level operations, without effects, nothing is running. -/
structure World.Quiet (world : World κ ν σ) : Prop where
  idle : ∀ id computed, world.computed? id = some computed → computed.computing = false
  unread : ∀ id, world.reader? id = none
  lasting : ∀ id signal, world.signal? id = some signal → signal.destroyed = false
  effectless : ∀ id, world.effect? id = none

/-- A quiet world that is ready for every refresh. -/
structure World.Steady (world : World κ ν σ) (chart : Chart) (program : Program κ ν σ) : Prop
    extends World.Quiet world where
  wired : world.Wired chart program
  consistent : world.Consistent chart

namespace World

namespace Shift

theorem refl (world : World κ ν σ) : world.Shift world :=
  ⟨fun _ => relOption_refl .same _, fun _ => relOption_refl Node.Weakened.refl _, fun _ => rfl,
    Nat.le_refl _⟩

theorem trans (first : world.Shift middle) (second : middle.Shift after) : world.Shift after where
  cells id :=
    relOption_trans (fun _ _ _ start finish => start.trans finish) (first.cells id) (second.cells id)
  nodes id :=
    relOption_trans (fun _ _ _ start finish => start.trans finish) (first.nodes id) (second.nodes id)
  readers id := (second.readers id).trans (first.readers id)
  reactors := Nat.le_trans first.reactors second.reactors

theorem making (shift : world.Shift after) :
    after.cells.map Cell.making = world.cells.map Cell.making := by
  refine List.ext_getElem? fun index => ?_
  rw [List.getElem?_map, List.getElem?_map]
  have related : Option.Rel Cell.Carried world.cells[index]? after.cells[index]? :=
    shift.cells ⟨index⟩
  revert related
  generalize world.cells[index]? = old
  generalize after.cells[index]? = new
  intro related
  cases related with
  | none => rfl
  | some carried => cases carried <;> rfl

theorem computed? (shift : world.Shift after) (id : NodeId) :
    after.computed? id = world.computed? id := by
  have related := shift.cells id
  unfold World.computed?
  revert related
  generalize world.cell? id = old
  generalize after.cell? id = new
  intro related
  cases related with
  | none => rfl
  | some carried => cases carried <;> rfl

theorem value? (shift : world.Shift after) (id : NodeId) : after.value? id = world.value? id := by
  rw [← computed?_value, shift.computed?, computed?_value]

theorem effectless (shift : world.Shift after)
    (effectless : ∀ id, world.effect? id = none) (id : NodeId) : after.effect? id = none := by
  have related := shift.cells id
  have absent := effectless id
  unfold World.effect? at absent ⊢
  revert related absent
  generalize world.cell? id = old
  generalize after.cell? id = new
  intro related absent
  cases related with
  | none => rfl
  | some carried =>
    cases carried with
    | same => exact absent
    | written => rfl

theorem quiet (shift : world.Shift after) (quiet : world.Quiet) : after.Quiet where
  idle := by
    intro id computed found
    rw [shift.computed?] at found
    exact quiet.idle id computed found
  unread id := by rw [shift.readers, quiet.unread]
  lasting := by
    intro id signal found
    have related := shift.cells id
    unfold World.signal? at found
    split at found
    next state present =>
      cases found
      rw [present] at related
      obtain ⟨old, known, carried⟩ := relOption_some related
      cases carried with
      | same =>
        refine quiet.lasting id signal ?_
        unfold World.signal?
        rw [known]
      | written state value =>
        have := quiet.lasting id state (by unfold World.signal?; rw [known])
        exact this
    next => cases found
  effectless := shift.effectless quiet.effectless

theorem steady (shift : world.Shift after) (steady : world.Steady chart program) :
    after.Steady chart program where
  toQuiet := shift.quiet steady.toQuiet
  wired := by
    refine steady.wired.of_alike (fun id cell found => ?_) fun id => ?_
    · have related := shift.cells id
      rw [found] at related
      obtain ⟨old, known, carried⟩ := relOption_some related
      exact ⟨old, known, carried.alike⟩
    · have related := shift.nodes id
      revert related
      generalize world.node? id = old
      generalize after.node? id = new
      intro related
      cases related with
      | none => rfl
      | some weakened => exact congrArg some weakened.outline
  consistent := by
    intro id node found derived
    have related := shift.nodes id
    rw [found] at related
    obtain ⟨old, live, weakened⟩ := relOption_some related
    obtain ⟨valued, below⟩ := steady.consistent id old live
      ((Node.kind_of_outline weakened.outline).symm.trans derived)
    constructor
    · intro marked
      rw [shift.value?]
      exact valued fun dirty => marked (weakened.dirty dirty)
    · intro dependency member
      rw [weakened.dependencies] at member
      obtain ⟨lower, home, cell, known⟩ := below dependency member
      have carried := shift.cells dependency
      rw [known] at carried
      revert carried
      generalize after.cell? dependency = new
      intro carried
      cases carried with
      | some holds => exact ⟨lower, home, _, rfl⟩

end Shift

theorem Steady.ready (steady : world.Steady chart program) (bound : Nat) :
    world.Ready chart program bound :=
  ⟨steady.wired, steady.consistent, fun id computed found _ => steady.idle id computed found⟩

/-- Nothing has happened in the initial world. -/
theorem initial_quiet (user : σ) : (initial user : World κ ν σ).Quiet where
  idle := fun _ _ found => nomatch found
  unread := fun _ => rfl
  lasting := fun _ _ found => nomatch found
  effectless := fun _ => rfl

/-- What leaves the skeleton alone keeps a world quiet. -/
theorem Quiet.of_skeleton (quiet : world.Quiet) (same : after.skeleton = world.skeleton) :
    after.Quiet := by
  have bare : ∀ id, (after.cell? id).map Cell.bare = (world.cell? id).map Cell.bare := by
    intro id
    rw [← skeleton_cell?, same, skeleton_cell?]
  refine ⟨fun id computed found => ?_, fun id => ?_, fun id signal found => ?_, fun id => ?_⟩
  · obtain ⟨old, known, kept⟩ := computing_of_skeleton same found
    rw [← kept]
    exact quiet.idle id old known
  · rw [reader?_of_skeleton same, quiet.unread]
  · unfold signal? at found
    split at found
    next state present =>
      cases found
      have hidden := bare id
      rw [present] at hidden
      obtain ⟨old, known, equal⟩ := Option.map_eq_some_iff.mp hidden.symm
      cases old with
      | signal state =>
        cases equal
        exact quiet.lasting id signal (by unfold signal?; rw [known])
      | computed state => cases equal
      | effect state => cases equal
    next => cases found
  · have hidden := bare id
    have none := quiet.effectless id
    unfold effect? at none ⊢
    revert hidden none
    generalize world.cell? id = old
    generalize after.cell? id = new
    intro hidden none
    cases new with
    | none => rfl
    | some cell =>
      cases cell with
      | signal state => rfl
      | computed state => rfl
      | effect state =>
        obtain ⟨cell, rfl, equal⟩ := Option.map_eq_some_iff.mp hidden.symm
        cases cell with
        | signal state => cases equal
        | computed state => cases equal
        | effect state => cases none

/-- Bringing computeds up to date at top level keeps a world steady. -/
theorem Steady.progress {truth : NodeId → Except Panic ν} {level bound : Nat} {reader : Option NodeId}
    (steady : world.Steady chart program)
    (progress : Progress chart program truth level bound reader world after) :
    after.Steady chart program where
  toQuiet := steady.toQuiet.of_skeleton progress.skeleton
  wired := ((steady.ready 0).progress progress).wired
  consistent := progress.consistent

end World

end ReactiveTree
