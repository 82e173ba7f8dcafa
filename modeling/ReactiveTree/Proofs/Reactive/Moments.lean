import ReactiveTree.Proofs.Reactive.Enlisting
import ReactiveTree.Proofs.Reactive.Repainting

/-! # Moments of a run

A moment of a run is a world that it passes through, together with what mounts have done to documents
on the way: where a render closure has ended, its tree was shown or refused, or the closure has
panicked; where a mount was unmounted, its tree was taken off. Between moments the display stays as it
is, or an effect that renders begins, ends or is stopped.
-/

namespace ReactiveTree

variable {κ ν σ : Type}

/-- What became of a tree that a mount was to show, or was to show no longer. -/
inductive Repaint.Outcome where
  /-- A render gave this tree, and the document was brought to it. -/
  | shown (tree : Option Tree)
  | refused (tree : Option Tree) (failure : ReconcileFailure)
  | panicked (panic : Panic)
  /-- The mount was unmounted. -/
  | withdrawn (result : Except ReconcileFailure Unit)

/-- The end of a render, or an unmount, with the worlds before it and after it. -/
structure Repaint (κ ν σ : Type) where
  mount : MountId
  outcome : Repaint.Outcome
  before : World κ ν σ
  after : World κ ν σ

namespace World

/-- Make a mount and its effect, which has not run yet. -/
def addMount (world : World κ ν σ) (owner : ReactorId) (document : DocumentId)
    (container : HostId) (code : κ) : World κ ν σ :=
  let policy := ((world.reactor? owner).map (·.settings.keyPolicy)).getD .strict
  let mount := ⟨⟨world.cells.length⟩, document, container, policy, code, none⟩
  ({ world with mounts := world.mounts ++ [mount] }.addCell
    (.effect ⟨owner, .render ⟨world.mounts.length⟩, false, none, true, false, 0, 2⟩) .effect).2

/-- What comes of the end of a render closure. -/
def receive (world : World κ ν σ) (id : MountId) :
    Except Panic (Option Tree) → Repaint.Outcome × World κ ν σ
  | .error panic => (.panicked panic, world)
  | .ok tree =>
    match world.present id tree with
    | (.ok _, after) => (.shown tree, after)
    | (.error failure, after) => (.refused tree failure, after)

/-- The end of a render closure as one repaint. -/
def repaint (world : World κ ν σ) (id : MountId) (given : Except Panic (Option Tree)) :
    Repaint κ ν σ :=
  ⟨id, (world.receive id given).1, world, (world.receive id given).2⟩

/-- An unmount as one repaint. -/
def withdrawal (world : World κ ν σ) (id : MountId) : Repaint κ ν σ :=
  ⟨id, .withdrawn (world.withdraw id).1, world, (world.withdraw id).2⟩

end World

/-- Effects that render are marked as running. -/
def World.Works (world : World κ ν σ) (busy : NodeId → Prop) : Prop :=
  ∀ id, busy id → ∃ renderer, world.renderer? id = some renderer ∧ renderer.executing = true

variable [BEq ν]

/-- A moment of a run that set out from `start`: the world at that moment, and what mounts have done to
documents since, the latest first. The parameter says of which effects no run ends in between. -/
inductive Program.Moment (program : Program κ ν σ) (busy : NodeId → Prop) (start : World κ ν σ) :
    List (Repaint κ ν σ) → World κ ν σ → Prop
  | start : Moment program busy start [] start
  | aside {repaints world after} (before : Moment program busy start repaints world)
      (same : world.Offstage after) : Moment program busy start repaints after
  /-- A node is made that does not render. -/
  | newCell {repaints world cell} (before : Moment program busy start repaints world)
      (plain : cell.renderer? = none) :
      Moment program busy start repaints (world.addCell cell cell.kind).2
  | newDocument {repaints world} (before : Moment program busy start repaints world) :
      Moment program busy start repaints { world with documents := world.documents ++ [.empty] }
  | newMount {repaints world} (before : Moment program busy start repaints world) (owner : ReactorId)
      (document : DocumentId) (container : HostId) (code : κ) :
      Moment program busy start repaints (world.addMount owner document container code)
  /-- A run of an effect begins. -/
  | begin {repaints world id} (before : Moment program busy start repaints world)
      (ready : ∀ renderer, world.renderer? id = some renderer →
        renderer.active = true ∧ renderer.executing = false) :
      Moment program busy start repaints (world.modifyEffect id ({ · with executing := true }))
  | finish {repaints world id} (before : Moment program busy start repaints world)
      (free : ¬ busy id) :
      Moment program busy start repaints (world.modifyEffect id ({ · with executing := false }))
  | stop {repaints world} (before : Moment program busy start repaints world) (id : NodeId) :
      Moment program busy start repaints (world.modifyEffect id ({ · with active := false }))
  | takeCleanup {repaints world} (before : Moment program busy start repaints world) (id : NodeId) :
      Moment program busy start repaints (world.takeCleanup id).2
  /-- The render closure of a mount ends, while the effect of the mount runs. -/
  | rendered {earlier repaints opened world id effect renderer mount depth given}
      (entered : Moment program busy start earlier opened) (found : opened.mount? id = some mount)
      (ran : (program.render mount.code).run (activate program depth) opened = some (given, world))
      (before : Moment program busy start repaints world)
      (running : world.renderer? effect = some renderer) (here : renderer.mount = id)
      (executing : renderer.executing = true) (free : ¬ busy effect) :
      Moment program busy start (world.repaint id given :: repaints) (world.receive id given).2
  /-- The tree of a mount is taken off, whose effect was stopped. -/
  | withdrawn {repaints world id} (before : Moment program busy start repaints world)
      (stopped : ∀ mount, world.mount? id = some mount →
        ∀ renderer, world.renderer? mount.effect = some renderer → renderer.active = false) :
      Moment program busy start (world.withdrawal id :: repaints) (world.withdraw id).2

namespace Program.Moment

variable {program : Program κ ν σ} {busy : NodeId → Prop} {start world after : World κ ν σ}
  {repaints later : List (Repaint κ ν σ)}

/-- The moments of what comes after a moment are moments of the whole. -/
theorem trans (first : program.Moment busy start repaints world)
    (next : program.Moment busy world later after) : program.Moment busy start (later ++ repaints) after := by
  induction next with
  | start => exact first
  | aside _ same ih => exact ih.aside same
  | newCell _ plain ih => exact ih.newCell plain
  | newDocument _ ih => exact ih.newDocument
  | newMount _ owner document container code ih => exact ih.newMount owner document container code
  | begin _ ready ih => exact ih.begin ready
  | finish _ free ih => exact ih.finish free
  | stop _ id ih => exact ih.stop id
  | takeCleanup _ id ih => exact ih.takeCleanup id
  | rendered _ found ran _ running here executing free entered ih =>
    exact entered.rendered found ran ih running here executing free
  | withdrawn _ stopped ih => exact ih.withdrawn stopped

/-- Induction on the repaints of a run, where all that happens between two of them is one step. -/
@[elab_as_elim]
theorem recount
    {motive : ∀ repaints world, program.Moment busy start repaints world → Prop}
    (begun : motive [] start .start)
    (between : ∀ {repaints world after} (before : program.Moment busy start repaints world)
      (step : program.Moment busy world [] after), motive repaints world before →
        motive repaints after (before.trans step))
    (rendered : ∀ {earlier repaints opened world id effect renderer mount depth given}
      (entered : program.Moment busy start earlier opened) (found : opened.mount? id = some mount)
      (ran : (program.render mount.code).run (activate program depth) opened = some (given, world))
      (before : program.Moment busy start repaints world)
      (running : world.renderer? effect = some renderer) (here : renderer.mount = id)
      (executing : renderer.executing = true) (free : ¬ busy effect), motive repaints world before →
        motive (world.repaint id given :: repaints) (world.receive id given).2
          (entered.rendered found ran before running here executing free))
    (withdrawn : ∀ {repaints world id} (before : program.Moment busy start repaints world)
      (stopped : ∀ mount, world.mount? id = some mount →
        ∀ renderer, world.renderer? mount.effect = some renderer → renderer.active = false),
        motive repaints world before →
          motive (world.withdrawal id :: repaints) (world.withdraw id).2 (before.withdrawn stopped))
    {repaints world} (moment : program.Moment busy start repaints world) :
    motive repaints world moment := by
  induction moment with
  | start => exact begun
  | aside before same ih => exact between before (Moment.start.aside same) ih
  | newCell before plain ih => exact between before (Moment.start.newCell plain) ih
  | newDocument before ih => exact between before Moment.start.newDocument ih
  | newMount before owner document container code ih =>
    exact between before (Moment.start.newMount owner document container code) ih
  | begin before ready ih => exact between before (Moment.start.begin ready) ih
  | finish before free ih => exact between before (Moment.start.finish free) ih
  | stop before id ih => exact between before (Moment.start.stop id) ih
  | takeCleanup before id ih => exact between before (Moment.start.takeCleanup id) ih
  | rendered entered found ran before running here executing free _ ih =>
    exact rendered entered found ran before running here executing free ih
  | withdrawn before stopped ih => exact withdrawn before stopped ih

end Program.Moment

namespace World

variable {world : World κ ν σ}

omit [BEq ν] in
theorem repaints_receive (world : World κ ν σ) (id : MountId) (given : Except Panic (Option Tree)) :
    world.Repaints (world.receive id given).2 := by
  cases given with
  | error panic => exact .refl world
  | ok tree =>
    have presented := world.repaints_present id tree
    unfold receive
    dsimp only
    split
    next after result =>
      rw [result] at presented
      exact presented
    next failure after result =>
      rw [result] at presented
      exact presented

omit [BEq ν] in
theorem receive_ok (world : World κ ν σ) (id : MountId) (tree : Option Tree) :
    world.receive id (.ok tree) = match (world.present id tree).1 with
      | .ok _ => (.shown tree, (world.present id tree).2)
      | .error failure => (.refused tree failure, (world.present id tree).2) := by
  unfold receive
  dsimp only
  split
  next result => simp only [result]
  next result => simp only [result]

omit [BEq ν] in
theorem index_lt_of_renderer? {id : NodeId} {renderer : Renderer κ}
    (found : world.renderer? id = some renderer) : id.index < world.cells.length := by
  obtain ⟨_, present, _⟩ := Option.bind_eq_some_iff.mp found
  exact (List.getElem?_eq_some_iff.mp present).1

omit [BEq ν] in
theorem renderer?_addMount (world : World κ ν σ) (owner : ReactorId) (document : DocumentId)
    (container : HostId) (code : κ) (id : NodeId) :
    (world.addMount owner document container code).renderer? id =
      if id = ⟨world.cells.length⟩ then some ⟨⟨world.mounts.length⟩, true, false, none⟩
      else world.renderer? id :=
  renderer?_addCell _ _ _ id

end World

namespace Program.Moment

variable {program : Program κ ν σ} {busy : NodeId → Prop} {start world after : World κ ν σ}
  {repaints : List (Repaint κ ν σ)} {id : NodeId}

theorem size (moment : program.Moment busy start repaints world) :
    start.cells.length ≤ world.cells.length := by
  induction moment with
  | start => exact Nat.le_refl _
  | aside _ same ih => rwa [World.size_of_display same.display]
  | newCell _ _ ih | newMount _ _ _ _ _ ih =>
    exact Nat.le_trans ih (List.sublist_append_left _ _).length_le
  | newDocument _ ih => exact ih
  | begin _ _ ih | finish _ _ ih | stop _ _ ih | takeCleanup _ _ ih =>
    refine Nat.le_trans ih ?_
    show _ ≤ (List.modify _ _ _).length
    rw [List.length_modify]
  | rendered _ _ _ _ _ _ _ _ _ ih => rwa [(World.repaints_receive _ _ _).cells]
  | withdrawn _ _ ih => rwa [(World.repaints_withdraw _ _).cells]

/-- Mounts stay what they are, up to the trees that they keep. -/
theorem keeps_mount {id : MountId} {mount : Mount κ}
    (moment : program.Moment busy start repaints world) (found : start.mount? id = some mount) :
    ∃ kept, world.mount? id = some kept ∧ kept.bare = mount.bare := by
  have repainted : ∀ {world after : World κ ν σ}, world.Repaints after →
      (∃ kept, world.mount? id = some kept ∧ kept.bare = mount.bare) →
      ∃ kept, after.mount? id = some kept ∧ kept.bare = mount.bare := by
    rintro world after repaints ⟨kept, here, same⟩
    have still := repaints.mounts id
    rw [here] at still
    obtain ⟨kept', here', same'⟩ := Option.map_eq_some_iff.mp still
    exact ⟨kept', here', same'.trans same⟩
  induction moment with
  | start => exact ⟨mount, found, rfl⟩
  | aside _ same ih => rwa [World.mount?_of_display same.display]
  | newMount _ _ _ _ _ ih =>
    obtain ⟨kept, here, same⟩ := ih
    refine ⟨kept, Eq.trans ?_ here, same⟩
    exact List.getElem?_append_left (List.getElem?_eq_some_iff.mp here).1
  | newCell _ _ ih | newDocument _ ih | begin _ _ ih | finish _ _ ih | stop _ _ ih
  | takeCleanup _ _ ih => exact ih
  | rendered _ _ _ _ _ _ _ _ _ ih => exact repainted (World.repaints_receive _ _ _) ih
  | withdrawn _ _ ih => exact repainted (World.repaints_withdraw _ _) ih

/-- Which effects render, and what, stays as it is. -/
theorem renderer?_map (moment : program.Moment busy start repaints world)
    (known : id.index < start.cells.length) :
    (world.renderer? id).map Renderer.mount = (start.renderer? id).map Renderer.mount := by
  have fresh : ∀ {world repaints}, program.Moment busy start repaints world →
      id ≠ ⟨world.cells.length⟩ := by
    rintro world repaints moment rfl
    exact absurd (Nat.lt_of_lt_of_le known moment.size) (Nat.lt_irrefl _)
  have marked : ∀ {world : World κ ν σ} {other : NodeId} {seen : Renderer κ → Renderer κ},
      (∀ renderer, (seen renderer).mount = renderer.mount) →
      (if id = other then (world.renderer? other).map seen else world.renderer? id).map
        Renderer.mount = (world.renderer? id).map Renderer.mount := by
    intro world other seen kept
    split
    next same =>
      subst same
      cases world.renderer? id with
      | none => rfl
      | some renderer => exact congrArg some (kept renderer)
    next => rfl
  induction moment with
  | start => rfl
  | aside _ same ih => rw [World.renderer?_of_display same.display, ih]
  | newCell before plain ih => rw [World.renderer?_addCell, if_neg (fresh before), ih]
  | newMount before _ _ _ _ ih => rw [World.renderer?_addMount, if_neg (fresh before), ih]
  | newDocument _ ih => exact ih
  | begin _ _ ih | finish _ _ ih =>
    rw [World.renderer?_executing]
    refine (marked ?_).trans ih
    exact fun _ => rfl
  | stop _ _ ih =>
    rw [World.renderer?_active]
    refine (marked ?_).trans ih
    exact fun _ => rfl
  | takeCleanup _ _ ih =>
    rw [World.renderer?_takeCleanup]
    refine (marked ?_).trans ih
    exact fun _ => rfl
  | rendered _ _ _ _ _ _ _ _ _ ih =>
    rw [World.renderer?_of_cells (World.repaints_receive _ _ _).cells, ih]
  | withdrawn _ _ ih => rw [World.renderer?_of_cells (World.repaints_withdraw _ _).cells, ih]

/-- What holds of a renderer goes on to hold if what may happen to it leaves it true. -/
theorem keeps_renderer (moment : program.Moment busy start repaints world)
    {renderer : Renderer κ} (found : start.renderer? id = some renderer) {holds : Renderer κ → Prop}
    (base : holds renderer)
    (begins : ∀ renderer, holds renderer → renderer.active = true → renderer.executing = false →
      holds { renderer with executing := true })
    (finishes : ¬ busy id → ∀ renderer, holds renderer → holds { renderer with executing := false })
    (stops : ∀ renderer, holds renderer → holds { renderer with active := false })
    (taken : ∀ renderer, holds renderer → holds { renderer with cleanup := none }) :
    ∃ renderer, world.renderer? id = some renderer ∧ holds renderer := by
  -- A step at some effect changes the renderer if it is the one, and leaves it alone otherwise.
  have marked : ∀ {world : World κ ν σ} {other : NodeId} {seen : Renderer κ → Renderer κ},
      (∃ renderer, world.renderer? id = some renderer ∧ holds renderer) →
      (∀ renderer, id = other → world.renderer? id = some renderer → holds renderer →
        holds (seen renderer)) →
      ∃ renderer, (if id = other then (world.renderer? other).map seen else world.renderer? id) =
        some renderer ∧ holds renderer := by
    rintro world other seen ⟨renderer, here, held⟩ kept
    split
    next same =>
      subst same
      exact ⟨seen renderer, by rw [here]; rfl, kept renderer rfl here held⟩
    next => exact ⟨renderer, here, held⟩
  have added : ∀ {world after : World κ ν σ} {made : Option (Renderer κ)},
      after.renderer? id = (if id = ⟨world.cells.length⟩ then made else world.renderer? id) →
      (∃ renderer, world.renderer? id = some renderer ∧ holds renderer) →
      ∃ renderer, after.renderer? id = some renderer ∧ holds renderer := by
    rintro world after made same ⟨renderer, here, held⟩
    refine ⟨renderer, same.trans (Eq.trans (if_neg ?_) here), held⟩
    rintro rfl
    exact Nat.lt_irrefl _ (World.index_lt_of_renderer? here)
  induction moment with
  | start => exact ⟨renderer, found, base⟩
  | aside _ same ih => rwa [World.renderer?_of_display same.display]
  | newCell _ _ ih => exact added (World.renderer?_addCell _ _ _ id) ih
  | newMount _ _ _ _ _ ih => exact added (World.renderer?_addMount _ _ _ _ _ id) ih
  | newDocument _ ih => exact ih
  | begin _ ready ih =>
    rw [World.renderer?_executing]
    exact marked ih fun renderer same here held =>
      begins renderer held (ready renderer (same ▸ here)).1 (ready renderer (same ▸ here)).2
  | finish _ free ih =>
    rw [World.renderer?_executing]
    exact marked ih fun renderer same _ held => finishes (same ▸ free) renderer held
  | stop _ _ ih =>
    rw [World.renderer?_active]
    exact marked ih fun renderer _ _ held => stops renderer held
  | takeCleanup _ _ ih =>
    rw [World.renderer?_takeCleanup]
    exact marked ih fun renderer _ _ held => taken renderer held
  | rendered _ _ _ _ _ _ _ _ _ ih =>
    rwa [World.renderer?_of_cells (World.repaints_receive _ _ _).cells]
  | withdrawn _ _ ih => rwa [World.renderer?_of_cells (World.repaints_withdraw _ _).cells]

/-- What runs all the time is marked as running all the time. -/
theorem works (moment : program.Moment busy start repaints world) (works : start.Works busy) :
    world.Works busy := by
  intro id member
  obtain ⟨renderer, here, executing⟩ := works id member
  exact moment.keeps_renderer here executing (fun _ _ _ _ => rfl) (fun free => absurd member free)
    (fun _ held => held) fun _ held => held

/-- An effect that was stopped is not active again, and if it is idle, it does not run again. -/
theorem rests (moment : program.Moment busy start repaints world) {renderer : Renderer κ}
    (found : start.renderer? id = some renderer) (ended : renderer.active = false) :
    ∃ renderer', world.renderer? id = some renderer' ∧ renderer'.active = false ∧
      (renderer.executing = false → renderer'.executing = false) := by
  refine moment.keeps_renderer found ?_ ?_ ?_ ?_ ?_
  · exact ⟨ended, fun idle => idle⟩
  · intro renderer' held active
    cases held.1.symm.trans active
  · exact fun _ _ held => ⟨held.1, fun _ => rfl⟩
  · exact fun _ held => ⟨rfl, held.2⟩
  · exact fun _ held => held

/-- From the moment on at which it is stopped, an effect is not active. -/
theorem ended_of_stop
    (moment : program.Moment busy (world.modifyEffect id ({ · with active := false })) repaints after)
    (known : id.index < world.cells.length) :
    ∀ renderer, after.renderer? id = some renderer → renderer.active = false := by
  intro renderer here
  cases was : (world.modifyEffect id ({ · with active := false })).renderer? id with
  | none =>
    have known' : id.index < (world.modifyEffect id ({ · with active := false })).cells.length := by
      show _ < (List.modify _ _ _).length
      rwa [List.length_modify]
    have kept := moment.renderer?_map known'
    rw [was, here] at kept
    cases kept
  | some stopped =>
    have ended : stopped.active = false := by
      rw [World.renderer?_active, if_pos rfl] at was
      obtain ⟨_, _, rfl⟩ := Option.map_eq_some_iff.mp was
      rfl
    obtain ⟨renderer', here', ended', _⟩ := moment.rests was ended
    cases here.symm.trans here'
    exact ended'

end Program.Moment

end ReactiveTree
