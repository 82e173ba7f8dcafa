import ReactiveTree.Reactive.Engine

/-! # What a world displays

Documents are changed by mounts alone, and a mount changes its document only where its effect renders
or where it is unmounted. The display of a world is what these steps depend on: the mounts, the
documents, and what the effects that render are doing. Everything else that the library does to a
world leaves the display alone.
-/

namespace ReactiveTree

variable {κ ν σ : Type}

/-- An effect that renders a mount. -/
structure Renderer (κ : Type) where
  mount : MountId
  active : Bool
  executing : Bool
  cleanup : Option κ
  deriving DecidableEq, Repr

def Cell.renderer? : Cell κ ν → Option (Renderer κ)
  | .effect ⟨_, .render mount, _, cleanup, active, executing, _, _⟩ =>
    some ⟨mount, active, executing, cleanup⟩
  | _ => none

/-- What decides which documents may change, and how. -/
structure Display (κ : Type) where
  mounts : List (Mount κ)
  documents : List Document
  /-- How many nodes have been made. -/
  size : Nat
  renderer? : NodeId → Option (Renderer κ)

@[simp] theorem Cell.renderer?_withHolders (cell : Cell κ ν) (holders : Nat) :
    (cell.withHolders holders).renderer? = cell.renderer? := by
  cases cell with
  | effect effect => cases effect with | mk _ body => cases body <;> rfl
  | _ => rfl

namespace World

def renderer? (world : World κ ν σ) (id : NodeId) : Option (Renderer κ) :=
  (world.cell? id).bind Cell.renderer?

def display (world : World κ ν σ) : Display κ :=
  ⟨world.mounts, world.documents, world.cells.length, world.renderer?⟩

variable {world after : World κ ν σ} {id : NodeId} {owner : ReactorId}

theorem mount?_of_display (same : after.display = world.display) (id : MountId) :
    after.mount? id = world.mount? id := by
  unfold mount?
  rw [show after.mounts = world.mounts from congrArg Display.mounts same]

theorem document?_of_display (same : after.display = world.display) (id : DocumentId) :
    after.document? id = world.document? id := by
  unfold document?
  rw [show after.documents = world.documents from congrArg Display.documents same]

theorem renderer?_of_display (same : after.display = world.display) (id : NodeId) :
    after.renderer? id = world.renderer? id :=
  congrFun (congrArg Display.renderer? same) id

theorem renderer?_of_effect {effect : Effect κ} (found : world.effect? id = some effect) :
    world.renderer? id = (Cell.effect effect : Cell κ ν).renderer? := by
  unfold renderer?
  unfold effect? at found
  split at found
  next here =>
    cases found
    rw [here]
    rfl
  next => cases found

/-- An effect that does not render is no renderer. -/
theorem renderer?_of_body {effect : Effect κ} (found : world.effect? id = some effect)
    (other : ∀ mount, effect.body ≠ .render mount) : world.renderer? id = none := by
  rw [renderer?_of_effect found]
  cases effect with
  | mk _ body =>
    cases body with
    | render mount => exact absurd rfl (other mount)
    | _ => rfl

theorem renderer?_of_render {effect : Effect κ} (found : world.effect? id = some effect)
    {mount : MountId} (renders : effect.body = .render mount) :
    world.renderer? id = some ⟨mount, effect.active, effect.executing, effect.cleanup⟩ := by
  rw [renderer?_of_effect found]
  cases effect
  cases renders
  rfl

theorem effect_of_renderer? {renderer : Renderer κ} (found : world.renderer? id = some renderer) :
    ∃ effect, world.effect? id = some effect ∧ effect.body = .render renderer.mount ∧
      effect.active = renderer.active ∧ effect.executing = renderer.executing ∧
        effect.cleanup = renderer.cleanup := by
  unfold renderer? at found
  obtain ⟨cell, here, is⟩ := Option.bind_eq_some_iff.mp found
  cases cell with
  | effect effect =>
    have present : world.effect? id = some effect := by
      unfold effect?
      rw [here]
    cases effect with
    | mk _ body =>
      cases body with
      | render mount =>
        cases is
        exact ⟨_, present, rfl, rfl, rfl, rfl⟩
      | _ => cases is
  | _ => cases is

theorem size_of_display (same : after.display = world.display) :
    after.cells.length = world.cells.length :=
  congrArg Display.size same

theorem renderer?_of_cells (cells : after.cells = world.cells) (id : NodeId) :
    after.renderer? id = world.renderer? id := by
  unfold renderer? cell?
  rw [cells]

/-- A change of an effect, seen as one of a renderer. -/
theorem renderer?_modifyEffect (world : World κ ν σ) (id : NodeId) {change : Effect κ → Effect κ}
    {seen : Renderer κ → Renderer κ} (follows : ∀ effect, (Cell.effect (change effect) : Cell κ ν).renderer? =
      (Cell.effect effect : Cell κ ν).renderer?.map seen) (other : NodeId) :
    (world.modifyEffect id change).renderer? other =
      if other = id then (world.renderer? id).map seen else world.renderer? other := by
  unfold renderer? modifyEffect
  rw [cell?_modifyCell]
  split
  next =>
    cases world.cell? id with
    | none => rfl
    | some cell =>
      cases cell with
      | effect effect => exact follows effect
      | _ => rfl
  next => rfl

theorem renderer?_executing (world : World κ ν σ) (id : NodeId) (executing : Bool) (other : NodeId) :
    (world.modifyEffect id ({ · with executing })).renderer? other =
      if other = id then (world.renderer? id).map ({ · with executing })
      else world.renderer? other :=
  world.renderer?_modifyEffect id (fun effect => by
    cases effect with
    | mk _ body => cases body <;> rfl) other

theorem renderer?_active (world : World κ ν σ) (id : NodeId) (active : Bool) (other : NodeId) :
    (world.modifyEffect id ({ · with active })).renderer? other =
      if other = id then (world.renderer? id).map ({ · with active })
      else world.renderer? other :=
  world.renderer?_modifyEffect id (fun effect => by
    cases effect with
    | mk _ body => cases body <;> rfl) other

theorem renderer?_takeCleanup (world : World κ ν σ) (id other : NodeId) :
    (world.takeCleanup id).2.renderer? other =
      if other = id then (world.renderer? id).map ({ · with cleanup := none })
      else world.renderer? other :=
  world.renderer?_modifyEffect id (fun effect => by
    cases effect with
    | mk _ body => cases body <;> rfl) other

/-- A new cell takes the next number. -/
theorem renderer?_addCell (world : World κ ν σ) (cell : Cell κ ν) (kind : NodeKind) (id : NodeId) :
    (world.addCell cell kind).2.renderer? id =
      if id = ⟨world.cells.length⟩ then cell.renderer? else world.renderer? id := by
  show ((world.cells ++ [cell])[id.index]?).bind Cell.renderer? = _
  split
  next last =>
    rw [last, List.getElem?_concat_length]
    rfl
  next other =>
    have apart : id.index ≠ world.cells.length := fun same => other (NodeId.ext same)
    unfold renderer? cell?
    by_cases inside : id.index < world.cells.length
    · rw [List.getElem?_append_left inside]
    · rw [List.getElem?_eq_none (by rw [List.length_append, List.length_singleton]; omega),
        List.getElem?_eq_none (by omega)]

/-- The display tells nothing of reactors, of the past, or of the program's own state. -/
theorem display_of_cells (mounts : after.mounts = world.mounts)
    (documents : after.documents = world.documents) (cells : after.cells = world.cells) :
    after.display = world.display := by
  unfold display renderer? cell?
  rw [mounts, documents, cells]

theorem display_modifyCell (world : World κ ν σ) (id : NodeId) {change : Cell κ ν → Cell κ ν}
    (kept : ∀ cell, (change cell).renderer? = cell.renderer?) :
    (world.modifyCell id change).display = world.display := by
  have same : (world.modifyCell id change).renderer? = world.renderer? := by
    funext other
    unfold renderer?
    rw [cell?_modifyCell]
    split
    next here =>
      subst here
      cases world.cell? other with
      | none => rfl
      | some cell => exact kept cell
    next => rfl
  show Display.mk world.mounts world.documents (world.cells.modify id.index change).length _ = _
  rw [List.length_modify, same]
  rfl

/-- A change of an effect that concerns none of what a renderer shows. -/
theorem display_modifyEffect (world : World κ ν σ) (id : NodeId) {change : Effect κ → Effect κ}
    (kept : ∀ effect, (Cell.effect (change effect) : Cell κ ν).renderer? =
      (Cell.effect effect : Cell κ ν).renderer?) :
    (world.modifyEffect id change).display = world.display :=
  world.display_modifyCell id fun cell => by
    cases cell with
    | effect effect => exact kept effect
    | _ => rfl

/-- A change of an effect that is no renderer. -/
theorem display_modifyEffect_of_none (absent : world.renderer? id = none)
    {change : Effect κ → Effect κ} (body : ∀ effect, (change effect).body = effect.body) :
    (world.modifyEffect id change).display = world.display := by
  have same : (world.modifyEffect id change).renderer? = world.renderer? := by
    funext other
    unfold renderer? modifyEffect
    rw [cell?_modifyCell]
    split
    next here =>
      subst here
      unfold renderer? at absent
      cases found : world.cell? other with
      | none => rfl
      | some cell =>
        rw [found] at absent
        cases cell with
        | effect effect =>
          have kept := body effect
          cases effect with
          | mk _ own =>
            cases own with
            | render => cases absent
            | _ =>
              show Cell.renderer? (.effect (change _)) = none
              revert kept
              generalize change _ = changed
              cases changed
              rintro ⟨⟩
              rfl
        | _ => rfl
    next => rfl
  show Display.mk world.mounts world.documents (world.cells.modify id.index _).length _ = _
  rw [List.length_modify, same]
  rfl

theorem display_unregister (world : World κ ν σ) (id : NodeId) :
    (world.unregister id).2.display = world.display := by
  unfold unregister
  split <;> rfl

end World

end ReactiveTree
