import ReactiveTree.Reactive.Handles

/-! # Runs

A run takes a world to a result and a world. The result may be a panic, after which the world still
counts. A run that nests computations too deeply has no result at all.
-/

namespace ReactiveTree

/-- A computation on a world: no result, or a value or a panic with the world afterwards. -/
def Run (κ ν σ α : Type) : Type :=
  World κ ν σ → Option (Except Panic α × World κ ν σ)

namespace Run

variable {κ ν σ α β : Type}

protected def pure (value : α) : Run κ ν σ α :=
  fun world => some (.ok value, world)

protected def bind (first : Run κ ν σ α) (next : α → Run κ ν σ β) : Run κ ν σ β :=
  fun world =>
    match first world with
    | none => none
    | some (.error panic, world) => some (.error panic, world)
    | some (.ok value, world) => next value world

instance : Monad (Run κ ν σ) where
  pure := Run.pure
  bind := Run.bind

/-- Fail with a panic. -/
def raise (panic : Panic) : Run κ ν σ α :=
  fun world => some (.error panic, world)

/-- Go on with a panic as a value. -/
def attempt (body : Run κ ν σ α) : Run κ ν σ (Except Panic α) :=
  fun world =>
    match body world with
    | none => none
    | some (result, world) => some (.ok result, world)

/-- Nothing comes of it. -/
def stuck : Run κ ν σ α :=
  fun _ => none

/-- Look at the world. -/
def world : Run κ ν σ (World κ ν σ) :=
  fun world => some (.ok world, world)

/-- Change the world. -/
def modify (change : World κ ν σ → World κ ν σ) : Run κ ν σ Unit :=
  fun world => some (.ok (), change world)

/-- Change the world by a function that also gives a value. -/
def update (change : World κ ν σ → α × World κ ν σ) : Run κ ν σ α :=
  fun world =>
    let (value, world) := change world
    some (.ok value, world)

/-- A panic or a value. -/
def ofResult : Except Panic α → Run κ ν σ α
  | .ok value => Run.pure value
  | .error panic => raise panic

/-- Run a body, then something more whether it panicked or not. -/
def thenAlways (body : Run κ ν σ α) (after : Run κ ν σ Unit) : Run κ ν σ α :=
  body.attempt.bind fun result => after.bind fun _ => ofResult result

/-- Hold a handle while a body runs. -/
def holding (handle : Handle) (body : Run κ ν σ α) : Run κ ν σ α :=
  (modify (·.hold handle)).bind fun _ => body.thenAlways (modify (·.drop handle))

/-- Run something for each member of a list. -/
def forEach (members : List α) (body : α → Run κ ν σ Unit) : Run κ ν σ Unit :=
  match members with
  | [] => Run.pure ()
  | member :: rest => (body member).bind fun _ => forEach rest body

instance : LawfulMonad (Run κ ν σ) :=
  LawfulMonad.mk' _
    (fun body => by
      funext world
      show Run.bind body (fun value => Run.pure value) world = body world
      unfold Run.bind
      split
      next stuck => exact stuck.symm
      next panicked => exact panicked.symm
      next returned => exact returned.symm)
    (fun _ _ => rfl)
    (fun first next last => by
      funext world
      show Run.bind (Run.bind first next) last world =
        Run.bind first (fun value => Run.bind (next value) last) world
      unfold Run.bind
      cases first world with
      | none => rfl
      | some outcome => rcases outcome with ⟨_ | _, _⟩ <;> rfl)

end Run

end ReactiveTree
