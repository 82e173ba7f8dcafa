import ReactiveTree.Reactive.Run

/-! # How runs compose

What a compound run gives, from what its parts give. Every construct of `Run` has one equation for
each way in which its first part can end.
-/

namespace ReactiveTree.Run

variable {κ ν σ α β : Type} {world after : World κ ν σ}

theorem bind_of_ok {first : Run κ ν σ α} {value : α}
    (ran : first world = some (.ok value, after)) (next : α → Run κ ν σ β) :
    (first >>= next) world = next value after := by
  show Run.bind first next world = next value after
  simp only [Run.bind, ran]

theorem bind_of_error {first : Run κ ν σ α} {panic : Panic}
    (ran : first world = some (.error panic, after)) (next : α → Run κ ν σ β) :
    (first >>= next) world = some (.error panic, after) := by
  show Run.bind first next world = some (.error panic, after)
  simp only [Run.bind, ran]

theorem bind_of_none {first : Run κ ν σ α} (ran : first world = none) (next : α → Run κ ν σ β) :
    (first >>= next) world = none := by
  show Run.bind first next world = none
  simp only [Run.bind, ran]

/-- A compound run that ends stopped in its first part or went through a value of it. -/
theorem of_bind_eq_some {first : Run κ ν σ α} {next : α → Run κ ν σ β} {result : Except Panic β}
    (ran : (first >>= next) world = some (result, after)) :
    (∃ panic, first world = some (.error panic, after) ∧ result = .error panic) ∨
      ∃ value middle, first world = some (.ok value, middle) ∧
        next value middle = some (result, after) := by
  have ran' : Run.bind first next world = some (result, after) := ran
  unfold Run.bind at ran'
  split at ran'
  next => cases ran'
  next panic middle stopped =>
    cases ran'
    exact Or.inl ⟨panic, stopped, rfl⟩
  next value middle ran => exact Or.inr ⟨value, middle, ran, ran'⟩

/-- A compound run that succeeds went through a value of its first part. -/
theorem of_bind_eq_ok {first : Run κ ν σ α} {next : α → Run κ ν σ β} {result : β}
    (ran : (first >>= next) world = some (.ok result, after)) :
    ∃ value middle, first world = some (.ok value, middle) ∧
      next value middle = some (.ok result, after) := by
  rcases of_bind_eq_some ran with ⟨panic, _, failed⟩ | through
  · cases failed
  · exact through

@[simp] theorem pure_apply (value : α) (world : World κ ν σ) :
    (pure value : Run κ ν σ α) world = some (.ok value, world) :=
  rfl

@[simp] theorem world_bind (next : World κ ν σ → Run κ ν σ β) (world : World κ ν σ) :
    (Run.world >>= next) world = next world world :=
  rfl

@[simp] theorem modify_bind (change : World κ ν σ → World κ ν σ) (next : Unit → Run κ ν σ β)
    (world : World κ ν σ) : (Run.modify change >>= next) world = next () (change world) :=
  rfl

@[simp] theorem update_bind (change : World κ ν σ → α × World κ ν σ) (next : α → Run κ ν σ β)
    (world : World κ ν σ) :
    (Run.update change >>= next) world = next (change world).1 (change world).2 :=
  rfl

@[simp] theorem pure_bind_apply (value : α) (next : α → Run κ ν σ β) (world : World κ ν σ) :
    ((pure value : Run κ ν σ α) >>= next) world = next value world :=
  rfl

theorem attempt_of {body : Run κ ν σ α} {result : Except Panic α}
    (ran : body world = some (result, after)) :
    body.attempt world = some (.ok result, after) := by
  simp only [attempt, ran]

theorem attempt_of_none {body : Run κ ν σ α} (ran : body world = none) :
    body.attempt world = none := by
  simp only [attempt, ran]

theorem ofResult_apply (result : Except Panic α) (world : World κ ν σ) :
    ofResult result world = some (result, world) := by
  cases result <;> rfl

/-- A change of the world that follows a body in any case. -/
theorem thenAlways_modify_of {body : Run κ ν σ α} {result : Except Panic α}
    (ran : body world = some (result, after)) (change : World κ ν σ → World κ ν σ) :
    body.thenAlways (Run.modify change) world = some (result, change after) := by
  show (body.attempt >>= fun result => Run.modify change >>= fun _ => ofResult result) world = _
  rw [bind_of_ok (attempt_of ran), modify_bind, ofResult_apply]

theorem thenAlways_of {body : Run κ ν σ α} {result : Except Panic α} {last : World κ ν σ}
    {finish : Run κ ν σ Unit} (ran : body world = some (result, after))
    (finished : finish after = some (.ok (), last)) :
    body.thenAlways finish world = some (result, last) := by
  show (body.attempt >>= fun result => finish >>= fun _ => ofResult result) world = _
  rw [bind_of_ok (attempt_of ran), bind_of_ok finished, ofResult_apply]

theorem thenAlways_of_none {body : Run κ ν σ α} (ran : body world = none)
    (finish : Run κ ν σ Unit) : body.thenAlways finish world = none :=
  bind_of_none (attempt_of_none ran) _

/-- What comes after a body comes after it in any case. -/
theorem of_thenAlways {body : Run κ ν σ α} {finish : Run κ ν σ Unit} {result : Except Panic α}
    (ran : body.thenAlways finish world = some (result, after)) : ∃ given inner finished,
      body world = some (given, inner) ∧ finish inner = some (finished, after) ∧
        (finished = .ok () → result = given) := by
  have ran' : (body.attempt >>= fun result => finish >>= fun _ => ofResult result) world =
      some (result, after) := ran
  cases inside : body world with
  | none => cases (bind_of_none (attempt_of_none inside) _).symm.trans ran'
  | some outcome =>
    obtain ⟨given, inner⟩ := outcome
    rw [bind_of_ok (attempt_of inside)] at ran'
    rcases of_bind_eq_some ran' with ⟨panic, stopped, _⟩ | ⟨_, last, finished, same⟩
    · exact ⟨given, inner, _, rfl, stopped, nofun⟩
    · rw [ofResult_apply] at same
      cases same
      exact ⟨_, inner, _, rfl, finished, fun _ => rfl⟩

theorem holding_of {body : Run κ ν σ α} {result : Except Panic α} {handle : Handle}
    (ran : body (world.hold handle) = some (result, after)) :
    Run.holding handle body world = some (result, after.drop handle) :=
  thenAlways_modify_of ran _

theorem holding_of_none {body : Run κ ν σ α} {handle : Handle}
    (ran : body (world.hold handle) = none) : Run.holding handle body world = none :=
  thenAlways_of_none ran _

end ReactiveTree.Run
