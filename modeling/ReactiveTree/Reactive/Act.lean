import ReactiveTree.Reactive.Handles

/-! # Programs

What a closure does is an act: it calls on the library, looks at the world, raises a panic or
recovers from one, and opens batches and untracked blocks around other acts. Acts are well-founded,
so a closure by itself always ends. A program gives the act of each code, by what the code is for.
-/

namespace ReactiveTree

/-- A call on the library. -/
inductive Request (κ ν σ : Type) where
  | newReactor (settings : Settings)
  | newSignal (reactor : ReactorId) (value : ν)
  | newComputed (reactor : ReactorId) (body : κ)
  /-- An eager effect runs at once. -/
  | newEffect (reactor : ReactorId) (body : κ) (eager : Bool)
  /-- Call back with every new value of a signal. -/
  | subscribe (signal : NodeId) (callback : κ)
  | newDocument
  /-- Keep a rendered tree up to date in a container. -/
  | mount (reactor : ReactorId) (document : DocumentId) (container : HostId) (render : κ)
  | unmount (mount : MountId)
  /-- Read a signal or a computed, tracking the read. -/
  | get (node : NodeId)
  /-- Read without tracking. -/
  | peek (node : NodeId)
  /-- Read a computed, with a failure as a value. -/
  | tryGet (computed : NodeId)
  /-- The value that a signal holds, whether it was destroyed or not. -/
  | stored (signal : NodeId)
  | set (signal : NodeId) (value : ν)
  | label (node : NodeId) (text : String)
  | execute (effect : NodeId)
  | stop (effect : NodeId)
  | destroy (signal : NodeId)
  /-- Stop every effect of a reactor. -/
  | dispose (reactor : ReactorId)
  /-- Call an event handler. -/
  | invoke (handler : κ)
  | hold (handle : Handle)
  | drop (handle : Handle)
  | note (value : ν)
  /-- Look at everything. -/
  | look
  /-- Replace the program's own state. -/
  | store (user : σ)

/-- What the library answers to a call. -/
@[reducible] def Request.Reply {κ ν σ : Type} : Request κ ν σ → Type
  | .newReactor _ => ReactorId
  | .newSignal .. => NodeId
  | .newComputed .. => NodeId
  | .newEffect .. => NodeId
  | .subscribe .. => NodeId
  | .newDocument => DocumentId
  | .mount .. => MountId
  | .unmount _ => Except ReconcileFailure Unit
  | .get _ => ν
  | .peek _ => ν
  | .tryGet _ => Except ReactiveFailure ν
  | .stored _ => Option ν
  | .look => World κ ν σ
  | _ => Unit

/-- A block that is opened and closed around an act. -/
inductive Scope where
  /-- Notifications wait until the outermost batch closes. -/
  | batch (reactor : ReactorId)
  /-- Reads are not tracked. -/
  | untracked (reactor : ReactorId)
  deriving DecidableEq, Repr

/-- What a closure does, with a result of type `α`. -/
inductive Act (κ ν σ : Type) : Type → Type 1 where
  | pure {α : Type} (value : α) : Act κ ν σ α
  | raise {α : Type} (panic : Panic) : Act κ ν σ α
  | bind {α β : Type} (first : Act κ ν σ α) (next : α → Act κ ν σ β) : Act κ ν σ β
  | call (request : Request κ ν σ) : Act κ ν σ request.Reply
  | within {α : Type} (scope : Scope) (body : Act κ ν σ α) : Act κ ν σ α
  /-- Go on with a panic as a value. -/
  | attempt {α : Type} (body : Act κ ν σ α) : Act κ ν σ (Except Panic α)

instance {κ ν σ : Type} : Monad (Act κ ν σ) where
  pure := .pure
  bind := .bind

/-- The acts of a program's codes. -/
structure Program (κ ν σ : Type) where
  /-- The value of a computed. -/
  compute : κ → Act κ ν σ ν
  /-- The body of an effect: a failure, or perhaps a cleanup. -/
  effect : κ → Act κ ν σ (Except String (Option κ))
  cleanup : κ → Act κ ν σ Unit
  /-- What a subscription does with a value. -/
  callback : κ → ν → Act κ ν σ Unit
  /-- The tree of a mount. -/
  render : κ → Act κ ν σ (Option Tree)
  /-- What an event handler does. -/
  handler : κ → Act κ ν σ Unit

end ReactiveTree
