import ReactiveTree.Reactive.Engine
import ReactiveTree.Script.Template

/-! # Running scripts

The codes of a script's closures have their acts here, and a session runs one expression after
another. A panic ends its step and leaves the world as it then is.
-/

namespace ReactiveTree.Script

namespace Code

def closure : Code → Closure
  | .body closure => closure
  | .effect closure _ => closure
  | .callback _ closure => closure
  | .cleanups _ => default

def value (code : Code) : Action Value :=
  code.closure.value

/-- Run an effect body and hand back what it registered. -/
def runEffect : Code → Action (Except String (Option Code))
  | .effect closure output => do
    Action.setState fun state => { state with running := .empty :: state.running }
    let result ← Act.attempt (eval closure.form (.inEffect closure.locals))
    let registered := (← Action.state).running.headD .empty
    Action.setState fun state => { state with running := state.running.tail }
    match result with
    | .ok _ => return registered.finish output
    | .error panic => Act.raise panic
  | _ => pure (.ok none)

/-- Run cleanups in the order in which they were registered. -/
def runCleanup : Code → Action Unit
  | .cleanups closures => closures.forM fun closure => do
    let _ ← closure.value
  | _ => pure ()

/-- Run a callback with a value. -/
def runCallback (code : Code) (value : Value) : Action Unit :=
  match code with
  | .callback name closure => do
    let _ ← eval closure.form (.outside ((name, value) :: closure.locals))
  | _ => pure ()

/-- The first tree of a template. -/
def render (code : Code) : Action (Option Tree) := do
  return (← expand code.closure.form (.outside code.closure.locals)).head?

end Code

/-- The acts of a script's closures. -/
def program : Program Code Value State where
  compute := Code.value
  effect := Code.runEffect
  cleanup := Code.runCleanup
  callback := Code.runCallback
  render := Code.render
  handler code := do
    let _ ← code.value

/-- How deep closures may nest. -/
def depthLimit : Nat :=
  100000

/-- The world of a script, with its main reactor. -/
def start (settings : Settings) : World Code Value State :=
  { (World.initial State.empty : World Code Value State) with
    reactors := [.new settings]
    user := { State.empty with names := [("main", .reactor ⟨0⟩)] } }

/-- Run one step. -/
def step (form : Form) : Run Code Value State Value :=
  program.run depthLimit (eval form (.outside []))

end ReactiveTree.Script
