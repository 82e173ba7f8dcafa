import ReactiveTree.Script.Call
import ReactiveTree.Settings.Reader

/-! # Making and ending handles

A handle is made first and then takes its name; what had the name before is dropped after that.
-/

namespace ReactiveTree.Script

namespace Operator

variable (call : Call)

def newReactor : Action Value := do
  let name ← call.name 0
  let settings ←
    match ← call.value 1 with
    | .null => pure {}
    | document =>
      match Settings.read document.display with
      | .ok settings => pure settings
      | .error _ => Action.fail "ConfigError"
  Action.assign name (.reactor (← Act.call (.newReactor settings)))
  return .null

def newEffect (eager : Bool) : Action Value := do
  let name ← call.name 0
  create name (call.reactorName 3) fun reactor => do
    let code := Code.effect (call.closure 1) (.ofWord (call.word 2))
    return .effect (← Act.call (.newEffect reactor code eager))

def subscribe : Action Value := do
  let name ← call.name 0
  withSignal (← call.name 1) fun signal => do
    let code := Code.callback (call.word 2) (call.closure 3)
    Action.assign name (.subscription (← Act.call (.subscribe signal code)))
    return .null

/-- One handle more of what a name stands for, under another name. -/
def duplicate (name source : String) (choose : Named → Option Named) : Action Value :=
  Action.withNamed source fun named =>
    match choose named with
    | none => Action.wrongKind source
    | some copy => do
      match copy.handle? with
      | some handle => Act.call (.hold handle)
      | none => pure ()
      Action.assign name copy
      return .null

/-- What can be read reactively. -/
def reactiveOf : Named → Option Named
  | .signal id => some (.reactive id true)
  | .computed id => some (.reactive id false)
  | .reactive id isSignal => some (.reactive id isSignal)
  | _ => none

def label : Action Value := do
  let name ← call.name 0
  let text ← call.name 1
  Action.withNamed name fun named => do
    match named with
    | .signal id => Act.call (.label id text)
    | .computed id => Act.call (.label id text)
    | _ => Action.wrongKind name
    return .null

def making? (operator : String) : Option (Action Value) :=
  match operator with
  | "runtime" => some (newReactor call)
  | "signal" => some do
    let name ← call.name 0
    let value ← call.value 1
    create name (call.reactorName 2) fun reactor => do
      return .signal (← Act.call (.newSignal reactor value))
  | "computed" => some do
    let name ← call.name 0
    create name (call.reactorName 2) fun reactor => do
      return .computed (← Act.call (.newComputed reactor (.body (call.closure 1))))
  | "effect" => some (newEffect call true)
  | "lazy" => some (newEffect call false)
  | "subscribe" => some (subscribe call)
  | "reactive" => some do
    let name ← call.name 0
    duplicate name (← call.name 1) reactiveOf
  | "clone" => some do
    let name ← call.name 0
    duplicate name (← call.name 1) some
  | "drop" => some do return .flag (← Action.unassign (← call.name 0))
  | "label" => some (label call)
  | "host" => some do
    let name ← call.name 0
    Action.assign name (.document (← Act.call .newDocument))
    return .null
  | "handler" => some do
    let name ← call.name 0
    Action.assign name (.handler (← Action.newHandler (some name) (call.closure 1)))
    return .null
  | _ => none

def unsubscribe : Action Value := do
  let name ← call.name 0
  Action.withNamed name fun
    | .subscription id => do
      Act.call (.stop id)
      return .null
    | _ => Action.wrongKind name

def ending? (operator : String) : Option (Action Value) :=
  match operator with
  | "stop" => some do
    withEffect (← call.name 0) fun effect => do
      Act.call (.stop effect)
      return .null
  | "execute" => some do
    withEffect (← call.name 0) fun effect => do
      Act.call (.execute effect)
      return .null
  | "unsubscribe" => some (unsubscribe call)
  | "destroy" => some do
    withSignal (← call.name 0) fun signal => do
      Act.call (.destroy signal)
      return .null
  | "dispose" => some do
    withReactor (call.reactorName 0) fun reactor => do
      Act.call (.dispose reactor)
      return .null
  | _ => none

end Operator

end ReactiveTree.Script
