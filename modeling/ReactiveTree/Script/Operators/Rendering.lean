import ReactiveTree.Document.Markup
import ReactiveTree.Script.Call
import ReactiveTree.Script.Describe

/-! # Mounts, events and descriptions

A mounted template is looked after here: mounting, unmounting, and handing events to listeners.
Handles are described, whole or by single facts.
-/

namespace ReactiveTree.Script

namespace Operator

variable (call : Call)

def mount : Action Value := do
  let name ← call.name 0
  withDocument (← call.name 1) fun document =>
    create name (call.reactorName 3) fun reactor => do
      let container : HostId := ⟨(call.form 4).natural⟩
      return .mount
        (← Act.call (.mount reactor document container (.body (call.closure 2))))

/-- The name of a failure, without its particulars. -/
def failureWord : ReconcileFailure → String
  | .repeatedKey _ => "DuplicateKey"
  | .emptyTag => "EmptyTag"
  | .outOfSync .. => "HostMismatch"

def unmount : Action Value := do
  let name ← call.name 0
  Action.withNamed name fun
    | .mount id => do
      if id ∈ (← Action.state).unmounted then return .text "already"
      else
        Action.setState fun state => { state with unmounted := id :: state.unmounted }
        match ← Act.call (.unmount id) with
        | .ok _ => return .text "ok"
        | .error failure => return .text (failureWord failure)
    | _ => Action.wrongKind name

/-- Call a closure with an event. -/
def handle (closure : Closure) (event : String) (detail : Value) : Action Unit :=
  Act.call (.invoke (.body
    { closure with
      locals := ("detail", detail) :: ("event", .text event) :: closure.locals }))

/-- Hand an event to a listener. One that was not made notes the event under its name. -/
def deliver (listener : Handler) (event : String) (detail : Value) : Action Unit :=
  match listener with
  | .named name => Act.call (.note (.list [.text name, .text event, detail]))
  | .made serial _ => do
    match (← Action.state).handlers[serial]? with
    | some closure => handle closure event detail
    | none => return

def fire : Action Value := do
  let name ← call.name 0
  let node ← call.integer 1
  let event ← call.name 2
  let detail ← call.value 3
  withDocument name fun document => do
    let world ← Action.world
    match (world.document? document).bind (·.listener? ⟨node.toNat⟩ event) with
    | none => return .flag false
    | some listener =>
      deliver listener event detail
      return .flag true

def rendering? (operator : String) : Option (Action Value) :=
  match operator with
  | "mount" => some (mount call)
  | "unmount" => some (unmount call)
  | "fire" => some (fire call)
  | "markup" => some do
    withDocument (← call.name 0) fun document => do
      let markup := ((← Action.world).document? document).map (·.innerMarkup Document.root)
      return .text (markup.getD "")
  | _ => none

def inspecting? (operator : String) : Option (Action Value) :=
  match operator with
  | "info" => some do
    let name ← call.name 0
    let field ← call.name 1
    Action.withNamed name fun named => do
      match fact (← Action.world) field named with
      | some value => return value
      | none => Action.fail ("bad field: " ++ field)
  | "debug" => some do
    let name ← call.name 0
    Action.withNamed name fun named => do
      match describe (← Action.world) named with
      | some text => return .text text
      | none => Action.wrongKind name
  | _ => none

end Operator

end ReactiveTree.Script
