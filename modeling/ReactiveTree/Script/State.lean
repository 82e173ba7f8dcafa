import ReactiveTree.Reactive.Act
import ReactiveTree.Script.Form
import ReactiveTree.Sequence.Entries

/-! # The state of a script

A script names the handles that it makes. Its closures are bodies captured with the locals of the
place where they were written; they hold no handles, since they refer to handles by name.
-/

namespace ReactiveTree.Script

/-- Local names with their values, innermost first. -/
abbrev Locals := List (String × Value)

/-- A form with the locals that it was written under. -/
structure Closure where
  form : Form
  locals : Locals
  deriving Repr, Inhabited

/-- What an effect body hands back when it is done. -/
inductive Output where
  | unit
  | cleanup
  | option
  | result
  deriving DecidableEq, Repr

def Output.ofWord (word : String) : Output :=
  match word with
  | "unit" => .unit
  | "cleanup" => .cleanup
  | "option" => .option
  | _ => .result

/-- The codes of closures. -/
inductive Code where
  /-- A computed, a template, or a handler. -/
  | body (closure : Closure)
  | effect (closure : Closure) (output : Output)
  /-- What a subscription does with a value under a local name. -/
  | callback (name : String) (closure : Closure)
  /-- The cleanups that one run registered. -/
  | cleanups (closures : List Closure)
  deriving Repr, Inhabited

/-- What a name stands for. -/
inductive Named where
  | reactor (id : ReactorId)
  | signal (id : NodeId)
  | computed (id : NodeId)
  | effect (id : NodeId)
  /-- A subscription, by its effect. -/
  | subscription (effect : NodeId)
  /-- A signal or a computed, whichever it is. -/
  | reactive (id : NodeId) (isSignal : Bool)
  | document (id : DocumentId)
  | handler (callback : Handler)
  | mount (id : MountId)
  deriving Repr, Inhabited

/-- The library's handle that a name holds, if any. -/
def Named.handle? : Named → Option Handle
  | .reactor id => some (.reactor id)
  | .signal id => some (.node id)
  | .computed id => some (.node id)
  | .effect id => some (.node id)
  | .subscription node => some (.node node)
  | .reactive id _ => some (.node id)
  | _ => none

/-- What one run of an effect body has registered. -/
structure Registrations where
  cleanups : List Closure
  failure : Option String
  deriving Repr, Inhabited

def Registrations.empty : Registrations :=
  ⟨[], none⟩

/-- What a finished effect body hands back. -/
def Registrations.finish (registrations : Registrations) :
    Output → Except String (Option Code)
  | .unit => .ok none
  | .cleanup => .ok (some (.cleanups registrations.cleanups))
  | .option => .ok optional
  | .result =>
    match registrations.failure with
    | some message => .error message
    | none => .ok optional
where
  /-- A cleanup if any was registered. -/
  optional : Option Code :=
    if registrations.cleanups.isEmpty then none else some (.cleanups registrations.cleanups)

structure State where
  names : List (String × Named)
  /-- The registrations of the effect bodies that are running, innermost first. -/
  running : List Registrations
  /-- What the handlers made so far do, by their serial numbers. -/
  handlers : List Closure
  /-- The mounts that were unmounted. -/
  unmounted : List MountId
  deriving Repr, Inhabited

def State.empty : State :=
  ⟨[], [], [], []⟩

/-- What scripts do, in terms of the library. -/
abbrev Action := Act Code Value State

/-- Where an expression stands: its locals, and whether it belongs to the innermost running effect
body, so that it may register with it. -/
structure Env where
  locals : Locals
  registers : Bool
  deriving Repr, Inhabited

namespace Env

/-- A place outside any effect body. -/
def outside (locals : Locals) : Env :=
  ⟨locals, false⟩

/-- A place in an effect body. -/
def inEffect (locals : Locals) : Env :=
  ⟨locals, true⟩

def bind (env : Env) (name : String) (value : Value) : Env :=
  { env with locals := (name, value) :: env.locals }

end Env

namespace Action

def fail {α : Type} (message : String) : Action α :=
  .raise (.text message)

def typeError {α : Type} : Action α :=
  fail "type error"

def state : Action State := do
  return (← Act.call .look : World Code Value State).user

def setState (change : State → State) : Action Unit := do
  Act.call (.store (change (← state)))

def world : Action (World Code Value State) :=
  Act.call .look

/-- What a name stands for. -/
def lookUp (name : String) : Action Named := do
  match (← state).names.lookup name with
  | some named => return named
  | none => fail ("no such name: " ++ name)

def wrongKind {α : Type} (name : String) : Action α :=
  fail ("wrong kind: " ++ name)

/-- Do something while holding a handle. -/
def holding {α : Type} (handle : Option Handle) (body : Action α) : Action α :=
  match handle with
  | none => body
  | some handle => do
    Act.call (.hold handle)
    let result ← Act.attempt body
    Act.call (.drop handle)
    match result with
    | .ok value => return value
    | .error panic => Act.raise panic

/-- Do something with what a name stands for, holding it meanwhile. -/
def withNamed {α : Type} (name : String) (body : Named → Action α) : Action α := do
  let named ← lookUp name
  holding named.handle? (body named)

/-- Give a name a new meaning; the old one is dropped afterwards. -/
def assign (name : String) (named : Named) : Action Unit := do
  let old := (← state).names.lookup name
  setState fun state => { state with names := setEntry state.names name named }
  match old.bind Named.handle? with
  | some handle => Act.call (.drop handle)
  | none => return

/-- Make a handler, perhaps with a name to show. -/
def newHandler (label : Option String) (closure : Closure) : Action Handler := do
  let serial := (← state).handlers.length
  setState fun state => { state with handlers := state.handlers ++ [closure] }
  return .made serial label

/-- The handler of a name: the one that the name stands for, or else the one that is the same
wherever the name is used. -/
def handlerOf (name : String) : Action Handler := do
  match (← state).names.lookup name with
  | some (.handler callback) => return callback
  | _ => return .named name

/-- Forget a name; whether it stood for something. -/
def unassign (name : String) : Action Bool := do
  match (← state).names.lookup name with
  | none => return false
  | some named =>
    setState fun state => { state with names := removeEntry state.names name }
    match named.handle? with
    | some handle => Act.call (.drop handle)
    | none => pure ()
    return true

end Action

end ReactiveTree.Script
