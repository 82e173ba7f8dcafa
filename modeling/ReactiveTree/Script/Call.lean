import ReactiveTree.Script.State

/-! # Operators of scripts

An operator is applied to arguments that are known both as forms and by their meanings; a missing
argument is null. Arguments are evaluated from left to right, and a handle is looked up afterwards.
Bodies are not evaluated but captured.
-/

namespace ReactiveTree.Script

/-- An operator's arguments. -/
structure Call where
  forms : List Form
  meanings : List (Env → Action Value)
  env : Env

namespace Call

variable (call : Call)

def form (index : Nat) : Form :=
  call.forms.getD index .null

/-- Evaluate an argument in another place. -/
def valueIn (index : Nat) (env : Env) : Action Value :=
  (call.meanings.getD index fun _ => pure .null) env

/-- Evaluate an argument. -/
def value (index : Nat) : Action Value :=
  call.valueIn index call.env

/-- An argument whose text is a name. -/
def name (index : Nat) : Action String := do
  return (← call.value index).display

/-- An argument that is a literal word. -/
def word (index : Nat) : String :=
  (call.form index).word

/-- A body, captured with the locals. -/
def closure (index : Nat) : Closure :=
  ⟨call.form index, call.env.locals⟩

/-- The name of a reactor, by default that of the main one. -/
def reactorName (index : Nat) : String :=
  if (call.form index).isNull then "main" else call.word index

/-- Evaluate arguments from one on; the value of the last. -/
def sequence (start : Nat) : Action Value :=
  (call.meanings.drop start).foldlM (fun _ meaning => meaning call.env) .null

/-- The values of all arguments. -/
def values : Action (List Value) :=
  call.meanings.mapM fun meaning => meaning call.env

/-- An argument that is an integer. -/
def integer (index : Nat) : Action Int := do
  match ← call.value index with
  | .int number => return number
  | _ => Action.typeError

/-- Two integer arguments. -/
def integers (first second : Nat) : Action (Int × Int) := do
  let left ← call.integer first
  let right ← call.integer second
  return (left, right)

end Call

namespace Operator

/-- Do something with the reactor of a name. -/
def withReactor {α : Type} (name : String) (body : ReactorId → Action α) : Action α :=
  Action.withNamed name fun
    | .reactor id => body id
    | _ => Action.wrongKind name

/-- Do something with the signal of a name. -/
def withSignal {α : Type} (name : String) (body : NodeId → Action α) : Action α :=
  Action.withNamed name fun
    | .signal id => body id
    | .reactive id true => body id
    | .reactive _ false => Action.fail ("not writable: " ++ name)
    | _ => Action.wrongKind name

/-- Do something with the effect of a name. -/
def withEffect {α : Type} (name : String) (body : NodeId → Action α) : Action α :=
  Action.withNamed name fun
    | .effect id => body id
    | _ => Action.wrongKind name

def withDocument {α : Type} (name : String) (body : DocumentId → Action α) : Action α :=
  Action.withNamed name fun
    | .document id => body id
    | _ => Action.wrongKind name

/-- Make a handle with a reactor held, then give it a name. -/
def create (name reactor : String) (make : ReactorId → Action Named) : Action Value := do
  withReactor reactor fun id => do
    Action.assign name (← make id)
    return .null

end Operator

end ReactiveTree.Script
