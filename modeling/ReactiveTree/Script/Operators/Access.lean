import ReactiveTree.Script.Call

/-! # Reading, writing and registering

Signals and computeds are read and written here, alone or in batches and untracked blocks. An effect
body also registers cleanups, and its failure.
-/

namespace ReactiveTree.Script

namespace Operator

variable (call : Call)

/-- Change what the present run of an effect body has registered. Outside of one nothing is
evaluated. -/
def register (operator : String) (change : Action (Registrations → Registrations)) : Action Value :=
  if call.env.registers then do
    let change ← change
    Action.setState fun state => { state with running := state.running.modifyHead change }
    return .null
  else Action.fail (operator ++ " outside effect")

def registering? (operator : String) : Option (Action Value) :=
  match operator with
  | "cleanup" => some (register call operator do
      return fun registrations =>
        { registrations with cleanups := registrations.cleanups ++ [call.closure 0] })
  | "fail" => some (register call operator do
      let message ← call.name 0
      return fun registrations => { registrations with failure := some message })
  | _ => none

/-- Read a signal, a computed, or whichever it is. -/
def read (name : String) (request : NodeId → Action Value) : Action Value :=
  Action.withNamed name fun
    | .signal id => request id
    | .computed id => request id
    | .reactive id _ => request id
    | _ => Action.wrongKind name

def tryRead : Action Value := do
  let name ← call.name 0
  Action.withNamed name fun
    | .computed id => do
      match ← Act.call (.tryGet id) with
      | .ok value => return .list [.text "ok", value]
      | .error failure =>
        return .list [.text "err", .text "ComputeEvaluation", .text failure.message]
    | _ => Action.wrongKind name

def update : Action Value := do
  withSignal (← call.name 0) fun signal => do
    match ← Act.call (.stored signal) with
    | none => return .null
    | some old =>
      let new ← call.valueIn 2 (call.env.bind (call.word 1) old)
      Act.call (.set signal new)
      return .null

def accessing? (operator : String) : Option (Action Value) :=
  match operator with
  | "get" => some do read (← call.name 0) fun id => Act.call (.get id)
  | "peek" => some do read (← call.name 0) fun id => Act.call (.peek id)
  | "try" => some (tryRead call)
  | "with" => some do
    withSignal (← call.name 0) fun signal => do
      let value ← Act.call (.get signal)
      call.valueIn 2 (call.env.bind (call.word 1) value)
  | "set" => some do
    let name ← call.name 0
    let value ← call.value 1
    withSignal name fun signal => do
      Act.call (.set signal value)
      return .null
  | "update" => some (update call)
  | "batch" => some do
    withReactor "main" fun reactor => Act.within (.batch reactor) (call.sequence 0)
  | "untrack" => some do
    withReactor "main" fun reactor => Act.within (.untracked reactor) (call.sequence 0)
  | "batch_in" => some do
    withReactor (call.reactorName 0) fun reactor => Act.within (.batch reactor) (call.sequence 1)
  | "untrack_in" => some do
    withReactor (call.reactorName 0) fun reactor =>
      Act.within (.untracked reactor) (call.sequence 1)
  | _ => none

end Operator

end ReactiveTree.Script
