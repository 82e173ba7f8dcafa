import ReactiveTree.Script.Call

/-! # The language of scripts

Blocks, locals, loops, arithmetic, texts and lists, and panics with their recovery.
-/

namespace ReactiveTree.Script

namespace Operator

variable (call : Call)

/-- Run a body for each integer of a range, under a local name. -/
def forRange (body : Int → Action Value) (start : Int) : Nat → Action Value
  | 0 => pure .null
  | count + 1 => do
    let _ ← body start
    forRange body (start + 1) count

def arithmetic (operation : Int → Int → Int) : Action Value := do
  let (left, right) ← call.integers 0 1
  return .wrap (operation left right)

/-- Division and remainder go toward zero. -/
def division (operation : Int → Int → Int) : Action Value := do
  let (left, right) ← call.integers 0 1
  if right = 0 then Action.fail "division by zero"
  else return .wrap (operation left right)

/-- Evaluate arguments, with a panic as a value. -/
def recover : Action Value := do
  match ← Act.attempt (call.sequence 0) with
  | .ok value => return .list [.text "ok", value]
  | .error panic => return .list [.text "panic", .text panic.message]

def language? (operator : String) : Option (Action Value) :=
  match operator with
  | "seq" => some (call.sequence 0)
  | "list" => some do return .list (← call.values)
  | "if" => some do
    match ← call.value 0 with
    | .flag true => call.value 1
    | _ => call.value 2
  | "let" => some do
    let value ← call.value 1
    call.valueIn 2 (call.env.bind (call.word 0) value)
  | "v" => some do
    match call.env.locals.lookup (call.word 0) with
    | some value => return value
    | none => Action.fail ("no such local: " ++ call.word 0)
  | "for" => some do
    let (start, stop) ← call.integers 1 2
    forRange (fun number => call.valueIn 3 (call.env.bind (call.word 0) (.int number))) start
      (stop - start).toNat
  | "+" => some (arithmetic call (· + ·))
  | "-" => some (arithmetic call (· - ·))
  | "*" => some (arithmetic call (· * ·))
  | "/" => some (division call Int.tdiv)
  | "%" => some (division call Int.tmod)
  | "<" => some do
    let (left, right) ← call.integers 0 1
    return .flag (left < right)
  | "==" => some do
    let left ← call.value 0
    let right ← call.value 1
    return .flag (left == right)
  | "cat" => some do return .text (String.join ((← call.values).map Value.display))
  | "len" => some do
    match ← call.value 0 with
    | .list members => return .int members.length
    | _ => Action.typeError
  | "log" => some do
    Act.call (.note (← call.value 0))
    return .null
  | "panic" => some do Action.fail (← call.value 0).display
  | "panic_str" => some (Action.fail "static text")
  | "panic_any" => some (Act.raise .other)
  | "catch" => some (recover call)
  | "has" => some do
    let name ← call.name 0
    return .flag (hasEntry (← Action.state).names name)
  | _ => none

end Operator

end ReactiveTree.Script
