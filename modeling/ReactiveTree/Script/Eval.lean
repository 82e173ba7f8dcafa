import ReactiveTree.Script.Operators.Access
import ReactiveTree.Script.Operators.Language
import ReactiveTree.Script.Operators.Lifecycle
import ReactiveTree.Script.Operators.Rendering

/-! # Evaluation of forms

A literal stands for itself and a list is an operator with its arguments.
-/

namespace ReactiveTree.Script

/-- Apply an operator to arguments. -/
def Call.apply (call : Call) (operator : String) : Action Value :=
  let families := [Operator.language?, Operator.making?, Operator.registering?,
    Operator.accessing?, Operator.ending?, Operator.rendering?, Operator.inspecting?]
  match families.findSome? fun family => family call operator with
  | some action => action
  | none => Action.fail ("bad operator: " ++ operator)

mutual

/-- The value of a form. -/
def eval : Form → Env → Action Value
  | .null, _ => pure .null
  | .flag on, _ => pure (.flag on)
  | .int number, _ => pure (.int number)
  | .text content, _ => pure (.text content)
  | .object fields, _ => pure (.float ((Form.object fields).field "f").number)
  | .list [], _ => Action.fail "bad operator: "
  | .list (operator :: arguments), env =>
    Call.apply ⟨arguments, evalEach arguments, env⟩ operator.word

/-- The meanings of several forms. -/
def evalEach : List Form → List (Env → Action Value)
  | [] => []
  | form :: rest => eval form :: evalEach rest

end

/-- The value of a closure's body. -/
def Closure.value (closure : Closure) : Action Value :=
  eval closure.form (.outside closure.locals)

end ReactiveTree.Script
