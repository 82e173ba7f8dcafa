import ReactiveTree.Script.Eval

/-! # Templates

A template is a form that is evaluated to trees at each render. Texts, tags, keys and prop values
may be expressions, a repeated template stands for one run of siblings per list member, and a
conditional one for either of two, or for nothing.
-/

namespace ReactiveTree.Script

/-- A word that may be an expression. -/
def wordOf (form : Form) (env : Env) : Action String :=
  match form with
  | .list members => do return (← eval (.list members) env).display
  | form => pure form.word

/-- A key that may be an expression; none for null. -/
def keyOf (form : Form) (env : Env) : Action (Option Key) :=
  match form with
  | .null => pure none
  | .int number => pure (some (.ofInt number))
  | form => do return some ⟨← wordOf form env⟩

/-- A value as a prop. -/
def Value.toProp : Value → PropValue
  | .text content => .text content
  | .flag on => .flag on
  | .int number => .number (.ofInt number)
  | .float number => .number number
  | value => .text value.display

/-- A prop's value: an expression, a number, a handler that is new at each render, or the handler of
a name at the time of the render. -/
def propOf (form : Form) (env : Env) : Action PropValue :=
  match form with
  | .list members => do return (← eval (.list members) env).toProp
  | .object fields =>
    let form := Form.object fields
    if form.hasField "do" then do
      return .handler (← Action.newHandler none ⟨form.field "do", env.locals⟩)
    else if form.hasField "h" then do
      return .handler (← Action.handlerOf (form.field "h").word)
    else pure (.number (form.field "n").number)
  | .text content => pure (.text content)
  | .flag on => pure (.flag on)
  | .int number => pure (.number (.ofInt number))
  | .null => pure (.text Value.null.display)

/-- The props of an element, in order. -/
def propsOf (form : Form) (env : Env) : Action Props := do
  let pairs ← form.members.mapM fun pair => do
    return ((pair.members.getD 0 .null).word, ← propOf (pair.members.getD 1 .null) env)
  return .ofList pairs

/-- What a template expands to. -/
abbrev Expansion := Env → Action (List Tree)

/-- The parts of an object that are templates themselves. -/
structure Parts where
  /-- What each field expands to by itself. -/
  single : List (String × Expansion)
  /-- What the members of each field that is a list expand to. -/
  members : List (String × Expansion)

namespace Parts

def tree (parts : Parts) (name : String) : Expansion :=
  (parts.single.lookup name).getD fun _ => pure []

def trees (parts : Parts) (name : String) : Expansion :=
  (parts.members.lookup name).getD fun _ => pure []

end Parts

/-- One expansion for each member of a list, under a local name. -/
def repeated (value : Value) (name : String) (expansion : Expansion) : Expansion := fun env =>
  match value with
  | .list members => do
    return (← members.mapM fun member => expansion (env.bind name member)).flatten
  | _ => Action.typeError

/-- The trees of an object. -/
def expandObject (form : Form) (parts : Parts) : Expansion := fun env => do
  if form.hasField "text" then
    let content ← wordOf (form.field "text") env
    let _ ← keyOf (form.field "key") env
    return [.text content]
  else if form.hasField "frag" then
    let children ← parts.trees "frag" env
    return [.fragment children (← keyOf (form.field "key") env)]
  else if form.hasField "each" then
    let value ← eval (form.field "each") env
    repeated value (form.field "as").word (parts.tree "node") env
  else if form.hasField "when" then
    match ← eval (form.field "when") env with
    | .flag true => parts.tree "then" env
    | _ => parts.tree "else" env
  else
    let tag ← wordOf (form.field "tag") env
    let props ← propsOf (form.field "props") env
    let children ← parts.trees "children" env
    return [.element tag props children (← keyOf (form.field "key") env)]

mutual

/-- The trees of a template. -/
def expand : Form → Expansion
  | .null => fun _ => pure []
  | .text content => fun _ => pure [.text content]
  | .list members => fun env => do return [.text (← eval (.list members) env).display]
  | .object fields => expandObject (.object fields) (expandFields fields)
  | .flag on => fun _ => pure [.text (Value.flag on).display]
  | .int number => fun _ => pure [.text (Value.int number).display]

/-- The trees of several templates, side by side. -/
def expandAll : List Form → Expansion
  | [] => fun _ => pure []
  | form :: rest => fun env => do return (← expand form env) ++ (← expandAll rest env)

/-- The trees of the members of a list. -/
def expandMembers : Form → Expansion
  | .list members => expandAll members
  | _ => fun _ => pure []

/-- The expansions of an object's fields. -/
def expandFields : List (String × Form) → Parts
  | [] => ⟨[], []⟩
  | (name, form) :: rest =>
    let parts := expandFields rest
    ⟨(name, expand form) :: parts.single, (name, expandMembers form) :: parts.members⟩

end

end ReactiveTree.Script
