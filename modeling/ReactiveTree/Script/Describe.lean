import ReactiveTree.Script.State

/-! # Handles as text

A handle is described by its type with the fields that matter, in braces.
-/

namespace ReactiveTree.Script

/-- A type's name with fields in braces. -/
def describeStruct (name : String) (fields : List (String × String)) : String :=
  name ++ " \x7b " ++ ", ".intercalate (fields.map fun field => field.1 ++ ": " ++ field.2)
    ++ " \x7d"

def describeFlag (on : Bool) : String :=
  if on then "true" else "false"

def describeNode (id : NodeId) : String :=
  "NodeId(" ++ toString id.index ++ ")"

def describeFreshness : Freshness → String
  | .clean => "Clean"
  | .doubtful => "MaybeDirty"
  | .dirty => "Dirty"

def describePolicy : KeyPolicy → String
  | .strict => "Strict"
  | .lastWins => "LastWins"

def describeSettings (settings : Settings) : String :=
  describeStruct "RuntimeConfig"
    [("log_subscriber_errors", describeFlag settings.reportsFailures),
      ("key_policy", describePolicy settings.keyPolicy)]

/-- The optional value of a computed. -/
def describeOption : Option Value → String
  | none => "None"
  | some value => "Some(" ++ value.display ++ ")"

variable (world : World Code Value State)

/-- The freshness of a computed; one without a node is dirty. -/
def freshnessOf (id : NodeId) : Freshness :=
  ((world.node? id).map Node.freshness).getD .dirty

/-- How many nodes a cell depends on. -/
def dependencyCount (id : NodeId) : Nat :=
  ((world.node? id).map fun node => node.dependencies.length).getD 0

/-- How many nodes depend on a cell. -/
def dependentCount (id : NodeId) : Nat :=
  ((world.node? id).map fun node => node.dependents.length).getD 0

/-- How often a cell's value has changed. -/
def versionOf (id : NodeId) : Nat :=
  ((world.node? id).map Node.version).getD 0

def describeReactor (id : ReactorId) : Option String :=
  (world.reactor? id).map fun reactor =>
    describeStruct "Runtime"
      [("node_count", toString reactor.graph.size),
        ("batching", describeFlag (0 < reactor.depth)),
        ("config", describeSettings reactor.settings)]

def describeSignal (id : NodeId) : Option String :=
  (world.signal? id).map fun signal =>
    describeStruct "Signal"
      [("id", describeNode id), ("value", signal.value.display),
        ("destroyed", describeFlag signal.destroyed),
        ("subscriber_count", toString (dependentCount world id))]

def describeComputed (id : NodeId) : Option String :=
  (world.computed? id).map fun computed =>
    describeStruct "Computed"
      [("id", describeNode id), ("value", describeOption computed.value),
        ("state", describeFreshness (freshnessOf world id))]

def describeEffect (id : NodeId) : Option String :=
  (world.effect? id).map fun effect =>
    describeStruct "Effect"
      [("id", describeNode id), ("run_count", toString effect.runs),
        ("dependency_count", toString (dependencyCount world id)),
        ("active", describeFlag effect.active)]

/-- A mount, or nothing once it was unmounted. -/
def describeMount (id : MountId) : Option String :=
  if id ∈ world.user.unmounted then some "None"
  else do
    let mount ← world.mount? id
    let effect ← describeEffect world mount.effect
    return "Some("
      ++ describeStruct "Mount"
        [("container", "HostId(" ++ toString mount.container.index ++ ")"), ("effect", effect)]
      ++ ")"

/-- The description of what a name stands for, if that has one. -/
def describe : Named → Option String
  | .reactor id => describeReactor world id
  | .signal id => describeSignal world id
  | .computed id => describeComputed world id
  | .effect id => describeEffect world id
  | .subscription id =>
    (describeEffect world id).map fun text => describeStruct "Subscription" [("effect", text)]
  | .reactive id true => (describeSignal world id).map fun text => "Signal(" ++ text ++ ")"
  | .reactive id false => (describeComputed world id).map fun text => "Computed(" ++ text ++ ")"
  | .mount id => describeMount world id
  | .document _ => none
  | .handler _ => none

def freshnessWord : Freshness → String
  | .clean => "clean"
  | .doubtful => "maybe"
  | .dirty => "dirty"

def reactorFact (id : ReactorId) (field : String) : Option Value := do
  let reactor ← world.reactor? id
  match field with
  | "nodes" => return .int reactor.graph.size
  | "effects" => return .int reactor.graph.effects.length
  | "batching" => return .flag (0 < reactor.depth)
  | "tracking" => return .flag reactor.reader?.isSome
  | _ => none

def signalFact (id : NodeId) (field : String) : Option Value := do
  let signal ← world.signal? id
  match field with
  | "id" => return .int id.index
  | "version" => return .int (versionOf world id)
  | "subs" => return .int (dependentCount world id)
  | "destroyed" => return .flag signal.destroyed
  | _ => none

def computedFact (id : NodeId) (field : String) : Option Value := do
  let computed ← world.computed? id
  match field with
  | "id" => return .int id.index
  | "state" => return .text (freshnessWord (freshnessOf world id))
  | "version" => return .int (versionOf world id)
  | "has_value" => return .flag computed.value.isSome
  | "deps" => return .int (dependencyCount world id)
  | "dependents" => return .int (dependentCount world id)
  | _ => none

def effectFact (id : NodeId) (field : String) : Option Value := do
  let effect ← world.effect? id
  match field with
  | "id" => return .int id.index
  | "runs" => return .int effect.runs
  | "deps" => return .int (dependencyCount world id)
  | "active" => return .flag effect.active
  | _ => none

/-- One fact about what a name stands for, if there is one of that name. -/
def fact (field : String) : Named → Option Value
  | .reactor id => reactorFact world id field
  | .signal id => signalFact world id field
  | .computed id => computedFact world id field
  | .effect id => effectFact world id field
  | .subscription id => if field = "active" then effectFact world id field else none
  | .reactive id isSignal =>
    match field with
    | "id" => some (.int id.index)
    | "is_signal" => some (.flag isSignal)
    | _ => none
  | _ => none

end ReactiveTree.Script
