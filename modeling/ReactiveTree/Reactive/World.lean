import ReactiveTree.Document.Basic
import ReactiveTree.Failure
import ReactiveTree.Reactive.Reactor

/-! # The state of a reactive program

A program runs any number of reactors. Signals, computeds and effects are cells, numbered over all
reactors; a cell keeps what its node in the graph does not. Closures are present only as codes of
type `κ`, values are of type `ν`, and the program's own state is of type `σ`. What happens is
written into the world's past.
-/

namespace ReactiveTree

@[ext] structure DocumentId where
  index : Nat
  deriving DecidableEq, Repr, Inhabited

@[ext] structure MountId where
  index : Nat
  deriving DecidableEq, Repr, Inhabited

structure Signal (ν : Type) where
  reactor : ReactorId
  value : ν
  destroyed : Bool
  holders : Nat
  deriving DecidableEq, Repr

structure Computed (κ ν : Type) where
  reactor : ReactorId
  body : κ
  /-- The value of the last evaluation that succeeded. -/
  value : Option ν
  /-- Whether an evaluation is in progress. -/
  computing : Bool
  holders : Nat
  deriving DecidableEq, Repr

/-- What an effect does when it runs. -/
inductive EffectBody (κ : Type) where
  | plain (code : κ)
  /-- Read a signal and, from the second run on, hand its value to a callback. -/
  | watch (signal : NodeId) (callback : κ)
  /-- Render a tree and bring it onto a document. -/
  | render (mount : MountId)
  deriving DecidableEq, Repr

structure Effect (κ : Type) where
  reactor : ReactorId
  body : EffectBody κ
  /-- Whether a watching effect has seen its signal. -/
  primed : Bool
  /-- What the last run left to be done before the next one, or at the end. -/
  cleanup : Option κ
  active : Bool
  executing : Bool
  runs : Nat
  holders : Nat
  deriving DecidableEq, Repr

/-- What a node number stands for. -/
inductive Cell (κ ν : Type) where
  | signal (signal : Signal ν)
  | computed (computed : Computed κ ν)
  | effect (effect : Effect κ)
  deriving DecidableEq, Repr

/-- A tree kept up to date in a container of a document. -/
structure Mount (κ : Type) where
  effect : NodeId
  document : DocumentId
  container : HostId
  policy : KeyPolicy
  code : κ
  /-- The tree that was last brought onto the document. -/
  tree : Option Tree
  deriving Repr

/-- Something that happened. -/
inductive Event (κ ν : Type) where
  /-- The program noted a value. -/
  | note (value : ν)
  /-- A write was dropped, to a signal of that label. -/
  | circularWrite (source : NodeId) (label : String)
  /-- A failing subscriber was reported. -/
  | failed (failure : ReactiveFailure)
  /-- A tree was rendered in which siblings share a key. -/
  | repeatedKey (key : Key)
  | refused (refusal : Refusal)
  /-- A computation read a node, and the read was tracked for the reader, if any. -/
  | read (node : NodeId) (reader : Option NodeId)
  /-- A computation asked for a write of a signal, which is recorded for the writer, if any. -/
  | wrote (node : NodeId) (writer : Option NodeId)
  /-- A signal or a computed took a new value. -/
  | changed (node : NodeId) (value : ν)
  /-- A notification pass set out from changed sources. -/
  | passStarted (reactor : ReactorId) (sources : List NodeId)
  | passEnded (reactor : ReactorId)
  /-- The body of an effect or a computed began to run. -/
  | started (node : NodeId)
  | ended (node : NodeId) (panicked : Bool)
  /-- The body of an effect gave a cleanup back. -/
  | leftCleanup (effect : NodeId) (code : κ)
  /-- A cleanup of an effect was called. -/
  | cleanedUp (effect : NodeId) (code : κ)
  /-- A run of an effect was asked for by hand. -/
  | executed (effect : NodeId)
  /-- A subscription handed a value to its callback. -/
  | delivered (effect : NodeId) (value : ν)
  | stopped (effect : NodeId)
  | disposing (reactor : ReactorId)
  | disposed (reactor : ReactorId)
  /-- A reactor lost its last handle. -/
  | died (reactor : ReactorId)
  deriving DecidableEq, Repr

structure World (κ ν σ : Type) where
  reactors : List Reactor
  /-- The cells, by the numbers of their nodes. -/
  cells : List (Cell κ ν)
  mounts : List (Mount κ)
  documents : List Document
  /-- What has happened, the latest event first. -/
  past : List (Event κ ν)
  /-- The program's own state. -/
  user : σ

namespace Cell

variable {κ ν : Type}

def reactor : Cell κ ν → ReactorId
  | .signal state => state.reactor
  | .computed state => state.reactor
  | .effect state => state.reactor

end Cell

namespace World

variable {κ ν σ : Type}

/-- A world in which nothing has happened. -/
def initial (user : σ) : World κ ν σ :=
  ⟨[], [], [], [], [], user⟩

def reactor? (world : World κ ν σ) (id : ReactorId) : Option Reactor :=
  world.reactors[id.index]?

def modifyReactor (world : World κ ν σ) (id : ReactorId) (change : Reactor → Reactor) :
    World κ ν σ :=
  { world with reactors := world.reactors.modify id.index change }

def cell? (world : World κ ν σ) (id : NodeId) : Option (Cell κ ν) :=
  world.cells[id.index]?

def modifyCell (world : World κ ν σ) (id : NodeId) (change : Cell κ ν → Cell κ ν) :
    World κ ν σ :=
  { world with cells := world.cells.modify id.index change }

theorem reactor?_modifyReactor (world : World κ ν σ) (id other : ReactorId)
    (change : Reactor → Reactor) :
    (world.modifyReactor id change).reactor? other =
      if other = id then (world.reactor? id).map change else world.reactor? other := by
  unfold modifyReactor reactor?
  rw [List.getElem?_modify]
  by_cases same : other = id
  · simp [same]
  · have apart : id.index ≠ other.index := fun equal => same (ReactorId.ext equal.symm)
    simp [same, apart]

theorem cell?_modifyCell (world : World κ ν σ) (id other : NodeId)
    (change : Cell κ ν → Cell κ ν) :
    (world.modifyCell id change).cell? other =
      if other = id then (world.cell? id).map change else world.cell? other := by
  unfold modifyCell cell?
  rw [List.getElem?_modify]
  by_cases same : other = id
  · simp [same]
  · have apart : id.index ≠ other.index := fun equal => same (NodeId.ext equal.symm)
    simp [same, apart]

def signal? (world : World κ ν σ) (id : NodeId) : Option (Signal ν) :=
  match world.cell? id with
  | some (.signal signal) => some signal
  | _ => none

def computed? (world : World κ ν σ) (id : NodeId) : Option (Computed κ ν) :=
  match world.cell? id with
  | some (.computed computed) => some computed
  | _ => none

def effect? (world : World κ ν σ) (id : NodeId) : Option (Effect κ) :=
  match world.cell? id with
  | some (.effect effect) => some effect
  | _ => none

def modifySignal (world : World κ ν σ) (id : NodeId) (change : Signal ν → Signal ν) :
    World κ ν σ :=
  world.modifyCell id fun
    | .signal signal => .signal (change signal)
    | cell => cell

def modifyComputed (world : World κ ν σ) (id : NodeId) (change : Computed κ ν → Computed κ ν) :
    World κ ν σ :=
  world.modifyCell id fun
    | .computed computed => .computed (change computed)
    | cell => cell

def modifyEffect (world : World κ ν σ) (id : NodeId) (change : Effect κ → Effect κ) :
    World κ ν σ :=
  world.modifyCell id fun
    | .effect effect => .effect (change effect)
    | cell => cell

def mapGraph (world : World κ ν σ) (id : ReactorId) (change : Graph → Graph) : World κ ν σ :=
  world.modifyReactor id (·.mapGraph change)

/-- The graph of a reactor; an unknown one has no nodes. -/
def graph (world : World κ ν σ) (id : ReactorId) : Graph :=
  ((world.reactor? id).map Reactor.graph).getD .empty

/-- The live node of a cell. -/
def node? (world : World κ ν σ) (id : NodeId) : Option Node :=
  (world.cell? id).bind fun cell => (world.graph cell.reactor).node? id

def isAlive (world : World κ ν σ) (id : ReactorId) : Bool :=
  ((world.reactor? id).map Reactor.isAlive).getD false

def document? (world : World κ ν σ) (id : DocumentId) : Option Document :=
  world.documents[id.index]?

def mount? (world : World κ ν σ) (id : MountId) : Option (Mount κ) :=
  world.mounts[id.index]?

def modifyMount (world : World κ ν σ) (id : MountId) (change : Mount κ → Mount κ) :
    World κ ν σ :=
  { world with mounts := world.mounts.modify id.index change }

def record (world : World κ ν σ) (event : Event κ ν) : World κ ν σ :=
  { world with past := event :: world.past }

/-- What has happened, in order. -/
def trace (world : World κ ν σ) : List (Event κ ν) :=
  world.past.reverse

theorem trace_record (world : World κ ν σ) (event : Event κ ν) :
    (world.record event).trace = world.trace ++ [event] := by
  simp [record, trace]

/-- Report a failing subscriber, if the reactor's settings ask for it. -/
def report (world : World κ ν σ) (id : ReactorId) (failure : ReactiveFailure) : World κ ν σ :=
  match world.reactor? id with
  | some reactor =>
    if reactor.settings.reportsFailures then world.record (.failed failure) else world
  | none => world

/-- Record a tracked read for the running computation of a reactor. -/
def noteRead (world : World κ ν σ) (id : ReactorId) (node : NodeId) : World κ ν σ :=
  match (world.reactor? id).bind Reactor.reader? with
  | some reader => (world.mapGraph id (·.connect node reader)).record (.read node (some reader))
  | none => world.record (.read node none)

/-- Record that the running computation of a reactor writes a node. -/
def noteWrite (world : World κ ν σ) (id : ReactorId) (source : NodeId) : World κ ν σ :=
  match (world.reactor? id).bind Reactor.reader? with
  | some writer =>
    (world.mapGraph id (·.noteWrite source writer)).record (.wrote source (some writer))
  | none => world.record (.wrote source none)

/-- Add a cell with its node; the cell takes the next number. -/
def addCell (world : World κ ν σ) (cell : Cell κ ν) (kind : NodeKind) :
    NodeId × World κ ν σ :=
  let id : NodeId := ⟨world.cells.length⟩
  (id, { world with cells := world.cells ++ [cell] }.mapGraph cell.reactor
    (·.insert (.new id kind)))

end World

end ReactiveTree
