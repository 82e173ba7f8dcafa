import ReactiveTree.Reactive.World

/-! # Handles

Handles are counted: a signal or a computed leaves its graph when its last handle is gone, and a
reactor dies with its last. A signal and a computed hold their reactor, a reactor holds its effects,
and a watching effect holds its signal. A running operation counts as a handle of what it works on.
-/

namespace ReactiveTree

/-- A handle of a reactor, or of a cell. -/
inductive Handle where
  | reactor (id : ReactorId)
  | node (id : NodeId)
  deriving DecidableEq, Repr

/-- The handles that an effect's closure holds. -/
def EffectBody.holds {κ : Type} : EffectBody κ → List Handle
  | .watch signal _ => [.node signal]
  | _ => []

namespace Cell

variable {κ ν : Type}

def holders : Cell κ ν → Nat
  | .signal state => state.holders
  | .computed state => state.holders
  | .effect state => state.holders

def withHolders (holders : Nat) : Cell κ ν → Cell κ ν
  | .signal state => .signal { state with holders }
  | .computed state => .computed { state with holders }
  | .effect state => .effect { state with holders }

end Cell

namespace World

variable {κ ν σ : Type}

/-- Take one handle more. -/
def hold (world : World κ ν σ) : Handle → World κ ν σ
  | .reactor id => world.modifyReactor id fun reactor =>
      { reactor with holders := reactor.holders + 1 }
  | .node id => world.modifyCell id fun cell => cell.withHolders (cell.holders + 1)

/-- Take a node out of its reactor's graph; the reactor gives up its handle of an effect. -/
def unregister (world : World κ ν σ) (id : NodeId) : List Handle × World κ ν σ :=
  match world.cell? id with
  | none => ([], world)
  | some cell =>
    let owned :=
      match cell with
      | .effect _ => if (world.graph cell.reactor).contains id then [.node id] else []
      | _ => []
    (owned, world.modifyReactor cell.reactor (·.removeNode id))

/-- What happens when the last handle of something is gone: the handles that go with it. -/
def perish (world : World κ ν σ) : Handle → List Handle × World κ ν σ
  | .reactor id =>
    ((world.graph id).effects.map Handle.node,
      (world.mapGraph id fun _ => .empty).record (.died id))
  | .node id =>
    match world.cell? id with
    | some (.effect effect) => (effect.body.holds, world)
    | some cell =>
      let (owned, world) := world.unregister id
      (owned ++ [.reactor cell.reactor], world)
    | none => ([], world)

/-- How many handles something has. -/
def holdersOf (world : World κ ν σ) : Handle → Nat
  | .reactor id => ((world.reactor? id).map Reactor.holders).getD 0
  | .node id => ((world.cell? id).map Cell.holders).getD 0

/-- Give one handle back. -/
def lose (world : World κ ν σ) : Handle → World κ ν σ
  | .reactor id => world.modifyReactor id fun reactor =>
      { reactor with holders := reactor.holders - 1 }
  | .node id => world.modifyCell id fun cell => cell.withHolders (cell.holders - 1)

/-- Give handles back, and those that go with the last one of something, at most so many. -/
def dropAll (world : World κ ν σ) : List Handle → Nat → World κ ν σ
  | [], _ => world
  | _ :: _, 0 => world
  | handle :: rest, fuel + 1 =>
    let last := world.holdersOf handle = 1
    let world := world.lose handle
    if last then
      let (more, world) := world.perish handle
      world.dropAll (more ++ rest) fuel
    else world.dropAll rest fuel

/-- All handles there are. -/
def totalHolders (world : World κ ν σ) : Nat :=
  world.reactors.foldr (fun reactor total => reactor.holders + total)
    (world.cells.foldr (fun cell total => cell.holders + total) 0)

/-- Give a handle back. -/
def drop (world : World κ ν σ) (handle : Handle) : World κ ν σ :=
  world.dropAll [handle] (world.totalHolders + 1)

/-- Take a node out of its reactor for good. -/
def retire (world : World κ ν σ) (id : NodeId) : World κ ν σ :=
  let (owned, world) := world.unregister id
  world.dropAll owned (world.totalHolders + 1)

end World

end ReactiveTree
