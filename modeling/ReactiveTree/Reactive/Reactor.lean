import ReactiveTree.Graph.Ordering
import ReactiveTree.Settings.Basic

/-! # Reactors

A reactor owns a dependency graph and three records of what is going on: the stack of running
computations, which says whom a read belongs to; the chains of the effects that notifications are
running, which say what a write must not touch; and the open batches with the sources written in
them.
-/

namespace ReactiveTree

@[ext] structure ReactorId where
  index : Nat
  deriving DecidableEq, Repr, Inhabited

/-- One running computation. -/
inductive Frame where
  /-- Reads make the node a dependent. -/
  | tracked (reader : NodeId)
  /-- Reads are not recorded. -/
  | untracked
  deriving DecidableEq, Repr

structure Reactor where
  settings : Settings
  graph : Graph
  /-- The running computations, innermost first. -/
  frames : List Frame
  /-- For each effect run by a notification the sources that led to it, innermost first. -/
  chains : List (List NodeId)
  /-- How many batches are open. -/
  depth : Nat
  /-- The sources written in the open batches, in the order of first writing. -/
  pending : List NodeId
  holders : Nat
  deriving DecidableEq, Repr

namespace Reactor

def new (settings : Settings) : Reactor :=
  ⟨settings, .empty, [], [], 0, [], 1⟩

def isAlive (reactor : Reactor) : Bool :=
  0 < reactor.holders

/-- The computation that reads are recorded for. -/
def reader? (reactor : Reactor) : Option NodeId :=
  match reactor.frames with
  | .tracked reader :: _ => some reader
  | _ => none

def mapGraph (reactor : Reactor) (change : Graph → Graph) : Reactor :=
  { reactor with graph := change reactor.graph }

def pushFrame (reactor : Reactor) (frame : Frame) : Reactor :=
  { reactor with frames := frame :: reactor.frames }

def popFrame (reactor : Reactor) : Reactor :=
  { reactor with frames := reactor.frames.tail }

/-- Whether a write to a source belongs to a notification that the source set off. -/
def isCircular (reactor : Reactor) (source : NodeId) : Bool :=
  reactor.chains.head?.any (source ∈ ·)

/-- Extend the innermost chain for an effect with the causes of its run. -/
def pushChain (reactor : Reactor) (causes : List NodeId) : Reactor :=
  { reactor with chains := addAll (reactor.chains.head?.getD []) causes :: reactor.chains }

def popChain (reactor : Reactor) : Reactor :=
  { reactor with chains := reactor.chains.tail }

def openBatch (reactor : Reactor) : Reactor :=
  { reactor with depth := reactor.depth + 1 }

/-- Close one batch; the outermost one gives up the pending sources. -/
def closeBatch (reactor : Reactor) : List NodeId × Reactor :=
  if reactor.depth ≤ 1 then (reactor.pending, { reactor with depth := 0, pending := [] })
  else ([], { reactor with depth := reactor.depth - 1 })

/-- Remember a written source until the outermost batch closes. -/
def postpone (reactor : Reactor) (source : NodeId) : Reactor :=
  { reactor with pending := addLast reactor.pending source }

/-- Forget a node in the graph and among the pending sources. -/
def removeNode (reactor : Reactor) (id : NodeId) : Reactor :=
  { reactor with graph := reactor.graph.remove id, pending := reactor.pending.erase id }

end Reactor

end ReactiveTree
