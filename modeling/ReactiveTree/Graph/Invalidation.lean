import ReactiveTree.Graph.Basic

/-! # What a change reaches

A changed source gives up its dependents. Those that are derived become dirty, the derived nodes
further down become doubtful, and every effect met on the way is to be woken: for certain if it
read the source itself, and otherwise on condition that a derived input turns out to have changed.
-/

namespace ReactiveTree

/-- An effect that a change may have to run. -/
structure Wakeup where
  effect : NodeId
  /-- Whether the effect read a changed source itself. -/
  certain : Bool
  /-- The changed sources that reach the effect, in the order in which they were listed. -/
  causes : List NodeId
  deriving DecidableEq, Repr

/-- The effects that one changed source reaches. -/
structure Reach where
  source : NodeId
  /-- Readers of the source. -/
  direct : List NodeId
  /-- Readers of a derived node downstream of the source. -/
  indirect : List NodeId
  deriving DecidableEq, Repr

/-- What the members of a list cost together. -/
def totalCost {α : Type} (cost : α → Nat) : List α → Nat
  | [] => 0
  | member :: rest => cost member + totalCost cost rest

theorem totalCost_cons {α : Type} (cost : α → Nat) (member : α) (rest : List α) :
    totalCost cost (member :: rest) = cost member + totalCost cost rest :=
  rfl

namespace Graph

/-- What the live nodes that are not among the names cost together. -/
def unseenCost (graph : Graph) (cost : Node → Nat) (seen : List NodeId) : Nat :=
  totalCost cost (graph.nodes.filter fun node => node.id ∉ seen)

theorem unseenCost_le {graph : Graph} {cost : Node → Nat} {seen more : List NodeId}
    (subset : seen ⊆ more) : graph.unseenCost cost more ≤ graph.unseenCost cost seen := by
  unfold unseenCost
  induction graph.nodes with
  | nil => simp
  | cons node rest hypothesis =>
    simp only [List.filter_cons]
    by_cases old : node.id ∈ seen
    · simpa [old, subset old] using hypothesis
    · by_cases new : node.id ∈ more
      · simp only [old, new, not_true, not_false_eq_true, decide_true, decide_false,
          Bool.false_eq_true, if_true, if_false, totalCost_cons]
        omega
      · simpa [old, new, totalCost_cons] using hypothesis

/-- A node that is met saves its own cost. -/
theorem unseenCost_add_le {graph : Graph} {cost : Node → Nat} {seen more : List NodeId}
    (subset : seen ⊆ more) {node : Node} (live : node ∈ graph.nodes) (fresh : node.id ∉ seen)
    (met : node.id ∈ more) :
    graph.unseenCost cost more + cost node ≤ graph.unseenCost cost seen := by
  have monotone (nodes : List Node) :
      totalCost cost (nodes.filter fun node => node.id ∉ more) ≤
        totalCost cost (nodes.filter fun node => node.id ∉ seen) :=
    @unseenCost_le ⟨nodes⟩ cost seen more subset
  unfold unseenCost
  generalize graph.nodes = nodes at live
  induction nodes with
  | nil => cases live
  | cons head rest hypothesis =>
    simp only [List.filter_cons]
    cases List.mem_cons.mp live with
    | inl same =>
      subst same
      have := monotone rest
      simp only [fresh, met, not_true, not_false_eq_true, decide_true, decide_false,
        Bool.false_eq_true, if_true, if_false, totalCost_cons]
      omega
    | inr later =>
      have smaller := hypothesis later
      by_cases old : head.id ∈ seen
      · simpa [old, subset old] using smaller
      · by_cases new : head.id ∈ more
        · simp only [old, new, not_true, not_false_eq_true, decide_true, decide_false,
            Bool.false_eq_true, if_true, if_false, totalCost_cons]
          omega
        · simp only [old, new, not_false_eq_true, decide_true, if_true, totalCost_cons]
          omega

theorem length_ofKind_le (graph : Graph) (kind : NodeKind) (ids : List NodeId) :
    (graph.ofKind kind ids).length ≤ ids.length :=
  List.length_filter_le _ _

/-- The derived nodes met from the pending ones on, along dependents, besides those already seen. -/
def downstream (graph : Graph) (pending seen : List NodeId) : List NodeId :=
  match pending with
  | [] => seen
  | id :: rest =>
    if id ∈ seen then graph.downstream rest seen
    else
      match _found : graph.node? id with
      | none => graph.downstream rest seen
      | some node => graph.downstream (graph.ofKind .derived node.dependents ++ rest) (id :: seen)
termination_by graph.unseenCost (fun node => node.dependents.length + 1) seen + pending.length
decreasing_by
  · simp
  · simp
  next fresh =>
    have id_eq := node?_id _found
    have saved : graph.unseenCost (fun node => node.dependents.length + 1) (id :: seen) +
        (node.dependents.length + 1) ≤
          graph.unseenCost (fun node => node.dependents.length + 1) seen :=
      unseenCost_add_le (List.subset_cons_self id seen) (node?_mem _found) (by rwa [id_eq])
        (by rw [id_eq]; exact List.mem_cons_self)
    have fewer := graph.length_ofKind_le .derived node.dependents
    simp only [List.length_append, List.length_cons]
    omega

/-- Take the dependents of a changed node, mark what lies downstream and collect its effects. -/
def invalidate (graph : Graph) (source : NodeId) : Reach × Graph :=
  let readers := graph.dependentsOf source
  let graph := graph.modify source Node.dropDependents
  let derived := graph.ofKind .derived readers
  let reached := graph.downstream derived []
  let reach : Reach :=
    { source
      direct := graph.ofKind .effect readers
      indirect := graph.ofKind .effect (reached.flatMap graph.dependentsOf) }
  (reach, graph.mapNodes fun node =>
    if node.id ∈ derived then node.markDirty
    else if node.id ∈ reached then node.markDoubtful
    else node)

/-- Invalidate from each listed node in turn; unknown ones reach nothing. -/
def invalidateAll (graph : Graph) : List NodeId → List Reach × Graph
  | [] => ([], graph)
  | source :: rest =>
    if graph.contains source then
      let (reach, graph) := graph.invalidate source
      let (reaches, graph) := graph.invalidateAll rest
      (reach :: reaches, graph)
    else graph.invalidateAll rest

end Graph

/-- Whether a reach meets an effect at all. -/
def Reach.meets (reach : Reach) (effect : NodeId) : Bool :=
  effect ∈ reach.direct ∨ effect ∈ reach.indirect

/-- One wake-up for each effect that some reach meets, oldest effect first. -/
def Wakeup.ofReaches (reaches : List Reach) : List Wakeup :=
  let effects := addAll [] (reaches.flatMap fun reach => reach.direct ++ reach.indirect)
  (Graph.sortIds effects).map fun effect =>
    { effect
      certain := reaches.any fun reach => effect ∈ reach.direct
      causes := addAll [] ((reaches.filter fun reach => reach.meets effect).map Reach.source) }

/-- Mark the listed nodes as changed: the effects to wake, and the graph with its marks. -/
def Graph.propagate (graph : Graph) (sources : List NodeId) : List Wakeup × Graph :=
  let (reaches, graph) := graph.invalidateAll sources
  (Wakeup.ofReaches reaches, graph)

end ReactiveTree
