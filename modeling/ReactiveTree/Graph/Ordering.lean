import ReactiveTree.Graph.Invalidation

/-! # The order in which effects run

A source lies behind an effect that reads it, itself or through derived nodes. An effect that has
written a source behind another runs before it. Effects are taken as soon as nothing that they wait
for is left, ties in the order of the queue; what waits for itself around a cycle comes last, in the
order of the queue.
-/

namespace ReactiveTree

namespace Graph

/-- How many edges lead up from the live nodes. -/
def upward (graph : Graph) : Nat :=
  totalCost (fun node => node.dependencies.length) graph.nodes

theorem length_dependenciesOf_le (graph : Graph) (id : NodeId) :
    (graph.dependenciesOf id).length ≤ graph.upward := by
  unfold dependenciesOf
  cases found : graph.node? id with
  | none => exact Nat.zero_le _
  | some node =>
    have live := node?_mem found
    show node.dependencies.length ≤ graph.upward
    unfold upward
    generalize graph.nodes = nodes at live
    induction nodes with
    | nil => cases live
    | cons head rest hypothesis =>
      rw [totalCost_cons]
      rcases List.mem_cons.mp live with rfl | later
      · exact Nat.le_add_right _ _
      · exact Nat.le_add_left_of_le (hypothesis later)

/-- One step up from each node of the stack, the last found derived node first. -/
def sourcesFrom (graph : Graph) (stack visited found : List NodeId) : List NodeId :=
  match stack with
  | [] => found
  | id :: rest =>
    let fresh := (graph.dependenciesOf id).filter fun dependency => dependency ∉ visited
    graph.sourcesFrom ((graph.ofKind .derived fresh).reverse ++ rest) (visited ++ fresh)
      (addAll found (graph.ofKind .source fresh))
termination_by graph.unseenCost (fun _ => graph.upward) visited + stack.length
decreasing_by
  generalize meaning :
    (graph.dependenciesOf id).filter (fun dependency => decide (dependency ∉ visited)) = fresh
  have subset : visited ⊆ visited ++ fresh := List.subset_append_left _ _
  have fewer : (graph.ofKind .derived fresh).length ≤ graph.upward := by
    refine Nat.le_trans (graph.length_ofKind_le _ _) ?_
    rw [← meaning]
    exact Nat.le_trans (List.length_filter_le _ _) (graph.length_dependenciesOf_le id)
  rw [List.length_append, List.length_reverse, List.length_cons]
  cases derived : graph.ofKind .derived fresh with
  | nil =>
    have less : graph.unseenCost (fun _ => graph.upward) (visited ++ fresh) ≤
        graph.unseenCost (fun _ => graph.upward) visited := unseenCost_le subset
    rw [List.length_nil]
    omega
  | cons dependency others =>
    have member : dependency ∈ graph.ofKind .derived fresh := by simp [derived]
    obtain ⟨met, isDerived⟩ := List.mem_filter.mp member
    rw [decide_eq_true_eq, kind?, Option.map_eq_some_iff] at isDerived
    obtain ⟨node, live, -⟩ := isDerived
    have unvisited : dependency ∉ visited := by
      rw [← meaning] at met
      simpa using (List.mem_filter.mp met).2
    have saved : graph.unseenCost (fun _ => graph.upward) (visited ++ fresh) + graph.upward ≤
        graph.unseenCost (fun _ => graph.upward) visited := by
      refine unseenCost_add_le subset (node?_mem live) ?_ ?_
      · rwa [node?_id live]
      · rw [node?_id live]
        exact List.mem_append_right _ met
    rw [derived] at fewer
    omega

/-- The sources that a node reads, itself or through derived nodes. -/
def sourcesBehind (graph : Graph) (id : NodeId) : List NodeId :=
  graph.sourcesFrom [id] [] []

/-- The queued effects, besides itself, that write a source behind an effect. -/
def prerequisites (graph : Graph) (queued : List NodeId) (effect : NodeId) : List NodeId :=
  (addAll [] ((graph.sourcesBehind effect).flatMap graph.writersOf)).filter fun writer =>
    writer ≠ effect ∧ writer ∈ queued

end Graph

/-- An ordering under way. -/
structure Queue.Progress where
  /-- How many prerequisites an effect still waits for. -/
  waiting : NodeId → Nat
  /-- Effects that wait for nothing, first come first. -/
  ready : List NodeId

/-- One prerequisite of an effect is done; it is ready when that was the last. -/
def Queue.Progress.release (progress : Queue.Progress) (effect : NodeId) :
    Queue.Progress :=
  let left := progress.waiting effect - 1
  { waiting := fun other => if other = effect then left else progress.waiting other
    ready := if left = 0 then progress.ready ++ [effect] else progress.ready }

theorem Queue.Progress.length_release_le (progress : Queue.Progress) (effects : List NodeId) :
    (effects.foldl Queue.Progress.release progress).ready.length ≤
      progress.ready.length + effects.length := by
  induction effects generalizing progress with
  | nil => exact Nat.le_refl _
  | cons effect rest hypothesis =>
    refine Nat.le_trans (hypothesis (progress.release effect)) ?_
    have more : (progress.release effect).ready.length ≤ progress.ready.length + 1 := by
      unfold release
      dsimp only
      split
      · rw [List.length_append]
        exact Nat.le_refl _
      · exact Nat.le_succ _
    rw [List.length_cons]
    omega

theorem Queue.cost_erase {cost : NodeId → Nat} {effect : NodeId} {remaining : List NodeId}
    (present : effect ∈ remaining) :
    totalCost cost (remaining.erase effect) + cost effect = totalCost cost remaining := by
  induction remaining with
  | nil => cases present
  | cons head rest hypothesis =>
    by_cases same : head = effect
    · subst same
      rw [List.erase_cons_head, totalCost_cons, Nat.add_comm]
    · have later := (List.mem_cons.mp present).resolve_left (Ne.symm same)
      rw [List.erase_cons_tail (by simpa using same), totalCost_cons, totalCost_cons,
        Nat.add_assoc, hypothesis later]

/-- Take ready effects until none is left. `remaining` holds the effects not yet taken, and
`successors` the effects that wait for one. -/
def Queue.take (successors : NodeId → List NodeId) (waiting : NodeId → Nat)
    (ready remaining : List NodeId) : List NodeId :=
  match ready with
  | [] => []
  | effect :: ready =>
    if effect ∈ remaining then
      let progress := (successors effect).foldl Queue.Progress.release ⟨waiting, ready⟩
      effect :: Queue.take successors progress.waiting progress.ready (remaining.erase effect)
    else Queue.take successors waiting ready remaining
termination_by totalCost (fun effect => (successors effect).length) remaining + ready.length
decreasing_by
  next present =>
    have left : totalCost (fun effect => (successors effect).length) (remaining.erase effect) +
        (successors effect).length =
          totalCost (fun effect => (successors effect).length) remaining := Queue.cost_erase present
    have longer := Queue.Progress.length_release_le ⟨waiting, ready⟩ (successors effect)
    dsimp only at left longer ⊢
    rw [List.length_cons]
    omega
  next => simp

/-- Writers before the effects that read what they write; ties and cycles in the given order. -/
def Graph.schedule (graph : Graph) (queued : List NodeId) : List NodeId :=
  if queued.length < 2 then queued
  else
    let needs := queued.map fun effect => (effect, graph.prerequisites queued effect)
    let waiting := fun effect => ((needs.lookup effect).map List.length).getD 0
    let successors := fun effect =>
      (needs.filter fun need => effect ∈ need.2).map Prod.fst
    let ready := queued.filter fun effect => waiting effect = 0
    let taken := Queue.take successors waiting ready (addAll [] queued)
    taken ++ queued.filter fun effect => effect ∉ taken

end ReactiveTree
