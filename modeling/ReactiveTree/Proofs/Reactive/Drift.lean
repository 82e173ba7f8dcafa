import ReactiveTree.Proofs.Reactive.ReadOnly
import ReactiveTree.Reactive.Engine

/-! # What bringing computeds up to date may change

Nodes are charted by the reactor that owns them and by a rank, so that closures read lower ranks
only. Bringing a computed up to date changes marks, versions, values and read edges of computeds up
to its rank that were not clean; `Drift` says so.
-/

namespace ReactiveTree

/-- Which reactor owns a node, and through how many levels of computeds its evaluation can go. -/
structure Chart where
  home : NodeId → Option ReactorId
  rank : NodeId → Nat

/-- The second node may be read by the closure of the first. -/
def Chart.Admits (chart : Chart) (id node : NodeId) : Prop :=
  chart.rank node < chart.rank id ∧ (chart.home node = none ∨ chart.home node = chart.home id)

variable {κ ν σ : Type}

namespace World

/-- A node that bringing computeds below a rank up to date must leave alone. -/
def Settled (world : World κ ν σ) (chart : Chart) (bound : Nat) (id : NodeId) : Prop :=
  bound ≤ chart.rank id ∨
    ∀ node, world.node? id = some node → node.kind = .derived → node.freshness = .clean

end World

/-- Marks, versions, values and read edges may have changed at computeds below a rank that were not
clean; the reader of the moment may have read more. -/
structure Drift (chart : Chart) (bound : Nat) (reader : Option NodeId) (world after : World κ ν σ) :
    Prop where
  outline : ∀ id, (after.node? id).map Node.outline = (world.node? id).map Node.outline
  standing : ∀ id, world.Settled chart bound id →
    (after.node? id).map Node.standing = (world.node? id).map Node.standing
  value : ∀ id, world.Settled chart bound id → after.value? id = world.value? id
  dependencies : ∀ id, world.Settled chart bound id → reader ≠ some id →
    (after.node? id).map Node.dependencies = (world.node? id).map Node.dependencies

namespace Drift

variable {chart : Chart} {bound bound' : Nat} {reader : Option NodeId}
variable {world middle after : World κ ν σ}

theorem of_same (nodes : ∀ id, after.node? id = world.node? id)
    (values : ∀ id, after.value? id = world.value? id) :
    Drift chart bound reader world after where
  outline id := by rw [nodes]
  standing id _ := by rw [nodes]
  value id _ := values id
  dependencies id _ _ := by rw [nodes]

theorem refl (world : World κ ν σ) : Drift chart bound reader world world :=
  of_same (fun _ => rfl) fun _ => rfl

theorem before (drift : Drift chart bound reader world after) {id : NodeId} {node : Node}
    (found : after.node? id = some node) :
    ∃ old, world.node? id = some old ∧ node.outline = old.outline := by
  have same := drift.outline id
  rw [found] at same
  obtain ⟨old, present, equal⟩ := Option.map_eq_some_iff.mp same.symm
  exact ⟨old, present, equal.symm⟩

/-- A node from the bound on is marked as it was and depends on what it did. -/
theorem far (drift : Drift chart bound none world after) {id : NodeId}
    (far : bound ≤ chart.rank id) {node : Node} (live : world.node? id = some node) :
    ∃ node', after.node? id = some node' ∧ node'.freshness = node.freshness ∧
      node'.dependencies = node.dependencies := by
  have standing := drift.standing id (Or.inl far)
  have dependencies := drift.dependencies id (Or.inl far) fun same => nomatch same
  rw [live, Option.map_some] at standing dependencies
  obtain ⟨node', live', same⟩ := Option.map_eq_some_iff.mp standing
  rw [live', Option.map_some] at dependencies
  exact ⟨node', live', congrArg Prod.fst same, Option.some.inj dependencies⟩

theorem settled (drift : Drift chart bound reader world after) {id : NodeId}
    (settled : world.Settled chart bound id) : after.Settled chart bound id := by
  have standing := drift.standing id settled
  refine settled.imp (fun far => far) fun clean node found derived => ?_
  obtain ⟨old, present, outline⟩ := drift.before found
  rw [found, present] at standing
  have same : node.standing = old.standing := Option.some.inj standing
  have oldClean := clean old present ((Node.kind_of_outline outline).symm.trans derived)
  exact (congrArg Prod.fst same).trans oldClean

theorem trans (first : Drift chart bound reader world middle)
    (second : Drift chart bound reader middle after) : Drift chart bound reader world after where
  outline id := (second.outline id).trans (first.outline id)
  standing id settled :=
    (second.standing id (first.settled settled)).trans (first.standing id settled)
  value id settled := (second.value id (first.settled settled)).trans (first.value id settled)
  dependencies id settled apart :=
    (second.dependencies id (first.settled settled) apart).trans
      (first.dependencies id settled apart)

theorem mono (drift : Drift chart bound reader world after) (le : bound ≤ bound') :
    Drift chart bound' reader world after := by
  have narrow : ∀ id, world.Settled chart bound' id → world.Settled chart bound id :=
    fun id => Or.imp_left (Nat.le_trans le)
  exact {
    outline := drift.outline
    standing := fun id settled => drift.standing id (narrow id settled)
    value := fun id settled => drift.value id (narrow id settled)
    dependencies := fun id settled => drift.dependencies id (narrow id settled) }

/-- The reader need not be named when it is itself among the nodes that may change. -/
theorem forget {id : NodeId} (drift : Drift chart bound (some id) world after)
    (le : bound ≤ bound') (unsettled : ¬ world.Settled chart bound' id) :
    Drift chart bound' none world after where
  outline := drift.outline
  standing := (drift.mono le).standing
  value := (drift.mono le).value
  dependencies other settled _ := by
    refine (drift.mono le).dependencies other settled fun same => unsettled ?_
    rw [Option.some.inj same]
    exact settled

/-- A reader may be named that has not read. -/
theorem watched (drift : Drift chart bound none world after) :
    Drift chart bound reader world after where
  outline := drift.outline
  standing := drift.standing
  value := drift.value
  dependencies id settled _ := drift.dependencies id settled (by simp)

/-- A change at a single node that is not settled. -/
theorem of_single {id : NodeId} (unsettled : ¬ world.Settled chart bound id)
    (outline : ∀ other, (after.node? other).map Node.outline =
      (world.node? other).map Node.outline)
    (standing : ∀ other, other ≠ id → (after.node? other).map Node.standing =
      (world.node? other).map Node.standing)
    (value : ∀ other, other ≠ id → after.value? other = world.value? other)
    (dependencies : ∀ other, other ≠ id → (after.node? other).map Node.dependencies =
      (world.node? other).map Node.dependencies) :
    Drift chart bound reader world after := by
  have apart : ∀ other, world.Settled chart bound other → other ≠ id := by
    intro other settled same
    exact unsettled (same ▸ settled)
  exact {
    outline
    standing := fun other settled => standing other (apart other settled)
    value := fun other settled => value other (apart other settled)
    dependencies := fun other settled _ => dependencies other (apart other settled) }

end Drift

end ReactiveTree
