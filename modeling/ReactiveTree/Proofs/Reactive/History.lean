import ReactiveTree.Proofs.Reactive.Drift
import Mathlib.Data.Finset.Card
import Mathlib.Logic.Relation

/-! # Histories of top-level operations

A history is what happens outside all closures: reactors, signals, computeds and effects are made,
signals are written, nodes are read, effects are stopped, and batches open and close. Node numbers
are given in the order of making, so a history says by itself which nodes it makes, and which node
may read which. When no computed may read itself, directly or through others, every node has a rank.
-/

namespace ReactiveTree

/-- Top-level operations, one after the other. -/
inductive History (κ ν : Type) where
  | done
  | newReactor (settings : Settings) (rest : History κ ν)
  | newSignal (reactor : ReactorId) (value : ν) (rest : History κ ν)
  | newComputed (reactor : ReactorId) (body : κ) (rest : History κ ν)
  | set (signal : NodeId) (value : ν) (rest : History κ ν)
  /-- Write what a function makes of the present value. -/
  | update (signal : NodeId) (change : ν → ν) (rest : History κ ν)
  /-- Read a node and go on even if the read fails. -/
  | read (node : NodeId) (rest : History κ ν)
  | batch (reactor : ReactorId) (inner rest : History κ ν)

/-- What a history makes: the owner of a node and, for a computed, its code. -/
structure Making (κ : Type) where
  owner : ReactorId
  code? : Option κ

/-- What a cell is made as. -/
def Cell.making {κ ν : Type} (cell : Cell κ ν) : Making κ :=
  ⟨cell.reactor, cell.code?⟩

namespace History

variable {κ ν σ : Type}

/-- Carry a history out. -/
def act : History κ ν → Act κ ν σ Unit
  | done => .pure ()
  | newReactor settings rest => .bind (.call (.newReactor settings)) fun _ => rest.act
  | newSignal reactor value rest => .bind (.call (.newSignal reactor value)) fun _ => rest.act
  | newComputed reactor body rest => .bind (.call (.newComputed reactor body)) fun _ => rest.act
  | set signal value rest => .bind (.call (.set signal value)) fun _ => rest.act
  | update signal change rest =>
    .bind (.call (.stored signal)) fun old =>
      .bind (match old with
        | some value => .call (.set signal (change value))
        | none => .pure ()) fun _ => rest.act
  | read node rest => .bind (.attempt (.call (.get node))) fun _ => rest.act
  | batch reactor inner rest => .bind (.within (.batch reactor) inner.act) fun _ => rest.act

/-- The nodes that a history makes, in the order of their numbers. -/
def made : History κ ν → List (Making κ)
  | done => []
  | newReactor _ rest => rest.made
  | newSignal reactor _ rest => ⟨reactor, none⟩ :: rest.made
  | newComputed reactor body rest => ⟨reactor, some body⟩ :: rest.made
  | set _ _ rest => rest.made
  | update _ _ rest => rest.made
  | read _ rest => rest.made
  | batch _ inner rest => inner.made ++ rest.made

/-- How many reactors a history makes. -/
def reactors : History κ ν → Nat
  | done => 0
  | newReactor _ rest => rest.reactors + 1
  | newSignal _ _ rest => rest.reactors
  | newComputed _ _ rest => rest.reactors
  | set _ _ rest => rest.reactors
  | update _ _ rest => rest.reactors
  | read _ rest => rest.reactors
  | batch _ inner rest => inner.reactors + rest.reactors

/-- Every reactor and every written signal exists when it is named, after so many reactors and such
nodes were made. -/
def Fits : Nat → List (Making κ) → History κ ν → Prop
  | _, _, done => True
  | count, nodes, newReactor _ rest => rest.Fits (count + 1) nodes
  | count, nodes, newSignal reactor _ rest =>
    reactor.index < count ∧ rest.Fits count (nodes ++ [⟨reactor, none⟩])
  | count, nodes, newComputed reactor body rest =>
    reactor.index < count ∧ rest.Fits count (nodes ++ [⟨reactor, some body⟩])
  | count, nodes, set signal _ rest =>
    (∃ making, nodes[signal.index]? = some making ∧ making.code? = none) ∧ rest.Fits count nodes
  | count, nodes, update signal _ rest =>
    (∃ making, nodes[signal.index]? = some making ∧ making.code? = none) ∧ rest.Fits count nodes
  | count, nodes, read _ rest => rest.Fits count nodes
  | count, nodes, batch _ inner rest =>
    inner.Fits count nodes ∧ rest.Fits (count + inner.reactors) (nodes ++ inner.made)

end History

section

variable {κ ν σ : Type}

/-- The closure of one node may read another. -/
def MayRead (program : Program κ ν σ) (nodes : List (Making κ)) (reader node : NodeId) : Prop :=
  ∃ making body, nodes[reader.index]? = some making ∧ making.code? = some body ∧
    (program.compute body).MayRead node

/-- The closures make tracked reads only, of nodes of their own reactor, and no computed may read
itself, directly or through others. -/
structure ReadsOnly (program : Program κ ν σ) (nodes : List (Making κ)) : Prop where
  onlyReads : ∀ making body, making ∈ nodes → making.code? = some body →
    (program.compute body).OnlyReads fun _ => True
  ownReactor : ∀ reader node making making', MayRead program nodes reader node →
    nodes[reader.index]? = some making → nodes[node.index]? = some making' →
    making'.owner = making.owner
  acyclic : ∀ id, ¬ Relation.TransGen (MayRead program nodes) id id

open Classical in
/-- A node's rank: one more than the number of nodes that a computed may read, directly or through
others, and nothing for the rest. -/
noncomputable def rankIn (program : Program κ ν σ) (nodes : List (Making κ)) (id : NodeId) : Nat :=
  if ∃ making ∈ nodes[id.index]?, making.code?.isSome then
    ((Finset.range nodes.length).filter fun index =>
      Relation.TransGen (MayRead program nodes) id ⟨index⟩).card + 1
  else 0

/-- The chart of the nodes that were made. -/
noncomputable def chartOf (program : Program κ ν σ) (nodes : List (Making κ)) : Chart where
  home id := (nodes[id.index]?).map Making.owner
  rank := rankIn program nodes

variable {program : Program κ ν σ} {nodes : List (Making κ)}

theorem rankIn_lt (readsOnly : ReadsOnly program nodes) {reader node : NodeId}
    (reads : MayRead program nodes reader node) :
    rankIn program nodes node < rankIn program nodes reader := by
  classical
  have ⟨making, body, found, code, _⟩ := reads
  have isComputed : ∃ making ∈ nodes[reader.index]?, making.code?.isSome := by
    refine ⟨making, found, ?_⟩
    rw [code]
    rfl
  unfold rankIn
  rw [if_pos isComputed]
  split
  next computed =>
    obtain ⟨making', found', _⟩ := computed
    have known : node.index < nodes.length := (List.getElem?_eq_some_iff.mp found').1
    refine Nat.succ_lt_succ (Finset.card_lt_card ?_)
    rw [Finset.ssubset_iff_of_subset]
    · refine ⟨node.index, ?_, ?_⟩
      · rw [Finset.mem_filter, Finset.mem_range]
        exact ⟨known, Relation.TransGen.single reads⟩
      · rw [Finset.mem_filter]
        rintro ⟨_, around⟩
        exact readsOnly.acyclic node around
    · intro index member
      rw [Finset.mem_filter] at member ⊢
      exact ⟨member.1, Relation.TransGen.head reads member.2⟩
  next => exact Nat.succ_pos _

theorem rankIn_le (readsOnly : ReadsOnly program nodes) (id : NodeId) :
    rankIn program nodes id ≤ nodes.length := by
  classical
  unfold rankIn
  split
  next computed =>
    obtain ⟨making, found, _⟩ := computed
    have known : id.index < nodes.length := (List.getElem?_eq_some_iff.mp found).1
    have fewer : ((Finset.range nodes.length).filter fun index =>
        Relation.TransGen (MayRead program nodes) id ⟨index⟩).card <
          (Finset.range nodes.length).card := by
      refine Finset.card_lt_card ?_
      rw [Finset.ssubset_iff_of_subset (Finset.filter_subset _ _)]
      refine ⟨id.index, Finset.mem_range.mpr known, ?_⟩
      rw [Finset.mem_filter]
      rintro ⟨_, around⟩
      exact readsOnly.acyclic id around
    rwa [Finset.card_range] at fewer
  next => exact Nat.zero_le _

/-- Closures that read earlier nodes of the one reactor never lead back to themselves. -/
theorem readsOnly_of_earlier (owner : ReactorId) (owned : ∀ making ∈ nodes, making.owner = owner)
    (earlier : ∀ (id : NodeId) (making : Making κ) body, nodes[id.index]? = some making →
      making.code? = some body →
      (program.compute body).OnlyReads fun node => node.index < id.index) :
    ReadsOnly program nodes := by
  have falls : ∀ reader node, MayRead program nodes reader node → node.index < reader.index := by
    rintro reader node ⟨making, body, found, code, reads⟩
    exact (earlier reader making body found code).allowed reads
  have path : ∀ reader node, Relation.TransGen (MayRead program nodes) reader node →
      node.index < reader.index := by
    intro reader node path
    induction path with
    | single reads => exact falls _ _ reads
    | tail _ reads ih => exact Nat.lt_trans (falls _ _ reads) ih
  refine ⟨fun making body member code => ?_, fun reader node making making' _ found found' => ?_,
    fun id around => Nat.lt_irrefl _ (path id id around)⟩
  · obtain ⟨index, found⟩ := List.getElem?_of_mem member
    exact (earlier ⟨index⟩ making body found code).mono fun _ _ => trivial
  · rw [owned _ (List.mem_of_getElem? found), owned _ (List.mem_of_getElem? found')]

/-- Closures read nodes that the chart admits. -/
theorem ReadsOnly.admits (readsOnly : ReadsOnly program nodes) {id : NodeId} {making : Making κ}
    {body : κ} (found : nodes[id.index]? = some making) (code : making.code? = some body) :
    (program.compute body).OnlyReads ((chartOf program nodes).Admits id) := by
  refine (readsOnly.onlyReads making body (List.mem_of_getElem? found) code).restrict
    fun node reads => ?_
  have may : MayRead program nodes id node := ⟨making, body, found, code, reads⟩
  refine ⟨rankIn_lt readsOnly may, ?_⟩
  cases known : nodes[node.index]? with
  | none =>
    refine Or.inl ?_
    simp only [chartOf, known, Option.map_none]
  | some making' =>
    refine Or.inr ?_
    simp only [chartOf, known, found, Option.map_some]
    rw [readsOnly.ownReactor id node making making' may found known]

end

end ReactiveTree
