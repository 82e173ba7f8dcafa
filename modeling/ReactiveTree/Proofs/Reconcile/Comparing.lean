import Mathlib.Data.List.Lex
import ReactiveTree.Proofs.Reconcile.Inheriting
import ReactiveTree.Proofs.Reconcile.Layout
import ReactiveTree.Proofs.Reconcile.Matching
import ReactiveTree.Proofs.Sequence.Firsts

/-! # Where a host is out of sync

The children of the container, and those of each element that a matched pair of elements with one tag
leads to, are counted against what the old trees claim. The first count that is off, in the order in
which the new tree is gone through, ends the diff; nothing below that node is looked at. The host and
the old tree may be any.
-/

namespace ReactiveTree

open Document

/-- A host node whose children are counted for old trees. The address leads to the new tree that is to
be shown there, by the index of a child at each step. -/
structure Comparison where
  address : List Nat
  parent : HostId
  old : List Tree

namespace Comparison

/-- A comparison for a child is one for the parent. -/
def under (index : Nat) (comparison : Comparison) : Comparison :=
  { comparison with address := index :: comparison.address }

/-- Comparisons go by the new tree, where a tree comes before what is in it. -/
def Before (first second : Comparison) : Prop :=
  first.address < second.address

instance : Std.Asymm Before where
  asymm _ _ less greater := lt_asymm (show _ < _ from less) greater

variable {H : Type} [Host H] (host : H)

/-- Whether the host has as many children as the old trees stand for. -/
def agrees (comparison : Comparison) : Bool :=
  Tree.widths comparison.old = (Host.children host comparison.parent).length

/-- What is reported if it has not. -/
def failure (comparison : Comparison) : ReconcileFailure :=
  .outOfSync (Tree.widths comparison.old) (Host.children host comparison.parent).length

end Comparison

/-- An old and a new sibling that are matched, with the host nodes of the old one. -/
structure Pairs (nodes : List HostId) (old new : List Tree) (index : Nat) (piece : List HostId)
    (before after : Tree) : Prop where
  found : new[index]? = some after
  matched : ∃ origin, Matched old new origin index ∧ old[origin]? = some before ∧
    piece = pieceAt nodes old origin before

mutual

/-- What is compared for the children of a host node: the node itself, and if it agrees with the old
trees also what is below. -/
inductive Compared {H : Type} [Host H] (host : H) :
    HostId → List Tree → List Tree → Comparison → Prop
  | here {parent : HostId} {old new : List Tree} : Compared host parent old new ⟨[], parent, old⟩
  | beneath {parent : HostId} {old new : List Tree} {index : Nat} {piece : List HostId}
      {before after : Tree} {comparison : Comparison}
      (agrees : Tree.widths old = (Host.children host parent).length)
      (pairs : Pairs (Host.children host parent) old new index piece before after)
      (inside : ComparedInside host piece before after comparison) :
      Compared host parent old new (comparison.under index)

/-- What is compared for a matched pair: the children of the element, or those of the fragment among
their siblings. -/
inductive ComparedInside {H : Type} [Host H] (host : H) :
    List HostId → Tree → Tree → Comparison → Prop
  | element {node : HostId} {tag : String} {oldProps props : Props} {oldChildren children : List Tree}
      {oldKey key : Option Key} {comparison : Comparison}
      (compared : Compared host node oldChildren children comparison) :
      ComparedInside host [node] (.element tag oldProps oldChildren oldKey)
        (.element tag props children key) comparison
  | fragment {nodes piece : List HostId} {oldChildren children : List Tree} {oldKey key : Option Key}
      {index : Nat} {before after : Tree} {comparison : Comparison}
      (pairs : Pairs nodes oldChildren children index piece before after)
      (inside : ComparedInside host piece before after comparison) :
      ComparedInside host nodes (.fragment oldChildren oldKey) (.fragment children key)
        (comparison.under index)

end

section

variable {H : Type} [Host H] (host : H)

/-- The first comparison that is off. -/
structure FirstMismatch (parent : HostId) (old new : List Tree) (comparison : Comparison) : Prop where
  compared : Compared host parent old new comparison
  differs : Tree.widths comparison.old ≠ (Host.children host comparison.parent).length
  first : ∀ other, Compared host parent old new other →
    Tree.widths other.old ≠ (Host.children host other.parent).length →
    other = comparison ∨ comparison.Before other

/-- The comparisons for the children of a host node, given how to go on with the siblings. -/
def comparisonsAt (parent : HostId) (old new : List Tree) (among : Siblings → List Comparison) :
    List Comparison :=
  ⟨[], parent, old⟩ ::
    if Tree.widths old = (Host.children host parent).length then
      among (.of (places (Host.children host parent)) old new)
    else []

mutual

/-- The comparisons for a new tree that continues an old one. -/
def comparisonsInside (run : List Place) (old : Tree) : Tree → List Comparison
  | .text _ => []
  | .element tag _ children _ =>
    match old, run with
    | .element oldTag _ oldChildren _, [place] =>
      if oldTag = tag then
        comparisonsAt host place.node oldChildren children fun siblings =>
          comparisonsAmong siblings.old siblings.partners 0 children
      else []
    | _, _ => []
  | .fragment children _ =>
    match old with
    | .fragment oldChildren _ =>
      let siblings := Siblings.of run oldChildren children
      comparisonsAmong siblings.old siblings.partners 0 children
    | _ => []

/-- The comparisons for new siblings from an index on. -/
def comparisonsAmong (old : List (Tree × List Place)) (partners : List (Option Nat)) (index : Nat) :
    List Tree → List Comparison
  | [] => []
  | child :: rest =>
    (match partners.head?.join.bind (old[·]?) with
      | some (tree, run) => (comparisonsInside run tree child).map (.under index)
      | none => []) ++ comparisonsAmong old partners.tail (index + 1) rest

end

/-- All comparisons that are made for the children of a host node. -/
def comparisons (parent : HostId) (old new : List Tree) : List Comparison :=
  comparisonsAt host parent old new fun siblings =>
    comparisonsAmong host siblings.old siblings.partners 0 new

end

variable {H : Type} [Host H] {host : H} {parent : HostId} {run : List Place} {nodes piece : List HostId}
  {old new : List Tree} {before after tree : Tree} {index : Nat} {comparison inner : Comparison}
  {failure : ReconcileFailure}

/-- The failure of a computation, if it fails. -/
def failureOf {ε α : Type} : Except ε α → Option ε
  | .ok _ => none
  | .error failure => some failure

theorem failureOf_bind_pure {ε α β : Type} (first : Except ε α) (make : α → β) :
    failureOf (first >>= fun value => pure (make value)) = failureOf first := by
  cases first <;> rfl

theorem failureOf_bind_bind {ε α β γ : Type} (first : Except ε α) (second : Except ε β)
    (make : α → β → γ) :
    failureOf (first >>= fun left => second >>= fun right => pure (make left right)) =
      (failureOf first).or (failureOf second) := by
  cases first <;> cases second <;> rfl

/-- The failure that the first of some comparisons to be off reports. -/
def firstFailure (host : H) (comparisons : List Comparison) : Option ReconcileFailure :=
  (comparisons.find? fun comparison => !comparison.agrees host).map (Comparison.failure host)

theorem firstFailure_append (first second : List Comparison) :
    firstFailure host (first ++ second) = (firstFailure host first).or (firstFailure host second) := by
  unfold firstFailure
  rw [List.find?_append]
  cases first.find? fun comparison => !comparison.agrees host <;> rfl

theorem firstFailure_map_under (index : Nat) (comparisons : List Comparison) :
    firstFailure host (comparisons.map (.under index)) = firstFailure host comparisons := by
  unfold firstFailure
  rw [List.find?_map, Option.map_map]
  rfl

theorem failureOf_layoutChildren {plan : Siblings → Except ReconcileFailure Plan}
    {among : Siblings → List Comparison}
    (plans : ∀ siblings, failureOf (plan siblings) = firstFailure host (among siblings)) :
    failureOf (layoutChildren host parent old new plan) =
      firstFailure host (comparisonsAt host parent old new among) := by
  unfold layoutChildren comparisonsAt firstFailure
  by_cases same : Tree.widths old = (Host.children host parent).length
  · have rest := plans (.of (places (Host.children host parent)) old new)
    unfold firstFailure at rest
    simp only [same, ne_eq, not_true_eq_false, if_false, if_true]
    rw [List.find?_cons_of_neg (by simp [Comparison.agrees, same]), ← rest]
    exact failureOf_bind_pure _ _
  · simp only [same, ne_eq, not_false_eq_true, if_true, if_false]
    rw [List.find?_cons_of_pos (by simp [Comparison.agrees, same])]
    rfl

mutual

/-- Planning for a tree fails with the first comparison that is off. -/
theorem failureOf_planMatched (host : H) : (tree : Tree) → ∀ (run : List Place) (old : Tree),
    failureOf (planMatched host run old tree) = firstFailure host (comparisonsInside host run old tree)
  | .text content => by
    intro run old
    unfold planMatched
    rw [comparisonsInside]
    split <;> rfl
  | .element tag props children key => by
    intro run old
    unfold planMatched
    split
    next oldTag oldProps oldChildren oldKey place =>
      rw [comparisonsInside]
      split
      next =>
        rw [← failureOf_layoutChildren fun siblings =>
          failureOf_planSiblings host children siblings.old siblings.partners 0]
        exact failureOf_bind_pure _ _
      next => rfl
    next other =>
      have nothing : comparisonsInside host run old (.element tag props children key) = [] := by
        unfold comparisonsInside
        split
        next => exact (other _ _ _ _ _ rfl rfl).elim
        next => rfl
      rw [nothing]
      rfl
  | .fragment children key => by
    intro run old
    unfold planMatched
    split
    next oldChildren oldKey =>
      rw [comparisonsInside, ← failureOf_planSiblings host children _ _ 0]
      exact failureOf_bind_pure _ _
    next other =>
      have nothing : comparisonsInside host run old (.fragment children key) = [] := by
        unfold comparisonsInside
        split
        next => exact (other _ _ rfl).elim
        next => rfl
      rw [nothing]
      rfl

theorem failureOf_planSiblings (host : H) : (trees : List Tree) →
    ∀ (old : List (Tree × List Place)) (partners : List (Option Nat)) (index : Nat),
      failureOf (planSiblings host old partners trees) =
        firstFailure host (comparisonsAmong host old partners index trees)
  | [] => by
    intro old partners index
    rfl
  | child :: rest => by
    intro old partners index
    have later := failureOf_planSiblings host rest old partners.tail (index + 1)
    unfold planSiblings comparisonsAmong
    rw [firstFailure_append, ← later]
    cases matched : partners.head?.join.bind (old[·]?) with
    | none => exact failureOf_bind_bind _ _ _
    | some entry =>
      obtain ⟨tree, run⟩ := entry
      simp only []
      rw [firstFailure_map_under, ← failureOf_planMatched host child run tree]
      exact failureOf_bind_bind _ _ _

end

/-- What is compared for some pair of siblings. -/
def ComparedAmong (host : H) (nodes : List HostId) (old new : List Tree) (comparison : Comparison) :
    Prop :=
  ∃ index piece before after inner, Pairs nodes old new index piece before after ∧
    ComparedInside host piece before after inner ∧ comparison = inner.under index

theorem compared_iff : Compared host parent old new comparison ↔ comparison = ⟨[], parent, old⟩ ∨
    Tree.widths old = (Host.children host parent).length ∧
      ComparedAmong host (Host.children host parent) old new comparison := by
  constructor
  · intro compared
    cases compared with
    | here => exact Or.inl rfl
    | beneath agrees pairs inside => exact Or.inr ⟨agrees, _, _, _, _, _, pairs, inside, rfl⟩
  · rintro (rfl | ⟨agrees, index, piece, before, after, inner, pairs, inside, rfl⟩)
    · exact .here
    · exact .beneath agrees pairs inside

/-- What is compared for some of the new siblings from an index on, given the old ones with their
runs. -/
def ComparedFrom (host : H) (entries : List (Tree × List Place)) (partners : List (Option Nat))
    (index : Nat) (trees : List Tree) (comparison : Comparison) : Prop :=
  ∃ offset origin before run tree inner, trees[offset]? = some tree ∧
    partners[offset]? = some (some origin) ∧ entries[origin]? = some (before, run) ∧
      ComparedInside host (run.map Place.node) before tree inner ∧
        comparison = inner.under (index + offset)

theorem comparedFrom_zero_iff :
    ComparedFrom host (Siblings.of run old new).old (Siblings.of run old new).partners 0 new
      comparison ↔ ComparedAmong host (run.map Place.node) old new comparison := by
  have cut (origin : Nat) : (Siblings.of run old new).old[origin]? = _ := getElem?_cutRuns run old origin
  have listed {index : Nat} {tree : Tree} (found : new[index]? = some tree) (origin : Nat) :
      (partnersOf old new)[index]? = some (some origin) ↔ Matched old new origin index := by
    rw [← partner_eq_some_iff found]
    simp [partnersOf, found]
  constructor
  · rintro ⟨index, origin, before, piece, tree, inner, found, matched, entry, inside, rfl⟩
    rw [cut, Option.map_eq_some_iff] at entry
    obtain ⟨_, inOld, same⟩ := entry
    cases same
    refine ⟨index, _, before, tree, inner,
      ⟨found, origin, (listed found origin).mp matched, inOld, rfl⟩, ?_, by rw [Nat.zero_add]⟩
    rwa [pieceAt, ← List.map_drop, ← List.map_take]
  · rintro ⟨index, _, before, tree, inner, ⟨found, origin, matched, inOld, rfl⟩, inside, rfl⟩
    refine ⟨index, origin, before, _, tree, inner, found, (listed found origin).mpr matched,
      by rw [cut, inOld]; rfl, ?_, by rw [Nat.zero_add]⟩
    rwa [List.map_take, List.map_drop]

theorem mem_comparisonsAt {among : Siblings → List Comparison}
    (listed : ∀ siblings comparison, comparison ∈ among siblings ↔
      ComparedFrom host siblings.old siblings.partners 0 new comparison) :
    comparison ∈ comparisonsAt host parent old new among ↔ Compared host parent old new comparison := by
  have within := listed (.of (places (Host.children host parent)) old new) comparison
  rw [comparedFrom_zero_iff, map_node_places] at within
  rw [comparisonsAt, List.mem_cons, compared_iff, ← within]
  split
  next same => simp [same]
  next apart => simp [apart]

theorem comparedInside_element_iff {tag oldTag : String} {oldProps props : Props}
    {oldChildren children : List Tree} {oldKey key : Option Key} :
    ComparedInside host nodes (.element oldTag oldProps oldChildren oldKey)
        (.element tag props children key) comparison ↔
      oldTag = tag ∧ ∃ node, nodes = [node] ∧ Compared host node oldChildren children comparison := by
  constructor
  · rintro ⟨compared⟩
    exact ⟨rfl, _, rfl, compared⟩
  · rintro ⟨rfl, node, rfl, compared⟩
    exact .element compared

theorem comparedInside_fragment_iff {oldChildren children : List Tree} {oldKey key : Option Key} :
    ComparedInside host nodes (.fragment oldChildren oldKey) (.fragment children key) comparison ↔
      ComparedAmong host nodes oldChildren children comparison := by
  constructor
  · rintro (_ | ⟨pairs, inside⟩)
    exact ⟨_, _, _, _, _, pairs, inside, rfl⟩
  · rintro ⟨index, piece, before, after, inner, pairs, inside, rfl⟩
    exact .fragment pairs inside

mutual

/-- The comparisons listed for a pair are those that are made. -/
theorem mem_comparisonsInside (host : H) : (tree : Tree) →
    ∀ (run : List Place) (old : Tree) (comparison : Comparison),
      comparison ∈ comparisonsInside host run old tree ↔
        ComparedInside host (run.map Place.node) old tree comparison
  | .text content => by
    intro run old comparison
    rw [comparisonsInside]
    generalize run.map Place.node = nodes
    constructor
    · intro impossible
      cases impossible
    · intro inside
      cases inside
  | .element tag props children key => by
    intro run old comparison
    unfold comparisonsInside
    split
    next oldTag oldProps oldChildren oldKey place =>
      rw [comparedInside_element_iff]
      split
      next same =>
        rw [mem_comparisonsAt fun siblings => mem_comparisonsAmong host children _ _ 0]
        simp [same]
      next apart => simp [apart]
    next other =>
      constructor
      · intro impossible
        cases impossible
      · intro inside
        generalize same : run.map Place.node = nodes at inside
        cases inside
        obtain ⟨place, rfl, -⟩ := List.map_eq_singleton_iff.mp same
        exact (other _ _ _ _ _ rfl rfl).elim
  | .fragment children key => by
    intro run old comparison
    unfold comparisonsInside
    split
    next oldChildren oldKey =>
      rw [comparedInside_fragment_iff, ← comparedFrom_zero_iff]
      exact mem_comparisonsAmong host children _ _ 0 comparison
    next other =>
      generalize run.map Place.node = nodes
      constructor
      · intro impossible
        cases impossible
      · intro inside
        cases inside
        exact (other _ _ rfl).elim

theorem mem_comparisonsAmong (host : H) : (trees : List Tree) →
    ∀ (entries : List (Tree × List Place)) (partners : List (Option Nat)) (index : Nat)
      (comparison : Comparison), comparison ∈ comparisonsAmong host entries partners index trees ↔
        ComparedFrom host entries partners index trees comparison
  | [] => by
    intro entries partners index comparison
    simp [comparisonsAmong, ComparedFrom]
  | child :: rest => by
    intro entries partners index comparison
    have later := mem_comparisonsAmong host rest entries partners.tail (index + 1) comparison
    rw [comparisonsAmong, List.mem_append, later]
    constructor
    · rintro (first | ⟨offset, origin, before, run, tree, inner, found, matched, entry, inside, rfl⟩)
      · split at first
        next before run matched =>
          obtain ⟨inner, listed, rfl⟩ := List.mem_map.mp first
          obtain ⟨origin, partner, entry⟩ := Option.bind_eq_some_iff.mp matched
          refine ⟨0, origin, before, run, child, inner, rfl, ?_, entry,
            (mem_comparisonsInside host child run before inner).mp listed, rfl⟩
          rw [← List.head?_eq_getElem?]
          exact Option.join_eq_some_iff.mp partner
        next => cases first
      · refine ⟨offset + 1, origin, before, run, tree, inner, found, ?_, entry, inside, ?_⟩
        · rwa [← List.getElem?_tail]
        · rw [Nat.add_right_comm, Nat.add_assoc]
    · rintro ⟨offset, origin, before, run, tree, inner, found, matched, entry, inside, rfl⟩
      cases offset with
      | zero =>
        cases found
        have partner : partners.head?.join.bind (entries[·]?) = some (before, run) := by
          rw [List.head?_eq_getElem?, matched]
          exact entry
        rw [partner]
        exact Or.inl (List.mem_map_of_mem ((mem_comparisonsInside host _ run before inner).mpr inside))
      | succ offset =>
        refine Or.inr ⟨offset, origin, before, run, tree, inner, found, ?_, entry, inside, ?_⟩
        · rwa [List.getElem?_tail]
        · rw [Nat.add_right_comm, Nat.add_assoc]

end

theorem mem_comparisons :
    comparison ∈ comparisons host parent old new ↔ Compared host parent old new comparison :=
  mem_comparisonsAt fun _ => mem_comparisonsAmong host new _ _ 0

theorem Comparison.before_under {first second : Comparison} :
    (first.under index).Before (second.under index) ↔ first.Before second := by
  simp [Before, under]

/-- The node itself comes before what is below. -/
theorem comparisonsAt_pairwise {among : Siblings → List Comparison}
    (listed : ∀ siblings comparison, comparison ∈ among siblings ↔
      ComparedFrom host siblings.old siblings.partners 0 new comparison)
    (ordered : ∀ siblings, (among siblings).Pairwise Comparison.Before) :
    (comparisonsAt host parent old new among).Pairwise Comparison.Before := by
  rw [comparisonsAt, List.pairwise_cons]
  split
  next =>
    refine ⟨fun comparison member => ?_, ordered _⟩
    obtain ⟨offset, _, _, _, _, inner, _, _, _, _, rfl⟩ := (listed _ comparison).mp member
    exact List.nil_lt_cons ..
  next => simp

mutual

/-- Comparisons are listed in the order of the new tree. -/
theorem comparisonsInside_pairwise (host : H) : (tree : Tree) →
    ∀ (run : List Place) (old : Tree),
      (comparisonsInside host run old tree).Pairwise Comparison.Before
  | .text content => by
    intro run old
    rw [comparisonsInside]
    exact .nil
  | .element tag props children key => by
    intro run old
    unfold comparisonsInside
    split
    next =>
      split
      next =>
        exact comparisonsAt_pairwise (fun _ => mem_comparisonsAmong host children _ _ 0)
          fun _ => comparisonsAmong_pairwise host children _ _ 0
      next => exact .nil
    next => exact .nil
  | .fragment children key => by
    intro run old
    unfold comparisonsInside
    split
    next => exact comparisonsAmong_pairwise host children _ _ 0
    next => exact .nil

theorem comparisonsAmong_pairwise (host : H) : (trees : List Tree) →
    ∀ (entries : List (Tree × List Place)) (partners : List (Option Nat)) (index : Nat),
      (comparisonsAmong host entries partners index trees).Pairwise Comparison.Before
  | [] => by
    intro entries partners index
    exact .nil
  | child :: rest => by
    intro entries partners index
    rw [comparisonsAmong, List.pairwise_append]
    refine ⟨?_, comparisonsAmong_pairwise host rest entries partners.tail (index + 1), ?_⟩
    · split
      next before run matched =>
        exact (comparisonsInside_pairwise host child run before).map _ fun _ _ =>
          Comparison.before_under.mpr
      next => exact .nil
    · intro first member second later
      obtain ⟨offset, _, _, _, _, inner, _, _, _, _, rfl⟩ :=
        (mem_comparisonsAmong host rest _ _ _ second).mp later
      split at member
      next =>
        obtain ⟨other, -, rfl⟩ := List.mem_map.mp member
        exact List.Lex.rel (show index < index + 1 + offset by omega)
      next => cases member

end

theorem comparisons_pairwise (host : H) (parent : HostId) (old new : List Tree) :
    (comparisons host parent old new).Pairwise Comparison.Before :=
  comparisonsAt_pairwise (fun _ => mem_comparisonsAmong host new _ _ 0)
    fun _ => comparisonsAmong_pairwise host new _ _ 0

theorem find?_eq_some_iff_firstMismatch :
    (comparisons host parent old new).find? (fun comparison => !comparison.agrees host) =
      some comparison ↔ FirstMismatch host parent old new comparison := by
  rw [find?_eq_some_iff_first (comparisons_pairwise host parent old new)]
  simp only [mem_comparisons, Comparison.agrees, Bool.not_eq_true', decide_eq_false_iff_not]
  constructor
  · rintro ⟨compared, differs, first⟩
    exact ⟨compared, differs, first⟩
  · rintro ⟨compared, differs, first⟩
    exact ⟨compared, differs, first⟩

/-- There is a first mismatch if there is any. -/
theorem exists_firstMismatch_iff : (∃ comparison, FirstMismatch host parent old new comparison) ↔
    ∃ comparison, Compared host parent old new comparison ∧
      Tree.widths comparison.old ≠ (Host.children host comparison.parent).length := by
  simp only [← find?_eq_some_iff_firstMismatch, ← Option.isSome_iff_exists, List.find?_isSome,
    mem_comparisons, Comparison.agrees, Bool.not_eq_true', decide_eq_false_iff_not]

/-- A diff of children fails exactly with what the first comparison to be off reports. -/
theorem childPatches_eq_error_iff : childPatches host parent old new = .error failure ↔
    ∃ comparison, FirstMismatch host parent old new comparison ∧ comparison.failure host = failure := by
  have ends : failureOf (childPatches host parent old new) =
      firstFailure host (comparisons host parent old new) :=
    failureOf_layoutChildren fun siblings => failureOf_planSiblings host new _ _ 0
  have error : childPatches host parent old new = .error failure ↔
      failureOf (childPatches host parent old new) = some failure := by
    cases childPatches host parent old new <;> simp [failureOf]
  rw [error, ends, firstFailure, Option.map_eq_some_iff]
  simp only [find?_eq_some_iff_firstMismatch]

end ReactiveTree
