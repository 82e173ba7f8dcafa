import Mathlib.Data.List.Induction
import ReactiveTree.Proofs.Reconcile.Siblings

/-! # The matching rules

Siblings are matched by key, the last with a key on either side, and otherwise by index if neither
has a key. The partners that are computed are exactly the matched ones.
-/

namespace ReactiveTree

/-- Whether an index is that of the last sibling with a key. -/
structure IsLastWithKey (trees : List Tree) (key : Key) (index : Nat) : Prop where
  found : ∃ tree, trees[index]? = some tree ∧ tree.key? = some key
  last : ∀ {later : Nat} {tree : Tree}, index < later → trees[later]? = some tree →
    tree.key? ≠ some key

/-- Whether the old sibling at one index and the new one at another are matched. -/
inductive Matched (old new : List Tree) : Nat → Nat → Prop
  | keyed {key : Key} {origin index : Nat} (inOld : IsLastWithKey old key origin)
      (inNew : IsLastWithKey new key index) : Matched old new origin index
  | unkeyed {index : Nat} {former latter : Tree} (inOld : old[index]? = some former)
      (inNew : new[index]? = some latter) (noKey : former.key? = none)
      (noKeyEither : latter.key? = none) : Matched old new index index

variable {old new trees : List Tree} {tree child : Tree} {key : Key} {origin index : Nat}

private theorem lastWithKey_append_singleton (trees : List Tree) (tree : Tree) (key : Key) :
    lastWithKey (trees ++ [tree]) key =
      if tree.key? = some key then some trees.length else lastWithKey trees key := by
  unfold lastWithKey
  rw [List.zipIdx_append, List.filter_append, List.zipIdx_singleton, Nat.zero_add]
  by_cases keyed : tree.key? = some key <;> simp [keyed]

private theorem isLastWithKey_append_singleton (trees : List Tree) (tree : Tree) (key : Key) :
    IsLastWithKey (trees ++ [tree]) key index ↔
      if tree.key? = some key then index = trees.length else IsLastWithKey trees key index := by
  have atEnd : (trees ++ [tree])[trees.length]? = some tree := by simp
  have earlier : ∀ {position : Nat} {other : Tree}, trees[position]? = some other →
      (trees ++ [tree])[position]? = some other := by
    intro position other here
    rw [List.getElem?_append_left (List.getElem?_eq_some_iff.mp here).1, here]
  have either : ∀ {position : Nat} {other : Tree}, (trees ++ [tree])[position]? = some other →
      trees[position]? = some other ∨ position = trees.length ∧ other = tree := by
    intro position other here
    rcases Nat.lt_or_ge position trees.length with inside | beyond
    · exact .inl (by rwa [List.getElem?_append_left inside] at here)
    · rw [List.getElem?_append_right beyond, List.getElem?_singleton] at here
      split at here
      · exact .inr ⟨by omega, (Option.some.inj here).symm⟩
      · cases here
  split
  next keyed =>
    constructor
    · rintro ⟨⟨other, here, -⟩, last⟩
      rcases either here with inside | ⟨same, -⟩
      · exact absurd keyed (last (List.getElem?_eq_some_iff.mp inside).1 atEnd)
      · exact same
    · rintro rfl
      refine ⟨⟨tree, atEnd, keyed⟩, fun {later other} less here => ?_⟩
      have inside := (List.getElem?_eq_some_iff.mp here).1
      rw [List.length_append, List.length_singleton] at inside
      omega
  next unkeyed =>
    constructor
    · rintro ⟨⟨other, here, keyed⟩, last⟩
      rcases either here with inside | ⟨-, rfl⟩
      · exact ⟨⟨other, inside, keyed⟩, fun less there => last less (earlier there)⟩
      · exact absurd keyed unkeyed
    · rintro ⟨⟨other, here, keyed⟩, last⟩
      refine ⟨⟨other, earlier here, keyed⟩, fun less there => ?_⟩
      rcases either there with inside | ⟨-, rfl⟩
      · exact last less inside
      · exact unkeyed

theorem lastWithKey_eq_some_iff :
    lastWithKey trees key = some index ↔ IsLastWithKey trees key index := by
  induction trees using List.reverseRecOn with
  | nil =>
    constructor
    · intro found
      cases found
    · rintro ⟨⟨tree, found, -⟩, -⟩
      cases found
  | append_singleton rest tree ih =>
    rw [lastWithKey_append_singleton, isLastWithKey_append_singleton]
    split
    · rw [Option.some.injEq, eq_comm]
    · exact ih

/-- The partner of a new child is the old one that it is matched with. -/
theorem partner_eq_some_iff (here : new[index]? = some child) :
    partner old new child index = some origin ↔ Matched old new origin index := by
  constructor
  · intro found
    unfold partner at found
    cases keyed : child.key? with
    | some key =>
      rw [keyed] at found
      simp only [Option.ite_none_right_eq_some, lastWithKey_eq_some_iff] at found
      exact .keyed found.2 found.1
    | none =>
      rw [keyed] at found
      obtain ⟨former, there, rfl⟩ := Option.map_eq_some_iff.mp found
      rw [Option.filter_eq_some_iff] at there
      exact .unkeyed there.1 here (by simpa using there.2) keyed
  · rintro (⟨inOld, inNew⟩ | ⟨inOld, inNew, noKey, noKeyEither⟩)
    · obtain ⟨other, there, keyed⟩ := inNew.found
      rw [here] at there
      cases there
      simp only [partner, keyed, lastWithKey_eq_some_iff.mpr inNew, if_true]
      exact lastWithKey_eq_some_iff.mpr inOld
    · rw [here] at inNew
      cases inNew
      simp [partner, noKeyEither, inOld, noKey]

/-- A new sibling is matched with one old sibling at most. -/
theorem Matched.unique {other : Nat} (matched : Matched old new origin index)
    (also : Matched old new other index) : origin = other := by
  have inside : ∃ child, new[index]? = some child := by
    cases matched with
    | keyed _ inNew => exact inNew.found.imp fun _ found => found.1
    | unkeyed _ inNew => exact ⟨_, inNew⟩
  obtain ⟨child, here⟩ := inside
  rw [← partner_eq_some_iff here] at matched also
  rw [matched] at also
  exact Option.some.inj also

end ReactiveTree
