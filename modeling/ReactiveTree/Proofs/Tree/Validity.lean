import Mathlib.Data.List.Nodup
import ReactiveTree.Reconcile.Diff

/-! # Valid trees

The check of a tree finds a defect exactly if some element in it has an empty tag or, under the
strict policy, some siblings in it share a key.
-/

namespace ReactiveTree

namespace Tree

/-- A tree occurs in itself and wherever it occurs in a child. -/
inductive Occurs : Tree → Tree → Prop
  | root (tree : Tree) : Occurs tree tree
  | inside {part child tree : Tree} (member : child ∈ tree.children) (occurs : Occurs part child) :
      Occurs part tree

/-- No element has an empty tag and, under the strict policy, no siblings share a key. -/
structure Valid (policy : KeyPolicy) (tree : Tree) : Prop where
  tagged : ∀ {tag props children key}, Occurs (.element tag props children key) tree → tag ≠ ""
  distinct : policy = .strict → ∀ {part}, Occurs part tree →
    (part.children.filterMap key?).Nodup

/-- Whether siblings are valid, and may stand behind others with some keys. -/
structure ValidSiblings (policy : KeyPolicy) (seen : List Key) (trees : List Tree) : Prop where
  each : ∀ tree ∈ trees, tree.Valid policy
  distinct : policy = .strict →
    (trees.filterMap key?).Nodup ∧ ∀ key ∈ trees.filterMap key?, key ∉ seen

variable {policy : KeyPolicy} {seen : List Key} {tree child : Tree} {rest : List Tree}

theorem Valid.of_child (valid : tree.Valid policy) (member : child ∈ tree.children) :
    child.Valid policy :=
  ⟨fun occurs => valid.tagged (.inside member occurs),
    fun strict _ occurs => valid.distinct strict (.inside member occurs)⟩

/-- A tree is valid if it is so at its root and in its children. -/
private theorem valid_iff : tree.Valid policy ↔
    (∀ tag props children key, tree = .element tag props children key → tag ≠ "") ∧
      ValidSiblings policy [] tree.children := by
  constructor
  · intro valid
    refine ⟨?_, fun child member => valid.of_child member, fun strict => ?_⟩
    · rintro tag props children key rfl
      exact valid.tagged (.root _)
    · exact ⟨valid.distinct strict (.root tree), by simp⟩
  · rintro ⟨tagged, each, distinct⟩
    constructor
    · intro tag props children key occurs
      generalize same : Tree.element tag props children key = part at occurs
      cases occurs with
      | root => exact tagged tag props children key same.symm
      | inside member inside => exact (each _ member).tagged (same ▸ inside)
    · intro strict part occurs
      cases occurs with
      | root => exact (distinct strict).1
      | inside member inside => exact (each _ member).distinct strict inside

private theorem validSiblings_cons_of_key {key : Key} (keyed : child.key? = some key) :
    ValidSiblings policy seen (child :: rest) ↔
      child.Valid policy ∧ (policy = .strict → key ∉ seen) ∧
        ValidSiblings policy (if policy = .strict then key :: seen else seen) rest := by
  constructor
  · rintro ⟨each, distinct⟩
    rw [List.filterMap_cons, keyed] at distinct
    refine ⟨each child (List.mem_cons_self ..), fun strict =>
      (distinct strict).2 key (List.mem_cons_self ..),
      fun tree member => each tree (List.mem_cons_of_mem _ member), fun strict => ?_⟩
    obtain ⟨apart, unseen⟩ := distinct strict
    obtain ⟨fresh, later⟩ := List.nodup_cons.mp apart
    rw [if_pos strict]
    refine ⟨later, fun other member => ?_⟩
    rw [List.mem_cons, not_or]
    exact ⟨fun same => fresh (same ▸ member), unseen other (List.mem_cons_of_mem _ member)⟩
  · rintro ⟨first, unseen, each, distinct⟩
    refine ⟨fun tree member => ?_, fun strict => ?_⟩
    · rcases List.mem_cons.mp member with rfl | later
      · exact first
      · exact each tree later
    · obtain ⟨apart, others⟩ := distinct strict
      rw [if_pos strict] at others
      rw [List.filterMap_cons, keyed]
      refine ⟨List.nodup_cons.mpr ⟨fun member => ?_, apart⟩, fun other member => ?_⟩
      · exact others key member (List.mem_cons_self ..)
      · rcases List.mem_cons.mp member with rfl | later
        · exact unseen strict
        · exact fun old => others other later (List.mem_cons_of_mem _ old)

private theorem validSiblings_cons_of_no_key (unkeyed : child.key? = none) :
    ValidSiblings policy seen (child :: rest) ↔
      child.Valid policy ∧ ValidSiblings policy seen rest := by
  constructor
  · rintro ⟨each, distinct⟩
    rw [List.filterMap_cons, unkeyed] at distinct
    exact ⟨each child (List.mem_cons_self ..),
      fun tree member => each tree (List.mem_cons_of_mem _ member), distinct⟩
  · rintro ⟨first, each, distinct⟩
    refine ⟨fun tree member => ?_, fun strict => ?_⟩
    · rcases List.mem_cons.mp member with rfl | later
      · exact first
      · exact each tree later
    · rw [List.filterMap_cons, unkeyed]
      exact distinct strict

private theorem defect_andThen {first second : Verdict} :
    (first.andThen second).defect = none ↔ first.defect = none ∧ second.defect = none := by
  unfold Verdict.andThen
  cases found : first.defect <;> simp [found]

private theorem validSiblings_seen (lenient : policy ≠ .strict) (seen other : List Key) :
    ValidSiblings policy seen rest ↔ ValidSiblings policy other rest :=
  ⟨fun valid => ⟨valid.each, fun strict => absurd strict lenient⟩,
    fun valid => ⟨valid.each, fun strict => absurd strict lenient⟩⟩

mutual

/-- The check of a tree finds no defect exactly if the tree is valid. -/
theorem check_defect (policy : KeyPolicy) : (tree : Tree) →
    ((tree.check policy).defect = none ↔ tree.Valid policy)
  | .text _ => by
    rw [valid_iff]
    exact ⟨fun _ => ⟨by simp, by simp [children], fun _ => by simp [children]⟩, fun _ => rfl⟩
  | .element tag props children key => by
    rw [valid_iff, check]
    by_cases empty : tag = ""
    · rw [if_pos empty]
      constructor
      · intro impossible
        cases impossible
      · intro valid
        exact absurd empty (valid.1 tag props children key rfl)
    · simp only [empty, if_false, checkSiblings_defect policy [] children]
      exact ⟨fun valid => ⟨fun _ _ _ _ same => by cases same; exact empty, valid⟩, And.right⟩
  | .fragment children key => by
    rw [valid_iff, check, checkSiblings_defect policy [] children]
    exact ⟨fun valid => ⟨by simp, valid⟩, And.right⟩

theorem checkSiblings_defect (policy : KeyPolicy) (seen : List Key) : (trees : List Tree) →
    ((checkSiblings policy seen trees).defect = none ↔ ValidSiblings policy seen trees)
  | [] => ⟨fun _ => ⟨by simp, fun _ => by simp⟩, fun _ => rfl⟩
  | child :: rest => by
    rw [checkSiblings]
    cases keyed : child.key? with
    | none =>
      rw [validSiblings_cons_of_no_key keyed]
      exact defect_andThen.trans
        (and_congr (check_defect policy child) (checkSiblings_defect policy seen rest))
    | some key =>
      rw [validSiblings_cons_of_key keyed]
      by_cases repeated : key ∈ seen
      · cases policy with
        | strict => simp [repeated, Verdict.refuse]
        | lastWins =>
          simp only [repeated, if_true, Verdict.after, defect_andThen, check_defect _ child,
            checkSiblings_defect _ seen rest]
          simp
      · simp only [repeated, if_false, defect_andThen, check_defect _ child,
          checkSiblings_defect _ (key :: seen) rest]
        cases policy with
        | strict => simp
        | lastWins => simp [validSiblings_seen _ (key :: seen) seen]

end

/-- A check of trees never tells anything about a host. -/
def OfTree : ReconcileFailure → Prop
  | .outOfSync .. => False
  | _ => True

private theorem ofTree_andThen {first second : Verdict}
    (early : ∀ failure, first.defect = some failure → OfTree failure)
    (late : ∀ failure, second.defect = some failure → OfTree failure) :
    ∀ failure, (first.andThen second).defect = some failure → OfTree failure := by
  unfold Verdict.andThen
  cases found : first.defect with
  | none => exact late
  | some defect => exact early

mutual

theorem ofTree_of_check (policy : KeyPolicy) : (tree : Tree) →
    ∀ failure, (tree.check policy).defect = some failure → OfTree failure
  | .text _ => by simp [check, Verdict.sound]
  | .element tag props children key => by
    rw [check]
    split
    · rintro failure same
      cases same
      trivial
    · exact ofTree_of_checkSiblings policy [] children
  | .fragment children key => by
    rw [check]
    exact ofTree_of_checkSiblings policy [] children

theorem ofTree_of_checkSiblings (policy : KeyPolicy) (seen : List Key) : (trees : List Tree) →
    ∀ failure, (checkSiblings policy seen trees).defect = some failure → OfTree failure
  | [] => by simp [checkSiblings, Verdict.sound]
  | child :: rest => by
    rw [checkSiblings]
    have later := fun seen => ofTree_of_checkSiblings policy seen rest
    have first := ofTree_of_check policy child
    split
    · exact ofTree_andThen first (later seen)
    · split
      · split
        · rintro failure same
          cases same
          trivial
        · exact ofTree_andThen first (later seen)
      · exact ofTree_andThen first (later _)

end

end Tree

/-- Nothing is valid, and a tree if it is valid itself. -/
def ValidTree (policy : KeyPolicy) (tree : Option Tree) : Prop :=
  ∀ root, tree = some root → root.Valid policy

theorem checkTree_defect (policy : KeyPolicy) (tree : Option Tree) :
    (checkTree policy tree).defect = none ↔ ValidTree policy tree := by
  cases tree with
  | none => simp [checkTree, ValidTree, Verdict.sound]
  | some root =>
    simp only [checkTree, ValidTree, Option.map_some, Option.getD_some, Tree.check_defect,
      Option.some.injEq]
    exact ⟨fun valid _ same => same ▸ valid, fun valid => valid root rfl⟩

theorem checkTree_defect_ne_outOfSync {policy : KeyPolicy} {tree : Option Tree}
    {expected found : Nat} (same : (checkTree policy tree).defect = some (.outOfSync expected found)) :
    False := by
  cases tree with
  | none => cases same
  | some root => exact Tree.ofTree_of_check policy root _ same

end ReactiveTree
