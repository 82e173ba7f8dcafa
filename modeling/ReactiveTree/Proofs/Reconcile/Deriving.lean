import ReactiveTree.Proofs.Reconcile.Layout

/-! # How a plan comes about

A diff that succeeds has gone through its steps. A tree that continues an old one of the same kind keeps
its node, or leaves the run to its children if it is a fragment; otherwise the run gives way to it.
What holds of plans for any of these reasons is proved by these cases.
-/

namespace ReactiveTree

variable {H : Type} [Host H] {host : H} {parent : HostId} {run : List Place} {old new rest : List Tree}
  {before after child : Tree} {plan : Plan} {patches : List Patch}

/-- What a computation that succeeds has gone through. -/
theorem exists_of_bind_eq_ok {α β ε : Type} {first : Except ε α} {next : α → Except ε β} {value : β}
    (ended : first >>= next = .ok value) : ∃ middle, first = .ok middle ∧ next middle = .ok value := by
  cases first with
  | error failure => cases ended
  | ok middle => exact ⟨middle, rfl, ended⟩

theorem Tree.sameKind_self (tree : Tree) : tree.sameKind tree := by
  cases tree <;> simp [sameKind]

/-- How the plan comes about for a new tree that continues an old one, shown by a run. -/
inductive Derives (host : H) : List Place → Tree → Tree → Plan → Prop
  | text (place : Place) (before after : String) :
      Derives host [place] (.text before) (.text after)
        (.keep place (if before = after then [] else [.update place.node (.text after)]))
  | element {place : Place} {tag : String} {oldProps props : Props} {oldChildren children : List Tree}
      {oldKey key : Option Key} {below : List Patch}
      (laid : layoutChildren host place.node oldChildren children (fun siblings =>
        planSiblings host siblings.old siblings.partners children) = .ok below) :
      Derives host [place] (.element tag oldProps oldChildren oldKey) (.element tag props children key)
        (.keep place ((oldProps.changesTo props).map (Patch.update place.node) ++ below))
  | fragment {run : List Place} {oldChildren children : List Tree} {oldKey key : Option Key}
      {plan : Plan} (enough : run.length = Tree.widths oldChildren)
      (planned : planSiblings host (Siblings.of run oldChildren children).old
        (Siblings.of run oldChildren children).partners children = .ok plan) :
      Derives host run (.fragment oldChildren oldKey) (.fragment children key)
        (plan.without (Siblings.of run oldChildren children).leftOver)
  | exchange {run : List Place} {before after : Tree} (other : ¬ before.sameKind after) :
      Derives host run before after (.exchange run after)

/-- With a run that is as long as the old tree claims, a plan comes about in one of these ways. -/
theorem derives_of_planMatched (width : run.length = before.width)
    (planned : planMatched host run before after = .ok plan) : Derives host run before after plan := by
  cases after with
  | text content =>
    unfold planMatched at planned
    cases before with
    | text shown =>
      obtain ⟨place, rfl⟩ := List.length_eq_one_iff.mp width
      cases planned
      exact .text place shown content
    | element | fragment =>
      cases planned
      exact .exchange (by simp [Tree.sameKind])
  | element tag props children key =>
    unfold planMatched at planned
    cases before with
    | element oldTag oldProps oldChildren oldKey =>
      obtain ⟨place, rfl⟩ := List.length_eq_one_iff.mp width
      dsimp only at planned
      split at planned
      next same =>
        subst same
        obtain ⟨below, laid, done⟩ := exists_of_bind_eq_ok planned
        cases done
        exact .element laid
      next apart =>
        cases planned
        exact .exchange (by simpa [Tree.sameKind] using apart)
    | text | fragment =>
      cases planned
      exact .exchange (by simp [Tree.sameKind])
  | fragment children key =>
    unfold planMatched at planned
    cases before with
    | fragment oldChildren oldKey =>
      obtain ⟨inner, siblings, same⟩ := exists_of_bind_eq_ok planned
      cases same
      exact .fragment width siblings
    | text | element =>
      cases planned
      exact .exchange (by simp [Tree.sameKind])

/-- A plan for siblings is one for the first, which may continue an old sibling, and one for the others. -/
theorem exists_of_planSiblings_cons {entries : List (Tree × List Place)}
    {partners : List (Option Nat)}
    (planned : planSiblings host entries partners (child :: rest) = .ok plan) :
    ∃ head tail, planSiblings host entries partners.tail rest = .ok tail ∧ head.append tail = plan ∧
      (partners.head?.join.bind (entries[·]?) = none ∧ head = .create child ∨
        ∃ entry ∈ entries, partners.head?.join.bind (entries[·]?) = some entry ∧
          planMatched host entry.2 entry.1 child = .ok head) := by
  unfold planSiblings at planned
  cases matched : partners.head?.join.bind (entries[·]?) with
  | none =>
    rw [matched] at planned
    obtain ⟨head, created, joined⟩ := exists_of_bind_eq_ok planned
    obtain ⟨tail, plannedTail, same⟩ := exists_of_bind_eq_ok joined
    cases created
    cases same
    exact ⟨_, tail, plannedTail, rfl, Or.inl ⟨rfl, rfl⟩⟩
  | some entry =>
    rw [matched] at planned
    obtain ⟨head, plannedHead, joined⟩ := exists_of_bind_eq_ok planned
    obtain ⟨tail, plannedTail, same⟩ := exists_of_bind_eq_ok joined
    cases same
    obtain ⟨index, -, here⟩ := Option.bind_eq_some_iff.mp matched
    exact ⟨head, tail, plannedTail, rfl,
      Or.inr ⟨entry, List.mem_of_getElem? here, rfl, plannedHead⟩⟩

/-- The children that are laid out are as many as the old trees stand for, and the patches are those of
the plan for them. -/
theorem exists_plan_of_layoutChildren {make : Siblings → Except ReconcileFailure Plan}
    (laid : layoutChildren host parent old new make = .ok patches) :
    (places (Host.children host parent)).length = Tree.widths old ∧
      ∃ plan, make (Siblings.of (places (Host.children host parent)) old new) = .ok plan ∧
        plan.below ++ (plan.without
          (Siblings.of (places (Host.children host parent)) old new).leftOver).layout parent =
          patches := by
  unfold ReactiveTree.layoutChildren at laid
  by_cases width : Tree.widths old = (Host.children host parent).length
  · simp only [width, ne_eq, not_true_eq_false, if_false] at laid
    obtain ⟨plan, made, same⟩ := exists_of_bind_eq_ok laid
    cases same
    refine ⟨?_, plan, made, rfl⟩
    rw [width, ← List.length_map Place.node, map_node_places]
  · simp only [width, ne_eq, not_false_eq_true, if_true] at laid
    cases laid

end ReactiveTree
