/-! # Lists that hold each member once

The graph keeps its edge sets, and a batch its pending writes, in the order in which members were
first added. Such a set is a plain list, grown by `addLast` and shrunk by `List.erase`; both keep
the order of the rest and never introduce a repeat.
-/

namespace ReactiveTree

variable {α : Type} [DecidableEq α]

/-- Add a member at the end unless it is already there. -/
def addLast (members : List α) (member : α) : List α :=
  if member ∈ members then members else members ++ [member]

/-- Add several members, first to last. -/
def addAll (members added : List α) : List α :=
  added.foldl addLast members

@[simp] theorem mem_addLast {members : List α} {member other : α} :
    other ∈ addLast members member ↔ other ∈ members ∨ other = member := by
  unfold addLast
  split
  next present =>
    constructor
    · exact Or.inl
    · rintro (old | rfl)
      · exact old
      · exact present
  next => simp

theorem addLast_of_mem {members : List α} {member : α} (present : member ∈ members) :
    addLast members member = members := by
  simp [addLast, present]

theorem addLast_of_not_mem {members : List α} {member : α} (absent : member ∉ members) :
    addLast members member = members ++ [member] := by
  simp [addLast, absent]

theorem nodup_addLast {members : List α} (distinct : members.Nodup) (member : α) :
    (addLast members member).Nodup := by
  unfold addLast
  split
  · exact distinct
  next absent =>
    rw [List.nodup_append]
    refine ⟨distinct, by simp, ?_⟩
    intro old present new equal
    rw [List.mem_singleton] at equal
    subst equal
    intro same
    exact absent (same ▸ present)

@[simp] theorem mem_addAll {members added : List α} {other : α} :
    other ∈ addAll members added ↔ other ∈ members ∨ other ∈ added := by
  induction added generalizing members with
  | nil => simp [addAll]
  | cons head rest hypothesis =>
    rw [show addAll members (head :: rest) = addAll (addLast members head) rest from rfl,
      hypothesis, mem_addLast, List.mem_cons, or_assoc]

theorem nodup_addAll {members : List α} (distinct : members.Nodup) (added : List α) :
    (addAll members added).Nodup := by
  induction added generalizing members with
  | nil => exact distinct
  | cons head rest hypothesis => exact hypothesis (nodup_addLast distinct head)

/-- Members that are all new are appended. -/
theorem addAll_of_nodup {members added : List α} (distinct : (members ++ added).Nodup) :
    addAll members added = members ++ added := by
  induction added generalizing members with
  | nil => rw [List.append_nil, addAll, List.foldl_nil]
  | cons head rest hypothesis =>
    have new : head ∉ members := fun old =>
      (List.nodup_append.mp distinct).2.2 head old head List.mem_cons_self rfl
    rw [List.append_cons] at distinct ⊢
    rw [← hypothesis distinct, ← addLast_of_not_mem new]
    rfl

/-- Adding members to an empty list keeps the first of each. -/
theorem addAll_nil_eq_eraseDups (added : List α) :
    addAll [] added = added.eraseDups := by
  have loop : ∀ members : List α,
      List.eraseDupsBy.loop (· == ·) added members.reverse = addAll members added := by
    induction added with
    | nil => exact fun members => members.reverse_reverse
    | cons member rest ih =>
      intro members
      show _ = addAll (addLast members member) rest
      rw [← ih, List.eraseDupsBy.loop]
      by_cases present : member ∈ members
      · have known : members.reverse.any (member == ·) = true := by simpa using present
        rw [known, addLast_of_mem present]
      · have new : members.reverse.any (member == ·) = false := by
          refine List.any_eq_false.mpr fun other known same => present ?_
          rw [eq_of_beq same]
          exact List.mem_reverse.mp known
        rw [new, addLast_of_not_mem present, List.reverse_append]
        rfl
  exact (loop []).symm

end ReactiveTree
