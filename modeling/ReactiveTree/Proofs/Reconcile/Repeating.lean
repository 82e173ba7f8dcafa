import ReactiveTree.Proofs.Reconcile.Comparing
import ReactiveTree.Proofs.Reconcile.Handover
import ReactiveTree.Proofs.Reconcile.Moving
import ReactiveTree.Proofs.Reconcile.Rendering
import ReactiveTree.Proofs.Reconcile.Staying
import ReactiveTree.Proofs.Tree.Faults

/-! # Reconciling a tree with itself

Where siblings have keys of their own each of them continues itself, no prop differs from itself, and
the places kept go up, so that the longest run is all of them. Then nothing is left to do: a diff
between a tree and itself is empty unless the host is out of sync.
-/

namespace ReactiveTree

open Document Patch

variable {H : Type} [Host H] {host : H} {run nodes : List Place} {tree child : Tree}
  {trees rest : List Tree} {plan : Plan} {index : Nat} {targets : List Target} {parent : HostId}
  {patches : List Patch}

theorem Props.get?_of_mem {props : Props} {entry : String × PropValue} (member : entry ∈ props.onHost) :
    props.get? entry.1 = some entry.2 :=
  lookup_of_mem props.distinct (List.mem_of_mem_filter member)

/-- No prop changes from a set of props to the same: a value equals itself, whatever its kind. -/
theorem Props.changesTo_self (props : Props) : props.changesTo props = [] := by
  rw [Props.changesTo, List.append_eq_nil_iff, List.map_eq_nil_iff, List.filter_eq_nil_iff,
    List.flatMap_eq_nil_iff]
  constructor
  · intro entry member
    simp [get?_of_mem member]
  · intro entry member
    rw [propChanges, get?_of_mem member]
    simp

theorem isLastWithKey_of_nodup {key : Key} (distinct : (trees.filterMap Tree.key?).Nodup)
    (found : trees[index]? = some child) (keyed : child.key? = some key) :
    IsLastWithKey trees key index where
  found := ⟨child, found, keyed⟩
  last := by
    intro later other less there sameKey
    rw [List.Nodup, List.pairwise_filterMap, List.pairwise_iff_getElem] at distinct
    obtain ⟨inside, rfl⟩ := List.getElem?_eq_some_iff.mp found
    obtain ⟨insideLater, rfl⟩ := List.getElem?_eq_some_iff.mp there
    exact distinct index later inside insideLater less key keyed key sameKey rfl

/-- Siblings with keys of their own continue themselves. -/
theorem partnersOf_self (distinct : (trees.filterMap Tree.key?).Nodup) :
    partnersOf trees trees = (List.range trees.length).map some := by
  apply List.ext_getElem?
  intro index
  cases found : trees[index]? with
  | none =>
    have beyond := List.getElem?_eq_none_iff.mp found
    rw [List.getElem?_eq_none (by simpa [partnersOf] using beyond),
      List.getElem?_eq_none (by simpa using beyond)]
  | some child =>
    have inside := (List.getElem?_eq_some_iff.mp found).1
    have matched : Matched trees trees index index := by
      cases keyed : child.key? with
      | none => exact .unkeyed found found keyed keyed
      | some key =>
        have last := isLastWithKey_of_nodup distinct found keyed
        exact .keyed last last
    have own := (partner_eq_some_iff found).mpr matched
    rw [partnersOf, List.getElem?_map, List.getElem?_map, List.getElem?_zipIdx, found,
      List.getElem?_range inside]
    simpa using own

theorem leftOver_self (distinct : (trees.filterMap Tree.key?).Nodup) :
    (Siblings.of run trees trees).leftOver = [] := by
  have none : (Siblings.of run trees trees).old.zipIdx.filter (fun entry =>
      some entry.2 ∉ (Siblings.of run trees trees).partners) = [] := by
    apply List.filter_eq_nil_iff.mpr
    rintro ⟨entry, index⟩ member
    have inside := (List.getElem?_eq_some_iff.mp (List.mem_zipIdx_iff_getElem?.mp member)).1
    have bound : index < trees.length := by
      simp only [Siblings.of, List.length_zip] at inside
      omega
    simp [Siblings.of, partnersOf_self distinct, bound]
  unfold Siblings.leftOver
  rw [none]
  rfl

/-- The plan that keeps every node where it is. -/
def Plan.still (run : List Place) : Plan :=
  ⟨run.map .keep, [], []⟩

theorem Plan.still_append (first second : List Place) :
    (Plan.still first).append (.still second) = .still (first ++ second) := by
  simp [Plan.still, Plan.append]

theorem Board.placeAll_of_stays (board : Board) {entries : List (Target × Nat)}
    (stay : ∀ entry ∈ entries, ∃ place, entry.1 = .stay place) : (board.placeAll entries).1 = [] := by
  induction entries with
  | nil => rfl
  | cons entry rest ih =>
    obtain ⟨target, position⟩ := entry
    obtain ⟨place, rfl⟩ := stay _ List.mem_cons_self
    have later := ih fun other member => stay other (List.mem_cons_of_mem _ member)
    simp [Board.placeAll, Board.placeTarget, later]

theorem length_longestRun_of_increasing {values : List Nat} (ascends : values.Pairwise (· < ·)) :
    (longestRun values).length = values.length := by
  obtain ⟨⟨run, sublist, -, length⟩, longest⟩ := longestRun_longest values
  have whole := longest ⟨values, .refl values, ascends, rfl⟩
  have bound := sublist.length_le
  omega

/-- Kept nodes whose places go up all stay. -/
theorem stays_of_increasing (ascends : run.Pairwise fun left right => left.index < right.index) :
    ∀ target ∈ targetsOf (run.map .keep), ∃ place, target = .stay place := by
  have settled := targetsOf_settles (run.map .keep)
  have kept : (run.map Placement.keep).filterMap Placement.kept? = run := by
    rw [List.filterMap_map]
    exact List.filterMap_some
  have many := length_kept (targetsOf (run.map .keep))
  rw [kept_of_settles settled, length_stayed_targetsOf, kept,
    length_longestRun_of_increasing (List.pairwise_map.mpr ascends), List.length_map] at many
  have unmoved : (targetsOf (run.map .keep)).filterMap Target.moved? = [] :=
    List.eq_nil_of_length_eq_zero (by omega)
  intro target member
  obtain ⟨placement, listed, settles⟩ : ∃ placement ∈ run.map Placement.keep,
      Target.Settles placement target := by
    obtain ⟨position, inside, rfl⟩ := List.mem_iff_getElem.mp member
    have same := settled.length_eq
    exact ⟨_, List.getElem_mem (by omega), settled.get (by omega) inside⟩
  obtain ⟨place, -, rfl⟩ := List.mem_map.mp listed
  cases settles with
  | stay => exact ⟨place, rfl⟩
  | move =>
    have moved := List.filterMap_eq_nil_iff.mp unmoved _ member
    cases moved

theorem Plan.layout_still (ascends : run.Pairwise fun left right => left.index < right.index)
    (parent : HostId) : (Plan.still run).layout parent = [] := by
  have stay := stays_of_increasing ascends
  have remade : (targetsOf (run.map .keep)).filterMap Target.remade? = [] := by
    apply List.filterMap_eq_nil_iff.mpr
    intro target member
    obtain ⟨place, rfl⟩ := stay target member
    rfl
  have placed : ((Board.of parent (targetsOf (run.map .keep))).placeAll
      (targetsOf (run.map .keep)).zipIdx).1 = [] :=
    Board.placeAll_of_stays _ fun entry member => stay entry.1 (List.fst_mem_of_mem_zipIdx member)
  simp only [Plan.layout, Plan.still, remade, placed, List.append_nil]
  rw [removals, List.mergeSort_nil]
  rfl

/-- Whether siblings have keys of their own, at every depth. -/
def Apart (trees : List Tree) : Prop :=
  (trees.filterMap Tree.key?).Nodup ∧ ∀ tree ∈ trees, ¬ tree.HasRepeatedKey

theorem apart_children (apart : ¬ tree.HasRepeatedKey) : Apart tree.children := by
  constructor
  · by_contra repeated
    exact apart ⟨tree, .root tree, repeated⟩
  · rintro child member ⟨part, occurs, repeated⟩
    exact apart ⟨part, .inside member occurs, repeated⟩

/-- Whether all that a plan for siblings ever does is to keep their nodes. -/
def StaysPut (host : H) (trees : List Tree) : Prop :=
  ∀ (entries : List (Tree × List Place)) (index : Nat) (run : List Place) (plan : Plan),
    entries.drop index = trees.zip (cutRuns run trees) → run.length = Tree.widths trees →
    planSiblings host entries ((List.range' index trees.length).map some) trees = .ok plan →
    plan = .still run

theorem StaysPut.siblings (stays : StaysPut host trees)
    (distinct : (trees.filterMap Tree.key?).Nodup) (width : run.length = Tree.widths trees)
    (planned : planSiblings host (Siblings.of run trees trees).old
      (Siblings.of run trees trees).partners trees = .ok plan) :
    plan.without (Siblings.of run trees trees).leftOver = .still run := by
  have partners : (Siblings.of run trees trees).partners =
      (List.range' 0 trees.length).map some := by
    rw [← List.range_eq_range']
    exact partnersOf_self distinct
  rw [partners] at planned
  rw [leftOver_self distinct, stays _ 0 run plan rfl width planned]
  simp [Plan.without, Plan.still]

theorem StaysPut.layoutChildren (stays : StaysPut host trees)
    (distinct : (trees.filterMap Tree.key?).Nodup)
    (laid : layoutChildren host parent trees trees (fun siblings =>
      planSiblings host siblings.old siblings.partners trees) = .ok patches) : patches = [] := by
  obtain ⟨width, plan, planned, rfl⟩ := exists_plan_of_layoutChildren laid
  have still := stays.siblings distinct width planned
  have below : plan.below = [] := congrArg Plan.below still
  rw [below, still, Plan.layout_still (places_pairwise _)]
  rfl

mutual

/-- A plan for a tree that continues itself only keeps its nodes. -/
theorem planMatched_self (host : H) : (tree : Tree) → ¬ tree.HasRepeatedKey →
    ∀ (run : List Place) (plan : Plan), run.length = tree.width →
      planMatched host run tree tree = .ok plan → plan = .still run
  | .text content, _ => by
    intro run plan width planned
    cases derives_of_planMatched width planned with
    | text place =>
      rw [if_pos rfl]
      rfl
    | exchange other => exact (other (Tree.sameKind_self _)).elim
  | .element tag props children key, apart => by
    intro run plan width planned
    have inner := apart_children apart
    cases derives_of_planMatched width planned with
    | element laid =>
      rw [(planSiblings_self host children inner.2).layoutChildren inner.1 laid, Props.changesTo_self]
      rfl
    | exchange other => exact (other (Tree.sameKind_self _)).elim
  | .fragment children key, apart => by
    intro run plan width planned
    have inner := apart_children apart
    cases derives_of_planMatched width planned with
    | fragment enough siblings =>
      exact (planSiblings_self host children inner.2).siblings inner.1 enough siblings
    | exchange other => exact (other (Tree.sameKind_self _)).elim

theorem planSiblings_self (host : H) : (trees : List Tree) → (∀ tree ∈ trees, ¬ tree.HasRepeatedKey) →
    StaysPut host trees
  | [], _ => by
    intro entries index run plan _ width planned
    cases planned
    rw [Tree.widths, List.length_eq_zero_iff] at width
    rw [width]
    rfl
  | child :: rest, apart => by
    intro entries index run plan listed width planned
    rw [Tree.widths] at width
    rw [cutRuns, List.zip_cons_cons] at listed
    have here : entries[index]? = some (child, run.take child.width) := by
      rw [← List.head?_drop, listed]
      rfl
    have later : entries.drop (index + 1) = rest.zip (cutRuns (run.drop child.width) rest) := by
      rw [← List.tail_drop, listed]
      rfl
    obtain ⟨head, tail, plannedTail, rfl, first⟩ := exists_of_planSiblings_cons planned
    simp only [List.length_cons, List.range'_succ, List.map_cons, List.head?_cons, Option.join_some,
      Option.bind_some, List.tail_cons, here] at first plannedTail
    obtain ⟨entry, -, same, plannedHead⟩ := first.resolve_left fun unmatched => nomatch unmatched.1
    cases same
    have first := planMatched_self host child (apart child List.mem_cons_self) _ head
      (by rw [List.length_take]; omega) plannedHead
    have others := planSiblings_self host rest (fun tree member =>
      apart tree (List.mem_cons_of_mem _ member)) entries (index + 1) (run.drop child.width) tail later
      (by rw [List.length_drop]; omega) plannedTail
    rw [first, others, Plan.still_append, List.take_append_drop]

end

/-- Patches from trees to the same trees are none. -/
theorem childPatches_self (apart : Apart trees) (laid : childPatches host parent trees trees = .ok patches) :
    patches = [] :=
  (planSiblings_self host trees apart.2).layoutChildren apart.1 laid

theorem apart_singleton (apart : ¬ tree.HasRepeatedKey) : Apart [tree] := by
  constructor
  · cases keyed : tree.key? <;> simp [keyed]
  · simpa using apart

theorem valid_of_apart (tagged : ¬ tree.HasEmptyTag) (apart : ¬ tree.HasRepeatedKey)
    (policy : KeyPolicy) : tree.Valid policy := by
  by_contra invalid
  rcases Tree.not_valid_iff.mp invalid with empty | ⟨-, repeated⟩
  · exact tagged empty
  · exact apart repeated

/-- Between a tree and itself there are no patches, unless the host is out of sync. -/
theorem diff_self (tagged : ¬ tree.HasEmptyTag) (apart : ¬ tree.HasRepeatedKey) (policy : KeyPolicy)
    (host : H) (container : HostId) :
    diff policy host container (some tree) (some tree) = .ok [] ∨
      ∃ expected found, diff policy host container (some tree) (some tree) =
        .error (.outOfSync expected found) := by
  have sound : (checkTree policy (some tree)).defect = none :=
    (tree.check_defect policy).mpr (valid_of_apart tagged apart policy)
  simp only [diff, sound, Option.toList_some]
  cases laid : childPatches host container [tree] [tree] with
  | ok patches =>
    rw [childPatches_self (apart_singleton apart) laid]
    exact Or.inl rfl
  | error failure =>
    obtain ⟨comparison, -, rfl⟩ := childPatches_eq_error_iff.mp laid
    exact Or.inr ⟨_, _, rfl⟩

/-- Reconciling a tree with itself leaves every host as it is. -/
theorem reconcile_self (tagged : ¬ tree.HasEmptyTag) (apart : ¬ tree.HasRepeatedKey)
    (policy : KeyPolicy) (host : H) (container : HostId) :
    (reconcile policy host container (some tree) (some tree)).2 = host := by
  rcases diff_self tagged apart policy host container with same | ⟨expected, found, failed⟩
  · simp only [reconcile, same]
    rfl
  · simp only [reconcile, failed]

/-- Reconciling a tree with itself does nothing, if it has no empty tag and no siblings share a key: a
diff that is not told of a mismatch is empty, and to reconcile the tree again after it was reconciled
changes nothing on any host. On a document that showed the old tree the second time succeeds as well,
with no patches. -/
theorem repeated_reconcile_does_nothing {tree : Tree} (tagged : ¬ tree.HasEmptyTag)
    (apart : ¬ tree.HasRepeatedKey) (policy : KeyPolicy) (container : HostId) :
    (∀ {H : Type} [Host H] (host : H),
      (∀ expected found, diff policy host container (some tree) (some tree) ≠
        .error (.outOfSync expected found)) →
      diff policy host container (some tree) (some tree) = .ok []) ∧
    (∀ {H : Type} [Host H] (host next : H) (old : Option Tree) (patches : List Patch),
      reconcile policy host container old (some tree) = (.ok patches, next) →
      (reconcile policy next container (some tree) (some tree)).2 = next) ∧
    ∀ (document : Document) (old : Option Tree), document.Reachable → document.contains container →
      document.ShowsAll (document.children container) old.toList →
      ∃ patches next, reconcile policy document container old (some tree) = (.ok patches, next) ∧
        reconcile policy next container (some tree) (some tree) = (.ok [], next) := by
  refine ⟨fun host agrees => ?_, fun host next old patches _ => ?_, ?_⟩
  · exact (diff_self tagged apart policy host container).resolve_right fun ⟨_, _, failed⟩ =>
      agrees _ _ failed
  · exact reconcile_self tagged apart policy next container
  · intro document old reached known shown
    have valid : ValidTree policy (some tree) := by
      rintro root same
      cases same
      exact valid_of_apart tagged apart policy
    obtain ⟨patches, planned, reworks⟩ := diff_of_valid reached.linked known shown valid
    obtain ⟨-, change, shownNow⟩ := reworks.self reached.linked known
    obtain ⟨others, again, -⟩ := diff_of_valid change.linked (change.contains known) shownNow valid
    have none : others = [] := by
      rcases diff_self tagged apart policy (carryOutAll document patches) container with
        same | ⟨_, _, failed⟩
      · exact Except.ok.inj (again.symm.trans same)
      · cases again.symm.trans failed
    subst none
    refine ⟨patches, carryOutAll document patches, ?_, ?_⟩
    · simp only [reconcile, planned]
    · simp only [reconcile, again]
      rfl

/-- A list with props of every kind, numbers that are no number and negative zero among them, where
items with a key stand beside others in a fragment. -/
def Tree.medley : Tree :=
  .element "ul" (.ofList [("class", .text "a"), ("max", .number ⟨0x7FF8000000000000⟩),
      ("min", .number ⟨0x8000000000000000⟩), ("hidden", .flag false),
      ("onClick", .handler (.named "pick"))])
    [.element "li" .empty [.text "x"] (some ⟨"a"⟩), .text "y",
      .fragment [.element "li" .empty [] (some ⟨"a"⟩), .fragment [] none] (some ⟨"b"⟩)] none

theorem repeated_reconcile_does_nothing_medley :
    ¬ Tree.medley.HasEmptyTag ∧ ¬ Tree.medley.HasRepeatedKey ∧
      ∃ patches next,
        reconcile .lastWins Document.empty root none (some .medley) = (.ok patches, next) ∧
          reconcile .lastWins next root (some .medley) (some .medley) = (.ok [], next) := by
  obtain ⟨tagged, apart⟩ := Tree.valid_strict_iff.mp ((Tree.medley.check_defect .strict).mp rfl)
  exact ⟨tagged, apart, (repeated_reconcile_does_nothing tagged apart .lastWins root).2.2 .empty none
    .empty rfl rfl⟩

end ReactiveTree
