import Mathlib.Data.List.Nodup
import Mathlib.Data.List.Pairwise
import ReactiveTree.Reconcile.Layout

/-! # The order of slots

Each target ends in one slot, and a target whose node is there from the start has one that holds it
then. Slots are in a strict order in which the final ones go by position and the initial ones by old
place; so a list of all slots shows the children in order at the start and at the end alike.
-/

namespace ReactiveTree

namespace Slot

variable {left middle right : Slot}

theorem before_iff : left.before right ↔ left.anchor < right.anchor ∨
    left.anchor = right.anchor ∧ (left.rank.weight < right.rank.weight ∨
      left.rank.weight = right.rank.weight ∧ left.tie < right.tie) := by
  simp [before]

theorem before_asymm (less : left.before right) : ¬ right.before left := by
  rw [before_iff] at *
  omega

theorem before_irrefl (slot : Slot) : ¬ slot.before slot := by
  rw [before_iff]
  omega

theorem before_total (apart : left ≠ right) : left.before right ∨ right.before left := by
  by_contra neither
  rw [not_or, before_iff, before_iff] at neither
  obtain ⟨anchor, rank, tie⟩ := left
  obtain ⟨anchor', rank', tie'⟩ := right
  have sameRank : rank = rank' := by
    cases rank <;> cases rank' <;> simp [Rank.weight] at neither ⊢ <;> omega
  subst sameRank
  refine apart ?_
  dsimp only at neither
  rw [Slot.mk.injEq]
  exact ⟨by omega, rfl, by omega⟩

end Slot

namespace Target

/-- The place of the node that a target has among the children once the removals are done. -/
def start? : Target → Option Place
  | .stay place => some place
  | .move place => some place
  | .swap place _ => some place
  | _ => none

end Target

/-- The slot in which a target ends. -/
def finalSlot (targets : List Target) (target : Target) (position : Nat) : Slot :=
  if target.isFixed then .fixed position else placedSlot targets position

/-- Targets as a plan settles them: fixed children keep their order, and no place is used twice. -/
structure Ordered (targets : List Target) : Prop where
  increasing : (targets.filterMap Target.fixed?).Pairwise (· < ·)
  distinct : (targets.filterMap Target.start?).Pairwise fun left right => left.index ≠ right.index

variable {targets : List Target} {first second : Target} {early late low high : Nat}
  {lower upper : Place}

namespace Ordered

theorem fixed_lt (ordered : Ordered targets) (here : targets[early]? = some first)
    (there : targets[late]? = some second) (less : early < late)
    (isLow : first.fixed? = some low) (isHigh : second.fixed? = some high) : low < high := by
  have pairs := List.pairwise_iff_getElem.mp (List.pairwise_filterMap.mp ordered.increasing)
  obtain ⟨earlyInside, rfl⟩ := List.getElem?_eq_some_iff.mp here
  obtain ⟨lateInside, rfl⟩ := List.getElem?_eq_some_iff.mp there
  exact pairs early late earlyInside lateInside less low isLow high isHigh

theorem fixed_le (ordered : Ordered targets) (here : targets[early]? = some first)
    (there : targets[late]? = some second) (less : early ≤ late)
    (isLow : first.fixed? = some low) (isHigh : second.fixed? = some high) : low ≤ high := by
  rcases Nat.lt_or_eq_of_le less with strictly | rfl
  · exact Nat.le_of_lt (ordered.fixed_lt here there strictly isLow isHigh)
  · rw [here] at there
    cases there
    rw [isLow] at isHigh
    exact Nat.le_of_eq (Option.some.inj isHigh)

/-- Two targets with the same place are one. -/
theorem position_eq (ordered : Ordered targets) (here : targets[early]? = some first)
    (there : targets[late]? = some second) (isLower : first.start? = some lower)
    (isUpper : second.start? = some upper) (same : lower.index = upper.index) : early = late := by
  have pairs := List.pairwise_iff_getElem.mp (List.pairwise_filterMap.mp ordered.distinct)
  obtain ⟨earlyInside, rfl⟩ := List.getElem?_eq_some_iff.mp here
  obtain ⟨lateInside, rfl⟩ := List.getElem?_eq_some_iff.mp there
  rcases Nat.lt_trichotomy early late with less | equal | greater
  · exact absurd same (pairs early late earlyInside lateInside less lower isLower upper isUpper)
  · exact equal
  · exact absurd same.symm
      (pairs late early lateInside earlyInside greater upper isUpper lower isLower)

end Ordered

theorem lt_anchorAfter (targets : List Target) (position : Nat) :
    position < anchorAfter targets position := by
  unfold anchorAfter
  omega

theorem anchorAfter_le (there : targets[late]? = some second) (isFixed : second.isFixed)
    (less : early < late) : anchorAfter targets early ≤ late := by
  unfold anchorAfter
  by_contra beyond
  have reach : late - (early + 1) < (targets.drop (early + 1)).findIdx Target.isFixed := by omega
  obtain ⟨inside, unfixed⟩ := (List.lt_findIdx_iff _ _ _).mp reach
  have here := unfixed _ (Nat.le_refl _)
  obtain ⟨lateInside, rfl⟩ := List.getElem?_eq_some_iff.mp there
  rw [List.getElem_drop] at here
  simp only [show early + 1 + (late - (early + 1)) = late by omega] at here
  rw [here] at isFixed
  cases isFixed

/-- What an anchor stands for: a fixed child, or the end. -/
theorem anchorAfter_spec (inside : early < targets.length) :
    anchorAfter targets early = targets.length ∨
      ∃ target, targets[anchorAfter targets early]? = some target ∧ target.isFixed := by
  unfold anchorAfter
  rcases Nat.lt_or_ge ((targets.drop (early + 1)).findIdx Target.isFixed)
    (targets.drop (early + 1)).length with found | missing
  · right
    refine ⟨(targets.drop (early + 1)).get ⟨_, found⟩, ?_, List.findIdx_getElem⟩
    rw [List.get_eq_getElem, List.getElem_drop, List.getElem?_eq_getElem]
  · left
    have bound : (targets.drop (early + 1)).findIdx Target.isFixed ≤ _ := List.findIdx_le_length
    rw [List.length_drop] at bound missing
    omega

theorem anchorAfter_le_anchorAfter (less : early < late) (inside : late < targets.length) :
    anchorAfter targets early ≤ anchorAfter targets late := by
  have above := lt_anchorAfter targets late
  rcases anchorAfter_spec inside with last | ⟨target, there, isFixed⟩
  · rw [last]
    rcases anchorAfter_spec (Nat.lt_trans less inside) with same | ⟨other, here, -⟩
    · exact Nat.le_of_eq same
    · exact Nat.le_of_lt (List.getElem?_eq_some_iff.mp here).1
  · exact anchorAfter_le there isFixed (by omega)

theorem anchorOfPlace_mono (targets : List Target) (less : low < high) :
    anchorOfPlace targets low ≤ anchorOfPlace targets high := by
  refine List.findIdx_le_findIdx fun target member beyond => ?_
  cases fixed : target.fixed? with
  | none => simp [fixed] at beyond
  | some index =>
    have above : high < index := by simpa [fixed] using beyond
    simp only [Option.any_some, decide_eq_true_eq]
    omega

theorem anchorOfPlace_le (there : targets[late]? = some second)
    (isHigh : second.fixed? = some high) (less : low < high) :
    anchorOfPlace targets low ≤ late := by
  by_contra beyond
  obtain ⟨inside, before⟩ := (List.lt_findIdx_iff _ _ _).mp (Nat.lt_of_not_le beyond)
  have here := before late (Nat.le_refl _)
  obtain ⟨lateInside, rfl⟩ := List.getElem?_eq_some_iff.mp there
  simp [isHigh] at here
  omega

theorem Ordered.lt_anchorOfPlace (ordered : Ordered targets) (here : targets[early]? = some first)
    (isLow : first.fixed? = some low) (less : low < high) :
    early < anchorOfPlace targets high := by
  refine (List.lt_findIdx_iff _ _ _).mpr ⟨(List.getElem?_eq_some_iff.mp here).1,
    fun other before => ?_⟩
  have inside := Nat.lt_of_le_of_lt before (List.getElem?_eq_some_iff.mp here).1
  cases fixed : targets[other].fixed? with
  | none => simp
  | some index =>
    have below := ordered.fixed_le (List.getElem?_eq_getElem inside) here before fixed isLow
    simp only [Option.any_some, decide_eq_false_iff_not]
    omega

/-- Final slots go by position. -/
theorem finalSlot_before (first : Target) (there : targets[late]? = some second)
    (less : early < late) :
    (finalSlot targets first early).before (finalSlot targets second late) := by
  have inside : late < targets.length := (List.getElem?_eq_some_iff.mp there).1
  have afterEarly := lt_anchorAfter targets early
  have afterLate := lt_anchorAfter targets late
  have monotone := anchorAfter_le_anchorAfter less inside
  rw [Slot.before_iff]
  unfold finalSlot
  by_cases firstFixed : first.isFixed <;> by_cases secondFixed : second.isFixed
  · simp [firstFixed, secondFixed, Slot.fixed, less]
  · simp only [firstFixed, secondFixed, Slot.fixed, placedSlot, if_true]
    exact .inl (Nat.lt_trans less afterLate)
  · have bound := anchorAfter_le there secondFixed less
    simp only [firstFixed, secondFixed, Slot.fixed, placedSlot, Rank.weight, if_true]
    simp only [Bool.false_eq_true, if_false]
    omega
  · simp only [firstFixed, secondFixed, placedSlot]
    simp only [Bool.false_eq_true, if_false, true_and]
    omega

private theorem start?_cases (targets : List Target) {target : Target} {place : Place}
    (start : target.start? = some place) :
    (target.fixed? = some place.index ∧
      ∀ position, initialSlot? targets target position = some (.fixed position)) ∨
    (target.fixed? = none ∧
      ∀ position, initialSlot? targets target position = some (waitingSlot targets place)) := by
  cases target <;> simp_all [Target.start?, Target.fixed?, initialSlot?]

/-- Initial slots go by old place. -/
theorem Ordered.initialSlot_before (ordered : Ordered targets)
    (here : targets[early]? = some first) (there : targets[late]? = some second)
    (isLower : first.start? = some lower) (isUpper : second.start? = some upper)
    (less : lower.index < upper.index) {lowerSlot upperSlot : Slot}
    (starts : initialSlot? targets first early = some lowerSlot)
    (starts' : initialSlot? targets second late = some upperSlot) :
    lowerSlot.before upperSlot := by
  rw [Slot.before_iff]
  rcases start?_cases targets isLower with ⟨firstFixed, slot⟩ | ⟨-, slot⟩ <;>
    rcases start?_cases targets isUpper with ⟨secondFixed, slot'⟩ | ⟨-, slot'⟩ <;>
    rw [slot] at starts <;> rw [slot'] at starts' <;> cases starts <;> cases starts'
  · have positions : early < late := by
      by_contra other
      have := ordered.fixed_le there here (Nat.le_of_not_lt other) secondFixed firstFixed
      omega
    simp [Slot.fixed, positions]
  · exact .inl (ordered.lt_anchorOfPlace here firstFixed less)
  · have bound := anchorOfPlace_le there secondFixed less
    simp only [Slot.fixed, waitingSlot, Rank.weight]
    omega
  · have bound := anchorOfPlace_mono targets less
    simp only [waitingSlot, true_and]
    omega

/-- A slot is there for a target at a position. -/
theorem mem_slots {slot : Slot} : slot ∈ slots targets ↔
    ∃ position target, targets[position]? = some target ∧ slot ∈ slotsFor targets target position := by
  unfold slots
  rw [List.mem_mergeSort, List.mem_flatMap]
  constructor
  · rintro ⟨⟨target, position⟩, member, inside⟩
    exact ⟨position, target, List.mem_zipIdx_iff_getElem?.mp member, inside⟩
  · rintro ⟨position, target, here, inside⟩
    exact ⟨(target, position), List.mem_zipIdx_iff_getElem?.mpr here, inside⟩

/-- The slots of a target are its final one and, if it is to move, the one in which it waits. -/
theorem mem_slotsFor {slot : Slot} {target : Target} {position : Nat} :
    slot ∈ slotsFor targets target position ↔ slot = finalSlot targets target position ∨
      ∃ place, target = .move place ∧ slot = waitingSlot targets place := by
  cases target <;> simp [slotsFor, finalSlot, Target.isFixed, Target.fixed?, or_comm]

/-- The slot that holds a target from the start is one of its own. -/
theorem mem_slotsFor_of_initialSlot {slot : Slot} {target : Target} {position : Nat}
    (initial : initialSlot? targets target position = some slot) :
    slot ∈ slotsFor targets target position := by
  cases target <;> simp_all [initialSlot?, slotsFor]

theorem finalSlot_rank (targets : List Target) (target : Target) (position : Nat) :
    (finalSlot targets target position).rank ≠ .waiting := by
  unfold finalSlot
  split <;> simp [Slot.fixed, placedSlot]

theorem Ordered.slotsFor_disjoint (ordered : Ordered targets)
    (here : targets[early]? = some first) (there : targets[late]? = some second)
    (less : early < late) {slot : Slot} (member : slot ∈ slotsFor targets first early) :
    slot ∉ slotsFor targets second late := by
  intro other
  rcases mem_slotsFor.mp member with rfl | ⟨lower, rfl, rfl⟩ <;>
    rcases mem_slotsFor.mp other with same | ⟨upper, rfl, same⟩
  · have before := finalSlot_before first there less
    rw [← same] at before
    exact Slot.before_irrefl _ before
  · exact finalSlot_rank targets first early (congrArg Slot.rank same)
  · exact finalSlot_rank targets second late (congrArg Slot.rank same).symm
  · have equal := ordered.position_eq here there rfl rfl (congrArg Slot.tie same)
    omega

/-- No slot comes after one that it is before. -/
theorem slots_sorted (targets : List Target) :
    (slots targets).Pairwise fun left right => !right.before left := by
  refine List.pairwise_mergeSort (fun left middle right first second => ?_)
    (fun left right => ?_) _
  · rw [Bool.not_eq_true', ← Bool.not_eq_true, Slot.before_iff] at *
    omega
  · by_cases less : right.before left
    · have other := Slot.before_asymm less
      simp [other]
    · simp [less]

/-- All slots are in strict order. -/
theorem Ordered.slots_pairwise (ordered : Ordered targets) :
    (slots targets).Pairwise fun left right => left.before right := by
  have distinct : (slots targets).Nodup := by
    unfold slots
    rw [(List.mergeSort_perm _ _).nodup_iff, List.nodup_flatMap]
    constructor
    · rintro ⟨target, position⟩ -
      cases target <;> simp [slotsFor, waitingSlot, placedSlot]
    · rw [List.pairwise_iff_getElem]
      intro early late earlyInside lateInside less
      rw [List.length_zipIdx] at earlyInside lateInside
      simp only [List.getElem_zipIdx, Nat.zero_add, Function.onFun]
      intro slot member other
      exact ordered.slotsFor_disjoint (List.getElem?_eq_getElem earlyInside)
        (List.getElem?_eq_getElem lateInside) less member other
  refine ((slots_sorted targets).and distinct).imp fun {left right} pair => ?_
  rcases Slot.before_total pair.2 with less | greater
  · exact less
  · simp [greater] at pair

end ReactiveTree
