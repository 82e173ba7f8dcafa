import Mathlib.Algebra.BigOperators.Group.List.Basic
import Mathlib.Tactic.Ring
import ReactiveTree.Sequence.LeadingSums

/-! # Leading sums are sums

Cell `c` of the tree covers the slots from `c - lowBit c` up to `c`. The cells that `addFrom` visits
for a slot are exactly those that cover it, and of the cells that `sumTo` visits exactly one covers
each earlier slot. Hence `LeadingSums.Sound` is kept: what is asked for is the sum of the weights.
-/

namespace ReactiveTree

private theorem exists_odd_multiple {number : Nat} (positive : 0 < number) :
    ∃ power half, number = 2 ^ power * (2 * half + 1) := by
  induction number using Nat.strongRecOn with
  | ind number ih =>
    rcases Nat.mod_two_eq_zero_or_one number with even | odd
    · obtain ⟨power, half, split⟩ := ih (number / 2) (by omega) (by omega)
      refine ⟨power + 1, half, ?_⟩
      have twice : number = 2 * (number / 2) := by omega
      rw [twice, split, pow_succ]
      ring
    · exact ⟨0, number / 2, by omega⟩

private theorem lowBit_odd_multiple (power half : Nat) :
    lowBit (2 ^ power * (2 * half + 1)) = 2 ^ power := by
  induction power with
  | zero =>
    unfold lowBit
    simp
  | succ power ih =>
    have twice : 2 ^ (power + 1) * (2 * half + 1) = 2 * (2 ^ power * (2 * half + 1)) := by ring
    have positive : 0 < 2 ^ power * (2 * half + 1) :=
      Nat.mul_pos (Nat.two_pow_pos power) (Nat.succ_pos _)
    unfold lowBit
    rw [twice, if_neg (by omega), if_neg (by omega), Nat.mul_div_cancel_left _ (by omega), ih]
    ring

/-- A number strictly between a cell and the next one visited covers only what is above the cell. -/
private theorem le_sub_lowBit {cell other : Nat} (positive : 0 < cell) (above : cell < other)
    (below : other < cell + lowBit cell) : cell ≤ other - lowBit other := by
  obtain ⟨power, half, rfl⟩ := exists_odd_multiple positive
  rw [lowBit_odd_multiple] at below
  obtain ⟨rest, rfl⟩ := Nat.exists_eq_add_of_lt above
  obtain ⟨low, restHalf, split⟩ := exists_odd_multiple (Nat.succ_pos rest)
  have small : 2 ^ low ≤ rest + 1 := by
    rw [← Nat.succ_eq_add_one, split]
    exact Nat.le_mul_of_pos_right _ (by omega)
  have lower : low < power := by
    have powers : 2 ^ low < 2 ^ power := by omega
    exact (Nat.pow_lt_pow_iff_right (by omega)).mp powers
  obtain ⟨gap, rfl⟩ := Nat.exists_eq_add_of_lt lower
  have whole : 2 ^ (low + gap + 1) * (2 * half + 1) + rest + 1 =
      2 ^ low * (2 * (2 ^ gap * (2 * half + 1) + restHalf) + 1) := by
    calc
      2 ^ (low + gap + 1) * (2 * half + 1) + rest + 1
          = 2 ^ (low + gap + 1) * (2 * half + 1) + 2 ^ low * (2 * restHalf + 1) := by
            rw [Nat.add_assoc, ← split]
      _ = _ := by ring
  rw [whole, lowBit_odd_multiple, ← whole]
  omega

/-- The next cell visited covers whatever the cell covers. -/
private theorem next_sub_lowBit_le {cell : Nat} (positive : 0 < cell) :
    cell + lowBit cell - lowBit (cell + lowBit cell) ≤ cell - lowBit cell := by
  obtain ⟨power, half, rfl⟩ := exists_odd_multiple positive
  rw [lowBit_odd_multiple]
  obtain ⟨high, nextHalf, split⟩ := exists_odd_multiple (Nat.succ_pos half)
  have next : 2 ^ power * (2 * half + 1) + 2 ^ power =
      2 ^ (power + 1 + high) * (2 * nextHalf + 1) := by
    calc
      2 ^ power * (2 * half + 1) + 2 ^ power = 2 ^ (power + 1) * half.succ := by
        rw [Nat.succ_eq_add_one]; ring
      _ = _ := by rw [split]; ring
  rw [next, lowBit_odd_multiple, ← next]
  have large : 2 * 2 ^ power ≤ 2 ^ (power + 1 + high) := by
    calc
      2 * 2 ^ power = 2 ^ (power + 1) := by ring
      _ ≤ 2 ^ (power + 1 + high) := Nat.pow_le_pow_right (by omega) (by omega)
  omega

namespace LeadingSums

/-- Whether the sum in a cell takes a slot in. -/
def Covers (cell slot : Nat) : Prop :=
  cell - lowBit cell ≤ slot ∧ slot < cell

instance (cell slot : Nat) : Decidable (Covers cell slot) :=
  inferInstanceAs (Decidable (_ ∧ _))

/-- The next cell visited covers the same slots and more. -/
theorem Covers.next {cell slot : Nat} (covers : Covers cell slot) :
    Covers (cell + lowBit cell) slot := by
  obtain ⟨low, high⟩ := covers
  have reach := next_sub_lowBit_le (show 0 < cell by omega)
  exact ⟨by omega, by omega⟩

@[simp] theorem length_addFrom (tree : List Int) (cell : Nat) (change : Int) :
    (addFrom tree cell change).length = tree.length := by
  fun_induction addFrom tree cell change with
  | case1 tree cell bound ih => simpa using ih
  | case2 => rfl

/-- Starting at a cell that covers a slot, exactly the later cells that cover it are changed. -/
theorem getD_addFrom {tree : List Int} {cell slot : Nat} (covered : Covers cell slot)
    (change : Int) (other : Nat) :
    (addFrom tree cell change).getD other 0 = tree.getD other 0 +
      if cell ≤ other ∧ other < tree.length ∧ Covers other slot then change else 0 := by
  fun_induction addFrom tree cell change with
  | case1 tree cell bound ih =>
    obtain ⟨low, high⟩ := covered
    have next := next_sub_lowBit_le bound.1
    have step := lowBit_pos bound.1
    rw [ih ⟨by omega, by omega⟩, List.length_modify]
    rcases Nat.lt_trichotomy other cell with before | rfl | after
    · simp [List.getD_eq_getElem?_getD, show cell ≠ other by omega,
        show ¬ cell + lowBit cell ≤ other by omega, show ¬ cell ≤ other by omega]
    · have here : Covers other slot := ⟨low, high⟩
      simp [List.getD_eq_getElem?_getD, bound.2, here,
        show ¬ other + lowBit other ≤ other by omega]
    · have same : (cell + lowBit cell ≤ other ∧ other < tree.length ∧ Covers other slot) ↔
          (cell ≤ other ∧ other < tree.length ∧ Covers other slot) := by
        constructor
        · rintro ⟨-, inside, covers⟩
          exact ⟨by omega, inside, covers⟩
        · rintro ⟨-, inside, covers⟩
          refine ⟨?_, inside, covers⟩
          by_contra between
          have := le_sub_lowBit bound.1 after (by omega)
          obtain ⟨reach, -⟩ := covers
          omega
      simp [same, List.getD_eq_getElem?_getD, show cell ≠ other by omega]
  | case2 tree cell outside =>
    obtain ⟨-, high⟩ := covered
    have beyond : ¬ (cell ≤ other ∧ other < tree.length ∧ Covers other slot) := by
      rintro ⟨later, inside, -⟩
      exact outside ⟨by omega, by omega⟩
    simp [beyond]

/-- Each slot before the end of a sum is covered by exactly one of the cells visited. -/
theorem sumTo_addFrom {tree : List Int} {slot cell : Nat} (inside : cell < tree.length)
    (change : Int) :
    sumTo (addFrom tree (slot + 1) change) cell =
      sumTo tree cell + if slot < cell then change else 0 := by
  induction cell using Nat.strongRecOn with
  | ind cell ih =>
    rw [sumTo.eq_1 _ cell, sumTo.eq_1 tree cell]
    by_cases positive : 0 < cell
    · have step := lowBit_pos positive
      have covered : Covers (slot + 1) slot := by
        have := lowBit_pos (show 0 < slot + 1 by omega)
        exact ⟨by omega, by omega⟩
      rw [dif_pos positive, dif_pos positive, ih (cell - lowBit cell) (by omega) (by omega),
        getD_addFrom covered]
      by_cases before : slot < cell
      · by_cases here : cell - lowBit cell ≤ slot
        · simp only [Covers, here, before, inside, show slot + 1 ≤ cell by omega,
            show ¬ slot < cell - lowBit cell by omega, and_self, if_true, if_false]
          ring
        · simp only [Covers, here, before, show slot < cell - lowBit cell by omega, false_and,
            and_false, if_true, if_false]
          ring
      · simp only [before, show ¬ slot + 1 ≤ cell by omega,
          show ¬ slot < cell - lowBit cell by omega, false_and, if_false]
        ring
    · simp [positive, show ¬ slot < cell by omega]

/-- The tree has a cell for every slot, and its sums are those of the weights. -/
structure Sound (sums : LeadingSums) : Prop where
  length : sums.tree.length = sums.weights.length + 1
  total : ∀ slot ≤ sums.weights.length,
    sumTo sums.tree slot = ((sums.weights.take slot).sum : Nat)

private theorem sumTo_replicate (length cell : Nat) : sumTo (List.replicate length 0) cell = 0 := by
  induction cell using Nat.strongRecOn with
  | ind cell ih =>
    unfold sumTo
    split
    next positive =>
      have := lowBit_pos positive
      rw [ih _ (by omega)]
      simp [List.getD_eq_getElem?_getD, List.getElem?_replicate]
      split <;> rfl
    next => rfl

theorem sound_ofLength (length : Nat) : (ofLength length).Sound where
  length := by simp [ofLength]
  total slot _ := by simp [ofLength, sumTo_replicate, List.take_replicate]

private theorem sum_take_set (weights : List Nat) {slot : Nat} (inside : slot < weights.length)
    (weight last : Nat) :
    (((weights.set slot weight).take last).sum : Int) =
      ((weights.take last).sum : Nat) +
        if slot < last then (weight : Int) - (weights.getD slot 0 : Nat) else 0 := by
  induction weights generalizing slot last with
  | nil => simp at inside
  | cons head rest ih =>
    cases last with
    | zero => simp
    | succ last =>
      cases slot with
      | zero =>
        simp
        omega
      | succ slot =>
        have below : slot < rest.length := by simpa using inside
        have later := ih below last
        simp only [List.set_cons_succ, List.take_succ_cons, List.sum_cons, Nat.cast_add, later,
          List.getD_cons_succ, Nat.add_lt_add_iff_right]
        ring

@[simp] theorem weights_set (sums : LeadingSums) (slot weight : Nat) :
    (sums.set slot weight).weights = sums.weights.set slot weight :=
  rfl

theorem Sound.set {sums : LeadingSums} (sound : sums.Sound) {slot : Nat}
    (inside : slot < sums.weights.length) (weight : Nat) : (sums.set slot weight).Sound where
  length := by simpa [LeadingSums.set] using sound.length
  total last bound := by
    rw [weights_set, List.length_set] at bound
    rw [weights_set, sum_take_set _ inside, ← sound.total last bound]
    exact sumTo_addFrom (by rw [sound.length]; omega) _

/-- What is asked for is the total weight of the slots before. -/
theorem Sound.sumBefore_eq {sums : LeadingSums} (sound : sums.Sound) {slot : Nat}
    (bound : slot ≤ sums.weights.length) :
    sums.sumBefore slot = (sums.weights.take slot).sum := by
  rw [sumBefore, sound.total slot bound, Int.toNat_natCast]

end LeadingSums

end ReactiveTree
