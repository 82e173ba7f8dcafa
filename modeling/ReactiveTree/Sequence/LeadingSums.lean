/-! # Sums of leading weights

Slots carry weights that change, and the sum of the weights before a slot is asked for. Cell `i` of
the tree holds the sum of the `lowBit i` weights that end with slot `i - 1`, so that setting a
weight and asking for a sum each visit one cell per bit.
-/

namespace ReactiveTree

/-- The largest power of two that divides a positive number. -/
def lowBit (number : Nat) : Nat :=
  if number = 0 then 0
  else if number % 2 = 1 then 1
  else 2 * lowBit (number / 2)

theorem lowBit_pos {number : Nat} (positive : 0 < number) : 0 < lowBit number := by
  induction number using Nat.strongRecOn with
  | ind number hypothesis =>
    unfold lowBit
    have nonzero : number ≠ 0 := by omega
    by_cases odd : number % 2 = 1
    · simp [nonzero, odd]
    · have half := hypothesis (number / 2) (by omega) (by omega)
      simp only [nonzero, odd, if_false]
      omega

structure LeadingSums where
  /-- Partial sums; cell zero is not used. -/
  tree : List Int
  weights : List Nat
  deriving Repr

namespace LeadingSums

/-- Slots without weight. -/
def ofLength (length : Nat) : LeadingSums :=
  ⟨List.replicate (length + 1) 0, List.replicate length 0⟩

/-- Add to every cell from one on whose sum takes in the slot before that one. -/
def addFrom (tree : List Int) (cell : Nat) (change : Int) : List Int :=
  if _bound : 0 < cell ∧ cell < tree.length then
    addFrom (tree.modify cell (· + change)) (cell + lowBit cell) change
  else tree
termination_by tree.length - cell
decreasing_by
  have := lowBit_pos _bound.1
  simp only [List.length_modify]
  omega

/-- Give a slot a weight. -/
def set (sums : LeadingSums) (slot weight : Nat) : LeadingSums where
  tree := addFrom sums.tree (slot + 1) ((weight : Int) - (sums.weights.getD slot 0 : Nat))
  weights := sums.weights.set slot weight

/-- The sum of the cells from one down that together take in all slots before it. -/
def sumTo (tree : List Int) (cell : Nat) : Int :=
  if _positive : 0 < cell then tree.getD cell 0 + sumTo tree (cell - lowBit cell) else 0
termination_by cell
decreasing_by
  have := lowBit_pos _positive
  omega

/-- The total weight of the slots before a slot. -/
def sumBefore (sums : LeadingSums) (slot : Nat) : Nat :=
  (sumTo sums.tree slot).toNat

end LeadingSums

end ReactiveTree
