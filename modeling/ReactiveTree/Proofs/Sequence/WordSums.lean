import Mathlib.Algebra.Order.BigOperators.Group.List
import Mathlib.Data.List.GetD
import Mathlib.Data.List.Induction
import ReactiveTree.Proofs.Sequence.LeadingSums

/-! # Sums on words

On a machine cells are numbered by words, the lowest bit of a word is what it has in common with its
negation, and sums are signed words. The loops here are read round by round: each round finds its cell in
the tree, and no number that it computes leaves its word. As long as the number of slots and the total
weight fit a signed word, the loops come to their ends, and what they leave is what `set` and `sumBefore`
say: the sum of the weights that the slots were given last.
-/

namespace ReactiveTree

namespace LeadingSums

variable {width : Nat}

/-- What a word has in common with its negation. -/
def lowestBit (word : BitVec width) : BitVec width :=
  word &&& -word

theorem and_complement {number : Nat} (inside : number < 2 ^ width) :
    number &&& (2 ^ width - (number + 1)) = 0 := by
  apply Nat.eq_of_testBit_eq
  intro bit
  rw [Nat.testBit_and, Nat.testBit_two_pow_sub_succ inside, Nat.zero_testBit]
  cases number.testBit bit <;> simp

/-- An odd number has its last bit in common with its negation, as the half of it is complemented; an even one
twice what the half of it has. -/
theorem and_negation {number : Nat} (positive : 0 < number) (inside : number < 2 ^ width) :
    number &&& (2 ^ width - number) = lowBit number := by
  induction width generalizing number with
  | zero => omega
  | succ width ih =>
    rw [pow_succ] at inside ⊢
    have halves := Nat.and_div_two (a := number) (b := 2 ^ width * 2 - number)
    have last := Nat.and_mod_two_pow (a := number) (b := 2 ^ width * 2 - number) (n := 1)
    rw [Nat.pow_one] at last
    rw [lowBit, if_neg (by omega)]
    by_cases odd : number % 2 = 1
    · have above : (2 ^ width * 2 - number) / 2 = 2 ^ width - (number / 2 + 1) := by omega
      have one : 1 &&& 1 = 1 := rfl
      rw [above, and_complement (by omega)] at halves
      rw [odd, show (2 ^ width * 2 - number) % 2 = 1 by omega] at last
      rw [if_pos odd]
      omega
    · have half : (2 ^ width * 2 - number) / 2 = 2 ^ width - number / 2 := by omega
      rw [half, ih (by omega) (by omega)] at halves
      rw [show number % 2 = 0 by omega, Nat.zero_and] at last
      rw [if_neg odd]
      omega

theorem toNat_lowestBit (word : BitVec width) : (lowestBit word).toNat = lowBit word.toNat := by
  rw [lowestBit, BitVec.toNat_and, BitVec.toNat_neg]
  rcases Nat.eq_zero_or_pos word.toNat with zero | positive
  · rw [zero]
    simp [lowBit]
  · have inside := word.isLt
    rw [Nat.mod_eq_of_lt (by omega), and_negation positive inside]

theorem lowestBit_le (word : BitVec width) : (lowestBit word).toNat ≤ word.toNat := by
  rw [lowestBit, BitVec.toNat_and]
  exact Nat.and_le_left

/-- How many numbers a signed word has from zero on. -/
def signedCount (width : Nat) : Nat :=
  2 ^ (width - 1)

/-- Whether a number fits a signed word. -/
def FitsSigned (width : Nat) (number : Int) : Prop :=
  -(signedCount width : Int) ≤ number ∧ number < signedCount width

/-- The loop that adds a change to a cell and to those after it, until it leaves the tree. -/
inductive AddRun (change : Int) : List Int → BitVec width → List Int → Prop
  | done {tree : List Int} {cell : BitVec width} (outside : tree.length ≤ cell.toNat) :
      AddRun change tree cell tree
  | round {tree after : List Int} {cell : BitVec width} {sum : Int}
      (found : tree[cell.toNat]? = some sum) (fits : FitsSigned width (sum + change))
      (next : cell.toNat + (lowestBit cell).toNat < 2 ^ width)
      (onward : AddRun change (tree.set cell.toNat (sum + change)) (cell + lowestBit cell) after) :
      AddRun change tree cell after

/-- The loop that sums a cell and those before it, until there is none. -/
inductive SumRun (tree : List Int) : BitVec width → Int → Int → Prop
  | done {sum : Int} : SumRun tree 0 sum sum
  | round {cell : BitVec width} {sum part total : Int} (positive : cell ≠ 0)
      (found : tree[cell.toNat]? = some part) (fits : FitsSigned width (sum + part))
      (next : (lowestBit cell).toNat ≤ cell.toNat)
      (onward : SumRun tree (cell - lowestBit cell) (sum + part) total) :
      SumRun tree cell sum total

/-- Giving a slot a weight: the change of the weight is added from the first cell on that covers the
slot. -/
inductive SetRun (width : Nat) (before : LeadingSums) (slot weight : Nat) : LeadingSums → Prop
  | run {old : Nat} {tree : List Int} (found : before.weights[slot]? = some old)
      (fitsWeight : FitsSigned width weight) (fitsOld : FitsSigned width old)
      (fitsChange : FitsSigned width ((weight : Int) - old)) (first : slot + 1 < 2 ^ width)
      (added : AddRun ((weight : Int) - old) before.tree (BitVec.ofNat width (slot + 1)) tree) :
      SetRun width before slot weight ⟨tree, before.weights.set slot weight⟩

theorem AddRun.unique {change : Int} {tree first second : List Int} {cell : BitVec width}
    (run : AddRun change tree cell first) (other : AddRun change tree cell second) :
    first = second := by
  induction run with
  | done outside =>
    cases other with
    | done => rfl
    | round found => exact absurd (List.getElem?_eq_some_iff.mp found).1 (Nat.not_lt.mpr outside)
  | round found _ _ _ ih =>
    cases other with
    | done outside =>
      exact absurd (List.getElem?_eq_some_iff.mp found).1 (Nat.not_lt.mpr outside)
    | round again _ _ onward =>
      rw [found] at again
      cases again
      exact ih onward

theorem SumRun.unique {tree : List Int} {cell : BitVec width} {sum first second : Int}
    (run : SumRun tree cell sum first) (other : SumRun tree cell sum second) : first = second := by
  induction run with
  | done =>
    cases other with
    | done => rfl
    | round positive => exact absurd rfl positive
  | round positive found _ _ _ ih =>
    cases other with
    | done => exact absurd rfl positive
    | round _ again _ _ onward =>
      rw [found] at again
      cases again
      exact ih onward

theorem SetRun.unique {before first second : LeadingSums} {slot weight : Nat}
    (run : SetRun width before slot weight first) (other : SetRun width before slot weight second) :
    first = second := by
  cases run with
  | run found _ _ _ _ added =>
    cases other with
    | run again _ _ _ _ addedAgain =>
      rw [found] at again
      cases again
      rw [added.unique addedAgain]

variable {tree : List Int} {cell : BitVec width} {slot weight : Nat} {change sum : Int}
  {sums : LeadingSums}

theorem getElem?_eq_some_getD {α : Type} {entries : List α} {index : Nat} (default : α)
    (inside : index < entries.length) : entries[index]? = some (entries.getD index default) := by
  rw [List.getD_eq_getElem _ _ inside, List.getElem?_eq_getElem inside]

theorem two_mul_signedCount (wide : 1 < signedCount width) : 2 * signedCount width = 2 ^ width := by
  cases width with
  | zero => simp [signedCount] at wide
  | succ width => simp [signedCount, pow_succ, Nat.mul_comm]

theorem signedCount_le (width : Nat) : signedCount width ≤ 2 ^ width :=
  Nat.pow_le_pow_right (by omega) (by omega)

theorem toNat_ofNat_of_fits {number : Nat} (small : number < signedCount width) :
    (BitVec.ofNat width number).toNat = number := by
  have wide := signedCount_le width
  rw [BitVec.toNat_ofNat, Nat.mod_eq_of_lt (by omega)]

/-- The loop does what `addFrom` does, if no sum that takes the slot in grows out of its word. -/
theorem addRun_addFrom (covers : Covers cell.toNat slot) (room : tree.length ≤ signedCount width)
    (fits : ∀ other, cell.toNat ≤ other → other < tree.length → Covers other slot →
      FitsSigned width (tree.getD other 0 + change)) :
    AddRun change tree cell (addFrom tree cell.toNat change) := by
  -- The cells that are left shrink; a round leaves all of them as they were but the one it visits.
  induction left : tree.length - cell.toNat using Nat.strongRecOn generalizing tree cell with
  | ind rounds ih =>
    have positive : 0 < cell.toNat := Nat.lt_of_le_of_lt (Nat.zero_le _) covers.2
    have step := lowBit_pos positive
    have bit := toNat_lowestBit cell
    have small := lowestBit_le cell
    unfold addFrom
    by_cases inside : cell.toNat < tree.length
    · have wide : 1 < signedCount width := by omega
      have twice := two_mul_signedCount wide
      have next : (cell + lowestBit cell).toNat = cell.toNat + lowBit cell.toNat := by
        rw [BitVec.toNat_add, bit, Nat.mod_eq_of_lt (by omega)]
      have found := getElem?_eq_some_getD 0 inside
      have changed : tree.modify cell.toNat (· + change) =
          tree.set cell.toNat (tree.getD cell.toNat 0 + change) := by
        rw [List.modify_eq_set, found, Option.getD_some]
      rw [dif_pos ⟨positive, inside⟩, changed, ← next]
      refine .round found (fits _ (Nat.le_refl _) inside covers) (by omega)
        (ih _ ?_ (next ▸ covers.next) (by simpa using room) ?_ rfl)
      · rw [List.length_set]
        omega
      · intro other later bound coversOther
        rw [List.length_set] at bound
        have apart : cell.toNat ≠ other := by omega
        rw [List.getD_eq_getElem?_getD, List.getElem?_set_ne apart, ← List.getD_eq_getElem?_getD]
        exact fits other (by omega) bound coversOther
    · rw [dif_neg (by omega)]
      exact .done (by omega)

/-- The loop comes to what `sumTo` says, if no sum on the way grows out of its word. -/
theorem sumRun_sumTo (inside : cell.toNat < tree.length)
    (fits : ∀ lower ≤ cell.toNat, FitsSigned width (sum + sumTo tree cell.toNat - sumTo tree lower)) :
    SumRun tree cell sum (sum + sumTo tree cell.toNat) := by
  -- What is summed and what is left to sum come to the same total in every round.
  induction left : cell.toNat using Nat.strongRecOn generalizing cell sum with
  | ind rounds ih =>
    subst left
    rw [sumTo.eq_1] at fits ⊢
    by_cases positive : 0 < cell.toNat
    · have step := lowBit_pos positive
      have bit := toNat_lowestBit cell
      have small := lowestBit_le cell
      have next : (cell - lowestBit cell).toNat = cell.toNat - lowBit cell.toNat := by
        rw [BitVec.toNat_sub_of_le (BitVec.le_def.mpr small), bit]
      have found := getElem?_eq_some_getD 0 inside
      rw [dif_pos positive, ← next, ← Int.add_assoc] at fits ⊢
      refine .round (by rintro rfl; simp at positive) found ?_ small
        (ih _ (by omega) (by omega) (fun lower bound => fits lower (by omega)) rfl)
      simpa using fits (cell - lowestBit cell).toNat (by omega)
    · have zero : cell = 0 := BitVec.eq_of_toNat_eq (by simpa using positive)
      rw [dif_neg positive, Int.add_zero, zero]
      exact .done

theorem sum_take_mono (weights : List Nat) {lower upper : Nat} (less : lower ≤ upper) :
    (weights.take lower).sum ≤ (weights.take upper).sum :=
  (List.take_prefix_take_left less).sublist.sum_le_sum fun _ _ => Nat.zero_le _

theorem sum_take_le (weights : List Nat) (upper : Nat) : (weights.take upper).sum ≤ weights.sum :=
  (List.take_sublist ..).sum_le_sum fun _ _ => Nat.zero_le _

namespace Sound

/-- A cell holds the sum of the weights that it covers. -/
theorem getD_tree (sound : sums.Sound) {cell : Nat} (positive : 0 < cell)
    (bound : cell ≤ sums.weights.length) :
    sums.tree.getD cell 0 =
      ((sums.weights.take cell).sum : Nat) - ((sums.weights.take (cell - lowBit cell)).sum : Nat) := by
  have whole := sound.total cell bound
  have rest := sound.total (cell - lowBit cell) (by omega)
  rw [sumTo.eq_1, dif_pos positive] at whole
  omega

theorem fits_getD_tree (sound : sums.Sound) (small : sums.weights.sum < signedCount width) {cell : Nat}
    (positive : 0 < cell) (bound : cell ≤ sums.weights.length) :
    FitsSigned width (sums.tree.getD cell 0) := by
  have ordered := sum_take_mono sums.weights (Nat.sub_le cell (lowBit cell))
  have bounded := sum_take_le sums.weights cell
  rw [sound.getD_tree positive bound]
  exact ⟨by omega, by omega⟩

/-- The cells that take the change in come to sums that are those of the new weights. -/
theorem addRun (sound : sums.Sound) (inside : slot < sums.weights.length)
    (room : sums.weights.length < signedCount width)
    (small : (sums.weights.set slot weight).sum < signedCount width) :
    AddRun ((weight : Int) - (sums.weights.getD slot 0 : Nat)) sums.tree (BitVec.ofNat width (slot + 1))
      (sums.set slot weight).tree := by
  have first : (BitVec.ofNat width (slot + 1)).toNat = slot + 1 := toNat_ofNat_of_fits (by omega)
  have step : 0 < lowBit (slot + 1) := lowBit_pos (Nat.succ_pos slot)
  have covers : Covers (slot + 1) slot := ⟨by omega, by omega⟩
  have covered : Covers (BitVec.ofNat width (slot + 1)).toNat slot := by rwa [first]
  have size := sound.length
  have fits (other : Nat) (later : (BitVec.ofNat width (slot + 1)).toNat ≤ other)
      (bound : other < sums.tree.length) (coversOther : Covers other slot) :
      FitsSigned width
        (sums.tree.getD other 0 + ((weight : Int) - (sums.weights.getD slot 0 : Nat))) := by
    rw [first] at later
    have changed : (sums.set slot weight).tree.getD other 0 =
        sums.tree.getD other 0 + ((weight : Int) - (sums.weights.getD slot 0 : Nat)) := by
      show (addFrom sums.tree (slot + 1) _).getD other 0 = _
      rw [getD_addFrom covers, if_pos ⟨later, bound, coversOther⟩]
    rw [← changed]
    refine (sound.set inside weight).fits_getD_tree small (by omega) ?_
    rw [weights_set, List.length_set]
    omega
  have run := addRun_addFrom covered (by omega) fits
  rwa [first] at run

theorem setRun (sound : sums.Sound) (inside : slot < sums.weights.length)
    (room : sums.weights.length < signedCount width) (small : sums.weights.sum < signedCount width)
    (smallAfter : (sums.weights.set slot weight).sum < signedCount width) :
    SetRun width sums slot weight (sums.set slot weight) := by
  have wide := signedCount_le width
  have found := getElem?_eq_some_getD 0 inside
  have old : sums.weights.getD slot 0 ≤ sums.weights.sum :=
    List.le_sum_of_mem (List.mem_of_getElem? found)
  have new : weight ≤ (sums.weights.set slot weight).sum :=
    List.le_sum_of_mem (List.mem_set inside weight)
  exact .run found ⟨by omega, by omega⟩ ⟨by omega, by omega⟩ ⟨by omega, by omega⟩ (by omega)
    (sound.addRun inside room smallAfter)

theorem sumRun (sound : sums.Sound) (bound : slot ≤ sums.weights.length)
    (room : sums.weights.length < signedCount width) (small : sums.weights.sum < signedCount width) :
    SumRun sums.tree (BitVec.ofNat width slot) 0 (sums.sumBefore slot : Nat) := by
  have last : (BitVec.ofNat width slot).toNat = slot := toNat_ofNat_of_fits (by omega)
  have inside : (BitVec.ofNat width slot).toNat < sums.tree.length := by
    rw [last, sound.length]
    omega
  have fits (lower : Nat) (below : lower ≤ (BitVec.ofNat width slot).toNat) :
      FitsSigned width
        (0 + sumTo sums.tree (BitVec.ofNat width slot).toNat - sumTo sums.tree lower) := by
    rw [last] at below ⊢
    have ordered := sum_take_mono sums.weights below
    have bounded := sum_take_le sums.weights slot
    rw [sound.total slot bound, sound.total lower (by omega)]
    exact ⟨by omega, by omega⟩
  have run := sumRun_sumTo inside fits
  rwa [last, Int.zero_add, sound.total slot bound, ← sound.sumBefore_eq bound] at run

end Sound

/-- Give slots weights, one after another. -/
def setAll (sums : LeadingSums) (settings : List (Nat × Nat)) : LeadingSums :=
  settings.foldl (fun sums setting => sums.set setting.1 setting.2) sums

/-- The weight that a slot was given last, or none. -/
def lastWeight (settings : List (Nat × Nat)) (slot : Nat) : Nat :=
  (settings.reverse.lookup slot).getD 0

theorem setAll_concat (sums : LeadingSums) (settings : List (Nat × Nat)) (setting : Nat × Nat) :
    sums.setAll (settings ++ [setting]) = (sums.setAll settings).set setting.1 setting.2 :=
  List.foldl_append

theorem lastWeight_concat (settings : List (Nat × Nat)) (setting : Nat × Nat) (slot : Nat) :
    lastWeight (settings ++ [setting]) slot =
      if slot = setting.1 then setting.2 else lastWeight settings slot := by
  obtain ⟨known, weight⟩ := setting
  unfold lastWeight
  rw [List.reverse_append, List.reverse_singleton, List.singleton_append, List.lookup_cons]
  by_cases same : slot = known
  · simp [same]
  · simp [same, beq_false_of_ne same]

variable {length : Nat} {settings : List (Nat × Nat)}

theorem weights_setAll (length : Nat) (settings : List (Nat × Nat)) :
    ((ofLength length).setAll settings).weights = (List.range length).map (lastWeight settings) := by
  induction settings using List.reverseRecOn with
  | nil =>
    have none : lastWeight [] = fun _ => 0 := rfl
    simp [none, setAll, ofLength, List.map_const']
  | append_singleton settings setting ih =>
    rw [setAll_concat, weights_set, ih]
    apply List.ext_getElem
    · simp
    · intro slot _ inside
      simp [List.getElem_set, lastWeight_concat, eq_comm]

theorem sound_setAll (inside : ∀ setting ∈ settings, setting.1 < length) :
    ((ofLength length).setAll settings).Sound := by
  induction settings using List.reverseRecOn with
  | nil => exact sound_ofLength length
  | append_singleton settings setting ih =>
    rw [setAll_concat]
    refine (ih fun other member => inside other (List.mem_append_left _ member)).set ?_ _
    rw [weights_setAll, List.length_map, List.length_range]
    exact inside setting (by simp)

/-- Whether the number of slots fits a signed word, as that of any list in memory does, and the total weight
after each setting does so too. -/
structure Within (width length : Nat) (settings : List (Nat × Nat)) : Prop where
  room : length < signedCount width
  total : ∀ count ≤ settings.length,
    ((List.range length).map (lastWeight (settings.take count))).sum < signedCount width

namespace Within

theorem setRun (within : Within width length settings) (inside : ∀ setting ∈ settings, setting.1 < length)
    {index : Nat} {setting : Nat × Nat} (found : settings[index]? = some setting) :
    SetRun width ((ofLength length).setAll (settings.take index)) setting.1 setting.2
      ((ofLength length).setAll (settings.take (index + 1))) := by
  have bound := (List.getElem?_eq_some_iff.mp found).1
  have sound : ((ofLength length).setAll (settings.take index)).Sound :=
    sound_setAll fun other member => inside other (List.mem_of_mem_take member)
  have weights := weights_setAll length (settings.take index)
  have next : (ofLength length).setAll (settings.take (index + 1)) =
      ((ofLength length).setAll (settings.take index)).set setting.1 setting.2 := by
    rw [List.take_add_one, found, Option.toList_some, setAll_concat]
  have weightsAfter : ((ofLength length).setAll (settings.take index)).weights.set setting.1 setting.2 =
      (List.range length).map (lastWeight (settings.take (index + 1))) := by
    rw [← weights_setAll, next, weights_set]
  rw [next]
  apply sound.setRun
  · simpa [weights] using inside setting (List.mem_of_getElem? found)
  · simpa [weights] using within.room
  · rw [weights]
    exact within.total index (Nat.le_of_lt bound)
  · rw [weightsAfter]
    exact within.total (index + 1) bound

theorem sumRun (within : Within width length settings) (inside : ∀ setting ∈ settings, setting.1 < length)
    (bound : slot ≤ length) :
    SumRun ((ofLength length).setAll settings).tree (BitVec.ofNat width slot) 0
      (((ofLength length).setAll settings).sumBefore slot : Nat) := by
  have weights := weights_setAll length settings
  apply (sound_setAll inside).sumRun
  · simpa [weights] using bound
  · simpa [weights] using within.room
  · rw [weights]
    simpa using within.total settings.length (Nat.le_refl _)

end Within

/-- What is asked for is the sum of the weights that the earlier slots were given last, and no negative sum is
cut off. On words that are wide enough every setting runs to its end and leaves what `set` says, and
so does the sum. -/
theorem sumBefore_setAll (inside : ∀ setting ∈ settings, setting.1 < length) (bound : slot ≤ length) :
    ((ofLength length).setAll settings).sumBefore slot =
        ((List.range slot).map (lastWeight settings)).sum ∧
      sumTo ((ofLength length).setAll settings).tree slot =
        ((ofLength length).setAll settings).sumBefore slot ∧
      ∀ width, Within width length settings →
        (∀ index setting, settings[index]? = some setting → ∀ after,
          SetRun width ((ofLength length).setAll (settings.take index)) setting.1 setting.2 after ↔
            after = (ofLength length).setAll (settings.take (index + 1))) ∧
        ∀ total, SumRun ((ofLength length).setAll settings).tree (BitVec.ofNat width slot) 0 total ↔
          total = ((ofLength length).setAll settings).sumBefore slot := by
  have sound := sound_setAll inside
  have weights := weights_setAll length settings
  have known : slot ≤ ((ofLength length).setAll settings).weights.length := by simpa [weights] using bound
  refine ⟨?_, ?_, fun width within => ⟨?_, fun total => ⟨fun run => ?_, ?_⟩⟩⟩
  · rw [sound.sumBefore_eq known, weights, ← List.map_take, List.take_range, Nat.min_eq_left bound]
  · rw [sound.total slot known, sound.sumBefore_eq known]
  · intro index setting found after
    have whole := within.setRun inside found
    exact ⟨fun run => run.unique whole, fun same => same ▸ whole⟩
  · exact run.unique (within.sumRun inside bound)
  · rintro rfl
    exact within.sumRun inside bound

/-- Five slots get weight one, then the second loses its own and the third gets four. -/
def reweighting : List (Nat × Nat) :=
  [(0, 1), (1, 1), (2, 1), (3, 1), (4, 1), (1, 0), (2, 4)]

/-- The weights just fit signed words of four bits. -/
theorem sumBefore_setAll_reweighting :
    (∀ setting ∈ reweighting, setting.1 < 5) ∧ 3 ≤ 5 ∧ Within 4 5 reweighting ∧
      ((ofLength 5).setAll reweighting).sumBefore 3 = 5 ∧
      SetRun 4 ((ofLength 5).setAll (reweighting.take 6)) 2 4 ((ofLength 5).setAll reweighting) ∧
      ∀ total, SumRun ((ofLength 5).setAll reweighting).tree 3#4 0 total ↔ total = 5 := by
  have inside : ∀ setting ∈ reweighting, setting.1 < 5 := by decide
  have within : Within 4 5 reweighting := ⟨by decide, by decide⟩
  obtain ⟨sum, -, words⟩ := sumBefore_setAll inside (show 3 ≤ 5 by decide)
  have five : ((ofLength 5).setAll reweighting).sumBefore 3 = 5 := sum.trans (by decide)
  obtain ⟨settings, sums⟩ := words 4 within
  rw [five] at sums
  exact ⟨inside, by decide, within, five, (settings 6 (2, 4) rfl _).mpr rfl, sums⟩

end LeadingSums

end ReactiveTree
