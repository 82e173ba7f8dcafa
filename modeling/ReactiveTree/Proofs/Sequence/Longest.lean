import Mathlib.Data.List.Basic
import Mathlib.Data.List.Pairwise
import Mathlib.Order.Bounds.Basic
import ReactiveTree.Proofs.Sequence.LongestRun

/-! # No run is longer

Of the runs kept along the way, the one of each length ends on the least value that any increasing
subsequence of this length can end on, and these values increase with the length. Both are kept when
another value is placed. So there is a run for every length that an increasing subsequence has, and the
last run is a longest one.
-/

namespace ReactiveTree

/-- The length of a longest strictly increasing subsequence. -/
def IsLongestAscent (values : List Nat) (length : Nat) : Prop :=
  IsGreatest
    {length | ∃ run : List Nat, run.Sublist values ∧ run.Pairwise (· < ·) ∧ run.length = length} length

/-- The value that a run ends on. -/
def runEnd : List Mark → Nat
  | [] => 0
  | mark :: _ => mark.value

/-- The best run of each length for the values met so far. -/
structure BestRuns (values : List Nat) (runs : List (List Mark)) : Prop where
  lengths : ∀ {index : Nat} {run}, runs[index]? = some run → run.length = index + 1
  rising : ∀ {early late : Nat} {first second}, early < late → runs[early]? = some first →
    runs[late]? = some second → runEnd first < runEnd second
  least : ∀ {run : List Nat} {last}, (run ++ [last]).Sublist values →
    (run ++ [last]).Pairwise (· < ·) → ∃ best, runs[run.length]? = some best ∧ runEnd best ≤ last

variable {values : List Nat} {runs : List (List Mark)} {mark : Mark} {index value : Nat}
  {run : List Mark}

/-- How many runs end below a value before the first that does not. -/
def reach (runs : List (List Mark)) (value : Nat) : Nat :=
  runs.findIdx fun run => !endsBelow value run

theorem reach_le (runs : List (List Mark)) (value : Nat) : reach runs value ≤ runs.length :=
  List.findIdx_le_length

theorem length_takeWhile_endsBelow (runs : List (List Mark)) (value : Nat) :
    (runs.takeWhile (endsBelow value)).length = reach runs value := by
  rw [List.takeWhile_eq_take_findIdx_not, List.length_take]
  exact Nat.min_eq_left (reach_le runs value)

/-- One run is replaced or added: the one behind those that end below the value. -/
theorem getElem?_extendRuns (runs : List (List Mark)) (mark : Mark) (index : Nat) :
    (extendRuns runs mark)[index]? =
      if index = reach runs mark.value then
        some (mark :: if index = 0 then [] else runs.getD (index - 1) [])
      else runs[index]? := by
  have bound := reach_le runs mark.value
  unfold extendRuns
  rw [length_takeWhile_endsBelow]
  generalize reach runs mark.value = length at bound ⊢
  dsimp only
  by_cases last : length = runs.length
  · rw [if_pos last, List.getElem?_append, last]
    by_cases here : index = runs.length
    · simp [here]
    · rw [if_neg here]
      split
      next => rfl
      next beyond =>
        rw [List.getElem?_eq_none (Nat.le_of_not_lt beyond), List.getElem?_eq_none]
        rw [List.length_singleton]
        omega
  · rw [if_neg last, List.getElem?_set]
    by_cases here : index = length
    · subst here
      have inside : index < runs.length := by omega
      simp [inside]
    · simp [here, Ne.symm here]

/-- A subsequence that ends on the last of the values, or was there before that one came. -/
theorem sublist_concat_cases {front : List Nat} {last : Nat}
    (sublist : (front ++ [last]).Sublist (values ++ [value])) :
    (front ++ [last]).Sublist values ∨ last = value ∧ front.Sublist values := by
  obtain ⟨early, late, split, inEarly, inLate⟩ := List.sublist_append_iff.mp sublist
  rcases List.sublist_singleton.mp inLate with rfl | rfl
  · rw [List.append_nil] at split
    exact .inl (split ▸ inEarly)
  · obtain ⟨rfl, same⟩ := List.append_inj' split rfl
    exact .inr ⟨List.singleton_inj.mp same, inEarly⟩

namespace BestRuns

theorem endsBelow_iff (best : BestRuns values runs) (found : runs[index]? = some run) (value : Nat) :
    endsBelow value run ↔ runEnd run < value := by
  have length := best.lengths found
  cases run with
  | nil => simp at length
  | cons mark rest => simp [endsBelow, runEnd]

/-- Exactly the runs within reach end below the value. -/
theorem lt_reach_iff (best : BestRuns values runs) (found : runs[index]? = some run) (value : Nat) :
    index < reach runs value ↔ runEnd run < value := by
  constructor
  · intro within
    obtain ⟨inside, rfl⟩ := List.getElem?_eq_some_iff.mp found
    have ends := List.not_of_lt_findIdx within
    rw [← best.endsBelow_iff found]
    simpa using ends
  · intro below
    by_contra beyond
    -- The first run out of reach does not end below the value, and no later one ends lower.
    obtain ⟨inside, rfl⟩ := List.getElem?_eq_some_iff.mp found
    have bound : reach runs value < runs.length := by omega
    have first : runs[reach runs value]? = some runs[reach runs value] :=
      List.getElem?_eq_getElem bound
    have stops : (!endsBelow value runs[reach runs value]) = true :=
      List.findIdx_getElem (p := fun run => !endsBelow value run)
    have above : ¬ runEnd runs[reach runs value] < value := by
      rw [← best.endsBelow_iff first]
      simpa using stops
    apply above
    rcases Nat.lt_or_eq_of_le (Nat.le_of_not_lt beyond) with later | same
    · have step := best.rising later first found
      omega
    · simp only [same]
      exact below

/-- What the run that is put in place goes back to: the best run that is shorter by one. -/
theorem exists_previous (best : BestRuns values runs) (value : Nat) (positive : 0 < reach runs value) :
    ∃ previous, runs[reach runs value - 1]? = some previous ∧ runEnd previous < value := by
  have bound := reach_le runs value
  have inside : reach runs value - 1 < runs.length := by omega
  have found : runs[reach runs value - 1]? = some runs[reach runs value - 1] :=
    List.getElem?_eq_getElem inside
  exact ⟨_, found, (best.lt_reach_iff found value).mp (by omega)⟩

/-- Whatever a value can be put behind is no longer than the longest run that ends below the value. -/
theorem length_le_reach (best : BestRuns values runs) {front : List Nat}
    (sublist : front.Sublist values) (ascends : (front ++ [value]).Pairwise (· < ·)) :
    front.length ≤ reach runs value := by
  rcases List.eq_nil_or_concat front with rfl | ⟨shorter, before, rfl⟩
  · exact Nat.zero_le _
  · rw [List.concat_eq_append] at *
    obtain ⟨frontAscends, -, below⟩ := List.pairwise_append.mp ascends
    have lower : before < value := below before (by simp) value (by simp)
    obtain ⟨known, found, bound⟩ := best.least sublist frontAscends
    have inside := (best.lt_reach_iff found value).mpr (by omega)
    rw [List.length_append, List.length_singleton]
    omega

/-- Runs stay the best when a further value is placed. -/
theorem extendRuns (best : BestRuns values runs) (mark : Mark) :
    BestRuns (values ++ [mark.value]) (extendRuns runs mark) where
  lengths := by
    intro index run found
    rw [getElem?_extendRuns] at found
    split at found
    next here =>
      cases found
      by_cases first : index = 0
      · simp [first]
      · have positive : 0 < reach runs mark.value := by omega
        obtain ⟨previous, known, -⟩ := best.exists_previous mark.value positive
        rw [← here] at known
        have length := best.lengths known
        simp only [first, if_false, List.getD_eq_getElem?_getD, known, Option.getD_some,
          List.length_cons, length]
        omega
    next => exact best.lengths found
  rising := by
    intro early late first second less foundFirst foundSecond
    rw [getElem?_extendRuns] at foundFirst foundSecond
    split at foundFirst
    next here =>
      cases foundFirst
      rw [if_neg (by omega)] at foundSecond
      obtain ⟨inside, -⟩ := List.getElem?_eq_some_iff.mp foundSecond
      -- The run that gave way ended no lower.
      have old : runs[early]? = some runs[early] := List.getElem?_eq_getElem (by omega)
      have step := best.rising less old foundSecond
      have above : ¬ runEnd runs[early] < mark.value := fun below => by
        have inside := (best.lt_reach_iff old mark.value).mpr below
        omega
      show mark.value < runEnd second
      omega
    next apart =>
      split at foundSecond
      next here =>
        cases foundSecond
        exact (best.lt_reach_iff foundFirst mark.value).mp (by omega)
      next => exact best.rising less foundFirst foundSecond
  least := by
    intro run last sublist ascends
    rw [getElem?_extendRuns]
    rcases sublist_concat_cases sublist with old | ⟨rfl, inFront⟩
    · obtain ⟨known, found, bound⟩ := best.least old ascends
      by_cases here : run.length = reach runs mark.value
      · rw [if_pos here]
        refine ⟨_, rfl, ?_⟩
        have above : ¬ runEnd known < mark.value := fun below => by
          have inside := (best.lt_reach_iff found mark.value).mpr below
          omega
        show mark.value ≤ last
        omega
      · rw [if_neg here]
        exact ⟨known, found, bound⟩
    · by_cases here : run.length = reach runs mark.value
      · rw [if_pos here]
        exact ⟨_, rfl, Nat.le_refl _⟩
      · rw [if_neg here]
        have within : run.length < reach runs mark.value := by
          have reached := best.length_le_reach inFront ascends
          omega
        have inside : run.length < runs.length := by
          have bound := reach_le runs mark.value
          omega
        have found : runs[run.length]? = some runs[run.length] := List.getElem?_eq_getElem inside
        exact ⟨_, found, Nat.le_of_lt ((best.lt_reach_iff found mark.value).mp within)⟩

theorem foldl (best : BestRuns values runs) (marks : List Mark) :
    BestRuns (values ++ marks.map Mark.value) (marks.foldl ReactiveTree.extendRuns runs) := by
  induction marks generalizing values runs with
  | nil => simpa using best
  | cons mark rest ih => simpa using ih (best.extendRuns mark)

end BestRuns

theorem bestRuns_best (values : List Nat) : BestRuns values (bestRuns values) := by
  have start : BestRuns [] [] :=
    { lengths := by simp
      rising := by simp
      least := by simp }
  have whole := start.foldl (values.zipIdx.map fun entry => Mark.mk entry.2 entry.1)
  have marked : (values.zipIdx.map fun entry => Mark.mk entry.2 entry.1).map Mark.value = values := by
    rw [List.map_map]
    exact List.zipIdx_map_fst 0 values
  rwa [marked, List.nil_append] at whole

theorem length_longestRun (values : List Nat) :
    (longestRun values).length = (bestRuns values).length := by
  unfold longestRun
  rw [List.length_reverse, List.length_map]
  cases last : (bestRuns values).getLast? with
  | none =>
    rw [List.getLast?_eq_none_iff] at last
    simp [last]
  | some run =>
    have found := last
    rw [List.getLast?_eq_getElem?] at found
    have positive : 0 < (bestRuns values).length :=
      List.length_pos_of_mem (List.mem_of_getLast? last)
    have length := (bestRuns_best values).lengths found
    rw [Option.getD_some, length]
    omega

/-- The positions picked are those of an increasing subsequence, and there is no longer one. -/
theorem longestRun_longest (values : List Nat) :
    IsLongestAscent values (longestRun values).length := by
  constructor
  · have inside : ∀ position ∈ longestRun values, position < values.length :=
      fun _ member => lt_length_of_mem_longestRun member
    obtain ⟨picked, positions⟩ : ∃ picked : List (Fin values.length),
        picked.map Fin.val = longestRun values :=
      ⟨(longestRun values).attach.map fun position => ⟨position.1, inside position.1 position.2⟩,
        by simp⟩
    have rising : picked.Pairwise fun left right =>
        left < right ∧ values[left] < values[right] := by
      have pairs := longestRun_pairwise values
      rw [← positions, List.pairwise_map] at pairs
      refine pairs.imp fun {left right} step => ⟨step.1, ?_⟩
      simpa [List.getD_eq_getElem?_getD] using step.2
    refine ⟨picked.map fun position => values[position], ?_, ?_, ?_⟩
    · exact List.map_getElem_sublist (rising.imp And.left)
    · exact List.pairwise_map.mpr (rising.imp And.right)
    · rw [← positions, List.length_map, List.length_map]
  · rintro _ ⟨run, sublist, ascends, rfl⟩
    rw [length_longestRun]
    rcases List.eq_nil_or_concat run with rfl | ⟨front, last, rfl⟩
    · exact Nat.zero_le _
    · rw [List.concat_eq_append] at *
      obtain ⟨best, found, -⟩ := (bestRuns_best values).least sublist ascends
      obtain ⟨inside, -⟩ := List.getElem?_eq_some_iff.mp found
      rw [List.length_append, List.length_singleton]
      omega

end ReactiveTree
