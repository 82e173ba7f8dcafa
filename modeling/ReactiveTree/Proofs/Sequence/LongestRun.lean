import Mathlib.Data.List.TakeWhile
import ReactiveTree.Sequence.LongestRun

/-! # Runs increase

Every run that is kept along the way, read from its last mark to its first, goes down in position
and in value. So the positions that `longestRun` picks are valid and increase, and the values there
increase with them.
-/

namespace ReactiveTree

/-- Marks of a list of values, last first, whose positions and values both increase. -/
structure IsRun (values : List Nat) (run : List Mark) : Prop where
  marked : ∀ mark ∈ run, values[mark.position]? = some mark.value
  rising : run.Pairwise fun later earlier =>
    earlier.position < later.position ∧ earlier.value < later.value

/-- Whatever ends below a value lies below it. -/
private theorem IsRun.below {values : List Nat} {run : List Mark} (isRun : IsRun values run)
    {value : Nat} (ends : endsBelow value run) : ∀ mark ∈ run, mark.value < value := by
  cases run with
  | nil => simp
  | cons last rest =>
    have top : last.value < value := by simpa [endsBelow] using ends
    intro mark member
    rcases List.mem_cons.mp member with rfl | earlier
    · exact top
    · exact Nat.lt_trans ((List.pairwise_cons.mp isRun.rising).1 mark earlier).2 top

private theorem mem_extendRuns {runs : List (List Mark)} {mark : Mark} {run : List Mark}
    (member : run ∈ extendRuns runs mark) :
    run ∈ runs ∨ ∃ rest, run = mark :: rest ∧
      (rest = [] ∨ rest ∈ runs ∧ endsBelow mark.value rest) := by
  unfold extendRuns at member
  generalize reach : (runs.takeWhile (endsBelow mark.value)).length = length at member
  have extended : ∃ rest, mark :: (if length = 0 then [] else runs.getD (length - 1) []) =
      mark :: rest ∧ (rest = [] ∨ rest ∈ runs ∧ endsBelow mark.value rest) := by
    refine ⟨_, rfl, ?_⟩
    by_cases none : length = 0
    · simp [none]
    · right
      rw [if_neg none]
      have inside : length - 1 < (runs.takeWhile (endsBelow mark.value)).length := by omega
      have chosen : runs.getD (length - 1) [] =
          (runs.takeWhile (endsBelow mark.value))[length - 1] := by
        have whole := (List.takeWhile_prefix (l := runs) (endsBelow mark.value)).getElem inside
        rw [whole, List.getD_eq_getElem?_getD, List.getElem?_eq_getElem, Option.getD_some]
      rw [chosen]
      have taken := List.getElem_mem inside
      exact ⟨(List.takeWhile_sublist _).mem taken, List.mem_takeWhile_imp taken⟩
  dsimp only at member
  split at member
  · rcases List.mem_append.mp member with old | new
    · exact .inl old
    · rw [List.mem_singleton] at new
      exact .inr (new ▸ extended)
  · rcases List.mem_or_eq_of_mem_set member with old | new
    · exact .inl old
    · exact .inr (new ▸ extended)

/-- Runs stay runs while marks further right are placed. -/
private theorem isRun_foldl_extendRuns {values : List Nat} {marks : List Mark}
    {runs : List (List Mark)} (ordered : marks.Pairwise fun left right =>
      left.position < right.position)
    (marked : ∀ mark ∈ marks, values[mark.position]? = some mark.value)
    (sound : ∀ run ∈ runs, IsRun values run ∧
      ∀ old ∈ run, ∀ mark ∈ marks, old.position < mark.position) :
    ∀ run ∈ marks.foldl extendRuns runs, IsRun values run := by
  induction marks generalizing runs with
  | nil => exact fun run member => (sound run member).1
  | cons mark rest ih =>
    rw [List.pairwise_cons] at ordered
    refine ih ordered.2 (fun other later => marked other (List.mem_cons_of_mem _ later)) ?_
    intro run member
    rcases mem_extendRuns member with old | ⟨tail, rfl, start⟩
    · exact ⟨(sound run old).1, fun entry present other later =>
        (sound run old).2 entry present other (List.mem_cons_of_mem _ later)⟩
    · have here := marked mark (List.mem_cons_self ..)
      rcases start with rfl | ⟨old, ends⟩
      · refine ⟨⟨by simpa using here, List.pairwise_singleton ..⟩, ?_⟩
        intro entry present
        rw [List.mem_singleton.mp present]
        exact ordered.1
      · obtain ⟨isRun, left⟩ := sound tail old
        refine ⟨⟨?_, List.pairwise_cons.mpr ⟨?_, isRun.rising⟩⟩, ?_⟩
        · intro entry present
          rcases List.mem_cons.mp present with rfl | earlier
          · exact here
          · exact isRun.marked entry earlier
        · intro earlier present
          exact ⟨left earlier present mark (List.mem_cons_self ..), isRun.below ends earlier present⟩
        · intro entry present other later
          rcases List.mem_cons.mp present with rfl | earlier
          · exact ordered.1 other later
          · exact left entry earlier other (List.mem_cons_of_mem _ later)

theorem isRun_of_mem_bestRuns {values : List Nat} {run : List Mark}
    (member : run ∈ bestRuns values) : IsRun values run := by
  refine isRun_foldl_extendRuns ?_ ?_ (by simp) run member
  · rw [List.pairwise_map]
    have places : (values.zipIdx.map Prod.snd).Pairwise (· < ·) := by
      rw [List.zipIdx_map_snd]
      exact List.pairwise_lt_range'
    exact List.pairwise_map.mp places
  · intro mark present
    obtain ⟨⟨value, position⟩, entry, rfl⟩ := List.mem_map.mp present
    simpa [List.mem_zipIdx_iff_getElem?] using entry

/-- The positions picked go up, and so do the values there. -/
theorem longestRun_pairwise (values : List Nat) :
    (longestRun values).Pairwise fun left right =>
      left < right ∧ values.getD left 0 < values.getD right 0 := by
  unfold longestRun
  rw [List.pairwise_reverse, List.pairwise_map]
  cases last : (bestRuns values).getLast? with
  | none => exact List.Pairwise.nil
  | some run =>
    have isRun := isRun_of_mem_bestRuns (List.mem_of_getLast? last)
    refine isRun.rising.imp_of_mem ?_
    intro later earlier atLater atEarlier step
    simpa [List.getD_eq_getElem?_getD, isRun.marked later atLater,
      isRun.marked earlier atEarlier] using step

theorem lt_length_of_mem_longestRun {values : List Nat} {position : Nat}
    (member : position ∈ longestRun values) : position < values.length := by
  unfold longestRun at member
  rw [List.mem_reverse] at member
  obtain ⟨mark, present, rfl⟩ := List.mem_map.mp member
  cases last : (bestRuns values).getLast? with
  | none => simp [last] at present
  | some run =>
    have isRun := isRun_of_mem_bestRuns (List.mem_of_getLast? last)
    have marked := isRun.marked mark (by simpa [last] using present)
    exact (List.getElem?_eq_some_iff.mp marked).1

end ReactiveTree
