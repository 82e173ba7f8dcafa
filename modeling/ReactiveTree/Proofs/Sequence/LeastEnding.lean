import Mathlib.Data.List.Induction
import ReactiveTree.Proofs.Sequence.Longest

/-! # Least ends

An increasing subsequence may end on the same value as the run that is kept for its length, and differ
from it further to the front. The run that is kept is then the least one as well: read from the last value to
the first, none of its length comes before it in lexicographic order. This is kept when another value is
placed, because what a run is put behind was the least one of its length at that time, and whatever
else could stand there had been met by then.
-/

namespace ReactiveTree

/-- Whether a list comes first of two in lexicographic order, or is the other one. -/
def LexLe (first second : List Nat) : Prop :=
  first = second ∨ List.Lex (· < ·) first second

theorem lexLe_nil (second : List Nat) : LexLe [] second := by
  cases second with
  | nil => exact .inl rfl
  | cons => exact .inr .nil

theorem lexLe_cons_of_lt {head other : Nat} (less : head < other) (first second : List Nat) :
    LexLe (head :: first) (other :: second) :=
  .inr (.rel less)

theorem LexLe.cons {first second : List Nat} (less : LexLe first second) (head : Nat) :
    LexLe (head :: first) (head :: second) :=
  less.imp (congrArg (head :: ·)) .cons

/-- Each run, last value first, comes before all increasing subsequences of its length. -/
def EndsLeast (values : List Nat) (runs : List (List Mark)) : Prop :=
  ∀ {index : Nat} {run : List Mark} {other : List Nat}, runs[index]? = some run →
    other.Sublist values → other.Pairwise (· < ·) → other.length = index + 1 →
    LexLe (run.map Mark.value) other.reverse

variable {values : List Nat} {runs : List (List Mark)} {index value : Nat} {run : List Mark}

/-- A run comes before whatever ends higher than it does. -/
theorem lexLe_of_runEnd_lt {front : List Nat} {last : Nat} (below : runEnd run < last) :
    LexLe (run.map Mark.value) (front ++ [last]).reverse := by
  rw [List.reverse_append]
  cases run with
  | nil => exact lexLe_nil _
  | cons mark rest => exact lexLe_cons_of_lt below _ _

/-- The run that a value is put behind. -/
def behind (runs : List (List Mark)) (value : Nat) : List Mark :=
  if reach runs value = 0 then [] else runs.getD (reach runs value - 1) []

theorem behind_cases (runs : List (List Mark)) (value : Nat) :
    reach runs value = 0 ∧ behind runs value = [] ∨
      0 < reach runs value ∧ runs[reach runs value - 1]? = some (behind runs value) := by
  unfold behind
  by_cases first : reach runs value = 0
  · exact .inl ⟨first, if_pos first⟩
  · have bound := reach_le runs value
    have inside : reach runs value - 1 < runs.length := by omega
    refine .inr ⟨by omega, ?_⟩
    rw [if_neg first, List.getD_eq_getElem?_getD, List.getElem?_eq_getElem inside, Option.getD_some]

theorem getElem?_extendRuns_behind (runs : List (List Mark)) (mark : Mark) (index : Nat) :
    (extendRuns runs mark)[index]? =
      if index = reach runs mark.value then some (mark :: behind runs mark.value)
      else runs[index]? := by
  rw [getElem?_extendRuns]
  split
  next here =>
    subst here
    rfl
  next => rfl

namespace EndsLeast

/-- What a value is put behind comes before all else of its length that it could be put behind. -/
theorem behind (least : EndsLeast values runs) {front : List Nat}
    (reached : front.length = reach runs value) (sublist : front.Sublist values)
    (ascends : front.Pairwise (· < ·)) :
    LexLe ((behind runs value).map Mark.value) front.reverse := by
  rcases behind_cases runs value with ⟨-, none⟩ | ⟨positive, found⟩
  · rw [none]
    exact lexLe_nil _
  · rw [← reached] at positive found
    exact least found sublist ascends (by omega)

/-- Runs stay least when a further value is placed. -/
theorem extendRuns (least : EndsLeast values runs) (best : BestRuns values runs) (mark : Mark) :
    EndsLeast (values ++ [mark.value]) (extendRuns runs mark) := by
  intro index run other found sublist ascends length
  obtain ⟨front, last, rfl⟩ : ∃ front last, other = front ++ [last] := by
    rcases List.eq_nil_or_concat other with rfl | ⟨front, last, rfl⟩
    · simp at length
    · exact ⟨front, last, List.concat_eq_append⟩
  obtain rfl : front.length = index := by simpa using length
  have frontAscends : front.Pairwise (· < ·) := (List.pairwise_append.mp ascends).1
  have cases := sublist_concat_cases sublist
  rw [getElem?_extendRuns_behind] at found
  split at found
  next here =>
    -- The run ends on the new value, and whatever was there of this length ends no lower.
    cases found
    have inFront : front.Sublist values :=
      cases.elim (fun old => (List.sublist_append_left ..).trans old) And.right
    have bound : mark.value ≤ last := by
      rcases cases with old | ⟨rfl, -⟩
      · obtain ⟨known, there, bound⟩ := best.least old ascends
        have above : ¬ runEnd known < mark.value := fun below => by
          have inside := (best.lt_reach_iff there mark.value).mpr below
          omega
        omega
      · exact Nat.le_refl _
    rcases Nat.lt_or_eq_of_le bound with lower | rfl
    · exact lexLe_of_runEnd_lt lower
    · rw [List.reverse_append, List.map_cons]
      exact (least.behind here inFront frontAscends).cons _
  next apart =>
    rcases cases with old | ⟨rfl, inFront⟩
    · exact least found old ascends length
    · have reached := best.length_le_reach inFront ascends
      exact lexLe_of_runEnd_lt ((best.lt_reach_iff found mark.value).mp (by omega))

end EndsLeast

/-- One more value at the end is placed last. -/
theorem bestRuns_concat (values : List Nat) (value : Nat) :
    bestRuns (values ++ [value]) = extendRuns (bestRuns values) ⟨values.length, value⟩ := by
  simp [bestRuns, List.zipIdx_append, List.foldl_append]

theorem bestRuns_endsLeast (values : List Nat) : EndsLeast values (bestRuns values) := by
  induction values using List.reverseRecOn with
  | nil => simp [EndsLeast, bestRuns]
  | append_singleton values value ih =>
    rw [bestRuns_concat]
    exact ih.extendRuns (bestRuns_best values) ⟨values.length, value⟩

end ReactiveTree
