import ReactiveTree.Proofs.Sequence.LeastEnding

/-! # Runs by pointers

A run need not be kept whole. It is enough to keep where the best run of each length ends, and for each
position the one that it was put behind. The pass here keeps no more. It looks up whatever it needs, searches
the ends in a way that only works on ordered ones, and comes to nothing as soon as one of the two fails.
It never does, and going back from the last end one meets the marks of the run that is kept whole.
-/

namespace ReactiveTree

/-- How many entries pass a test, provided that these come before all others. -/
def partitionPoint (test : Nat → Bool) (entries : List Nat) : Option Nat :=
  let point := (entries.takeWhile test).length
  if ∀ entry ∈ entries.drop point, test entry = false then some point else none

/-- Put an entry in the place of one that is there. -/
def assign? {α : Type} (entries : List α) (index : Nat) (entry : α) : Option (List α) :=
  if index < entries.length then some (entries.set index entry) else none

/-- The ends of runs, and what leads back from them. -/
structure Pointers where
  /-- For each length the position where the best run of it ends, shortest first. -/
  tails : List Nat
  /-- For each position the one that it was put behind. -/
  previous : List (Option Nat)

namespace Pointers

/-- No runs yet, for a number of positions. -/
def start (count : Nat) : Pointers :=
  ⟨[], List.replicate count none⟩

/-- Enter what a position is put behind: the end of the best run that is shorter by one. -/
def enterBefore (pointers : Pointers) (position length : Nat) : Option (List (Option Nat)) :=
  if length = 0 then some pointers.previous
  else do assign? pointers.previous position (some (← pointers.tails[length - 1]?))

/-- Enter a position as the end of the best run that is longer by one. -/
def enterTail (pointers : Pointers) (position length : Nat) : Option (List Nat) :=
  if length = pointers.tails.length then some (pointers.tails ++ [position])
  else assign? pointers.tails length position

/-- Place a position: behind the longest run that ends below its value. -/
def place (values : List Nat) (pointers : Pointers) (position : Nat) : Option Pointers := do
  let value ← values[position]?
  guard (∀ tail ∈ pointers.tails, tail < values.length)
  let length ← partitionPoint (· < value) (pointers.tails.map (values.getD · 0))
  let previous ← pointers.enterBefore position length
  let tails ← pointers.enterTail position length
  return ⟨tails, previous⟩

/-- Place the first positions, in order. -/
def placeFirst (values : List Nat) (count : Nat) : Option Pointers :=
  (List.range count).foldlM (place values) (start values.length)

end Pointers

/-- The way back from a position, or from nowhere: each one met is followed by the one before it, up to
one that none comes before. -/
inductive WayBack (previous : List (Option Nat)) : Option Nat → List Nat → Prop
  | done : WayBack previous none []
  | step {position : Nat} {before : Option Nat} {rest : List Nat}
      (found : previous[position]? = some before) (onward : WayBack previous before rest) :
      WayBack previous (some position) (position :: rest)

/-- Positions that are not met do not matter. -/
theorem WayBack.set {previous : List (Option Nat)} {cursor : Option Nat} {positions : List Nat}
    (way : WayBack previous cursor positions) {position : Nat} (absent : position ∉ positions)
    (before : Option Nat) : WayBack (previous.set position before) cursor positions := by
  induction way with
  | done => exact .done
  | step found onward ih =>
    rw [List.mem_cons, not_or] at absent
    exact .step (by rwa [List.getElem?_set_ne absent.1]) (ih absent.2)

/-- There is one way back only. -/
theorem WayBack.unique {previous : List (Option Nat)} {cursor : Option Nat} {first second : List Nat}
    (way : WayBack previous cursor first) (other : WayBack previous cursor second) : first = second := by
  induction way generalizing second with
  | done =>
    cases other
    rfl
  | step found _ ih =>
    cases other with
    | step again onward =>
      rw [found] at again
      cases again
      rw [ih onward]

variable {values front back : List Nat} {value index : Nat} {runs : List (List Mark)} {run : List Mark}
  {pointers : Pointers}

theorem partitionPoint_append {test : Nat → Bool} (passing : ∀ entry ∈ front, test entry)
    (failing : ∀ entry ∈ back, test entry = false) :
    partitionPoint test (front ++ back) = some front.length := by
  have stops : back.takeWhile test = [] := by
    cases back with
    | nil => rfl
    | cons head rest => simp [failing head List.mem_cons_self]
  have point : ((front ++ back).takeWhile test).length = front.length := by
    rw [List.takeWhile_append_of_pos passing, stops, List.append_nil]
  simp only [partitionPoint, point, List.drop_left]
  exact if_pos failing

/-- The position that a run ends on. -/
def runPosition : List Mark → Nat
  | [] => 0
  | mark :: _ => mark.position

/-- Pointers stand for runs of the first values. -/
structure Pointers.Represent (pointers : Pointers) (values front : List Nat) : Prop where
  tails : pointers.tails = (bestRuns front).map runPosition
  ways : ∀ run ∈ bestRuns front,
    WayBack pointers.previous (some (runPosition run)) (run.map Mark.position)
  size : pointers.previous.length = values.length
  /-- Nothing is known of positions that are still to come. -/
  blank : ∀ position, front.length ≤ position → position < values.length →
    pointers.previous[position]? = some none

/-- Every run that is kept has a last mark, with the value at its position. -/
theorem exists_eq_cons_of_mem_bestRuns (member : run ∈ bestRuns front) :
    ∃ mark rest, run = mark :: rest ∧ front[mark.position]? = some mark.value := by
  obtain ⟨index, found⟩ := List.mem_iff_getElem?.mp member
  have length := (bestRuns_best front).lengths found
  cases run with
  | nil => simp at length
  | cons mark rest =>
    exact ⟨mark, rest, rfl, (isRun_of_mem_bestRuns member).marked mark List.mem_cons_self⟩

theorem position_lt_of_mem_bestRuns (member : run ∈ bestRuns front) {mark : Mark} (inside : mark ∈ run) :
    mark.position < front.length :=
  (List.getElem?_eq_some_iff.mp ((isRun_of_mem_bestRuns member).marked mark inside)).1

theorem runPosition_lt_of_mem_bestRuns (member : run ∈ bestRuns front) :
    runPosition run < front.length := by
  obtain ⟨mark, rest, rfl, -⟩ := exists_eq_cons_of_mem_bestRuns member
  exact position_lt_of_mem_bestRuns member List.mem_cons_self

/-- The values where the runs end are found at their positions. -/
theorem map_getD_runPosition (front back : List Nat) :
    ((bestRuns front).map runPosition).map ((front ++ back).getD · 0) =
      (bestRuns front).map runEnd := by
  rw [List.map_map]
  refine List.map_congr_left fun run member => ?_
  obtain ⟨mark, rest, rfl, marked⟩ := exists_eq_cons_of_mem_bestRuns member
  have inside := (List.getElem?_eq_some_iff.mp marked).1
  show (front ++ back).getD mark.position 0 = mark.value
  rw [List.getD_eq_getElem?_getD, List.getElem?_append_left inside, marked, Option.getD_some]

/-- The ends that are below a value come before all others, which is what the search relies on. -/
theorem BestRuns.partitionPoint_eq (best : BestRuns values runs) (value : Nat) :
    partitionPoint (· < value) (runs.map runEnd) = some (reach runs value) := by
  have split : runs.map runEnd =
      (runs.take (reach runs value)).map runEnd ++ (runs.drop (reach runs value)).map runEnd := by
    rw [← List.map_append, List.take_append_drop]
  have size : ((runs.take (reach runs value)).map runEnd).length = reach runs value := by
    simpa using reach_le runs value
  rw [split, partitionPoint_append, size]
  · intro entry member
    obtain ⟨run, taken, rfl⟩ := List.mem_map.mp member
    obtain ⟨index, found⟩ := List.mem_iff_getElem?.mp taken
    rw [List.getElem?_take] at found
    split at found
    next within => exact decide_eq_true ((best.lt_reach_iff found value).mp within)
    next => cases found
  · intro entry member
    obtain ⟨run, dropped, rfl⟩ := List.mem_map.mp member
    obtain ⟨index, found⟩ := List.mem_iff_getElem?.mp dropped
    rw [List.getElem?_drop] at found
    have beyond : ¬ runEnd run < value := fun below => by
      have within := (best.lt_reach_iff found value).mpr below
      omega
    exact decide_eq_false beyond

theorem extendRuns_eq (runs : List (List Mark)) (mark : Mark) :
    extendRuns runs mark =
      if reach runs mark.value = runs.length then runs ++ [mark :: behind runs mark.value]
      else runs.set (reach runs mark.value) (mark :: behind runs mark.value) := by
  unfold extendRuns
  rw [length_takeWhile_endsBelow]
  rfl

theorem mem_extendRuns_cases {mark : Mark} (member : run ∈ extendRuns runs mark) :
    run ∈ runs ∨ run = mark :: behind runs mark.value := by
  rw [extendRuns_eq] at member
  split at member
  · simpa using member
  · exact List.mem_or_eq_of_mem_set member

namespace Pointers

theorem Represent.start (values : List Nat) : (start values.length).Represent values [] where
  tails := rfl
  ways := by simp [bestRuns]
  size := List.length_replicate ..
  blank position _ inside := by simp [Pointers.start, inside]

namespace Represent

/-- The way back from what a value is put behind. -/
theorem way_behind (represent : pointers.Represent values front) (value : Nat) :
    WayBack pointers.previous ((behind (bestRuns front) value).head?.map Mark.position)
      ((behind (bestRuns front) value).map Mark.position) := by
  rcases behind_cases (bestRuns front) value with ⟨-, none⟩ | ⟨-, found⟩
  · rw [none]
    exact .done
  · have member := List.mem_of_getElem? found
    have way := represent.ways _ member
    obtain ⟨mark, rest, same, -⟩ := exists_eq_cons_of_mem_bestRuns member
    rw [same] at way ⊢
    exact way

theorem enterBefore_eq (represent : pointers.Represent values front) (more : front.length < values.length)
    (value : Nat) :
    pointers.enterBefore front.length (reach (bestRuns front) value) =
      some (pointers.previous.set front.length
        ((behind (bestRuns front) value).head?.map Mark.position)) := by
  unfold enterBefore
  rcases behind_cases (bestRuns front) value with ⟨first, none⟩ | ⟨positive, found⟩
  · have blank := represent.blank front.length (Nat.le_refl _) more
    obtain ⟨inside, nothing⟩ := List.getElem?_eq_some_iff.mp blank
    rw [if_pos first, none, List.head?_nil, Option.map_none, ← nothing, List.set_getElem_self]
  · obtain ⟨mark, rest, same, -⟩ := exists_eq_cons_of_mem_bestRuns (List.mem_of_getElem? found)
    have tail : pointers.tails[reach (bestRuns front) value - 1]? = some mark.position := by
      rw [represent.tails, List.getElem?_map, found, same]
      rfl
    rw [if_neg (by omega), tail, same]
    exact if_pos (by rwa [represent.size])

theorem enterTail_eq (represent : pointers.Represent values front) (value : Nat) :
    pointers.enterTail front.length (reach (bestRuns front) value) =
      some ((bestRuns (front ++ [value])).map runPosition) := by
  have bound := reach_le (bestRuns front) value
  have size : pointers.tails.length = (bestRuns front).length := by simp [represent.tails]
  rw [enterTail, bestRuns_concat, extendRuns_eq, size]
  split
  next => simp [represent.tails, runPosition]
  next apart =>
    have inside : reach (bestRuns front) value < pointers.tails.length := by omega
    rw [assign?, if_pos inside, represent.tails, List.map_set]
    rfl

/-- Placing the next value succeeds, and does to the pointers what it does to the runs. -/
theorem place (represent : pointers.Represent values front) (split : values = front ++ value :: back) :
    ∃ next, place values pointers front.length = some next ∧
      next.Represent values (front ++ [value]) := by
  have more : front.length < values.length := by simp [split]
  have here : values[front.length]? = some value := by simp [split]
  have known : ∀ tail ∈ pointers.tails, tail < values.length := by
    intro tail member
    rw [represent.tails] at member
    obtain ⟨run, kept, rfl⟩ := List.mem_map.mp member
    exact (runPosition_lt_of_mem_bestRuns kept).trans more
  have point : partitionPoint (· < value) (pointers.tails.map (values.getD · 0)) =
      some (reach (bestRuns front) value) := by
    rw [represent.tails, split, map_getD_runPosition, (bestRuns_best front).partitionPoint_eq]
  have absent (run : List Mark) (member : run ∈ bestRuns front) :
      front.length ∉ run.map Mark.position := by
    intro inside
    obtain ⟨mark, present, same⟩ := List.mem_map.mp inside
    exact Nat.ne_of_lt (position_lt_of_mem_bestRuns member present) same
  refine ⟨⟨(bestRuns (front ++ [value])).map runPosition, pointers.previous.set front.length
    ((behind (bestRuns front) value).head?.map Mark.position)⟩, ?_, rfl, ?_, ?_, ?_⟩
  · simp only [Pointers.place, here, Option.bind_eq_bind, Option.bind_some, guard, if_pos known,
      point, represent.enterBefore_eq more, represent.enterTail_eq]
    rfl
  · intro run member
    rw [bestRuns_concat] at member
    rcases mem_extendRuns_cases member with old | rfl
    · -- The new position lies beyond all marks of the run, so the way back does not pass it.
      exact (represent.ways run old).set (absent run old) _
    · have inside : front.length < pointers.previous.length := by rwa [represent.size]
      refine .step (List.getElem?_set_self inside) ((represent.way_behind value).set ?_ _)
      rcases behind_cases (bestRuns front) value with ⟨-, none⟩ | ⟨-, found⟩
      · simp [none]
      · exact absent _ (List.mem_of_getElem? found)
  · rw [List.length_set, represent.size]
  · intro position later inside
    rw [List.length_append, List.length_singleton] at later
    rw [List.getElem?_set_ne (by omega)]
    exact represent.blank position (by omega) inside

end Represent

/-- Placing the first positions succeeds, and the pointers stand for the runs of their values. -/
theorem placeFirst_represent (split : values = front ++ back) :
    ∃ pointers, placeFirst values front.length = some pointers ∧
      pointers.Represent values front := by
  induction front using List.reverseRecOn generalizing back with
  | nil => exact ⟨_, rfl, .start values⟩
  | append_singleton front value ih =>
    rw [List.append_assoc, List.singleton_append] at split
    obtain ⟨pointers, placed, represent⟩ := ih split
    obtain ⟨next, step, represent⟩ := represent.place split
    refine ⟨next, ?_, represent⟩
    rw [placeFirst] at placed ⊢
    rw [List.length_append, List.length_singleton, List.range_succ, List.foldlM_append, placed]
    simp [step]

/-- The pass succeeds, and going back from the last end one meets the longest run and nothing else. -/
theorem exists_wayBack_iff (values : List Nat) :
    ∃ pointers, placeFirst values values.length = some pointers ∧ ∀ positions,
      WayBack pointers.previous pointers.tails.getLast? positions.reverse ↔
        positions = longestRun values := by
  obtain ⟨pointers, placed, represent⟩ := placeFirst_represent (List.append_nil values).symm
  have way : WayBack pointers.previous pointers.tails.getLast? (longestRun values).reverse := by
    rw [represent.tails, List.getLast?_map, longestRun, List.reverse_reverse]
    cases last : (bestRuns values).getLast? with
    | none => exact .done
    | some run => exact represent.ways run (List.mem_of_getLast? last)
  refine ⟨pointers, placed, fun positions => ⟨fun other => ?_, ?_⟩⟩
  · exact List.reverse_injective (other.unique way)
  · rintro rfl
    exact way

end Pointers

/-- The marks of the longest run, last first, come before all increasing subsequences of their number. -/
theorem exists_run_of_longestRun (values : List Nat) :
    ∃ run, IsRun values run ∧ longestRun values = (run.map Mark.position).reverse ∧
      ∀ other : List Nat, other.Sublist values → other.Pairwise (· < ·) → other.length = run.length →
        LexLe (run.map Mark.value) other.reverse := by
  refine ⟨(bestRuns values).getLast?.getD [], ?_, rfl, ?_⟩
  · cases last : (bestRuns values).getLast? with
    | none => exact ⟨by simp, List.Pairwise.nil⟩
    | some run => exact isRun_of_mem_bestRuns (List.mem_of_getLast? last)
  · intro other sublist ascends length
    cases last : (bestRuns values).getLast? with
    | none => exact lexLe_nil _
    | some run =>
      rw [last, Option.getD_some] at length
      rw [List.getLast?_eq_getElem?] at last
      have size := (bestRuns_best values).lengths last
      exact bestRuns_endsLeast values last sublist ascends (by omega)

/-- The positions that a pass with pointers comes to go up, and so do the values there. No increasing
subsequence is longer, and among those of the same length none comes before these values when both are
read from the last to the first. -/
theorem longestRun_optimal (values : List Nat) :
    (∃ pointers, Pointers.placeFirst values values.length = some pointers ∧ ∀ positions,
      WayBack pointers.previous pointers.tails.getLast? positions.reverse ↔
        positions = longestRun values) ∧
      (longestRun values).Pairwise (· < ·) ∧
      ∃ picked : List Nat, (longestRun values).map (values[·]?) = picked.map some ∧ picked.Pairwise (· < ·) ∧
        ∀ other : List Nat, other.Sublist values → other.Pairwise (· < ·) →
          other.length ≤ picked.length ∧
            (other.length = picked.length → LexLe picked.reverse other.reverse) := by
  obtain ⟨run, isRun, positions, least⟩ := exists_run_of_longestRun values
  refine ⟨Pointers.exists_wayBack_iff values, (longestRun_pairwise values).imp And.left,
    (run.map Mark.value).reverse, ?_, ?_, ?_⟩
  · rw [positions, List.map_reverse, List.map_reverse, List.map_map, List.map_map]
    exact congrArg List.reverse (List.map_congr_left isRun.marked)
  · rw [List.pairwise_reverse, List.pairwise_map]
    exact isRun.rising.imp And.right
  · intro other sublist ascends
    have size : (run.map Mark.value).reverse.length = (longestRun values).length := by
      simp [positions]
    constructor
    · rw [size]
      exact (longestRun_longest values).2 ⟨other, sublist, ascends, rfl⟩
    · intro same
      rw [List.reverse_reverse]
      exact least other sublist ascends (by simpa using same)

/-- Of the runs of length three the one that is lowest from its end is taken, and a value that is met again
counts where it is met last. -/
example : longestRun [5, 6, 1, 9, 2, 2, 7] = [2, 5, 6] := by
  decide

end ReactiveTree
