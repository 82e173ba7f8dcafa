/-! # A longest increasing run

`longestRun values` picks positions of a strictly increasing subsequence of greatest length.
It keeps, for each length met so far, the run of that length that ends on the smallest value; a new
value extends the longest run that ends below it, and becomes the best end for one length more.
-/

namespace ReactiveTree

/-- A place in a list with the value there. -/
structure Mark where
  position : Nat
  value : Nat
  deriving DecidableEq, Repr

/-- Whether a run, last mark first, ends below a value. -/
def endsBelow (value : Nat) : List Mark → Bool
  | [] => false
  | mark :: _ => mark.value < value

/-- Place a value: behind the longest run that ends below it. -/
def extendRuns (runs : List (List Mark)) (mark : Mark) : List (List Mark) :=
  let length := (runs.takeWhile (endsBelow mark.value)).length
  let run := mark :: (if length = 0 then [] else runs.getD (length - 1) [])
  if length = runs.length then runs ++ [run] else runs.set length run

/-- The best run of each length, shortest first, each with its last mark first. -/
def bestRuns (values : List Nat) : List (List Mark) :=
  (values.zipIdx.map fun (value, position) => Mark.mk position value).foldl extendRuns []

/-- Positions of a longest strictly increasing subsequence, in order. Among the longest ones it is
the one whose values, read from the last to the first, are smallest. -/
def longestRun (values : List Nat) : List Nat :=
  (((bestRuns values).getLast?.getD []).map Mark.position).reverse

end ReactiveTree
