import Mathlib.Data.List.Nodup
import Mathlib.Data.List.Pairwise
import ReactiveTree.Proofs.Sequence.LongestRun
import ReactiveTree.Reconcile.Layout

/-! # Which children stay

The targets of a plan answer its placements one by one, and the children that do not move come in
the order of their old places.
-/

namespace ReactiveTree

/-- The ways in which a placement may be settled. -/
inductive Target.Settles : Placement → Target → Prop
  | stay (place : Place) : Settles (.keep place) (.stay place)
  | move (place : Place) : Settles (.keep place) (.move place)
  | insert (tree : Tree) : Settles (.create tree) (.insert tree)
  | swap (place : Place) (tree : Tree) : Settles (.swap place tree) (.swap place tree)
  | remake (place : Place) (tree : Tree) : Settles (.swap place tree) (.remake place tree)

variable {placements : List Placement} {marked : List MarkedPlacement} {last : Option Nat}

private theorem settle_settles (last : Option Nat) (marked : List MarkedPlacement) :
    List.Forall₂ Target.Settles (marked.map Prod.fst) (settle last marked) := by
  fun_induction settle last marked with
  | case1 => exact .nil
  | case2 _ place _ ih => exact .cons (.stay place) ih
  | case3 _ place _ ih => exact .cons (.move place) ih
  | case4 _ tree _ _ ih => exact .cons (.insert tree) ih
  | case5 _ place tree _ _ _ ih => exact .cons (.swap place tree) ih
  | case6 _ place tree _ _ _ ih => exact .cons (.remake place tree) ih

theorem targetsOf_settles (placements : List Placement) :
    List.Forall₂ Target.Settles placements (targetsOf placements) := by
  have settled := settle_settles none (markStays placements)
  have unmarked : (markStays placements).map Prod.fst = placements := by
    unfold markStays
    rw [List.map_map]
    exact List.zipIdx_map_fst 0 placements
  rwa [unmarked] at settled

/-- The old places of the kept nodes that are marked to stay. -/
def stays (marked : List MarkedPlacement) : List Nat :=
  marked.filterMap fun (placement, stay) =>
    match placement, stay with
    | .keep place, true => some place.index
    | _, _ => none

private theorem nextStay?_eq_head? (marked : List MarkedPlacement) :
    nextStay? marked = (stays marked).head? := by
  fun_induction nextStay? marked with
  | case1 => rfl
  | case2 => rfl
  | case3 entry rest other ih =>
    obtain ⟨placement, stay⟩ := entry
    cases placement with
    | keep place =>
      cases stay with
      | true => exact absurd rfl (other place)
      | false => exact ih
    | create => exact ih
    | swap => exact ih

private theorem all_lt_trans {middle high : Nat} (low : last.all (· < middle))
    (above : middle < high) : last.all (· < high) := by
  cases last with
  | none => rfl
  | some least =>
    have below : least < middle := by simpa using low
    simpa using Nat.lt_trans below above

private theorem fixed_settle (ordered : (stays marked).Pairwise (· < ·))
    (above : ∀ index ∈ stays marked, last.all (· < index)) :
    ((settle last marked).filterMap Target.fixed?).Pairwise (· < ·) ∧
      ∀ index ∈ (settle last marked).filterMap Target.fixed?, last.all (· < index) := by
  -- `last` bounds all that follows from below.
  fun_induction settle last marked with
  | case1 => simp
  | case2 last place rest ih =>
    have split : stays ((.keep place, true) :: rest) = place.index :: stays rest := rfl
    rw [split] at ordered above
    obtain ⟨later, ordered⟩ := List.pairwise_cons.mp ordered
    obtain ⟨sorted, bound⟩ := ih ordered fun index member => by simpa using later index member
    have here := above place.index (List.mem_cons_self ..)
    refine ⟨List.pairwise_cons.mpr ⟨fun index member => by simpa using bound index member, sorted⟩,
      fun index member => ?_⟩
    rcases List.mem_cons.mp member with rfl | inside
    · exact here
    · exact all_lt_trans here (by simpa using bound index inside)
  | case3 last place rest ih => exact ih ordered above
  | case4 last tree stay rest ih => exact ih ordered above
  | case5 last place tree stay rest between ih =>
    obtain ⟨below, next⟩ := between
    rw [nextStay?_eq_head?] at next
    have split : stays ((.swap place tree, stay) :: rest) = stays rest := rfl
    rw [split] at ordered above
    have later : ∀ index ∈ stays rest, place.index < index := by
      intro index member
      cases listed : stays rest with
      | nil => simp [listed] at member
      | cons first others =>
        rw [listed] at member ordered next
        have least : place.index < first := by simpa using next
        rcases List.mem_cons.mp member with rfl | inside
        · exact least
        · exact Nat.lt_trans least ((List.pairwise_cons.mp ordered).1 index inside)
    obtain ⟨sorted, bound⟩ := ih ordered fun index member => by simpa using later index member
    refine ⟨List.pairwise_cons.mpr ⟨fun index member => by simpa using bound index member, sorted⟩,
      fun index member => ?_⟩
    rcases List.mem_cons.mp member with rfl | inside
    · exact below
    · exact all_lt_trans below (by simpa using bound index inside)
  | case6 last place tree stay rest _ ih => exact ih ordered above

theorem keptPlaces_pairwise (placements : List Placement) :
    (keptPlaces placements).Pairwise fun left right => left.1 < right.1 := by
  have positions : placements.zipIdx.Pairwise fun left right => left.2 < right.2 := by
    rw [← List.pairwise_map, List.zipIdx_map_snd]
    exact List.pairwise_lt_range'
  unfold keptPlaces
  rw [List.pairwise_filterMap]
  refine positions.imp fun {left right} less first here second there => ?_
  obtain ⟨leftPlacement, leftPosition⟩ := left
  obtain ⟨rightPlacement, rightPosition⟩ := right
  cases leftPlacement <;> cases rightPlacement <;> simp_all
  rw [← here, ← there]
  exact less

theorem stays_marked (placements : List Placement) (chosen : Nat → Bool) :
    stays (placements.zipIdx.map fun (placement, position) => (placement, chosen position)) =
      (keptPlaces placements).filterMap fun entry =>
        if chosen entry.1 then some entry.2 else none := by
  unfold stays keptPlaces
  rw [List.filterMap_map, List.filterMap_filterMap]
  congr 1
  funext ⟨placement, position⟩
  cases placement with
  | keep place =>
    cases decided : chosen position <;> simp [decided]
  | create => rfl
  | swap => rfl

/-- Entries whose positions are picked by a longest run of their places have increasing places. -/
private theorem picked_pairwise {kept : List (Nat × Nat)}
    (ordered : kept.Pairwise fun left right => left.1 < right.1) {positions : List Nat}
    (picks : positions = (longestRun (kept.map Prod.snd)).map fun entry =>
      (kept.map Prod.fst).getD entry 0) :
    (kept.filterMap fun entry =>
      if decide (entry.1 ∈ positions) then some entry.2 else none).Pairwise (· < ·) := by
  rw [List.pairwise_iff_getElem] at ordered
  have onRun : ∀ entry (inside : entry < kept.length), kept[entry].1 ∈ positions →
      entry ∈ longestRun (kept.map Prod.snd) := by
    intro entry inside member
    rw [picks] at member
    obtain ⟨other, chosen, same⟩ := List.mem_map.mp member
    have bound : other < kept.length := by simpa using lt_length_of_mem_longestRun chosen
    have equal : kept[other].1 = kept[entry].1 := by
      simpa [List.getD_eq_getElem?_getD, bound] using same
    rcases Nat.lt_trichotomy other entry with less | rfl | greater
    · have := ordered other entry bound inside less
      omega
    · exact chosen
    · have := ordered entry other inside bound greater
      omega
  have increasing : ∀ left ∈ longestRun (kept.map Prod.snd),
      ∀ right ∈ longestRun (kept.map Prod.snd), left < right →
        (kept.map Prod.snd).getD left 0 < (kept.map Prod.snd).getD right 0 := by
    intro left leftMember right rightMember less
    obtain ⟨first, firstInside, rfl⟩ := List.mem_iff_getElem.mp leftMember
    obtain ⟨second, secondInside, rfl⟩ := List.mem_iff_getElem.mp rightMember
    have runs := List.pairwise_iff_getElem.mp (longestRun_pairwise (kept.map Prod.snd))
    rcases Nat.lt_trichotomy first second with before | rfl | after
    · exact (runs first second firstInside secondInside before).2
    · omega
    · have := (runs second first secondInside firstInside after).1
      omega
  rw [List.pairwise_filterMap, List.pairwise_iff_getElem]
  intro left right leftInside rightInside less first here second there
  rw [Option.ite_none_right_eq_some, decide_eq_true_eq] at here there
  obtain ⟨leftMember, here⟩ := here
  obtain ⟨rightMember, there⟩ := there
  cases here
  cases there
  have result := increasing left (onRun left leftInside leftMember) right
    (onRun right rightInside rightMember) less
  simpa [List.getD_eq_getElem?_getD, leftInside, rightInside] using result

/-- Children that do not move come in the order of their old places. -/
theorem fixed_targetsOf (placements : List Placement) :
    ((targetsOf placements).filterMap Target.fixed?).Pairwise (· < ·) := by
  have ordered : (stays (markStays placements)).Pairwise (· < ·) := by
    rw [markStays, stays_marked placements fun position => decide (position ∈ _)]
    exact picked_pairwise (keptPlaces_pairwise placements) rfl
  exact (fixed_settle ordered (by simp)).1

end ReactiveTree
