import ReactiveTree.Proofs.Reconcile.Layout
import ReactiveTree.Proofs.Sequence.Longest

/-! # Which reused nodes are moved

Of the nodes that a plan reuses, those on a longest run of increasing old places stay, and each of the
others is moved once. None of these moves is left out for being idle: a node that could stay where it
waits would lie between its neighbours that stay, and with it they would be a longer run.
-/

namespace ReactiveTree

variable {placements : List Placement} {targets : List Target} {position : Nat} {place : Place}

/-- The old node that a placement keeps. -/
def Placement.kept? : Placement → Option Place
  | .keep place => some place
  | _ => none

namespace Target

/-- The old node that a target goes on to use. -/
def kept? : Target → Option Place
  | .stay place => some place
  | .move place => some place
  | _ => none

def stayed? : Target → Option Place
  | .stay place => some place
  | _ => none

def moved? : Target → Option Place
  | .move place => some place
  | _ => none

end Target

theorem kept_of_settles (settled : List.Forall₂ Target.Settles placements targets) :
    targets.filterMap Target.kept? = placements.filterMap Placement.kept? := by
  induction settled with
  | nil => rfl
  | cons here _ ih => cases here <;> simp [List.filterMap_cons, Target.kept?, Placement.kept?, ih]

theorem length_kept (targets : List Target) :
    (targets.filterMap Target.kept?).length =
      (targets.filterMap Target.stayed?).length + (targets.filterMap Target.moved?).length := by
  induction targets with
  | nil => rfl
  | cons target rest ih =>
    cases target <;>
      simp only [List.filterMap_cons, Target.kept?, Target.stayed?, Target.moved?, ih,
        List.length_cons] <;> omega

theorem stayed_settle (last : Option Nat) (marked : List MarkedPlacement) :
    ((settle last marked).filterMap Target.stayed?).map Place.index = stays marked := by
  fun_induction settle last marked with
  | case1 => rfl
  | case2 _ place rest ih => exact congrArg (place.index :: ·) ih
  | case3 _ _ _ ih => exact ih
  | case4 _ _ _ _ ih => exact ih
  | case5 _ _ _ _ _ _ ih => exact ih
  | case6 _ _ _ _ _ _ ih => exact ih

theorem map_snd_keptPlaces (placements : List Placement) :
    (keptPlaces placements).map Prod.snd = (placements.filterMap Placement.kept?).map Place.index := by
  conv_rhs => rw [← List.zipIdx_map_fst 0 placements, List.filterMap_map]
  unfold keptPlaces
  rw [List.map_filterMap, List.map_filterMap]
  congr 1
  funext ⟨placement, position⟩
  cases placement <;> rfl

theorem countP_mem_of_subset {entries picked : List Nat} (distinct : entries.Nodup)
    (distinct' : picked.Nodup) (within : picked ⊆ entries) :
    entries.countP (· ∈ picked) = picked.length := by
  rw [List.countP_eq_length_filter]
  refine ((List.perm_ext_iff_of_nodup (distinct.filter _) distinct').mpr fun entry => ?_).length_eq
  rw [List.mem_filter, decide_eq_true_eq]
  exact ⟨And.right, fun member => ⟨within member, member⟩⟩

/-- As many kept nodes stay as the longest run of their old places has entries. -/
theorem length_stays_markStays (placements : List Placement) :
    (stays (markStays placements)).length =
      (longestRun ((placements.filterMap Placement.kept?).map Place.index)).length := by
  have ordered : ((keptPlaces placements).map Prod.fst).Pairwise (· < ·) :=
    List.pairwise_map.mpr (keptPlaces_pairwise placements)
  rw [← map_snd_keptPlaces]
  unfold markStays
  rw [stays_marked placements fun position => decide (position ∈ _), List.length_filterMap_eq_countP]
  generalize keptPlaces placements = kept at ordered ⊢
  have inside : ∀ entry ∈ longestRun (kept.map Prod.snd), entry < (kept.map Prod.fst).length := by
    intro entry member
    simpa using lt_length_of_mem_longestRun member
  have rising : ((longestRun (kept.map Prod.snd)).map fun entry =>
      (kept.map Prod.fst).getD entry 0).Pairwise (· < ·) := by
    refine List.pairwise_map.mpr ((longestRun_pairwise _).imp_of_mem fun early late step => ?_)
    have less := List.pairwise_iff_getElem.mp ordered _ _ (inside _ early) (inside _ late) step.1
    simpa [List.getD_eq_getElem?_getD, List.getElem?_eq_getElem (inside _ early),
      List.getElem?_eq_getElem (inside _ late)] using less
  have counted := countP_mem_of_subset (ordered.imp Nat.ne_of_lt) (rising.imp Nat.ne_of_lt)
    (fun position member => by
      obtain ⟨entry, listed, rfl⟩ := List.mem_map.mp member
      rw [List.getD_eq_getElem?_getD, List.getElem?_eq_getElem (inside entry listed)]
      exact List.getElem_mem _)
  rw [List.length_map, List.countP_map] at counted
  rw [← counted]
  refine List.countP_congr fun entry _ => ?_
  simp

/-- The nodes that stay are a longest run of the reused ones. -/
theorem length_stayed_targetsOf (placements : List Placement) :
    ((targetsOf placements).filterMap Target.stayed?).length =
      (longestRun ((placements.filterMap Placement.kept?).map Place.index)).length := by
  rw [← length_stays_markStays, ← stayed_settle none, List.length_map]
  rfl

/-- No increasing run of the reused nodes is longer than those that stay. -/
def StaysLongest (targets : List Target) : Prop :=
  ∀ run : List Nat, run.Sublist ((targets.filterMap Target.kept?).map Place.index) →
    run.Pairwise (· < ·) → run.length ≤ (targets.filterMap Target.stayed?).length

theorem staysLongest_targetsOf (placements : List Placement) : StaysLongest (targetsOf placements) := by
  intro run sublist ascends
  rw [kept_of_settles (targetsOf_settles placements)] at sublist
  rw [length_stayed_targetsOf]
  exact (longestRun_longest _).2 ⟨run, sublist, ascends, rfl⟩

theorem Target.fixed?_of_stayed {target : Target} (stays : target.stayed? = some place) :
    target.fixed? = some place.index ∧ target.start? = some place ∧ target.kept? = some place := by
  cases target <;> simp_all [Target.stayed?, Target.fixed?, Target.start?, Target.kept?]

/-- The child at the anchor of an old place was behind it. -/
theorem exists_fixed_anchorOfPlace {index : Nat}
    (inside : anchorOfPlace targets index < targets.length) :
    ∃ bound, targets[anchorOfPlace targets index].fixed? = some bound ∧ index < bound := by
  have high := List.findIdx_getElem (w := inside)
  unfold anchorOfPlace
  cases anchored : targets[targets.findIdx fun target => target.fixed?.any (index < ·)].fixed? with
  | none =>
    rw [anchored] at high
    cases high
  | some bound =>
    rw [anchored] at high
    exact ⟨bound, rfl, of_decide_eq_true high⟩

/-- What stays before a moved node has a lower place, if the node waits just before the next child that
is fixed behind it, and what stays behind it has a higher one. -/
theorem Ordered.stayed_of_same_anchor (ordered : Ordered targets)
    (here : targets[position]? = some (.move place))
    (same : anchorOfPlace targets place.index = anchorAfter targets position)
    {other : Nat} {target : Target} {stayed : Place} (there : targets[other]? = some target)
    (stays : target.stayed? = some stayed) :
    (other < position → stayed.index < place.index) ∧
      (position < other → place.index < stayed.index) := by
  obtain ⟨fixed, starts, -⟩ := Target.fixed?_of_stayed stays
  have isFixed : target.isFixed := by simp [Target.isFixed, fixed]
  obtain ⟨inside, rfl⟩ := List.getElem?_eq_some_iff.mp there
  constructor
  · intro early
    have below := lt_anchorAfter targets position
    have passed : other < anchorOfPlace targets place.index := by omega
    have low := List.not_of_lt_findIdx passed
    rw [fixed] at low
    have apart : stayed.index ≠ place.index := by
      intro equal
      have one := ordered.position_eq there here starts rfl equal
      omega
    simp only [Option.any_some, decide_eq_false_iff_not] at low
    omega
  · intro late
    have bound := anchorAfter_le there isFixed late
    have reached : anchorOfPlace targets place.index < targets.length := by omega
    obtain ⟨index, anchored, high⟩ := exists_fixed_anchorOfPlace reached
    have least := ordered.fixed_le (List.getElem?_eq_getElem reached) there (by omega) anchored fixed
    omega

theorem stayed_sublist_kept (targets : List Target) :
    (targets.filterMap Target.stayed?).Sublist (targets.filterMap Target.kept?) := by
  induction targets with
  | nil => exact .slnil
  | cons target rest ih =>
    cases target with
    | stay place => exact ih.cons_cons place
    | move place => exact ih.cons place
    | insert | swap | remake => exact ih

theorem Ordered.stayed_pairwise (ordered : Ordered targets) :
    ((targets.filterMap Target.stayed?).map Place.index).Pairwise (· < ·) := by
  apply List.Pairwise.sublist _ ordered.increasing
  induction targets with
  | nil => exact .slnil
  | cons target rest ih =>
    have later := ih ⟨ordered.increasing.sublist ((List.sublist_cons_self ..).filterMap _),
      ordered.distinct.sublist ((List.sublist_cons_self ..).filterMap _)⟩
    cases target with
    | stay place => exact later.cons_cons place.index
    | swap place => exact later.cons place.index
    | move | insert | remake => exact later

/-- A moved node does not wait at the anchor that it is put before. -/
theorem Ordered.anchor_ne (ordered : Ordered targets) (longest : StaysLongest targets)
    (here : targets[position]? = some (.move place)) :
    anchorOfPlace targets place.index ≠ anchorAfter targets position := by
  intro same
  obtain ⟨front, back, rfl, rfl⟩ : ∃ front back, targets = front ++ .move place :: back ∧
      front.length = position := by
    obtain ⟨inside, found⟩ := List.getElem?_eq_some_iff.mp here
    refine ⟨targets.take position, targets.drop (position + 1), ?_, List.length_take_of_le
      (Nat.le_of_lt inside)⟩
    rw [← found, ← List.drop_eq_getElem_cons inside, List.take_append_drop]
  have lower : ∀ index ∈ (front.filterMap Target.stayed?).map Place.index, index < place.index := by
    intro index member
    obtain ⟨stayed, listed, rfl⟩ := List.mem_map.mp member
    obtain ⟨target, early, stays⟩ := List.mem_filterMap.mp listed
    obtain ⟨other, found⟩ := List.mem_iff_getElem?.mp early
    have less := (List.getElem?_eq_some_iff.mp found).1
    rw [← List.getElem?_append_left less] at found
    exact (ordered.stayed_of_same_anchor here same found stays).1 less
  have higher : ∀ index ∈ (back.filterMap Target.stayed?).map Place.index, place.index < index := by
    intro index member
    obtain ⟨stayed, listed, rfl⟩ := List.mem_map.mp member
    obtain ⟨target, late, stays⟩ := List.mem_filterMap.mp listed
    obtain ⟨other, found⟩ := List.mem_iff_getElem?.mp late
    have there : (front ++ .move place :: back)[front.length + (other + 1)]? = some target := by
      rw [List.getElem?_append_right (Nat.le_add_right ..), Nat.add_sub_cancel_left]
      exact found
    exact (ordered.stayed_of_same_anchor here same there stays).2 (by omega)
  -- With the moved node among them, what stays would be a longer run.
  have staying := ordered.stayed_pairwise
  have bound := longest ((front.filterMap Target.stayed?).map Place.index ++
    place.index :: (back.filterMap Target.stayed?).map Place.index)
  have moved : Target.stayed? (.move place) = none := rfl
  have kept : Target.kept? (.move place) = some place := rfl
  rw [List.filterMap_append, List.filterMap_cons_none moved, List.map_append] at staying
  rw [List.filterMap_append, List.filterMap_append, List.filterMap_cons_none moved,
    List.filterMap_cons_some kept, List.map_append, List.length_append, List.length_append,
    List.length_cons, List.length_map, List.length_map] at bound
  obtain ⟨first, second, across⟩ := List.pairwise_append.mp staying
  have longer := bound
    (((stayed_sublist_kept front).map _).append (((stayed_sublist_kept back).map _).cons_cons _))
    (List.pairwise_append.mpr ⟨first, List.pairwise_cons.mpr ⟨higher, second⟩, ?_⟩)
  · omega
  · intro left early right late
    rcases List.mem_cons.mp late with rfl | behind
    · exact lower left early
    · exact across left early right behind

/-- The node that a patch moves. -/
def Patch.moved? : Patch → Option HostId
  | .move _ target _ _ => some target
  | _ => none

theorem Slot.before_trans {first second third : Slot} (early : first.before second)
    (late : second.before third) : first.before third := by
  rw [before_iff] at *
  omega

namespace Board

variable {board : Board} {contents : Slot → List HostId} {widths : LeadingSums} {slot : Slot}
  {target : Target}

/-- Before a slot stands what the earlier slots hold. -/
theorem Tracks.sumBefore_eq (tracks : board.Tracks contents widths) (sorted : board.Sorted)
    (member : slot ∈ board.order) :
    widths.sumBefore (board.indexOf slot) = ((board.order.filter fun other => other.before slot).map
      fun other => (contents other).length).sum := by
  obtain ⟨left, right, split, index, -, -⟩ := sorted.exists_split member
  have pairs : (left ++ slot :: right).Pairwise fun first second => first.before second :=
    split ▸ sorted
  obtain ⟨-, later, across⟩ := List.pairwise_append.mp pairs
  have below : left.filter (fun other => other.before slot) = left :=
    List.filter_eq_self.mpr fun other inside => across other inside slot List.mem_cons_self
  have above : (slot :: right).filter (fun other => other.before slot) = [] := by
    apply List.filter_eq_nil_iff.mpr
    intro other inside
    rcases List.mem_cons.mp inside with rfl | behind
    · exact Slot.before_irrefl other
    · exact Slot.before_asymm ((List.pairwise_cons.mp later).1 other behind)
  rw [tracks.sumBefore split index, split, List.filter_append, below, above, List.append_nil,
    List.length_flatMap]

/-- If something stands between two slots, then more comes before the later one. -/
theorem sum_before_lt {order : List Slot} (size : Slot → Nat) {low middle high : Slot}
    (member : middle ∈ order) (early : low.before middle) (late : middle.before high)
    (positive : 0 < size middle) :
    ((order.filter fun other => other.before low).map size).sum <
      ((order.filter fun other => other.before high).map size).sum := by
  have within (other : Slot) (below : other.before low) : other.before high :=
    Slot.before_trans below (Slot.before_trans early late)
  have bounded (order : List Slot) : ((order.filter fun other => other.before low).map size).sum ≤
      ((order.filter fun other => other.before high).map size).sum := by
    induction order with
    | nil => exact Nat.le_refl _
    | cons first rest ih =>
      rw [List.filter_cons, List.filter_cons]
      by_cases below : first.before low
      · simp only [below, within first below, if_true, List.map_cons, List.sum_cons]
        omega
      · rw [if_neg below]
        split
        next =>
          rw [List.map_cons, List.sum_cons]
          omega
        next => exact ih
  obtain ⟨left, right, rfl⟩ := List.append_of_mem member
  have here := bounded left
  have there := bounded right
  have passed : ¬ middle.before low := Slot.before_asymm early
  simp only [List.filter_append, List.filter_cons, passed, late, if_true, List.map_append,
    List.map_cons, List.sum_append, List.sum_cons, Bool.false_eq_true, if_false]
  omega

/-- The fixed children of a board take up room. -/
structure Upheld (board : Board) (contents : Slot → List HostId) (widths : LeadingSums) : Prop where
  tracks : board.Tracks contents widths
  fixed : ∀ {position target}, board.targets[position]? = some target → target.isFixed →
    contents (.fixed position) ≠ []

/-- Targets as a plan gives them: what stays is a longest run, and swaps put something in place. -/
structure Settled (board : Board) : Prop where
  ordered : Ordered board.targets
  order : board.order = slots board.targets
  longest : StaysLongest board.targets
  filling : ∀ {place tree}, .swap place tree ∈ board.targets → 0 < tree.width

variable {position : Nat}

theorem Settled.sorted (settled : board.Settled) : board.Sorted :=
  sorted_of_ordered settled.ordered settled.order

theorem Settled.mem_order (settled : board.Settled) (here : board.targets[position]? = some target)
    (own : slot ∈ slotsFor board.targets target position) : slot ∈ board.order :=
  mem_order_of_mem_slotsFor settled.order here own

theorem Settled.upheld_start (settled : board.Settled) :
    board.Upheld (startContents board.targets board.targets.zipIdx) board.initialWidths where
  tracks := initialWidths_tracks settled.ordered settled.order
  fixed := by
    intro position target here isFixed
    have own : Slot.fixed position ∈ slotsFor board.targets target position := by
      cases target <;> simp_all [slotsFor, Target.isFixed, Target.fixed?]
    rw [startContents_eq settled.ordered here own]
    cases target <;>
      simp_all [startNodes, startPlaces, initialSlot?, Target.start?, Target.isFixed, Target.fixed?]

/-- What a slot that is not fixed holds does not matter. -/
theorem Upheld.update (upheld : board.Upheld contents widths) (sorted : board.Sorted)
    (member : slot ∈ board.order) (nodes : List HostId) (filled : slot.rank = .fixed → nodes ≠ []) :
    board.Upheld (Function.update contents slot nodes)
      (widths.set (board.indexOf slot) nodes.length) where
  tracks := upheld.tracks.update sorted member nodes
  fixed := by
    intro position target here isFixed
    by_cases same : Slot.fixed position = slot
    · rw [same, Function.update_self]
      exact filled (same ▸ rfl)
    · rw [Function.update_of_ne same]
      exact upheld.fixed here isFixed

/-- Between the slot where a node waits and the one where it is put stands a fixed child. -/
theorem Settled.exists_between (settled : board.Settled) {place : Place}
    (here : board.targets[position]? = some (.move place)) :
    ∃ middle target, board.targets[middle]? = some target ∧ target.isFixed ∧
      ((waitingSlot board.targets place).before (.fixed middle) ∧
          (Slot.fixed middle).before (placedSlot board.targets position) ∨
        (placedSlot board.targets position).before (.fixed middle) ∧
          (Slot.fixed middle).before (waitingSlot board.targets place)) := by
  have inside := (List.getElem?_eq_some_iff.mp here).1
  simp only [Slot.before_iff, waitingSlot, placedSlot, Slot.fixed, Rank.weight]
  rcases Nat.lt_or_gt_of_ne (settled.ordered.anchor_ne settled.longest here) with less | greater
  · have bound : anchorAfter board.targets position ≤ board.targets.length := by
      rcases anchorAfter_spec inside with last | ⟨target, there, -⟩
      · exact Nat.le_of_eq last
      · exact Nat.le_of_lt (List.getElem?_eq_some_iff.mp there).1
    have reached : anchorOfPlace board.targets place.index < board.targets.length := by omega
    obtain ⟨index, anchored, -⟩ := exists_fixed_anchorOfPlace reached
    refine ⟨_, _, List.getElem?_eq_getElem reached, ?_, Or.inl ⟨by omega, by omega⟩⟩
    simp [Target.isFixed, anchored]
  · have bound : anchorOfPlace board.targets place.index ≤ board.targets.length :=
      List.findIdx_le_length
    rcases anchorAfter_spec inside with last | ⟨target, there, isFixed⟩
    · omega
    · exact ⟨_, target, there, isFixed, Or.inr ⟨by omega, by omega⟩⟩

/-- A move is never idle: the places before it and after it differ. -/
theorem Upheld.before_ne_after (upheld : board.Upheld contents widths) (settled : board.Settled)
    {place : Place} (here : board.targets[position]? = some (.move place)) :
    widths.sumBefore (board.indexOf (waitingSlot board.targets place)) ≠
      (widths.set (board.indexOf (waitingSlot board.targets place)) 0).sumBefore
        (board.indexOf (placedSlot board.targets position)) := by
  have waits : waitingSlot board.targets place ∈ board.order :=
    settled.mem_order here (by simp [slotsFor])
  have mine : placedSlot board.targets position ∈ board.order :=
    settled.mem_order here (by simp [slotsFor])
  have lifted := upheld.update settled.sorted waits [] (by simp [waitingSlot])
  have before := upheld.tracks.sumBefore_eq settled.sorted waits
  have after := lifted.tracks.sumBefore_eq settled.sorted mine
  rw [List.length_nil] at after
  rw [before, after]
  obtain ⟨middle, target, there, isFixed, between⟩ := settled.exists_between here
  have listed : Slot.fixed middle ∈ board.order := by
    apply settled.mem_order there
    cases target <;> simp_all [slotsFor, Target.isFixed, Target.fixed?]
  have full := List.length_pos_of_ne_nil (upheld.fixed there isFixed)
  have full' := List.length_pos_of_ne_nil (lifted.fixed there isFixed)
  -- Lifting the node matters only to what comes behind the slot where it waits.
  have same {bound : Slot} (behind : ¬ (waitingSlot board.targets place).before bound) :
      (board.order.filter fun other => other.before bound).map (fun other =>
          (Function.update contents (waitingSlot board.targets place) [] other).length) =
        (board.order.filter fun other => other.before bound).map fun other =>
          (contents other).length := by
    apply List.map_congr_left
    intro other member
    rw [Function.update_of_ne]
    rintro rfl
    exact behind (List.mem_filter.mp member).2
  rcases between with ⟨early, late⟩ | ⟨early, late⟩
  · have more := sum_before_lt (fun other => (Function.update contents
      (waitingSlot board.targets place) [] other).length) listed early late full'
    rw [same (Slot.before_irrefl _)] at more
    omega
  · have more := sum_before_lt (fun other => (contents other).length) listed early late full
    rw [← same (Slot.before_asymm (Slot.before_trans early late))] at more
    omega

/-- A target is placed with a move if it is one to move, and with none otherwise. -/
theorem Upheld.placeTarget (upheld : board.Upheld contents widths) (settled : board.Settled)
    (here : board.targets[position]? = some target) :
    (board.placeTarget position target widths).1.filterMap Patch.moved? =
        (target.moved?.map Place.node).toList ∧
      ∃ latest, board.Upheld latest (board.placeTarget position target widths).2 := by
  have insert (tree : Tree)
      (own : placedSlot board.targets position ∈ slotsFor board.targets target position) :
      (board.insertTree position tree widths).1.filterMap Patch.moved? = [] ∧
        ∃ latest, board.Upheld latest (board.insertTree position tree widths).2 := by
    unfold Board.insertTree
    split
    next => exact ⟨rfl, contents, upheld⟩
    next =>
      have put := upheld.update settled.sorted (settled.mem_order here own)
        (List.replicate tree.width default) (by simp [placedSlot])
      rw [List.length_replicate] at put
      exact ⟨rfl, _, put⟩
  cases target with
  | stay place => exact ⟨rfl, contents, upheld⟩
  | insert tree => exact insert tree (by simp [slotsFor])
  | remake place tree => exact insert tree (by simp [slotsFor])
  | swap place tree =>
    have mine : Slot.fixed position ∈ board.order := settled.mem_order here (by simp [slotsFor])
    have put := upheld.update settled.sorted mine (List.replicate tree.width default)
      fun _ empty => by
        have positive := settled.filling (List.mem_of_getElem? here)
        rw [List.replicate_eq_nil_iff] at empty
        omega
    rw [List.length_replicate] at put
    exact ⟨rfl, _, put⟩
  | move place =>
    have waits : waitingSlot board.targets place ∈ board.order :=
      settled.mem_order here (by simp [slotsFor])
    have mine : placedSlot board.targets position ∈ board.order :=
      settled.mem_order here (by simp [slotsFor])
    have lifted := upheld.update settled.sorted waits [] (by simp [waitingSlot])
    have put := lifted.update settled.sorted mine [place.node] (by simp [placedSlot])
    have moves := upheld.before_ne_after settled here
    refine ⟨?_, _, put⟩
    simp only [Board.placeTarget]
    rw [if_neg moves]
    rfl

/-- The moves of a board are those of its targets, the last one first. -/
theorem Settled.placeAll (settled : board.Settled) {entries : List (Target × Nat)}
    (listed : ∀ entry ∈ entries, board.targets[entry.2]? = some entry.1) :
    (board.placeAll entries).1.filterMap Patch.moved? =
        ((entries.filterMap fun entry => entry.1.moved?).map Place.node).reverse ∧
      ∃ latest, board.Upheld latest (board.placeAll entries).2 := by
  induction entries with
  | nil => exact ⟨rfl, _, settled.upheld_start⟩
  | cons entry rest ih =>
    obtain ⟨target, position⟩ := entry
    obtain ⟨moves, contents, upheld⟩ := ih fun entry member => listed entry (List.mem_cons_of_mem _ member)
    obtain ⟨more, latest, reached⟩ := upheld.placeTarget settled (listed _ List.mem_cons_self)
    refine ⟨?_, latest, reached⟩
    show ((board.placeAll rest).1 ++ (board.placeTarget position target
      (board.placeAll rest).2).1).filterMap Patch.moved? = _
    rw [List.filterMap_append, moves, more, List.filterMap_cons]
    cases target.moved? <;> simp

end Board

/-- The old nodes that a plan reuses, in the order of the new children. -/
def Plan.reused (plan : Plan) : List Place :=
  plan.placements.filterMap Placement.kept?

/-- Whether each swap of a plan puts something in place of what it takes. -/
def Plan.Fills (plan : Plan) : Prop :=
  ∀ {place tree}, .swap place tree ∈ plan.placements → 0 < tree.width

variable {plan : Plan} {run : List Place}

theorem Plan.Covers.ordered (covers : plan.Covers run) (distinct : (run.map Place.index).Nodup) :
    Ordered (targetsOf plan.placements) where
  increasing := fixed_targetsOf plan.placements
  distinct := by
    have placed := (covers.map Place.index).nodup_iff.mpr distinct
    rw [List.map_append, List.nodup_append] at placed
    have perm := (places_perm (targetsOf_settles plan.placements)).map Place.index
    have apart := perm.nodup_iff.mpr placed.1
    rw [List.map_append, List.nodup_append] at apart
    exact List.pairwise_map.mp apart.2.1

/-- The board for a plan that covers a run is settled. -/
theorem Plan.Covers.settled (covers : plan.Covers run) (distinct : (run.map Place.index).Nodup)
    (fills : plan.Fills) (parent : HostId) :
    (Board.of parent (targetsOf plan.placements)).Settled where
  ordered := covers.ordered distinct
  order := rfl
  longest := staysLongest_targetsOf plan.placements
  filling swapped := fills (leaves_of_target (targetsOf_settles plan.placements) (.inl swapped))

theorem moved?_removals (parent : HostId) (places : List Place) :
    (removals parent places).filterMap Patch.moved? = [] := by
  apply List.filterMap_eq_nil_iff.mpr
  intro patch member
  obtain ⟨place, -, rfl⟩ := List.mem_map.mp member
  rfl

/-- The moves of a layout are those of the targets that do not stay, from the last to the first. -/
theorem Plan.moves_layout (covers : plan.Covers run) (distinct : (run.map Place.index).Nodup)
    (fills : plan.Fills) (parent : HostId) :
    (plan.layout parent).filterMap Patch.moved? =
      (((targetsOf plan.placements).filterMap Target.moved?).map Place.node).reverse := by
  have settled := covers.settled distinct fills parent
  have moves := (settled.placeAll fun entry member => List.mem_zipIdx_iff_getElem?.mp member).1
  have unmoved := moved?_removals parent
    (plan.removed ++ (targetsOf plan.placements).filterMap Target.remade?)
  have entries (targets : List Target) :
      (targets.zipIdx.filterMap fun entry => entry.1.moved?) = targets.filterMap Target.moved? := by
    conv_rhs => rw [← List.zipIdx_map_fst 0 targets, List.filterMap_map]
    rfl
  rw [entries] at moves
  unfold Plan.layout
  rw [List.filterMap_append, unmoved, List.nil_append]
  exact moves

/-- All reused nodes are moved but for a longest run. -/
theorem Plan.length_moves_layout (covers : plan.Covers run)
    (distinct : (run.map Place.index).Nodup) (fills : plan.Fills) (parent : HostId) :
    ((plan.layout parent).filterMap Patch.moved?).length +
      (longestRun (plan.reused.map Place.index)).length = plan.reused.length := by
  have kept := kept_of_settles (targetsOf_settles plan.placements)
  have parts := length_kept (targetsOf plan.placements)
  rw [kept, length_stayed_targetsOf] at parts
  rw [moves_layout covers distinct fills, List.length_reverse, List.length_map]
  unfold Plan.reused
  omega

/-- No reused node is moved twice, and nothing else is moved. -/
theorem Plan.moves_sublist (covers : plan.Covers run) (distinct : (run.map Place.index).Nodup)
    (fills : plan.Fills) (parent : HostId) :
    ((plan.layout parent).filterMap Patch.moved?).reverse.Sublist (plan.reused.map Place.node) := by
  have sublist (targets : List Target) :
      (targets.filterMap Target.moved?).Sublist (targets.filterMap Target.kept?) := by
    induction targets with
    | nil => exact .slnil
    | cons target rest ih =>
      cases target with
      | stay place => exact ih.cons place
      | move place => exact ih.cons_cons place
      | insert | swap | remake => exact ih
  rw [moves_layout covers distinct fills, List.reverse_reverse]
  unfold Plan.reused
  rw [← kept_of_settles (targetsOf_settles plan.placements)]
  exact (sublist _).map _

end ReactiveTree
