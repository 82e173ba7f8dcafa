import ReactiveTree.Proofs.Reconcile.Board
import ReactiveTree.Proofs.Reconcile.Targets
import ReactiveTree.Reconcile.Diff

/-! # Laying out the children of one parent

At the start the slots hold what the removals left, in the order of old places; at the end they hold
what the targets ask for, in the order of positions. So the patches of a layout are exact, and the
children are then what its placements call for, one after the other.
-/

namespace ReactiveTree

open Document Patch

private theorem eq_of_pairwise_of_mem {α : Type} {relation : α → α → Prop}
    (asymmetric : ∀ {left right}, relation left right → ¬ relation right left)
    {first second : List α} (sorted : first.Pairwise relation) (sorted' : second.Pairwise relation)
    (same : ∀ entry, entry ∈ first ↔ entry ∈ second) : first = second := by
  have distinct : ∀ {entries : List α}, entries.Pairwise relation → entries.Nodup := by
    intro entries ordered
    refine List.Pairwise.imp ?_ ordered
    rintro left _ less rfl
    exact asymmetric less less
  have shuffled : first.Perm second :=
    (List.perm_ext_iff_of_nodup (distinct sorted) (distinct sorted')).mpr same
  exact shuffled.eq_of_pairwise (fun _ _ _ _ less greater => absurd greater (asymmetric less))
    sorted sorted'

namespace Board

variable {board : Board} {start document : Document} {position : Nat} {target : Target}
  {slot : Slot} {contents : Slot → List HostId} {widths : LeadingSums}

theorem startNodes_of_notMem (outside : slot ∉ slotsFor board.targets target position) :
    startNodes board.targets target position slot = [] := by
  rw [startNodes, startPlaces, if_neg, List.map_nil]
  exact fun initial => outside (mem_slotsFor_of_initialSlot initial)

/-- What each slot holds at the start, as far as some of the targets go. -/
def startContents (targets : List Target) (entries : List (Target × Nat)) (slot : Slot) :
    List HostId :=
  entries.flatMap fun (target, position) => startNodes targets target position slot

private theorem startContents_eq_nil {entries : List (Target × Nat)}
    (outside : ∀ entry ∈ entries, slot ∉ slotsFor board.targets entry.1 entry.2) :
    startContents board.targets entries slot = [] :=
  List.flatMap_eq_nil_iff.mpr fun entry member => startNodes_of_notMem (outside entry member)

/-- A slot of one target is not one of those before it or behind it. -/
theorem zipIdx_apart (ordered : Ordered board.targets)
    {done rest : List (Target × Nat)} (split : board.targets.zipIdx = done ++ (target, position) :: rest)
    (own : slot ∈ slotsFor board.targets target position) :
    (∀ entry ∈ done, slot ∉ slotsFor board.targets entry.1 entry.2) ∧
      ∀ entry ∈ rest, slot ∉ slotsFor board.targets entry.1 entry.2 := by
  have positions : board.targets.zipIdx.Pairwise fun left right => left.2 < right.2 := by
    rw [← List.pairwise_map, List.zipIdx_map_snd]
    exact List.pairwise_lt_range'
  have found : ∀ entry ∈ board.targets.zipIdx, board.targets[entry.2]? = some entry.1 :=
    fun entry member => List.mem_zipIdx_iff_getElem?.mp member
  rw [split] at positions found
  obtain ⟨-, later, across⟩ := List.pairwise_append.mp positions
  have here := found (target, position) (by simp)
  constructor
  · intro entry member other
    have less := across entry member _ (List.mem_cons_self ..)
    exact ordered.slotsFor_disjoint (found entry (by simp [member])) here less other own
  · intro entry member
    have less := (List.pairwise_cons.mp later).1 entry member
    exact ordered.slotsFor_disjoint here (found entry (by simp [member])) less own

/-- A slot of a target holds the node of that target, if any. -/
theorem startContents_eq (ordered : Ordered board.targets)
    (here : board.targets[position]? = some target)
    (own : slot ∈ slotsFor board.targets target position) :
    startContents board.targets board.targets.zipIdx slot =
      startNodes board.targets target position slot := by
  have member : (target, position) ∈ board.targets.zipIdx :=
    List.mem_zipIdx_iff_getElem?.mpr here
  obtain ⟨done, rest, split⟩ := List.append_of_mem member
  obtain ⟨early, late⟩ := zipIdx_apart ordered split own
  rw [split, startContents, List.flatMap_append, List.flatMap_cons]
  have none := startContents_eq_nil early
  have none' := startContents_eq_nil late
  unfold startContents at none none'
  rw [none, none', List.nil_append, List.append_nil]

/-- Count an entry that holds a child at the start. -/
private def countWidth (board : Board) (widths : LeadingSums) : Target × Nat → LeadingSums
  | (target, position) =>
    match initialSlot? board.targets target position with
    | some slot => widths.set (board.indexOf slot) 1
    | none => widths

theorem initialWidths_tracks (ordered : Ordered board.targets)
    (order : board.order = slots board.targets) :
    board.Tracks (startContents board.targets board.targets.zipIdx) board.initialWidths := by
  -- The entries that were counted are followed from the first to the last.
  have count : ∀ (rest done : List (Target × Nat)) (widths : LeadingSums),
      board.targets.zipIdx = done ++ rest → board.Tracks (startContents board.targets done) widths →
      board.Tracks (startContents board.targets (done ++ rest))
        (rest.foldl board.countWidth widths) := by
    intro rest
    induction rest with
    | nil =>
      intro done widths _ tracks
      simpa using tracks
    | cons entry rest ih =>
      obtain ⟨target, position⟩ := entry
      intro done widths split tracks
      have here : board.targets[position]? = some target :=
        List.mem_zipIdx_iff_getElem?.mp
          (show (target, position) ∈ board.targets.zipIdx by simp [split])
      rw [List.append_cons, List.foldl_cons]
      refine ih (done ++ [(target, position)]) _ (by simp [split]) ?_
      cases initial : initialSlot? board.targets target position with
      | none =>
        have same : startContents board.targets (done ++ [(target, position)]) =
            startContents board.targets done := by
          funext slot
          simp [startContents, startNodes, startPlaces, initial]
        simp only [countWidth, initial, same]
        exact tracks
      | some slot =>
        obtain ⟨place, starts⟩ : ∃ place, target.start? = some place := by
          cases target <;> simp_all [initialSlot?, Target.start?]
        have own := mem_slotsFor_of_initialSlot initial
        have before := startContents_eq_nil (zipIdx_apart ordered split own).1
        have same : startContents board.targets (done ++ [(target, position)]) =
            Function.update (startContents board.targets done) slot [place.node] := by
          funext other
          by_cases equal : other = slot
          · subst equal
            rw [Function.update_self]
            unfold startContents at before ⊢
            rw [List.flatMap_append, before]
            simp [startNodes, startPlaces, initial, starts]
          · rw [Function.update_of_ne equal]
            simp [startContents, startNodes, startPlaces, initial, Ne.symm equal]
        simp only [countWidth, initial, same]
        exact tracks.update (sorted_of_ordered ordered order)
          (mem_order_of_mem_slotsFor order here own) [place.node]
  have empty : board.Tracks (startContents board.targets [])
      (LeadingSums.ofLength board.order.length) := by
    refine ⟨LeadingSums.sound_ofLength _, ?_⟩
    simp [startContents, LeadingSums.ofLength, List.map_const']
  exact count board.targets.zipIdx [] _ rfl empty

/-- At the start the slots in order hold the remaining children in the order of old places. -/
theorem flatMap_startContents (ordered : Ordered board.targets)
    (order : board.order = slots board.targets) {remaining : List Place}
    (sorted : remaining.Pairwise fun left right => left.index < right.index)
    (same : ∀ place, place ∈ remaining ↔ place ∈ board.targets.filterMap Target.start?) :
    board.order.flatMap (startContents board.targets board.targets.zipIdx) =
      remaining.map Place.node := by
  let held := board.order.flatMap fun slot => board.targets.zipIdx.flatMap
    fun (target, position) => startPlaces board.targets target position slot
  have nodes : board.order.flatMap (startContents board.targets board.targets.zipIdx) =
      held.map Place.node := by
    simp only [held, List.map_flatMap]
    rfl
  have mem_start : ∀ {slot target position place},
      place ∈ startPlaces board.targets target position slot ↔
        initialSlot? board.targets target position = some slot ∧ target.start? = some place := by
    intro slot target position place
    unfold startPlaces
    split <;> simp_all
  have increasing : held.Pairwise fun left right => left.index < right.index := by
    rw [List.pairwise_flatMap]
    constructor
    · -- One slot holds one place at most.
      intro slot _
      rw [List.pairwise_flatMap]
      constructor
      · rintro ⟨target, position⟩ -
        show (startPlaces board.targets target position slot).Pairwise _
        unfold startPlaces
        split
        · cases target.start? <;> simp
        · exact List.Pairwise.nil
      · rw [List.pairwise_iff_getElem]
        intro early late earlyInside lateInside less left leftMember right rightMember
        rw [List.length_zipIdx] at earlyInside lateInside
        rw [List.getElem_zipIdx, Nat.zero_add, mem_start] at leftMember rightMember
        obtain ⟨leftSlot, leftPlace⟩ := leftMember
        obtain ⟨rightSlot, rightPlace⟩ := rightMember
        have here := List.getElem?_eq_getElem earlyInside
        have there := List.getElem?_eq_getElem lateInside
        rcases Nat.lt_trichotomy left.index right.index with below | equal | above
        · exact below
        · have := ordered.position_eq here there leftPlace rightPlace equal
          omega
        · exact absurd (ordered.initialSlot_before there here rightPlace leftPlace above
            rightSlot leftSlot) (Slot.before_irrefl slot)
    · refine (sorted_of_ordered ordered order).imp fun {first second} before left leftMember right rightMember => ?_
      obtain ⟨⟨target, position⟩, member, leftMember⟩ := List.mem_flatMap.mp leftMember
      obtain ⟨⟨target', position'⟩, member', rightMember⟩ := List.mem_flatMap.mp rightMember
      obtain ⟨leftSlot, leftPlace⟩ := mem_start.mp leftMember
      obtain ⟨rightSlot, rightPlace⟩ := mem_start.mp rightMember
      have here : board.targets[position]? = some target := List.mem_zipIdx_iff_getElem?.mp member
      have there : board.targets[position']? = some target' :=
        List.mem_zipIdx_iff_getElem?.mp member'
      rcases Nat.lt_trichotomy left.index right.index with below | equal | above
      · exact below
      · have positions := ordered.position_eq here there leftPlace rightPlace equal
        subst positions
        rw [here] at there
        cases there
        rw [leftSlot] at rightSlot
        cases rightSlot
        exact absurd before (Slot.before_irrefl first)
      · exact absurd (ordered.initialSlot_before there here rightPlace leftPlace above
          rightSlot leftSlot) (Slot.before_asymm before)
  have members : ∀ place, place ∈ held ↔ place ∈ remaining := by
    intro place
    rw [same, List.mem_filterMap, List.mem_flatMap]
    constructor
    · rintro ⟨slot, -, member⟩
      obtain ⟨⟨target, position⟩, listed, inside⟩ := List.mem_flatMap.mp member
      exact ⟨target, List.mem_of_getElem? (List.mem_zipIdx_iff_getElem?.mp listed),
        (mem_start.mp inside).2⟩
    · rintro ⟨target, member, starts⟩
      obtain ⟨position, here⟩ := List.mem_iff_getElem?.mp member
      obtain ⟨slot, initial, own⟩ : ∃ slot, initialSlot? board.targets target position = some slot ∧
          slot ∈ slotsFor board.targets target position := by
        cases target <;> simp_all [Target.start?, initialSlot?, slotsFor]
      refine ⟨slot, mem_order_of_mem_slotsFor order here own, List.mem_flatMap.mpr ⟨(target, position),
        List.mem_zipIdx_iff_getElem?.mpr here, mem_start.mpr ⟨initial, starts⟩⟩⟩
  rw [nodes, eq_of_pairwise_of_mem (fun {left right} less => Nat.lt_asymm less) increasing sorted
    members]

theorem reached_start (ready : board.Ready start) {remaining : List Place}
    (sorted : remaining.Pairwise fun left right => left.index < right.index)
    (same : ∀ place, place ∈ remaining ↔ place ∈ board.targets.filterMap Target.start?)
    (children : start.children board.parent = remaining.map Place.node) :
    board.Reached start board.targets.length (startContents board.targets board.targets.zipIdx)
      board.initialWidths start where
  tracks := initialWidths_tracks ready.ordered ready.order
  step := .refl ready.linked
  children := children.trans (flatMap_startContents ready.ordered ready.order sorted same).symm
  waiting _ here _ own := startContents_eq ready.ordered here own
  placed bound there := by
    have inside := (List.getElem?_eq_some_iff.mp there).1
    omega

theorem Reached.placeTarget (ready : board.Ready start)
    (reached : board.Reached start (position + 1) contents widths document)
    (here : board.targets[position]? = some target) :
    ExactAll document (board.placeTarget position target widths).1 ∧
      ∃ latest, board.Reached start position latest (board.placeTarget position target widths).2
        (carryOutAll document (board.placeTarget position target widths).1) := by
  cases target with
  | stay place => exact ⟨trivial, contents, reached.stay ready here⟩
  | move place => exact reached.move ready here
  | swap place tree => exact reached.swap ready here
  | insert tree =>
    exact reached.insertTree ready here rfl rfl (by simp [Target.isFixed, Target.fixed?])
      fun grown => grown
  | remake place tree =>
    exact reached.insertTree ready here rfl rfl (by simp [Target.isFixed, Target.fixed?])
      fun grown => grown

/-- The targets are placed from the last to the first. -/
theorem reached_placeAll (ready : board.Ready start)
    (first : board.Reached start board.targets.length contents board.initialWidths start)
    {entries : List (Target × Nat)} (suffix : board.targets.zipIdx.drop position = entries)
    (bound : position ≤ board.targets.length) :
    ExactAll start (board.placeAll entries).1 ∧
      ∃ latest, board.Reached start position latest (board.placeAll entries).2
        (carryOutAll start (board.placeAll entries).1) := by
  induction entries generalizing position with
  | nil =>
    rw [List.drop_eq_nil_iff, List.length_zipIdx] at suffix
    obtain rfl := Nat.le_antisymm bound suffix
    exact ⟨trivial, contents, first⟩
  | cons entry rest ih =>
    obtain ⟨target, index⟩ := entry
    have inside : position < board.targets.zipIdx.length := by
      by_contra beyond
      rw [List.drop_eq_nil_of_le (Nat.le_of_not_lt beyond)] at suffix
      cases suffix
    have listed : board.targets.zipIdx[position] = (target, index) ∧
        board.targets.zipIdx.drop (position + 1) = rest := by
      rw [List.drop_eq_getElem_cons inside] at suffix
      exact List.cons.inj suffix
    rw [List.getElem_zipIdx, Nat.zero_add, Prod.mk.injEq] at listed
    obtain ⟨⟨here, rfl⟩, later⟩ := listed
    rw [List.length_zipIdx] at inside
    obtain ⟨exact, before, reached⟩ := ih later inside
    obtain ⟨more, latest, after⟩ := reached.placeTarget ready
      (here ▸ List.getElem?_eq_getElem inside)
    unfold placeAll
    exact ⟨exactAll_append.mpr ⟨exact, more⟩, latest, by rwa [carryOutAll_append]⟩

private theorem flatMap_filter {entries : List Slot} {holds : Slot → Bool}
    (empty : ∀ slot ∈ entries, ¬ holds slot → contents slot = []) :
    entries.flatMap contents = (entries.filter holds).flatMap contents := by
  induction entries with
  | nil => rfl
  | cons slot rest ih =>
    have later := ih fun other member => empty other (List.mem_cons_of_mem _ member)
    rw [List.flatMap_cons, List.filter_cons, later]
    by_cases full : holds slot
    · rw [if_pos full, List.flatMap_cons]
    · rw [if_neg full, empty slot (List.mem_cons_self ..) full, List.nil_append]

/-- At the end the children are what the final slots hold, in the order of positions. -/
theorem Reached.children_final (ready : board.Ready start)
    (reached : board.Reached start 0 contents widths document) :
    document.children board.parent = board.targets.zipIdx.flatMap fun (target, position) =>
      contents (finalSlot board.targets target position) := by
  let holds := fun slot : Slot => decide (slot.rank ≠ .waiting)
  have finals : board.order.filter holds = board.targets.zipIdx.map
      fun (target, position) => finalSlot board.targets target position := by
    refine eq_of_pairwise_of_mem Slot.before_asymm (ready.sorted.filter holds) ?_ fun slot => ?_
    · rw [List.pairwise_map, List.pairwise_iff_getElem]
      intro early late _ lateInside less
      rw [List.length_zipIdx] at lateInside
      rw [List.getElem_zipIdx, List.getElem_zipIdx, Nat.zero_add, Nat.zero_add]
      exact finalSlot_before _ (List.getElem?_eq_getElem lateInside) less
    · rw [List.mem_filter, ready.order, mem_slots, List.mem_map]
      constructor
      · rintro ⟨⟨position, target, here, own⟩, full⟩
        rcases mem_slotsFor.mp own with rfl | ⟨place, rfl, rfl⟩
        · exact ⟨(target, position), List.mem_zipIdx_iff_getElem?.mpr here, rfl⟩
        · simp [holds, waitingSlot] at full
      · rintro ⟨⟨target, position⟩, member, rfl⟩
        exact ⟨⟨position, target, List.mem_zipIdx_iff_getElem?.mp member,
          mem_slotsFor.mpr (.inl rfl)⟩, by simp [holds, finalSlot_rank]⟩
  have empty : ∀ slot ∈ board.order, ¬ holds slot → contents slot = [] := by
    intro slot member waits
    rw [ready.order] at member
    obtain ⟨position, target, here, own⟩ := mem_slots.mp member
    refine (reached.placed (Nat.zero_le position) here).2 slot own ?_
    rintro rfl
    simp [holds, finalSlot_rank] at waits
  rw [reached.children, flatMap_filter empty, finals, List.flatMap_map]

end Board

/-- The place whose node a placement keeps or swaps. -/
def Placement.place? : Placement → Option Place
  | .keep place => some place
  | .create _ => none
  | .swap place _ => some place

/-- Whether nodes side by side are what placements call for. -/
inductive Filled (start document : Document) : List Placement → List HostId → Prop
  | nil : Filled start document [] []
  | keep {place : Place} {rest : List Placement} {nodes : List HostId}
      (later : Filled start document rest nodes) :
      Filled start document (.keep place :: rest) (place.node :: nodes)
  | create {tree : Tree} {piece nodes : List HostId} {rest : List Placement}
      (grown : Grown start document piece tree) (later : Filled start document rest nodes) :
      Filled start document (.create tree :: rest) (piece ++ nodes)
  | swap {place : Place} {tree : Tree} {piece nodes : List HostId} {rest : List Placement}
      (grown : Grown start document piece tree) (later : Filled start document rest nodes) :
      Filled start document (.swap place tree :: rest) (piece ++ nodes)

variable {start middle document : Document} {placements : List Placement} {targets : List Target}

theorem Filled.of_later {region : HostId → Prop} {nodes : List HostId}
    (filled : Filled middle document placements nodes)
    (change : ChangesWithin region start middle) : Filled start document placements nodes := by
  induction filled with
  | nil => exact .nil
  | keep _ ih => exact .keep ih
  | create grown _ ih => exact .create (grown.of_later change) ih
  | swap grown _ ih => exact .swap (grown.of_later change) ih

private theorem filled_of_answers (settled : List.Forall₂ Target.Settles placements targets)
    (offset : Nat) {held : Target × Nat → List HostId}
    (answered : ∀ entry ∈ targets.zipIdx offset,
      Board.Answers start document (held entry) entry.1) :
    Filled start document placements ((targets.zipIdx offset).flatMap held) := by
  induction settled generalizing offset with
  | nil => exact .nil
  | cons here _ ih =>
    rw [List.zipIdx_cons, List.flatMap_cons]
    have answer := answered _ (List.zipIdx_cons ▸ List.mem_cons_self ..)
    have later := ih (offset + 1) fun entry member =>
      answered entry (List.zipIdx_cons ▸ List.mem_cons_of_mem _ member)
    cases here with
    | stay place | move place =>
      have alone : held (_, offset) = [place.node] := answer
      rw [alone]
      exact .keep later
    | insert tree => exact .create answer later
    | swap place tree | remake place tree => exact .swap answer later

/-- Each place of a placement is either left to start with or was remade. -/
theorem places_perm (settled : List.Forall₂ Target.Settles placements targets) :
    (targets.filterMap Target.remade? ++ targets.filterMap Target.start?).Perm
      (placements.filterMap Placement.place?) := by
  induction settled with
  | nil => exact .nil
  | cons here _ ih =>
    cases here with
    | stay place | move place | swap place tree =>
      simp only [List.filterMap_cons, Target.remade?, Target.start?, Placement.place?]
      exact List.perm_middle.trans (ih.cons _)
    | insert tree => exact ih
    | remake place tree =>
      simp only [List.filterMap_cons, Target.remade?, Target.start?, Placement.place?]
      exact ih.cons _

variable {nodes : List HostId} {place : Place} {parent : HostId} {plan : Plan}

theorem mem_places : place ∈ places nodes ↔ nodes[place.index]? = some place.node := by
  unfold places
  rw [List.mem_map]
  constructor
  · rintro ⟨⟨node, index⟩, member, rfl⟩
    exact List.mem_zipIdx_iff_getElem?.mp member
  · intro here
    exact ⟨(place.node, place.index), List.mem_zipIdx_iff_getElem?.mpr here, rfl⟩

theorem map_node_places (nodes : List HostId) : (places nodes).map Place.node = nodes := by
  unfold places
  rw [List.map_map]
  exact List.zipIdx_map_fst 0 nodes

theorem places_pairwise (nodes : List HostId) :
    (places nodes).Pairwise fun left right => left.index < right.index := by
  unfold places
  rw [List.pairwise_map]
  have positions : (nodes.zipIdx.map Prod.snd).Pairwise (· < ·) := by
    rw [List.zipIdx_map_snd]
    exact List.pairwise_lt_range'
  exact List.pairwise_map.mp positions

theorem nodup_index_places (nodes : List HostId) : ((places nodes).map Place.index).Nodup := by
  rw [List.Nodup, List.pairwise_map]
  exact (places_pairwise nodes).imp fun {left right} less => Nat.ne_of_lt less

theorem node_mem_of_mem_places (member : place ∈ places nodes) : place.node ∈ nodes :=
  List.mem_of_getElem? (mem_places.mp member)

/-- The nodes that a plan takes from their parent for good. -/
def Plan.Leaves (plan : Plan) (id : HostId) : Prop :=
  (∃ place ∈ plan.removed, place.node = id) ∨
    ∃ place tree, .swap place tree ∈ plan.placements ∧ place.node = id

/-- Whether a plan accounts for each child of a list once. -/
def Plan.Covers (plan : Plan) (run : List Place) : Prop :=
  (plan.placements.filterMap Placement.place? ++ plan.removed).Perm run

theorem leaves_of_target (settled : List.Forall₂ Target.Settles placements targets)
    {place : Place} {tree : Tree}
    (member : .swap place tree ∈ targets ∨ .remake place tree ∈ targets) :
    .swap place tree ∈ placements := by
  induction settled with
  | nil => simp at member
  | cons here _ ih =>
    rcases member with swap | remake
    · rcases List.mem_cons.mp swap with rfl | later
      · cases here
        exact List.mem_cons_self ..
      · exact List.mem_cons_of_mem _ (ih (.inl later))
    · rcases List.mem_cons.mp remake with rfl | later
      · cases here
        exact List.mem_cons_self ..
      · exact List.mem_cons_of_mem _ (ih (.inr later))

theorem placeAll_insertsOnly (board : Board) (entries : List (Target × Nat)) :
    ∀ patch ∈ (board.placeAll entries).1, patch.parent? = some board.parent ∧
      ∀ parent index target, patch ≠ .remove parent index target := by
  induction entries with
  | nil => simp [Board.placeAll]
  | cons entry rest ih =>
    obtain ⟨target, position⟩ := entry
    intro patch member
    unfold Board.placeAll at member
    rcases List.mem_append.mp member with early | late
    · exact ih patch early
    · cases target with
      | stay => simp [Board.placeTarget] at late
      | move =>
        simp only [Board.placeTarget] at late
        split at late
        · simp at late
        · cases List.mem_singleton.mp late
          exact ⟨rfl, by simp⟩
      | swap =>
        cases List.mem_singleton.mp late
        exact ⟨rfl, by simp⟩
      | insert | remake =>
        simp only [Board.placeTarget, Board.insertTree] at late
        split at late
        · simp at late
        · cases List.mem_singleton.mp late
          exact ⟨rfl, by simp⟩

private theorem children_of_places {removed : List Place} (distinct : nodes.Nodup)
    (placed : ∀ place ∈ removed, nodes[place.index]? = some place.node) :
    nodes.filter (fun node => node ∉ removed.map Place.node) =
      ((places nodes).filter fun place => place ∉ removed).map Place.node := by
  have same : (places nodes).filter (fun place => decide (place ∉ removed)) =
      (places nodes).filter fun place => decide (place.node ∉ removed.map Place.node) := by
    refine List.filter_congr fun place member => ?_
    rw [decide_eq_decide, not_iff_not]
    refine ⟨fun inside => List.mem_map_of_mem inside, fun inside => ?_⟩
    obtain ⟨other, otherMember, equal⟩ := List.mem_map.mp inside
    have here := mem_places.mp member
    have there := placed other otherMember
    have index : other.index = place.index := by
      refine (List.getElem?_inj (List.getElem?_eq_some_iff.mp there).1 distinct).mp ?_
      rw [there, here, equal]
    have whole : other = place := by
      cases other
      cases place
      simp_all
    exact whole ▸ otherMember
  rw [same]
  conv_lhs => rw [← map_node_places nodes]
  rw [List.filter_map]
  rfl

theorem parent?_of_mem_layout {patch : Patch} (member : patch ∈ plan.layout parent) :
    patch.parent? = some parent := by
  rcases List.mem_append.mp member with removal | placing
  · exact parent?_of_mem_removals removal
  · exact (placeAll_insertsOnly _ _ patch placing).1

/-- The layout of a plan is exact, begins with the removals, and fills the children as the
placements call for. -/
theorem layout_spec (linked : start.Linked) (known : start.contains parent)
    (apart : parent ∉ start.children parent)
    (covers : plan.Covers (places (start.children parent))) :
    ExactAll start (plan.layout parent) ∧ (plan.layout parent).Pairwise MayPrecede ∧
      (∀ patch ∈ plan.layout parent, patch.parent? = some parent) ∧
      Rearranged parent plan.Leaves start (carryOutAll start (plan.layout parent)) ∧
      Filled start (carryOutAll start (plan.layout parent)) plan.placements
        ((carryOutAll start (plan.layout parent)).children parent) := by
  let targets := targetsOf plan.placements
  let removed := plan.removed ++ targets.filterMap Target.remade?
  have settled : List.Forall₂ Target.Settles plan.placements targets :=
    targetsOf_settles plan.placements
  have whole : (removed ++ targets.filterMap Target.start?).Perm
      (places (start.children parent)) := by
    refine List.Perm.trans ?_ covers
    rw [List.append_assoc]
    exact List.perm_append_comm.trans ((places_perm settled).append_right _)
  have indices : ((removed ++ targets.filterMap Target.start?).map Place.index).Nodup := by
    rw [(whole.map Place.index).nodup_iff]
    exact nodup_index_places _
  rw [List.map_append, List.nodup_append] at indices
  obtain ⟨removedDistinct, startDistinct, disjoint⟩ := indices
  have placed : ∀ place ∈ removed, place.OfChild start parent := fun place member =>
    mem_places.mp (whole.mem_iff.mp (List.mem_append_left _ member))
  obtain ⟨exact, removal, rest⟩ := removals_spec linked apart placed removedDistinct
  have ordered := removals_pairwise parent removedDistinct
  generalize emptied : carryOutAll start (removals parent removed) = middle at *
  -- What is left are the places that no removal names.
  let remaining := (places (start.children parent)).filter fun place => place ∉ removed
  have children : middle.children parent = remaining.map Place.node := by
    rw [rest]
    exact children_of_places (linked.distinct parent) placed
  have sorted : remaining.Pairwise fun left right => left.index < right.index :=
    (places_pairwise _).filter _
  have same : ∀ place, place ∈ remaining ↔ place ∈ targets.filterMap Target.start? := by
    intro place
    rw [List.mem_filter, ← whole.mem_iff, List.mem_append, decide_eq_true_eq]
    refine ⟨fun ⟨either, outside⟩ => either.resolve_left outside, fun inside => ⟨.inr inside, ?_⟩⟩
    intro member
    exact disjoint _ (List.mem_map_of_mem member) _ (List.mem_map_of_mem inside) rfl
  let board := Board.of parent targets
  have ready : board.Ready middle :=
    { ordered := ⟨fixed_targetsOf plan.placements, List.pairwise_map.mp startDistinct⟩
      order := rfl
      linked := removal.change.linked
      apart := fun member => by
        have member : parent ∈ middle.children parent := member
        rw [rest] at member
        exact apart (List.mem_of_mem_filter member)
      known := removal.change.contains known
      present := fun place member => by
        show place.node ∈ middle.children parent
        rw [children]
        exact List.mem_map_of_mem ((same place).mpr member) }
  obtain ⟨exactRest, contents, reached⟩ := Board.reached_placeAll ready
    (Board.reached_start ready sorted same children) List.drop_zero (Nat.zero_le _)
  have others := placeAll_insertsOnly board targets.zipIdx
  have layout : plan.layout parent =
    removals parent removed ++ (board.placeAll targets.zipIdx).1 := rfl
  have last : carryOutAll start (plan.layout parent) =
      carryOutAll middle (board.placeAll targets.zipIdx).1 := by
    rw [layout, carryOutAll_append, emptied]
  rw [last, layout]
  refine ⟨exactAll_append.mpr ⟨exact, emptied ▸ exactRest⟩, ?_, fun patch => parent?_of_mem_layout,
    ?_, ?_⟩
  · rw [List.pairwise_append]
    refine ⟨ordered, ?_, fun first _ second member => ?_⟩
    · exact List.pairwise_of_forall_mem_list fun first _ second member parent index target same =>
        absurd same ((others second member).2 parent index target)
    · intro parent index target same
      exact absurd same ((others second member).2 parent index target)
  · refine (removal.mono ?_).trans (reached.step.mono ?_)
    · rintro id member
      obtain ⟨place, inside, rfl⟩ := List.mem_map.mp member
      rcases List.mem_append.mp inside with gone | remade
      · exact .inl ⟨place, gone, rfl⟩
      · obtain ⟨target, listed, isRemade⟩ := List.mem_filterMap.mp remade
        cases target with
        | remake other tree =>
          cases isRemade
          exact .inr ⟨place, tree, leaves_of_target settled (.inr listed), rfl⟩
        | _ => cases isRemade
    · rintro id ⟨place, tree, member, rfl⟩
      exact .inr ⟨place, tree, leaves_of_target settled (.inl member), rfl⟩
  · have final : (carryOutAll middle (board.placeAll targets.zipIdx).1).children parent =
        targets.zipIdx.flatMap fun (target, position) =>
          contents (finalSlot targets target position) := reached.children_final ready
    rw [final]
    refine (filled_of_answers settled 0 fun entry member => ?_).of_later removal.change
    exact (reached.placed (Nat.zero_le _) (List.mem_zipIdx_iff_getElem?.mp member)).1

end ReactiveTree
