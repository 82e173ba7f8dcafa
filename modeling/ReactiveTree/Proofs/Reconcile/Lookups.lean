import ReactiveTree.Proofs.Reconcile.Board
import ReactiveTree.Proofs.Reconcile.Staying

/-! # Layouts look up what is there

A layout works on indices: those of runs when it looks for a longest one, those of children when they
are removed or wait to be moved, and those of slots among the sorted ones. The layout here looks each of
them up, and comes to nothing as soon as one look-up misses. It is the layout that takes places and
slots along instead, so that none misses as long as the plan names children that are there.
-/

namespace ReactiveTree

namespace Lookup

/-- The best run of a length. -/
def bestRun (runs : List (List Mark)) (length : Nat) : Option (List Mark) :=
  if length = 0 then some [] else runs[length - 1]?

/-- Place a value: behind the longest run that ends below it. -/
def extendRuns (runs : List (List Mark)) (mark : Mark) : Option (List (List Mark)) := do
  let length := (runs.takeWhile (endsBelow mark.value)).length
  let run := mark :: (← bestRun runs length)
  if length = runs.length then return runs ++ [run]
  else
    guard (length < runs.length)
    return runs.set length run

/-- Positions of a longest strictly increasing subsequence, in order. -/
def longestRun (values : List Nat) : Option (List Nat) := do
  let runs ← (values.zipIdx.map fun (value, position) => Mark.mk position value).foldlM extendRuns []
  return ((runs.getLast?.getD []).map Mark.position).reverse

/-- The position of one of the kept nodes. -/
def keptPosition (placements : List Placement) (entry : Nat) : Option Nat := do
  let kept ← (keptPlaces placements)[entry]?
  guard (kept.1 < placements.length)
  return kept.1

/-- Mark the kept nodes that lie on a longest run. -/
def markStays (placements : List Placement) : Option (List MarkedPlacement) := do
  let run ← longestRun ((keptPlaces placements).map Prod.snd)
  let positions ← run.mapM (keptPosition placements)
  return placements.zipIdx.map fun (placement, position) =>
    (placement, decide (position ∈ positions))

def targetsOf (placements : List Placement) : Option (List Target) :=
  return settle none (← markStays placements)

/-- Give a slot a weight. -/
def set (sums : LeadingSums) (slot weight : Nat) : Option LeadingSums := do
  guard (slot < sums.weights.length)
  return sums.set slot weight

/-- The total weight of the slots before a slot. -/
def sumBefore (sums : LeadingSums) (slot : Nat) : Option Nat := do
  guard (slot < sums.tree.length)
  return sums.sumBefore slot

/-- What is made ready before the children of a parent are placed. -/
structure Tables where
  parent : HostId
  /-- For each new child the position of the next fixed one. -/
  anchors : List Nat
  /-- For each old child the position of the fixed one that followed it. -/
  waiting : List Nat

namespace Tables

/-- The tables for targets, where each fixed child is entered at its old place. -/
def of (parent : HostId) (nodes : List HostId) (targets : List Target) : Option Tables := do
  guard (∀ index ∈ targets.filterMap Target.fixed?, index < nodes.length)
  return {
    parent
    anchors := (List.range targets.length).map (anchorAfter targets)
    waiting := (List.range nodes.length).map (anchorOfPlace targets) }

variable (tables : Tables)

def waitingSlot (place : Place) : Option Slot :=
  tables.waiting[place.index]?.map fun anchor => ⟨anchor, .waiting, place.index⟩

def placedSlot (position : Nat) : Option Slot :=
  tables.anchors[position]?.map fun anchor => ⟨anchor, .placed, position⟩

/-- The entries that a new child needs. -/
def slotsFor (target : Target) (position : Nat) : Option (List Slot) :=
  match target with
  | .stay _ => return [.fixed position]
  | .swap _ _ => return [.fixed position]
  | .move place => return [← tables.waitingSlot place, ← tables.placedSlot position]
  | .insert _ => return [← tables.placedSlot position]
  | .remake _ _ => return [← tables.placedSlot position]

/-- All entries in order. -/
def slots (targets : List Target) : Option (List Slot) := do
  let entries ← targets.zipIdx.mapM fun (target, position) => tables.slotsFor target position
  return entries.flatten.mergeSort fun left right => !right.before left

/-- The entry that holds a child from the start, after the removals. -/
def initialSlot (target : Target) (position : Nat) : Option (Option Slot) :=
  match target with
  | .stay _ => return some (.fixed position)
  | .swap _ _ => return some (.fixed position)
  | .move place => return some (← tables.waitingSlot place)
  | .insert _ => return none
  | .remake _ _ => return none

/-- How many children each entry holds after the removals. -/
def initialWidths (order : List Slot) (targets : List Target) : Option LeadingSums :=
  targets.zipIdx.foldlM
    (fun widths (target, position) => do
      match ← tables.initialSlot target position with
      | some slot => set widths (← order.idxOf? slot) 1
      | none => return widths)
    (LeadingSums.ofLength order.length)

/-- Insert a tree at its position, unless it adds no child. -/
def insertTree (order : List Slot) (position : Nat) (tree : Tree) (widths : LeadingSums) :
    Option (List Patch × LeadingSums) :=
  if tree.width = 0 then return ([], widths)
  else do
    let slot ← order.idxOf? (← tables.placedSlot position)
    return ([.insert tables.parent (← sumBefore widths slot) tree], ← set widths slot tree.width)

/-- Bring one new child to its position; all later ones are there already. -/
def placeTarget (order : List Slot) (position : Nat) (target : Target) (widths : LeadingSums) :
    Option (List Patch × LeadingSums) :=
  match target with
  | .stay _ => return ([], widths)
  | .move place => do
    let waiting ← order.idxOf? (← tables.waitingSlot place)
    let before ← sumBefore widths waiting
    let widths ← set widths waiting 0
    let placed ← order.idxOf? (← tables.placedSlot position)
    let after ← sumBefore widths placed
    let widths ← set widths placed 1
    return (if before = after then [] else [.move tables.parent place.node before after], widths)
  | .swap place tree => do
    let slot ← order.idxOf? (.fixed position)
    return ([.replace tables.parent (← sumBefore widths slot) place.node tree],
      ← set widths slot tree.width)
  | .insert tree => tables.insertTree order position tree widths
  | .remake _ tree => tables.insertTree order position tree widths

/-- Bring the new children to their positions, the last one first. -/
def placeAll (order : List Slot) (targets : List Target) :
    List (Target × Nat) → Option (List Patch × LeadingSums)
  | [] => return ([], ← tables.initialWidths order targets)
  | (target, position) :: rest => do
    let (patches, widths) ← placeAll order targets rest
    let (more, widths) ← tables.placeTarget order position target widths
    return (patches ++ more, widths)

end Tables

/-- The removals of a plan, the last child first. -/
def removals (parent : HostId) (nodes : List HostId) (places : List Place) : Option (List Patch) :=
  ((places.mergeSort fun left right => right.index ≤ left.index).eraseReps).mapM fun place =>
    nodes[place.index]?.map fun node => .remove parent place.index node

/-- The patches that carry out a plan for one parent with some children. -/
def layout (parent : HostId) (nodes : List HostId) (plan : Plan) : Option (List Patch) := do
  let targets ← targetsOf plan.placements
  let removed ← removals parent nodes (plan.removed ++ targets.filterMap Target.remade?)
  let tables ← Tables.of parent nodes targets
  let order ← tables.slots targets
  return removed ++ (← tables.placeAll order targets targets.zipIdx).1

variable {α β : Type} {entries : List α}

theorem mapM_eq_some {look : α → Option β} {make : α → β}
    (found : ∀ entry ∈ entries, look entry = some (make entry)) :
    entries.mapM look = some (entries.map make) := by
  induction entries with
  | nil => rfl
  | cons entry rest ih =>
    rw [List.mapM_cons, found entry List.mem_cons_self,
      ih fun other member => found other (List.mem_cons_of_mem _ member)]
    rfl

theorem foldlM_eq_some (holds : β → Prop) {step : β → α → Option β} {make : β → α → β} {start : β}
    (sound : holds start)
    (found : ∀ state, holds state → ∀ entry ∈ entries,
      step state entry = some (make state entry) ∧ holds (make state entry)) :
    entries.foldlM step start = some (entries.foldl make start) ∧ holds (entries.foldl make start) := by
  induction entries generalizing start with
  | nil => exact ⟨rfl, sound⟩
  | cons entry rest ih =>
    obtain ⟨same, next⟩ := found start sound entry List.mem_cons_self
    rw [List.foldlM_cons, same]
    exact ih next fun state held other member =>
      found state held other (List.mem_cons_of_mem _ member)

theorem guard_true {condition : Prop} [Decidable condition] (holds : condition) :
    (guard condition : Option Unit) = some () := by
  simp [guard, holds]

variable {nodes : List HostId}

theorem extendRuns_eq (runs : List (List Mark)) (mark : Mark) :
    extendRuns runs mark = some (ReactiveTree.extendRuns runs mark) := by
  unfold extendRuns ReactiveTree.extendRuns
  generalize reach : (runs.takeWhile (endsBelow mark.value)).length = length
  have bound : length ≤ runs.length := by
    rw [← reach]
    exact (List.takeWhile_sublist _).length_le
  have best : bestRun runs length = some (if length = 0 then [] else runs.getD (length - 1) []) := by
    unfold bestRun
    split
    next => rfl
    next positive =>
      rw [List.getD_eq_getElem?_getD, List.getElem?_eq_getElem (by omega)]
      rfl
  simp only [best, Option.bind_eq_bind, Option.bind_some]
  split
  next => rfl
  next apart =>
    rw [guard_true (show length < runs.length by omega)]
    rfl

theorem longestRun_eq (values : List Nat) :
    longestRun values = some (ReactiveTree.longestRun values) := by
  have runs : (values.zipIdx.map fun (value, position) => Mark.mk position value).foldlM extendRuns
      [] = some (bestRuns values) :=
    (foldlM_eq_some (fun _ => True) trivial fun state _ mark _ =>
      ⟨extendRuns_eq state mark, trivial⟩).1
  rw [longestRun, runs]
  rfl

theorem lt_of_mem_keptPlaces {placements : List Placement} {entry : Nat × Nat}
    (member : entry ∈ keptPlaces placements) : entry.1 < placements.length := by
  obtain ⟨⟨placement, position⟩, listed, same⟩ := List.mem_filterMap.mp member
  have bound := (List.getElem?_eq_some_iff.mp (List.mem_zipIdx_iff_getElem?.mp listed)).1
  cases placement <;> cases same
  exact bound

theorem keptPosition_eq {placements : List Placement} {entry : Nat}
    (inside : entry < (keptPlaces placements).length) :
    keptPosition placements entry = some (((keptPlaces placements).map Prod.fst).getD entry 0) := by
  have bound := lt_of_mem_keptPlaces (List.getElem_mem inside)
  rw [List.getD_eq_getElem?_getD, List.getElem?_map, List.getElem?_eq_getElem inside]
  simp only [keptPosition, List.getElem?_eq_getElem inside, Option.bind_eq_bind, Option.bind_some,
    guard_true bound]
  rfl

theorem markStays_eq (placements : List Placement) :
    markStays placements = some (ReactiveTree.markStays placements) := by
  have found : ∀ entry ∈ ReactiveTree.longestRun ((keptPlaces placements).map Prod.snd),
      keptPosition placements entry = some (((keptPlaces placements).map Prod.fst).getD entry 0) :=
    fun entry member => keptPosition_eq (by simpa using lt_length_of_mem_longestRun member)
  rw [markStays, longestRun_eq, Option.bind_eq_bind, Option.bind_some, mapM_eq_some found]
  rfl

theorem targetsOf_eq (placements : List Placement) :
    targetsOf placements = some (ReactiveTree.targetsOf placements) := by
  rw [targetsOf, markStays_eq]
  rfl

/-- Whether the places that targets start from are among a number of children. -/
def InBounds (targets : List Target) (count : Nat) : Prop :=
  ∀ target ∈ targets, ∀ place, target.start? = some place → place.index < count

namespace Tables

variable {targets : List Target} {target : Target} {position : Nat} {slot : Slot} {place : Place}
  {parent : HostId} {widths : LeadingSums}

/-- The tables that are made for targets. -/
def made (parent : HostId) (nodes : List HostId) (targets : List Target) : Tables :=
  ⟨parent, (List.range targets.length).map (anchorAfter targets),
    (List.range nodes.length).map (anchorOfPlace targets)⟩

theorem of_eq (bounds : InBounds targets nodes.length) :
    of parent nodes targets = some (made parent nodes targets) := by
  have fixed : ∀ index ∈ targets.filterMap Target.fixed?, index < nodes.length := by
    intro index member
    obtain ⟨target, listed, here⟩ := List.mem_filterMap.mp member
    cases target with
    | stay place | swap place =>
      cases here
      exact bounds _ listed place rfl
    | move | insert | remake => cases here
  rw [of, guard_true fixed]
  rfl

theorem waitingSlot_eq (inside : place.index < nodes.length) :
    (made parent nodes targets).waitingSlot place = some (ReactiveTree.waitingSlot targets place) := by
  simp [waitingSlot, made, ReactiveTree.waitingSlot, inside]

theorem placedSlot_eq (inside : position < targets.length) :
    (made parent nodes targets).placedSlot position =
      some (ReactiveTree.placedSlot targets position) := by
  simp [placedSlot, made, ReactiveTree.placedSlot, inside]

theorem slotsFor_eq (bounds : InBounds targets nodes.length) (here : targets[position]? = some target) :
    (made parent nodes targets).slotsFor target position =
      some (ReactiveTree.slotsFor targets target position) := by
  have inside := (List.getElem?_eq_some_iff.mp here).1
  cases target with
  | stay | swap => rfl
  | move place =>
    rw [slotsFor, waitingSlot_eq (bounds _ (List.mem_of_getElem? here) place rfl), placedSlot_eq inside]
    rfl
  | insert | remake =>
    rw [slotsFor, placedSlot_eq inside]
    rfl

theorem slots_eq (bounds : InBounds targets nodes.length) :
    (made parent nodes targets).slots targets = some (ReactiveTree.slots targets) := by
  have found : ∀ entry ∈ targets.zipIdx, (made parent nodes targets).slotsFor entry.1 entry.2 =
      some (ReactiveTree.slotsFor targets entry.1 entry.2) := fun entry member =>
    slotsFor_eq bounds (List.mem_zipIdx_iff_getElem?.mp member)
  rw [slots, mapM_eq_some found]
  rfl

theorem initialSlot_eq (bounds : InBounds targets nodes.length)
    (here : targets[position]? = some target) :
    (made parent nodes targets).initialSlot target position =
      some (initialSlot? targets target position) := by
  cases target with
  | stay | swap | insert | remake => rfl
  | move place =>
    rw [initialSlot, waitingSlot_eq (bounds _ (List.mem_of_getElem? here) place rfl)]
    rfl

/-- In sorted entries a slot is found where its predecessors end. -/
theorem idxOf?_eq {order : List Slot} (sorted : order.Pairwise fun left right => !right.before left)
    (member : slot ∈ order) :
    order.idxOf? slot = some (order.countP fun other => other.before slot) := by
  induction order with
  | nil => cases member
  | cons head rest ih =>
    obtain ⟨least, sorted⟩ := List.pairwise_cons.mp sorted
    rw [List.idxOf?_cons, List.countP_cons]
    by_cases same : head = slot
    · subst same
      have none : rest.countP (fun other => other.before head) = 0 := by
        rw [List.countP_eq_zero]
        intro other inside
        simpa using least other inside
      simp [none, Slot.before_irrefl]
    · have later : slot ∈ rest := (List.mem_cons.mp member).resolve_left fun equal => same equal.symm
      have ahead : head.before slot := (Slot.before_total same).resolve_right (by simpa using least slot later)
      simp [same, ih sorted later, ahead]

/-- Whether there is a weight for each entry. -/
structure Sized (order : List Slot) (widths : LeadingSums) : Prop where
  weights : widths.weights.length = order.length
  tree : widths.tree.length = order.length + 1

theorem sized_ofLength (order : List Slot) : Sized order (LeadingSums.ofLength order.length) where
  weights := by simp [LeadingSums.ofLength]
  tree := by simp [LeadingSums.ofLength]

theorem Sized.set {order : List Slot} (sized : Sized order widths) (index weight : Nat) :
    Sized order (widths.set index weight) where
  weights := by simpa using sized.weights
  tree := by simpa [LeadingSums.set] using sized.tree

/-- A slot of the board is looked up where it is. -/
theorem indexOf_eq (parent : HostId) (own : slot ∈ ReactiveTree.slots targets) :
    (ReactiveTree.slots targets).idxOf? slot = some ((Board.of parent targets).indexOf slot) ∧
      (Board.of parent targets).indexOf slot < (ReactiveTree.slots targets).length := by
  have found := idxOf?_eq (slots_sorted targets) own
  exact ⟨found, (List.findIdx?_eq_some_iff_findIdx_eq.mp found).1⟩

theorem set_eq {order : List Slot} (sized : Sized order widths) {index : Nat}
    (inside : index < order.length) (weight : Nat) :
    Lookup.set widths index weight = some (widths.set index weight) := by
  rw [Lookup.set, guard_true (by rw [sized.weights]; exact inside)]
  rfl

theorem sumBefore_eq {order : List Slot} (sized : Sized order widths) {index : Nat}
    (inside : index < order.length) :
    Lookup.sumBefore widths index = some (widths.sumBefore index) := by
  rw [Lookup.sumBefore, guard_true (by rw [sized.tree]; omega)]
  rfl

theorem initialWidths_eq (parent : HostId) (bounds : InBounds targets nodes.length) :
    (made parent nodes targets).initialWidths (ReactiveTree.slots targets) targets =
        some (Board.of parent targets).initialWidths ∧
      Sized (ReactiveTree.slots targets) (Board.of parent targets).initialWidths := by
  apply foldlM_eq_some (Sized (ReactiveTree.slots targets)) (sized_ofLength _)
  rintro widths sized ⟨target, position⟩ member
  have here : targets[position]? = some target := List.mem_zipIdx_iff_getElem?.mp member
  have same : (Board.of parent targets).targets = targets := rfl
  simp only [same, initialSlot_eq bounds here, Option.bind_eq_bind, Option.bind_some]
  cases starts : initialSlot? targets target position with
  | none => exact ⟨rfl, sized⟩
  | some slot =>
    have own : slot ∈ ReactiveTree.slots targets :=
      mem_slots.mpr ⟨position, target, here, mem_slotsFor_of_initialSlot starts⟩
    obtain ⟨found, inside⟩ := indexOf_eq parent own
    dsimp only
    rw [found]
    exact ⟨set_eq sized inside 1, sized.set _ 1⟩

theorem insertTree_eq (sized : Sized (ReactiveTree.slots targets) widths)
    (inside : position < targets.length)
    (own : ReactiveTree.placedSlot targets position ∈ ReactiveTree.slots targets) (tree : Tree) :
    (made parent nodes targets).insertTree (ReactiveTree.slots targets) position tree widths =
        some ((Board.of parent targets).insertTree position tree widths) ∧
      Sized (ReactiveTree.slots targets)
        ((Board.of parent targets).insertTree position tree widths).2 := by
  unfold insertTree Board.insertTree
  split
  next => exact ⟨rfl, sized⟩
  next =>
    obtain ⟨found, bound⟩ := indexOf_eq parent own
    have same : (Board.of parent targets).targets = targets := rfl
    simp only [placedSlot_eq inside, Option.bind_eq_bind, Option.bind_some, found,
      sumBefore_eq sized bound, set_eq sized bound, same]
    exact ⟨rfl, sized.set _ _⟩

theorem placeTarget_eq (parent : HostId) (bounds : InBounds targets nodes.length)
    (sized : Sized (ReactiveTree.slots targets) widths) (here : targets[position]? = some target) :
    (made parent nodes targets).placeTarget (ReactiveTree.slots targets) position target widths =
        some ((Board.of parent targets).placeTarget position target widths) ∧
      Sized (ReactiveTree.slots targets)
        ((Board.of parent targets).placeTarget position target widths).2 := by
  have inside := (List.getElem?_eq_some_iff.mp here).1
  have same : (Board.of parent targets).targets = targets := rfl
  have mine : ∀ slot ∈ ReactiveTree.slotsFor targets target position,
      slot ∈ ReactiveTree.slots targets := fun slot own =>
    mem_slots.mpr ⟨position, target, here, own⟩
  cases target with
  | stay place => exact ⟨rfl, sized⟩
  | insert tree => exact insertTree_eq sized inside (mine _ List.mem_cons_self) tree
  | remake place tree => exact insertTree_eq sized inside (mine _ List.mem_cons_self) tree
  | swap place tree =>
    obtain ⟨found, bound⟩ := indexOf_eq parent (mine _ List.mem_cons_self)
    simp only [placeTarget, Board.placeTarget, found, Option.bind_eq_bind, Option.bind_some,
      sumBefore_eq sized bound, set_eq sized bound]
    exact ⟨rfl, sized.set _ _⟩
  | move place =>
    have known := bounds _ (List.mem_of_getElem? here) place rfl
    obtain ⟨waits, early⟩ := indexOf_eq parent (mine _ List.mem_cons_self)
    obtain ⟨placed, late⟩ := indexOf_eq parent (mine _ (List.mem_cons_of_mem _ List.mem_cons_self))
    have lifted := sized.set ((Board.of parent targets).indexOf
      (ReactiveTree.waitingSlot targets place)) 0
    simp only [placeTarget, Board.placeTarget, waitingSlot_eq known, placedSlot_eq inside, waits,
      placed, Option.bind_eq_bind, Option.bind_some, sumBefore_eq sized early, set_eq sized early,
      sumBefore_eq lifted late, set_eq lifted late, same]
    exact ⟨rfl, lifted.set _ _⟩

theorem placeAll_eq (parent : HostId) (bounds : InBounds targets nodes.length) {entries : List (Target × Nat)}
    (listed : ∀ entry ∈ entries, targets[entry.2]? = some entry.1) :
    (made parent nodes targets).placeAll (ReactiveTree.slots targets) targets entries =
        some ((Board.of parent targets).placeAll entries) ∧
      Sized (ReactiveTree.slots targets) ((Board.of parent targets).placeAll entries).2 := by
  induction entries with
  | nil =>
    obtain ⟨start, sized⟩ := initialWidths_eq parent bounds
    refine ⟨?_, sized⟩
    rw [placeAll, start]
    rfl
  | cons entry rest ih =>
    obtain ⟨target, position⟩ := entry
    obtain ⟨later, sized⟩ := ih fun other member => listed other (List.mem_cons_of_mem _ member)
    obtain ⟨placed, next⟩ := placeTarget_eq parent bounds sized (listed _ List.mem_cons_self)
    refine ⟨?_, next⟩
    simp only [placeAll, later, Option.bind_eq_bind, Option.bind_some, placed]
    rfl

end Tables

/-- Whether the places that a plan takes along are those of children. -/
structure Reads (nodes : List HostId) (plan : Plan) : Prop where
  placed : ∀ place ∈ plan.placements.filterMap Placement.place?, place ∈ places nodes
  removed : ∀ place ∈ plan.removed, place ∈ places nodes

theorem removals_eq (parent : HostId) {removed : List Place}
    (reads : ∀ place ∈ removed, place ∈ places nodes) :
    removals parent nodes removed = some (ReactiveTree.removals parent removed) := by
  apply mapM_eq_some
  intro place member
  have listed := (List.mergeSort_perm removed _).mem_iff.mp (mem_of_mem_eraseReps member)
  rw [mem_places.mp (reads place listed)]
  rfl

/-- Every look-up for a layout succeeds. -/
theorem layout_eq (parent : HostId) {plan : Plan} (reads : Reads nodes plan) :
    layout parent nodes plan = some (plan.layout parent) := by
  have settled := places_perm (targetsOf_settles plan.placements)
  have known : ∀ place, place ∈ (ReactiveTree.targetsOf plan.placements).filterMap Target.remade? ∨
      place ∈ (ReactiveTree.targetsOf plan.placements).filterMap Target.start? →
        place ∈ places nodes := fun place either =>
    reads.placed place (settled.mem_iff.mp (List.mem_append.mpr either))
  have bounds : InBounds (ReactiveTree.targetsOf plan.placements) nodes.length := by
    intro target member place starts
    have read := known place (Or.inr (List.mem_filterMap.mpr ⟨target, member, starts⟩))
    exact (List.getElem?_eq_some_iff.mp (mem_places.mp read)).1
  have gone : ∀ place ∈ plan.removed ++
      (ReactiveTree.targetsOf plan.placements).filterMap Target.remade?, place ∈ places nodes := by
    intro place member
    exact (List.mem_append.mp member).elim (reads.removed place) fun remade =>
      known place (Or.inl remade)
  have placed := (Tables.placeAll_eq parent bounds fun entry member =>
    List.mem_zipIdx_iff_getElem?.mp member).1
  simp only [layout, targetsOf_eq, removals_eq parent gone, Tables.of_eq bounds,
    Tables.slots_eq bounds, Option.bind_eq_bind, Option.bind_some, placed]
  rfl

end Lookup

end ReactiveTree
