import ReactiveTree.Proofs.Reconcile.Removing
import ReactiveTree.Proofs.Reconcile.Slots
import ReactiveTree.Proofs.Sequence.LeadingSums

/-! # The simulated list of children

Beside the widths of a board runs a record of which nodes each slot holds. The children of the parent
are what the slots hold, in order, after every patch; so the widths before a slot add up to the index
of what it holds.
-/

namespace ReactiveTree

open Document Patch

namespace Board

variable {board : Board} {slot : Slot} {contents : Slot → List HostId} {widths : LeadingSums}
  {nodes : List HostId}

/-- The widths of a board count what its slots hold. -/
structure Tracks (board : Board) (contents : Slot → List HostId) (widths : LeadingSums) : Prop where
  sound : widths.Sound
  weights : widths.weights = board.order.map fun slot => (contents slot).length

/-- Whether the slots of a board are in strict order. -/
def Sorted (board : Board) : Prop :=
  board.order.Pairwise fun left right => left.before right

theorem sorted_of_ordered (ordered : Ordered board.targets) (order : board.order = slots board.targets) :
    board.Sorted := by
  rw [Sorted, order]
  exact ordered.slots_pairwise

theorem mem_order_of_mem_slotsFor (order : board.order = slots board.targets) {position : Nat}
    {target : Target} (here : board.targets[position]? = some target)
    (own : slot ∈ slotsFor board.targets target position) : slot ∈ board.order := by
  rw [order]
  exact mem_slots.mpr ⟨position, target, here, own⟩

theorem Sorted.exists_split (sorted : board.Sorted) (member : slot ∈ board.order) :
    ∃ left right, board.order = left ++ slot :: right ∧ board.indexOf slot = left.length ∧
      slot ∉ left ∧ slot ∉ right := by
  obtain ⟨left, right, split⟩ := List.append_of_mem member
  have pairs : (left ++ slot :: right).Pairwise fun first second => first.before second :=
    split ▸ sorted
  obtain ⟨-, later, across⟩ := List.pairwise_append.mp pairs
  have below : ∀ other ∈ left, other.before slot := fun other inside =>
    across other inside slot (List.mem_cons_self ..)
  have above : ∀ other ∈ right, slot.before other := (List.pairwise_cons.mp later).1
  refine ⟨left, right, split, ?_, fun inside => Slot.before_irrefl slot (below slot inside),
    fun inside => Slot.before_irrefl slot (above slot inside)⟩
  have all : left.countP (fun other => other.before slot) = left.length :=
    List.countP_eq_length.mpr below
  have none : (slot :: right).countP (fun other => other.before slot) = 0 := by
    rw [List.countP_eq_zero]
    intro other inside
    rcases List.mem_cons.mp inside with rfl | after
    · exact Slot.before_irrefl other
    · exact Slot.before_asymm (above other after)
  rw [indexOf, split, List.countP_append, all, none, Nat.add_zero]

theorem flatMap_update {order : List Slot} (absent : slot ∉ order) (contents : Slot → List HostId)
    (nodes : List HostId) :
    order.flatMap (Function.update contents slot nodes) = order.flatMap contents := by
  refine List.flatMap_congr fun other member => ?_
  rw [Function.update_of_ne]
  rintro rfl
  exact absent member

namespace Tracks

theorem sumBefore (tracks : board.Tracks contents widths) {left right : List Slot}
    (split : board.order = left ++ slot :: right) (index : board.indexOf slot = left.length) :
    widths.sumBefore (board.indexOf slot) = (left.flatMap contents).length := by
  have bound : board.indexOf slot ≤ widths.weights.length := by
    rw [tracks.weights, List.length_map, split, index]
    simp
  rw [tracks.sound.sumBefore_eq bound, tracks.weights, split, index, List.map_append,
    List.take_left' (by simp), List.length_flatMap]

/-- What is before a slot and after it, whatever the slot holds. -/
theorem split (tracks : board.Tracks contents widths) (sorted : board.Sorted)
    (member : slot ∈ board.order) :
    ∃ before after, board.order.flatMap contents = before ++ contents slot ++ after ∧
      widths.sumBefore (board.indexOf slot) = before.length ∧
      ∀ nodes, board.order.flatMap (Function.update contents slot nodes) =
        before ++ nodes ++ after := by
  obtain ⟨left, right, split, index, early, late⟩ := sorted.exists_split member
  refine ⟨left.flatMap contents, right.flatMap contents, ?_, tracks.sumBefore split index,
    fun nodes => ?_⟩
  · rw [split, List.flatMap_append, List.flatMap_cons, List.append_assoc]
  · rw [split, List.flatMap_append, List.flatMap_cons, flatMap_update early,
      flatMap_update late, Function.update_self, List.append_assoc]

theorem update (tracks : board.Tracks contents widths) (sorted : board.Sorted)
    (member : slot ∈ board.order) (nodes : List HostId) :
    board.Tracks (Function.update contents slot nodes)
      (widths.set (board.indexOf slot) nodes.length) := by
  obtain ⟨left, right, split, index, early, late⟩ := sorted.exists_split member
  have inside : board.indexOf slot < widths.weights.length := by
    rw [tracks.weights, List.length_map, split, index]
    simp
  have unchanged : ∀ order : List Slot, slot ∉ order →
      order.map (fun other => (Function.update contents slot nodes other).length) =
        order.map fun other => (contents other).length := by
    intro order absent
    refine List.map_congr_left fun other listed => ?_
    rw [Function.update_of_ne]
    rintro rfl
    exact absent listed
  refine ⟨tracks.sound.set inside _, ?_⟩
  rw [LeadingSums.weights_set, tracks.weights, index, split, List.map_append, List.map_append,
    List.set_append_right _ _ (by simp), List.length_map, Nat.sub_self, List.map_cons,
    List.map_cons, List.set_cons_zero, unchanged left early, unchanged right late,
    Function.update_self]

end Tracks

/-- The nodes that leave because a tree takes their place. -/
def SwappedOut (targets : List Target) (id : HostId) : Prop :=
  ∃ place tree, .swap place tree ∈ targets ∧ place.node = id

/-- The place whose node a slot of a target holds before the target has been placed. -/
def startPlaces (targets : List Target) (target : Target) (position : Nat) (slot : Slot) :
    List Place :=
  if initialSlot? targets target position = some slot then target.start?.toList else []

/-- What a slot of a target holds before the target has been placed. -/
def startNodes (targets : List Target) (target : Target) (position : Nat) (slot : Slot) :
    List HostId :=
  (startPlaces targets target position slot).map Place.node

/-- Whether nodes are what a target asks for. -/
def Answers (start document : Document) (nodes : List HostId) : Target → Prop
  | .stay place => nodes = [place.node]
  | .move place => nodes = [place.node]
  | .insert tree => Grown start document nodes tree
  | .swap _ tree => Grown start document nodes tree
  | .remake _ tree => Grown start document nodes tree

/-- All targets from a position on are placed, and those before are as at the start. -/
structure Reached (board : Board) (start : Document) (position : Nat)
    (contents : Slot → List HostId) (widths : LeadingSums) (document : Document) : Prop where
  tracks : board.Tracks contents widths
  step : Rearranged board.parent (SwappedOut board.targets) start document
  children : document.children board.parent = board.order.flatMap contents
  waiting : ∀ {early target}, early < position → board.targets[early]? = some target →
    ∀ slot ∈ slotsFor board.targets target early,
      contents slot = startNodes board.targets target early slot
  placed : ∀ {late target}, position ≤ late → board.targets[late]? = some target →
    Answers start document (contents (finalSlot board.targets target late)) target ∧
      ∀ slot ∈ slotsFor board.targets target late,
        slot ≠ finalSlot board.targets target late → contents slot = []

/-- What the children have to be like before the board is used. -/
structure Ready (board : Board) (start : Document) : Prop where
  ordered : Ordered board.targets
  order : board.order = slots board.targets
  linked : start.Linked
  apart : board.parent ∉ start.children board.parent
  known : start.contains board.parent
  present : ∀ place ∈ board.targets.filterMap Target.start?,
    place.node ∈ start.children board.parent

variable {start document next : Document} {position : Nat} {target : Target}
  {latest : Slot → List HostId} {latestWidths : LeadingSums}

theorem Ready.sorted (ready : board.Ready start) : board.Sorted :=
  sorted_of_ordered ready.ordered ready.order

theorem Ready.contains_swappedOut (ready : board.Ready start) {id : HostId}
    (gone : SwappedOut board.targets id) : start.contains id := by
  obtain ⟨place, tree, member, rfl⟩ := gone
  exact ready.linked.contains_child
    (ready.present place (List.mem_filterMap.mpr ⟨_, member, rfl⟩))

theorem Reached.advance (ready : board.Ready start)
    (reached : board.Reached start (position + 1) contents widths document)
    (here : board.targets[position]? = some target)
    (tracks : board.Tracks latest latestWidths)
    (step : Rearranged board.parent (SwappedOut board.targets) document next)
    (children : next.children board.parent = board.order.flatMap latest)
    (same : ∀ slot, slot ∉ slotsFor board.targets target position → latest slot = contents slot)
    (answered : Answers start next (latest (finalSlot board.targets target position)) target)
    (emptied : ∀ slot ∈ slotsFor board.targets target position,
      slot ≠ finalSlot board.targets target position → latest slot = []) :
    board.Reached start position latest latestWidths next where
  tracks := tracks
  step := reached.step.trans step
  children := children
  waiting := by
    intro early other less there slot member
    rw [same slot (ready.ordered.slotsFor_disjoint there here less member)]
    exact reached.waiting (by omega) there slot member
  placed := by
    intro late other bound there
    rcases Nat.lt_or_eq_of_le bound with less | rfl
    · have untouched : ∀ slot ∈ slotsFor board.targets other late, latest slot = contents slot :=
        fun slot member => same slot fun own =>
          ready.ordered.slotsFor_disjoint here there less own member
      obtain ⟨answer, empty⟩ := reached.placed less there
      rw [untouched _ (mem_slotsFor.mpr (.inl rfl))]
      refine ⟨?_, fun slot member apart => (untouched slot member).trans (empty slot member apart)⟩
      cases other with
      | stay | move => exact answer
      | insert | swap | remake =>
        exact Grown.persists answer ready.linked ready.known ready.contains_swappedOut reached.step
          step
    · rw [here] at there
      cases there
      exact ⟨answered, emptied⟩

theorem Ready.mem_order (ready : board.Ready start) (here : board.targets[position]? = some target)
    (own : slot ∈ slotsFor board.targets target position) : slot ∈ board.order :=
  mem_order_of_mem_slotsFor ready.order here own

/-- The parent never becomes a child of its own. -/
theorem Reached.apart (ready : board.Ready start)
    (reached : board.Reached start position contents widths document) {node : HostId}
    (member : node ∈ document.children board.parent) : node ≠ board.parent := by
  rintro rfl
  have attached := reached.step.change.linked.mem_children_iff.mp member
  rw [reached.step.attached] at attached
  exact ready.apart (ready.linked.mem_children_iff.mpr attached)

theorem Reached.stay (ready : board.Ready start) {place : Place}
    (reached : board.Reached start (position + 1) contents widths document)
    (here : board.targets[position]? = some (.stay place)) :
    board.Reached start position contents widths document := by
  refine reached.advance ready here reached.tracks (.refl reached.step.change.linked)
    reached.children (fun _ _ => rfl) ?_ ?_
  · have held := reached.waiting (Nat.lt_succ_self position) here (.fixed position)
      (by simp [slotsFor])
    show contents (.fixed position) = [place.node]
    rw [held]
    simp [startNodes, startPlaces, initialSlot?, Target.start?]
  · intro slot own apart
    rw [slotsFor, List.mem_singleton] at own
    exact absurd own apart

theorem Reached.insertTree (ready : board.Ready start) {tree : Tree}
    (reached : board.Reached start (position + 1) contents widths document)
    (here : board.targets[position]? = some target)
    (own : slotsFor board.targets target position = [placedSlot board.targets position])
    (free : initialSlot? board.targets target position = none) (unfixed : ¬ target.isFixed)
    (answers : ∀ {document nodes}, Grown start document nodes tree →
      Answers start document nodes target) :
    ExactAll document (board.insertTree position tree widths).1 ∧
      ∃ latest, board.Reached start position latest (board.insertTree position tree widths).2
        (carryOutAll document (board.insertTree position tree widths).1) := by
  have final : finalSlot board.targets target position = placedSlot board.targets position := by
    simp [finalSlot, unfixed]
  have mine : placedSlot board.targets position ∈ slotsFor board.targets target position := by
    simp [own]
  have held : contents (placedSlot board.targets position) = [] := by
    rw [reached.waiting (Nat.lt_succ_self position) here _ mine]
    simp [startNodes, startPlaces, free]
  have alone : ∀ slot ∈ slotsFor board.targets target position,
      slot = finalSlot board.targets target position := by
    intro slot member
    rwa [own, List.mem_singleton, ← final] at member
  unfold Board.insertTree
  by_cases nothing : tree.width = 0
  · rw [if_pos nothing]
    refine ⟨trivial, contents, reached.advance ready here reached.tracks
      (.refl reached.step.change.linked) reached.children (fun _ _ => rfl) (answers ?_)
      fun slot member apart => absurd (alone slot member) apart⟩
    rw [final, held]
    exact ⟨by simp, by simp, shows_nil tree nothing⟩
  · rw [if_neg nothing]
    obtain ⟨before, after, split, index, replaced⟩ :=
      reached.tracks.split ready.sorted (ready.mem_order here mine)
    rw [held, List.append_nil, ← reached.children] at split
    obtain ⟨exact, step, nodes, children, grown⟩ := insert_spec reached.step.change.linked
      (reached.step.change.contains ready.known) split tree
    have width : nodes.length = tree.width := grown.shows.length_eq
    have tracks := reached.tracks.update ready.sorted (ready.mem_order here mine) nodes
    rw [width] at tracks
    simp only [index]
    refine ⟨⟨exact, trivial⟩, _, reached.advance ready here tracks (step.mono False.elim)
      (children.trans (replaced nodes).symm) ?_ (answers ?_)
      fun slot member apart => absurd (alone slot member) apart⟩
    · intro slot other
      exact Function.update_of_ne (ne_of_mem_of_not_mem mine other).symm ..
    · rw [final, Function.update_self]
      exact grown.of_later reached.step.change

theorem Reached.swap (ready : board.Ready start) {place : Place} {tree : Tree}
    (reached : board.Reached start (position + 1) contents widths document)
    (here : board.targets[position]? = some (.swap place tree)) :
    ExactAll document (board.placeTarget position (.swap place tree) widths).1 ∧
      ∃ latest, board.Reached start position latest
        (board.placeTarget position (.swap place tree) widths).2
        (carryOutAll document (board.placeTarget position (.swap place tree) widths).1) := by
  have mine : Slot.fixed position ∈ slotsFor board.targets (.swap place tree) position := by
    simp [slotsFor]
  have held : contents (.fixed position) = [place.node] := by
    rw [reached.waiting (Nat.lt_succ_self position) here _ mine]
    simp [startNodes, startPlaces, initialSlot?, Target.start?]
  obtain ⟨before, after, split, index, replaced⟩ :=
    reached.tracks.split ready.sorted (ready.mem_order here mine)
  rw [held, ← reached.children, List.append_assoc, List.singleton_append] at split
  have listed : place.node ∈ document.children board.parent := by simp [split]
  have other := reached.apart ready listed
  obtain ⟨exact, step, nodes, children, grown⟩ :=
    replace_spec reached.step.change.linked split other tree
  have width : nodes.length = tree.width := grown.shows.length_eq
  have tracks := reached.tracks.update ready.sorted (ready.mem_order here mine) nodes
  rw [width] at tracks
  have result : board.placeTarget position (.swap place tree) widths =
      ([.replace board.parent before.length place.node tree],
        widths.set (board.indexOf (.fixed position)) tree.width) := by
    rw [placeTarget, index]
  rw [result]
  refine ⟨⟨exact, trivial⟩, _, reached.advance ready here tracks ?_
    (children.trans (replaced nodes).symm) ?_ ?_ ?_⟩
  · refine step.mono ?_
    rintro id rfl
    exact ⟨place, tree, List.mem_of_getElem? here, rfl⟩
  · intro slot outside
    exact Function.update_of_ne (ne_of_mem_of_not_mem mine outside).symm ..
  · have final : finalSlot board.targets (.swap place tree) position = .fixed position := rfl
    rw [final, Function.update_self]
    exact grown.of_later reached.step.change
  · intro slot member apart
    rw [slotsFor, List.mem_singleton] at member
    exact absurd member apart

theorem Reached.move (ready : board.Ready start) {place : Place}
    (reached : board.Reached start (position + 1) contents widths document)
    (here : board.targets[position]? = some (.move place)) :
    ExactAll document (board.placeTarget position (.move place) widths).1 ∧
      ∃ latest, board.Reached start position latest
        (board.placeTarget position (.move place) widths).2
        (carryOutAll document (board.placeTarget position (.move place) widths).1) := by
  have waits : waitingSlot board.targets place ∈
      slotsFor board.targets (.move place) position := by
    simp [slotsFor]
  have mine : placedSlot board.targets position ∈
      slotsFor board.targets (.move place) position := by
    simp [slotsFor]
  have slots_ne : placedSlot board.targets position ≠ waitingSlot board.targets place := by
    simp [placedSlot, waitingSlot]
  have held : contents (waitingSlot board.targets place) = [place.node] := by
    rw [reached.waiting (Nat.lt_succ_self position) here _ waits]
    simp [startNodes, startPlaces, initialSlot?, Target.start?]
  have free : contents (placedSlot board.targets position) = [] := by
    rw [reached.waiting (Nat.lt_succ_self position) here _ mine]
    simp [startNodes, startPlaces, initialSlot?, Ne.symm slots_ne]
  -- First the node is taken out of the slot in which it waits.
  obtain ⟨before, after, split, index, taken⟩ :=
    reached.tracks.split ready.sorted (ready.mem_order here waits)
  have lifted := reached.tracks.update ready.sorted (ready.mem_order here waits) []
  rw [held, ← reached.children, List.append_assoc, List.singleton_append] at split
  -- Then it is put into the slot in which it ends.
  obtain ⟨before', after', split', index', put⟩ :=
    lifted.split ready.sorted (ready.mem_order here mine)
  have tracks := lifted.update ready.sorted (ready.mem_order here mine) [place.node]
  rw [taken, Function.update_of_ne slots_ne, free, List.append_nil, List.append_nil] at split'
  have same : ∀ slot, slot ∉ slotsFor board.targets (.move place) position →
      Function.update (Function.update contents (waitingSlot board.targets place) [])
        (placedSlot board.targets position) [place.node] slot = contents slot := by
    intro slot outside
    rw [Function.update_of_ne (ne_of_mem_of_not_mem mine outside).symm,
      Function.update_of_ne (ne_of_mem_of_not_mem waits outside).symm]
  have answered : Function.update (Function.update contents (waitingSlot board.targets place) [])
      (placedSlot board.targets position) [place.node]
      (finalSlot board.targets (.move place) position) = [place.node] := by
    have final : finalSlot board.targets (.move place) position =
      placedSlot board.targets position := rfl
    rw [final, Function.update_self]
  have emptied : ∀ slot ∈ slotsFor board.targets (.move place) position,
      slot ≠ finalSlot board.targets (.move place) position →
      Function.update (Function.update contents (waitingSlot board.targets place) [])
        (placedSlot board.targets position) [place.node] slot = [] := by
    intro slot member apart
    rcases mem_slotsFor.mp member with final | ⟨other, equal, rfl⟩
    · exact absurd final apart
    · cases equal
      rw [Function.update_of_ne (Ne.symm slots_ne), Function.update_self]
  have result : board.placeTarget position (.move place) widths =
      (if before.length = before'.length then []
        else [.move board.parent place.node before.length before'.length],
        (widths.set (board.indexOf (waitingSlot board.targets place)) 0).set
          (board.indexOf (placedSlot board.targets position)) 1) := by
    rw [placeTarget, index]
    exact congrArg (fun after => (if before.length = after then [] else
      [Patch.move board.parent place.node before.length after], _)) index'
  rw [result]
  by_cases still : before.length = before'.length
  · rw [if_pos still]
    obtain ⟨rfl, rfl⟩ := List.append_inj split' still
    refine ⟨trivial, _, reached.advance ready here tracks (.refl reached.step.change.linked) ?_
      same answered emptied⟩
    rw [put, carryOutAll_nil, split, List.append_assoc, List.singleton_append]
  · rw [if_neg still]
    obtain ⟨exact, step, children⟩ := move_spec reached.step.change.linked split split'
    refine ⟨⟨exact, trivial⟩, _, reached.advance ready here tracks (step.mono False.elim) ?_
      same answered emptied⟩
    rw [put, carryOutAll_cons, carryOutAll_nil, children, List.append_assoc,
      List.singleton_append]

end Board

end ReactiveTree
