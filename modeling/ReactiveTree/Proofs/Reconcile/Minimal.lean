import Mathlib
import ReactiveTree.Proofs.Reconcile.Reusing

/-! # Moves are minimal

Under each parent that a diff lays out, all reused nodes are moved but for a longest run of increasing
old places, and none of them twice. This brings them into their new order, and no other patches that
take none of them away do so with fewer moves. Only a container that lies below itself is excepted: its
children may be laid out more than once.
-/

namespace ReactiveTree

open Document

/-- Patches bring the reused children of a parent into their order with the fewest moves. -/
structure MovesLeast (document : Document) (parent : HostId) (reused : List Place)
    (patches : List Patch) : Prop where
  /-- The reused nodes outnumber the moves by a longest increasing subsequence of the old places. -/
  count : ∃ longest, IsLongestAscent (reused.map Place.index) longest ∧
    (patchesFor parent patches).countP Patch.isMove + longest = reused.length
  once : ∀ place ∈ reused, (patches.filterMap Patch.moved?).count place.node ≤ 1
  reached : ((Patch.carryOutAll document (patchesFor parent patches)).children parent).filter
    (fun id => id ∈ reused.map Place.node) = reused.map Place.node
  /-- Whatever is inserted, and whatever else is removed or replaced. -/
  least : ∀ other : List Patch,
    (∀ patch ∈ other, ∀ place ∈ reused, patch.taken? ≠ some place.node) →
    ((Patch.carryOutAll document other).children parent).filter
      (fun id => id ∈ reused.map Place.node) = reused.map Place.node →
    (patchesFor parent patches).countP Patch.isMove ≤ (patchesFor parent other).countP Patch.isMove

variable {document start : Document} {parent container : HostId} {plan : Plan}
  {placements : List Placement} {patches : List Patch} {before after : List Tree}

/-- Of the children that placements call for, the kept ones come in order; the others are new. -/
theorem Filled.filter_kept {nodes : List HostId} {keep : HostId → Bool}
    (filled : Filled start document placements nodes)
    (kept : ∀ place ∈ placements.filterMap Placement.kept?, keep place.node)
    (old : ∀ id, keep id → start.contains id) :
    nodes.filter keep = (placements.filterMap Placement.kept?).map Place.node := by
  have fresh {tree : Tree} {piece : List HostId} (grown : Grown start document piece tree) :
      piece.filter keep = [] :=
    List.filter_eq_nil_iff.mpr fun node member keeps => grown.fresh node member (old node keeps)
  induction filled with
  | nil => rfl
  | @keep place rest nodes _ ih =>
    have later := ih fun other member => kept other (List.mem_cons_of_mem _ member)
    rw [List.filter_cons_of_pos (kept place List.mem_cons_self), later]
    rfl
  | create grown _ ih | swap grown _ ih =>
    rw [List.filter_append, fresh grown, List.nil_append]
    exact ih kept

/-- The layout of a plan brings the reused nodes into their order. -/
theorem Plan.Covers.reached_layout (covers : plan.Covers (places (document.children parent)))
    (linked : document.Linked) (grounded : document.Grounded parent) :
    ((Patch.carryOutAll document (plan.layout parent)).children parent).filter
      (fun id => id ∈ plan.reused.map Place.node) = plan.reused.map Place.node := by
  have child : ∀ id ∈ plan.reused.map Place.node, id ∈ document.children parent := by
    intro id member
    obtain ⟨place, inReused, rfl⟩ := List.mem_map.mp member
    exact node_mem_of_mem_places (covers.mem_of_reused inReused)
  by_cases none : plan.reused = []
  · simp [none]
  · obtain ⟨first, member⟩ := List.exists_mem_of_ne_nil _ none
    have known := contains_of_mem_children (child _ (List.mem_map_of_mem member))
    have apart : parent ∉ document.children parent := fun inside =>
      grounded parent inside .refl
    obtain ⟨-, -, -, -, filled⟩ := layout_spec linked known apart covers
    apply filled.filter_kept
    · intro place listed
      exact decide_eq_true (List.mem_map_of_mem listed)
    · intro id keeps
      exact linked.contains_child (child id (of_decide_eq_true keeps))

/-- The layout of a plan moves the reused nodes no more than their order needs. -/
theorem Plan.Covers.movesLeast (covers : plan.Covers (places (document.children parent)))
    (fills : plan.Fills) (linked : document.Linked) (grounded : document.Grounded parent)
    (same : patchesFor parent patches = plan.layout parent)
    (attached : ∀ above target index place, .move above target index place ∈ patches →
      document.parent? target = some above) :
    MovesLeast document parent plan.reused patches := by
  have indices := nodup_index_places (document.children parent)
  have nodes := covers.nodup_reused linked
  have listed : ∀ place ∈ plan.reused, (document.children parent)[place.index]? = some place.node :=
    fun place member => mem_places.mp (covers.mem_of_reused member)
  have moves : movedUnder parent patches = (plan.layout parent).filterMap Patch.moved? := by
    rw [movedUnder, same]
  have count := Plan.length_moves_layout covers indices fills parent
  rw [← moves, length_movedUnder] at count
  have longest := longestRun_longest (plan.reused.map Place.index)
  constructor
  · exact ⟨_, longest, count⟩
  · intro place member
    have child : document.parent? place.node = some parent :=
      linked.mem_children_iff.mp (node_mem_of_mem_places (covers.mem_of_reused member))
    have own : ∀ patch ∈ patches, patch.moved? = some place.node → patch.parent? = some parent := by
      intro patch inPatches moved
      cases patch with
      | move above target =>
        cases moved
        rw [← child, attached _ _ _ _ inPatches]
        rfl
      | _ => cases moved
    have once := nodes.sublist (Plan.moves_sublist covers indices fills parent)
    rw [List.nodup_reverse, ← moves] at once
    rw [count_moved own]
    exact List.nodup_iff_count_le_one.mp once place.node
  · rw [same]
    exact covers.reached_layout linked grounded
  · intro other untaken reached
    have most := length_le_movedUnder_add linked listed nodes untaken reached longest
    rw [length_movedUnder] at most
    omega

/-- Every diff in a container that does not lie below itself moves least under every parent that it lays
out, and has no patch for another one. The reused nodes are those matched with an old node of the same
kind, in their new order. -/
theorem diff_moves_least (linked : document.Linked) (grounded : document.Grounded container)
    {policy : KeyPolicy} {old new : Option Tree}
    (planned : diff policy document container old new = .ok patches) :
    (∀ patch ∈ patches, ∀ parent, patch.parent? = some parent →
      ∃ before after, LaidOut document container old.toList new.toList parent before after) ∧
    ∀ parent before after, LaidOut document container old.toList new.toList parent before after →
      MovesLeast document parent ((childReuses document parent before after).map Reuse.place)
        patches := by
  have steady := steady_diff linked grounded planned
  have laid : childPatches document container old.toList new.toList = .ok patches := by
    unfold diff at planned
    split at planned
    next => cases planned
    next => exact planned
  refine ⟨exists_laidOut_of_mem linked grounded laid, fun parent before after laidOut => ?_⟩
  obtain ⟨lower, nested, here, same⟩ := laidOut.exists_patches linked grounded laid
  obtain ⟨plan, covers, fills, nodes, own, -⟩ := exists_layout_of_childPatches linked lower here
  rw [← nodes]
  apply covers.movesLeast fills linked lower ((same parent .refl).trans own)
  intro above target index place member
  exact (steady above target index place member).1

/-- Keyed items in a fragment. -/
def Tree.items (keys : List String) : Tree :=
  .fragment (keys.map fun key => .element "li" .empty [] (some ⟨key⟩)) none

/-- A list with keyed items. -/
def Tree.listOf (keys : List String) : Tree :=
  .element "ul" .empty [.items keys] none

/-- A root with four items in a list. -/
def Document.fourItems : Document :=
  (Patch.insert root 0 (.listOf ["a", "b", "c", "d"])).carryOut Document.empty

/-- Three items stay in the list, in the opposite order, and two of them are moved. -/
theorem diff_moves_least_items :
    Document.fourItems.Linked ∧ Document.fourItems.Grounded root ∧
      ∃ patches, diff .strict Document.fourItems root (some (.listOf ["a", "b", "c", "d"]))
          (some (.listOf ["d", "x", "b", "a"])) = .ok patches ∧
        MovesLeast Document.fourItems ⟨1⟩ [⟨3, ⟨5⟩⟩, ⟨1, ⟨3⟩⟩, ⟨0, ⟨2⟩⟩] patches ∧
        (patchesFor ⟨1⟩ patches).countP Patch.isMove = 2 := by
  have forest : Document.fourItems.Forest := Patch.forest_carryOut .empty fun parent here => by
    cases here
    decide
  obtain ⟨patches, planned⟩ : ∃ patches, diff .strict Document.fourItems root
      (some (.listOf ["a", "b", "c", "d"])) (some (.listOf ["d", "x", "b", "a"])) = .ok patches :=
    ⟨_, rfl⟩
  have list : childReuses Document.fourItems root [.listOf ["a", "b", "c", "d"]]
      [.listOf ["d", "x", "b", "a"]] =
        [⟨⟨0, ⟨1⟩⟩, .listOf ["a", "b", "c", "d"], .listOf ["d", "x", "b", "a"]⟩] := by
    rfl
  have items : (childReuses Document.fourItems ⟨1⟩ [.items ["a", "b", "c", "d"]]
      [.items ["d", "x", "b", "a"]]).map Reuse.place = [⟨3, ⟨5⟩⟩, ⟨1, ⟨3⟩⟩, ⟨0, ⟨2⟩⟩] := by
    decide +kernel
  have laidOut : LaidOut Document.fourItems root [.listOf ["a", "b", "c", "d"]]
      [.listOf ["d", "x", "b", "a"]] ⟨1⟩ [.items ["a", "b", "c", "d"]] [.items ["d", "x", "b", "a"]] :=
    LaidOut.container.kept (list ▸ List.mem_cons_self) rfl
  have least := (diff_moves_least forest.linked (forest.grounded root) planned).2 ⟨1⟩ _ _ laidOut
  rw [items] at least
  obtain ⟨longest, isLongest, count⟩ := least.count
  have one := isLongest.unique (longestRun_longest [3, 1, 0])
  have length : (longestRun [3, 1, 0]).length = 1 := by decide
  rw [one, length] at count
  exact ⟨forest.linked, forest.grounded root, patches, planned, least, Nat.succ.inj count⟩

/-- The list that is its own child claims its items twice, and the last one is moved twice for them. -/
theorem moves_twice_below_itself :
    Document.knot.Reachable ∧
      LaidOut Document.knot ⟨1⟩ [.listThen ["a", "b"] ["a", "b"]] [.listThen ["b", "a"] ["b", "a"]] ⟨1⟩
        [.listThen ["a", "b"] ["a", "b"]] [.listThen ["b", "a"] ["b", "a"]] ∧
      ∃ patches, diff .strict Document.knot ⟨1⟩ (some (.listThen ["a", "b"] ["a", "b"]))
          (some (.listThen ["b", "a"] ["b", "a"])) = .ok patches ∧
        patches = [.move ⟨1⟩ ⟨3⟩ 2 1, .move ⟨1⟩ ⟨3⟩ 2 1] ∧
        ¬ MovesLeast Document.knot ⟨1⟩ ((childReuses Document.knot ⟨1⟩
          [.listThen ["a", "b"] ["a", "b"]] [.listThen ["b", "a"] ["b", "a"]]).map Reuse.place)
            patches := by
  have planned : diff .strict Document.knot ⟨1⟩ (some (.listThen ["a", "b"] ["a", "b"]))
      (some (.listThen ["b", "a"] ["b", "a"])) =
        .ok [.move ⟨1⟩ ⟨3⟩ 2 1, .move ⟨1⟩ ⟨3⟩ 2 1] := by
    cbv
  have reused : (childReuses Document.knot ⟨1⟩ [.listThen ["a", "b"] ["a", "b"]]
      [.listThen ["b", "a"] ["b", "a"]]).map Reuse.place = [⟨0, ⟨1⟩⟩, ⟨2, ⟨3⟩⟩, ⟨1, ⟨2⟩⟩] := by
    decide +kernel
  refine ⟨Document.reachable_knot, .container, _, planned, rfl, fun least => ?_⟩
  rw [reused] at least
  have twice := least.once ⟨2, ⟨3⟩⟩ (by decide)
  revert twice
  decide

end ReactiveTree
