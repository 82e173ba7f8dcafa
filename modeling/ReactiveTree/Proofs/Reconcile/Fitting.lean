import Mathlib.Algebra.Order.BigOperators.Group.List
import ReactiveTree.Proofs.Reconcile.Reusing

/-! # Where insertions end

The slots of a board never hold more than the targets ask for: a target that is placed gives back what
it held at the start. So whatever a layout inserts ends among as many children as the new trees stand
for, whether or not the old ones describe what is there. If the host nodes of the new trees are not
more than there are indices, then no patch counts beyond the last one.
-/

namespace ReactiveTree

open Patch

/-- How many children a target asks for. -/
def Target.width : Target → Nat
  | .stay _ => 1
  | .move _ => 1
  | .insert tree => tree.width
  | .swap _ tree => tree.width
  | .remake _ tree => tree.width

/-- How many children a target holds from the start. -/
def Target.started : Target → Nat
  | .stay _ => 1
  | .move _ => 1
  | .insert _ => 0
  | .swap _ _ => 1
  | .remake _ _ => 0

theorem length_filterMap_start (targets : List Target) :
    (targets.filterMap Target.start?).length = (targets.map Target.started).sum := by
  induction targets with
  | nil => rfl
  | cons target rest ih =>
    cases target <;>
      simp only [List.filterMap_cons, Target.start?, List.map_cons, List.sum_cons, Target.started,
        List.length_cons, ih] <;>
      omega

/-- How many children a placement asks for. -/
def Placement.width : Placement → Nat
  | .keep _ => 1
  | .create tree => tree.width
  | .swap _ tree => tree.width

/-- Whether what a patch inserts ends at an index or before. -/
def Patch.EndsBy (limit : Nat) : Patch → Prop
  | .insert _ index tree => index + tree.width ≤ limit
  | .replace _ index _ tree => index + tree.width ≤ limit
  | _ => True

theorem Patch.EndsBy.mono {patch : Patch} {limit more : Nat} (ends : patch.EndsBy limit)
    (bound : limit ≤ more) : patch.EndsBy more := by
  cases patch with
  | insert | replace => exact Nat.le_trans ends bound
  | remove | move | update => trivial

namespace Board

variable {board : Board} {slot : Slot} {contents : Slot → List HostId} {widths : LeadingSums}
  {target : Target} {position total : Nat} {done rest : List (Target × Nat)}

/-- How many children the slots hold when the targets of some entries are still to be placed, and those
of others are where they belong. -/
def load (done rest : List (Target × Nat)) : Nat :=
  (done.map fun entry => entry.1.started).sum + (rest.map fun entry => entry.1.width).sum

/-- The slots hold so many children at most, among them those of targets that are not yet placed. -/
structure Weighed (board : Board) (done : List (Target × Nat)) (total : Nat)
    (contents : Slot → List HostId) (widths : LeadingSums) : Prop where
  tracks : board.Tracks contents widths
  held : ∀ entry ∈ done, ∀ slot, initialSlot? board.targets entry.1 entry.2 = some slot →
    contents slot ≠ []
  bounded : (board.order.flatMap contents).length ≤ total

/-- To fill a slot anew takes from the total what it held. -/
theorem Weighed.put (weighed : board.Weighed done total contents widths) (sorted : board.Sorted)
    (member : slot ∈ board.order)
    (apart : ∀ entry ∈ done, slot ∉ slotsFor board.targets entry.1 entry.2) (nodes : List HostId) :
    (contents slot).length ≤ total ∧
      widths.sumBefore (board.indexOf slot) + nodes.length ≤
        total - (contents slot).length + nodes.length ∧
      board.Weighed done (total - (contents slot).length + nodes.length)
        (Function.update contents slot nodes) (widths.set (board.indexOf slot) nodes.length) := by
  obtain ⟨before, after, split, index, replaced⟩ := weighed.tracks.split sorted member
  have bounded := weighed.bounded
  rw [split, List.length_append, List.length_append] at bounded
  refine ⟨by omega, by omega, weighed.tracks.update sorted member nodes, ?_, ?_⟩
  · intro entry inside other initial
    rw [Function.update_of_ne]
    · exact weighed.held entry inside other initial
    · rintro rfl
      exact apart entry inside (mem_slotsFor_of_initialSlot initial)
  · rw [replaced, List.length_append, List.length_append]
    omega

theorem Weighed.mono {more : Nat} (weighed : board.Weighed done total contents widths)
    (fewer : rest ⊆ done) (bound : total ≤ more) : board.Weighed rest more contents widths where
  tracks := weighed.tracks
  held entry member := weighed.held entry (fewer member)
  bounded := weighed.bounded.trans bound

theorem map_zipIdx_fst (measure : Target → Nat) (targets : List Target) :
    targets.zipIdx.map (fun entry => measure entry.1) = targets.map measure := by
  conv_rhs => rw [← List.zipIdx_map_fst 0 targets, List.map_map]
  rfl

/-- At the start the slots hold as many children as the targets start from. -/
theorem Settled.weighed_start (settled : board.Settled) :
    board.Weighed board.targets.zipIdx (load board.targets.zipIdx [])
      (startContents board.targets board.targets.zipIdx) board.initialWidths where
  tracks := initialWidths_tracks settled.ordered settled.order
  held entry member slot initial := by
    rw [startContents_eq settled.ordered (List.mem_zipIdx_iff_getElem?.mp member)
      (mem_slotsFor_of_initialSlot initial), startNodes, startPlaces, if_pos initial]
    obtain ⟨target, position⟩ := entry
    cases target <;> simp_all [initialSlot?, Target.start?]
  bounded := by
    let remaining := (board.targets.filterMap Target.start?).mergeSort
      fun left right => decide (left.index ≤ right.index)
    have perm : remaining.Perm (board.targets.filterMap Target.start?) := List.mergeSort_perm ..
    have increasing : remaining.Pairwise fun left right => left.index < right.index := by
      have apart := settled.ordered.distinct.perm perm.symm fun apart => Ne.symm apart
      have sorted : remaining.Pairwise fun left right => decide (left.index ≤ right.index) := by
        apply List.pairwise_mergeSort
        · simp only [decide_eq_true_eq]
          omega
        · simp only [Bool.or_eq_true, decide_eq_true_eq]
          omega
      exact (sorted.and apart).imp fun pair => Nat.lt_of_le_of_ne (of_decide_eq_true pair.1) pair.2
    rw [flatMap_startContents settled.ordered settled.order increasing fun place => perm.mem_iff,
      List.length_map, perm.length_eq, length_filterMap_start, load, map_zipIdx_fst]
    exact Nat.le_add_right _ _

/-- No target holds more from the start than it asks for. -/
theorem Settled.load_le (settled : board.Settled)
    (split : board.targets.zipIdx = done ++ rest) :
    load done rest ≤ (board.targets.map Target.width).sum := by
  rw [← map_zipIdx_fst, split, load, List.map_append, List.sum_append]
  apply Nat.add_le_add_right
  apply List.sum_le_sum
  rintro ⟨target, position⟩ member
  have here : target ∈ board.targets := by
    have listed : (target, position) ∈ board.targets.zipIdx := split ▸ List.mem_append_left rest member
    exact List.mem_of_getElem? (List.mem_zipIdx_iff_getElem?.mp listed)
  cases target with
  | stay | move => exact Nat.le_refl _
  | insert | remake => exact Nat.zero_le _
  | swap place tree => exact settled.filling here

theorem load_append_cons (done rest : List (Target × Nat)) (target : Target) (position : Nat) :
    load (done ++ [(target, position)]) rest + target.width =
      load done ((target, position) :: rest) + target.started := by
  simp only [load, List.map_append, List.sum_append, List.map_cons, List.sum_cons, List.map_nil,
    List.sum_nil]
  omega

/-- To insert a tree adds as many children as it stands for. -/
theorem Weighed.insertTree (weighed : board.Weighed done total contents widths)
    (sorted : board.Sorted) (member : placedSlot board.targets position ∈ board.order)
    (apart : ∀ entry ∈ done,
      placedSlot board.targets position ∉ slotsFor board.targets entry.1 entry.2) (tree : Tree) :
    (∀ patch ∈ (board.insertTree position tree widths).1, patch.EndsBy (total + tree.width)) ∧
      ∃ latest, board.Weighed done (total + tree.width) latest
        (board.insertTree position tree widths).2 := by
  unfold Board.insertTree
  split
  next => exact ⟨nofun, contents, weighed.mono (List.Subset.refl _) (Nat.le_add_right _ _)⟩
  next =>
    obtain ⟨-, ends, put⟩ := weighed.put sorted member apart (List.replicate tree.width default)
    rw [List.length_replicate] at ends put
    have fewer : total - (contents (placedSlot board.targets position)).length ≤ total :=
      Nat.sub_le _ _
    refine ⟨?_, _, put.mono (List.Subset.refl _) (Nat.add_le_add_right fewer _)⟩
    intro patch listed
    cases List.mem_singleton.mp listed
    exact ends.trans (Nat.add_le_add_right fewer _)

/-- Placing a target changes the total by what it asks for and what it held. -/
theorem Weighed.placeTarget (settled : board.Settled)
    (split : board.targets.zipIdx = done ++ (target, position) :: rest)
    (weighed : board.Weighed (done ++ [(target, position)])
      (load (done ++ [(target, position)]) rest) contents widths) :
    (∀ patch ∈ (board.placeTarget position target widths).1,
      patch.EndsBy (load done ((target, position) :: rest))) ∧
      ∃ latest, board.Weighed done (load done ((target, position) :: rest)) latest
        (board.placeTarget position target widths).2 := by
  have here : board.targets[position]? = some target :=
    List.mem_zipIdx_iff_getElem?.mp (show (target, position) ∈ board.targets.zipIdx by simp [split])
  have mine {slot : Slot} (own : slot ∈ slotsFor board.targets target position) :
      slot ∈ board.order := settled.mem_order here own
  have apart {slot : Slot} (own : slot ∈ slotsFor board.targets target position) :
      ∀ entry ∈ done, slot ∉ slotsFor board.targets entry.1 entry.2 :=
    (zipIdx_apart settled.ordered split own).1
  have changes := load_append_cons done rest target position
  have earlier : board.Weighed done (load (done ++ [(target, position)]) rest) contents widths :=
    weighed.mono (List.subset_append_left _ _) (Nat.le_refl _)
  have held {slot : Slot} (initial : initialSlot? board.targets target position = some slot) :
      0 < (contents slot).length :=
    List.length_pos_of_ne_nil (weighed.held (target, position) (by simp) slot initial)
  cases target with
  | stay place =>
    rw [Nat.add_right_cancel changes] at earlier
    exact ⟨nofun, contents, earlier⟩
  | insert tree =>
    rw [← show _ = load done _ from changes]
    exact earlier.insertTree settled.sorted (mine List.mem_cons_self) (apart List.mem_cons_self) tree
  | remake place tree =>
    rw [← show _ = load done _ from changes]
    exact earlier.insertTree settled.sorted (mine List.mem_cons_self) (apart List.mem_cons_self) tree
  | swap place tree =>
    obtain ⟨within, ends, put⟩ := earlier.put settled.sorted (mine List.mem_cons_self)
      (apart List.mem_cons_self) (List.replicate tree.width default)
    have room := held rfl
    rw [List.length_replicate] at ends put
    have bound : load (done ++ [(.swap place tree, position)]) rest -
        (contents (.fixed position)).length + tree.width ≤
          load done ((.swap place tree, position) :: rest) := by
      simp only [Target.width, Target.started] at changes
      omega
    refine ⟨?_, _, put.mono (List.Subset.refl _) bound⟩
    intro patch listed
    cases List.mem_singleton.mp listed
    exact ends.trans bound
  | move place =>
    have waits : waitingSlot board.targets place ∈
        slotsFor board.targets (.move place) position := List.mem_cons_self
    have ends : placedSlot board.targets position ∈
        slotsFor board.targets (.move place) position := List.mem_cons_of_mem _ List.mem_cons_self
    obtain ⟨within, -, lifted⟩ := earlier.put settled.sorted (mine waits) (apart waits) []
    obtain ⟨-, -, put⟩ := lifted.put settled.sorted (mine ends) (apart ends) [place.node]
    have room := held rfl
    refine ⟨?_, _, put.mono (List.Subset.refl _) ?_⟩
    · intro patch listed
      simp only [Board.placeTarget] at listed
      split at listed
      next => cases listed
      next =>
        cases List.mem_singleton.mp listed
        trivial
    · simp only [Target.width, Target.started, List.length_nil, List.length_singleton] at *
      omega

/-- Whatever a board inserts ends among the children that its targets ask for. -/
theorem Settled.placeAll_endsBy (settled : board.Settled)
    (split : board.targets.zipIdx = done ++ rest) :
    (∀ patch ∈ (board.placeAll rest).1, patch.EndsBy (board.targets.map Target.width).sum) ∧
      ∃ latest, board.Weighed done (load done rest) latest (board.placeAll rest).2 := by
  induction rest generalizing done with
  | nil =>
    rw [List.append_nil] at split
    subst split
    exact ⟨nofun, _, settled.weighed_start⟩
  | cons entry rest ih =>
    obtain ⟨target, position⟩ := entry
    obtain ⟨early, contents, weighed⟩ := ih (split.trans (List.append_cons ..))
    obtain ⟨ends, latest, placed⟩ := weighed.placeTarget settled split
    refine ⟨?_, latest, placed⟩
    intro patch listed
    rcases List.mem_append.mp listed with before | now
    · exact early patch before
    · exact (ends patch now).mono (settled.load_le split)

end Board

theorem width_of_settles {placements : List Placement} {targets : List Target}
    (settled : List.Forall₂ Target.Settles placements targets) :
    (targets.map Target.width).sum = (placements.map Placement.width).sum := by
  induction settled with
  | nil => rfl
  | cons here _ ih => cases here <;> simp [Target.width, Placement.width, ih]

mutual

/-- How many host nodes a tree stands for, counting those further down. -/
def Tree.size : Tree → Nat
  | .text _ => 1
  | .element _ _ children _ => Tree.sizes children + 1
  | .fragment children _ => Tree.sizes children

/-- How many host nodes several trees stand for together. -/
def Tree.sizes : List Tree → Nat
  | [] => 0
  | tree :: rest => tree.size + Tree.sizes rest

end

mutual

theorem Tree.width_le_size : (tree : Tree) → tree.width ≤ tree.size
  | .text _ => Nat.le_refl _
  | .element .. => Nat.le_add_left _ _
  | .fragment children _ => Tree.widths_le_sizes children

theorem Tree.widths_le_sizes : (trees : List Tree) → Tree.widths trees ≤ Tree.sizes trees
  | [] => Nat.le_refl _
  | tree :: rest => Nat.add_le_add tree.width_le_size (Tree.widths_le_sizes rest)

end

theorem Tree.sizes_append (first second : List Tree) :
    Tree.sizes (first ++ second) = Tree.sizes first + Tree.sizes second := by
  induction first with
  | nil => exact (Nat.zero_add _).symm
  | cons tree rest ih => rw [List.cons_append, Tree.sizes, Tree.sizes, ih, Nat.add_assoc]

variable {H : Type} [Host H] {host : H} {plan first second : Plan} {run left right : List Place}
  {old new trees : List Tree} {parent : HostId} {patches : List Patch} {place : Place}

/-- A plan accounts for a run once and asks for as many children as new trees stand for. The patches
for what is further down end by their size. -/
structure Plan.Measured (plan : Plan) (run : List Place) (new : List Tree) : Prop where
  covers : plan.Covers run
  widths : (plan.placements.map Placement.width).sum = Tree.widths new
  below : ∀ patch ∈ plan.below, patch.EndsBy (Tree.sizes new)

namespace Plan.Measured

theorem empty : Plan.empty.Measured [] [] :=
  ⟨.nil, rfl, nofun⟩

theorem create (tree : Tree) : (Plan.create tree).Measured [] [tree] :=
  ⟨covers_create tree, rfl, nofun⟩

theorem exchange (run : List Place) (tree : Tree) : (Plan.exchange run tree).Measured run [tree] where
  covers := covers_exchange run tree
  widths := by
    unfold Plan.exchange
    split
    · split <;> rfl
    · rfl
  below := by
    unfold Plan.exchange
    split
    · split <;> exact nofun
    · exact nofun

theorem keep {tree : Tree} (single : tree.width = 1)
    (below : ∀ patch ∈ patches, patch.EndsBy tree.size) :
    (Plan.keep place patches).Measured [place] [tree] where
  covers := covers_keep place patches
  widths := by
    rw [Tree.widths, single]
    rfl
  below := below

theorem append (measured : first.Measured left old) (next : second.Measured right new) :
    (first.append second).Measured (left ++ right) (old ++ new) where
  covers := measured.covers.append next.covers
  widths := by
    rw [Tree.widths_append, ← measured.widths, ← next.widths, ← List.sum_append, ← List.map_append]
    rfl
  below patch member := by
    rw [Tree.sizes_append]
    rcases List.mem_append.mp member with early | late
    · exact (measured.below patch early).mono (Nat.le_add_right _ _)
    · exact (next.below patch late).mono (Nat.le_add_left _ _)

/-- The layout of a plan inserts up to the children that the new trees stand for. -/
theorem layout (measured : plan.Measured run new) (fills : plan.Fills)
    (distinct : (run.map Place.index).Nodup) (parent : HostId) :
    ∀ patch ∈ plan.layout parent, patch.EndsBy (Tree.widths new) := by
  have settled : (Board.of parent (targetsOf plan.placements)).Settled :=
    measured.covers.settled distinct fills parent
  have widths : ((targetsOf plan.placements).map Target.width).sum = Tree.widths new :=
    (width_of_settles (targetsOf_settles plan.placements)).trans measured.widths
  have ends := (settled.placeAll_endsBy (List.nil_append _).symm).1
  intro patch member
  rcases List.mem_append.mp member with removal | placed
  · obtain ⟨place, -, rfl⟩ := List.mem_map.mp removal
    trivial
  · rw [← widths]
    exact ends patch placed

end Plan.Measured

/-- Whatever old siblings new ones continue, their plan accounts for the runs that are continued. -/
def PlansMeasured (host : H) (new : List Tree) : Prop :=
  ∀ (old : List (Tree × List Place)) (partners : List (Option Nat)) (plan : Plan),
    partners.length = new.length → (∀ entry ∈ old, entry.2.length = entry.1.width) →
    planSiblings host old partners new = .ok plan →
    plan.Measured ((Siblings.chosen old partners).flatMap Prod.snd) new

/-- With what is left over such a plan accounts for the whole run. -/
theorem PlansMeasured.siblings (measures : PlansMeasured host new)
    (enough : run.length = Tree.widths old)
    (planned : planSiblings host (Siblings.of run old new).old (Siblings.of run old new).partners
      new = .ok plan) :
    (plan.without (Siblings.of run old new).leftOver).Measured run new := by
  have length : (partnersOf old new).length = new.length := by simp [partnersOf]
  have measured := measures _ _ plan length (length_of_mem_cutRuns enough) planned
  refine ⟨?_, measured.widths, measured.below⟩
  unfold Plan.Covers Plan.without
  rw [← List.append_assoc]
  exact (measured.covers.append_right _).trans (Siblings.chosen_perm new enough)

/-- The patches for the children of a node end by the size of the new ones. -/
theorem PlansMeasured.layoutChildren (measures : PlansMeasured host new)
    (laid : layoutChildren host parent old new (fun siblings =>
      planSiblings host siblings.old siblings.partners new) = .ok patches) :
    ∀ patch ∈ patches, patch.EndsBy (Tree.sizes new) := by
  obtain ⟨enough, plan, siblings, rfl⟩ := exists_plan_of_layoutChildren laid
  have measured := measures.siblings enough siblings
  have follows := (planSiblings_follows host new _ _ plan (length_of_mem_cutRuns enough) siblings).without
    (Siblings.of (places (Host.children host parent)) old new).leftOver
  intro patch member
  rcases List.mem_append.mp member with below | own
  · exact measured.below patch below
  · exact (measured.layout follows.fills (nodup_index_places _) parent patch own).mono
      (Tree.widths_le_sizes new)

mutual

/-- The plan for a new tree accounts for the run of the old one, whatever it is. -/
theorem planMatched_measured (host : H) : (tree : Tree) →
    ∀ (run : List Place) (old : Tree) (plan : Plan), run.length = old.width →
      planMatched host run old tree = .ok plan → plan.Measured run [tree]
  | .text content => by
    intro run old plan width planned
    cases derives_of_planMatched width planned with
    | text place before =>
      refine .keep rfl fun patch member => ?_
      split at member
      next => cases member
      next =>
        cases List.mem_singleton.mp member
        trivial
    | exchange => exact .exchange run _
  | .element tag props children key => by
    intro run old plan width planned
    cases derives_of_planMatched width planned with
    | element laid =>
      refine .keep rfl fun patch member => ?_
      rcases List.mem_append.mp member with update | below
      · obtain ⟨change, -, rfl⟩ := List.mem_map.mp update
        trivial
      · have ends := (planSiblings_measured host children).layoutChildren laid patch below
        exact ends.mono (Nat.le_add_right _ _)
    | exchange => exact .exchange run _
  | .fragment children key => by
    intro run old plan width planned
    cases derives_of_planMatched width planned with
    | fragment enough siblings =>
      obtain ⟨covers, widths, below⟩ := (planSiblings_measured host children).siblings enough siblings
      exact ⟨covers, widths, below⟩
    | exchange => exact .exchange run _

theorem planSiblings_measured (host : H) : (trees : List Tree) → PlansMeasured host trees
  | [] => by
    intro old partners plan length fit planned
    cases planned
    cases partners with
    | cons => cases length
    | nil => exact .empty
  | child :: rest => by
    intro old partners plan length fit planned
    cases partners with
    | nil => cases length
    | cons partner others =>
      have length : others.length = rest.length := by simpa using length
      obtain ⟨head, tail, plannedTail, rfl, first⟩ := exists_of_planSiblings_cons planned
      have behind := planSiblings_measured host rest old others tail length fit plannedTail
      rw [Siblings.chosen_cons, List.flatMap_append]
      simp only [List.head?_cons, Option.join_some] at first
      rcases first with ⟨unmatched, rfl⟩ | ⟨entry, member, matched, plannedHead⟩
      · rw [unmatched]
        exact (Plan.Measured.create child).append behind
      · rw [matched, Option.toList_some, List.flatMap_singleton]
        exact (planMatched_measured host child entry.2 entry.1 head (fit entry member)
          plannedHead).append behind

end

/-- What a diff inserts ends by the size of the new tree, for every host and old tree. -/
theorem endsBy_diff {policy : KeyPolicy} {container : HostId} {old new : Option Tree}
    (planned : diff policy host container old new = .ok patches) :
    ∀ patch ∈ patches, patch.EndsBy (Tree.sizes new.toList) := by
  unfold diff at planned
  split at planned
  next => cases planned
  next => exact (planSiblings_measured host new.toList).layoutChildren planned

mutual

/-- For a tree as many nodes are built as it stands for. -/
theorem Tree.length_build (host : H) : (tree : Tree) → (tree.build host).1.length = tree.width
  | .text _ => rfl
  | .element .. => rfl
  | .fragment children _ => Tree.length_buildAll host children

theorem Tree.length_buildAll (host : H) : (trees : List Tree) →
    (Tree.buildAll host trees).1.length = Tree.widths trees
  | [] => rfl
  | tree :: rest => by
    simp only [Tree.buildAll, List.length_append, Tree.widths, Tree.length_build host tree,
      Tree.length_buildAll _ rest]

end

/-- A patch whose insertions have indices does not fail. -/
theorem Patch.attempt_of_endsBy {patch : Patch} (ends : patch.EndsBy indexCount) (host : H) :
    patch.attempt host = (.ok (), patch.carryOut host) := by
  cases patch with
  | insert parent index tree =>
    apply insertWithin_of_le
    rw [Tree.length_build]
    exact ends
  | replace parent index target tree =>
    apply insertWithin_of_le
    rw [Tree.length_build]
    exact ends
  | remove | move | update => rfl

theorem Patch.attemptAll_of_endsBy (ends : ∀ patch ∈ patches, patch.EndsBy indexCount) (host : H) :
    attemptAll host patches = (.ok (), carryOutAll host patches) := by
  induction patches generalizing host with
  | nil => rfl
  | cons patch rest ih =>
    rw [attemptAll, attempt_of_endsBy (ends patch List.mem_cons_self)]
    exact ih (fun other member => ends other (List.mem_cons_of_mem _ member)) _

end ReactiveTree
