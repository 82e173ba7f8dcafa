import ReactiveTree.Proofs.Reconcile.Lookups
import ReactiveTree.Proofs.Reconcile.Siblings

/-! # Plans look up what is there

A diff works on indices also before its layouts: on those of partners among the old siblings, and of
places among the children that were read off the host. The diff here looks these up too, and may come
to nothing. It is the diff that takes runs of places along instead: whatever the host and the old tree
are, every index of a run is one of a child once the children were counted, and every partner is an old
sibling.
-/

namespace ReactiveTree

/-- What may fail, and comes to nothing if a look-up misses. -/
abbrev Lookup (α : Type) : Type :=
  ExceptT ReconcileFailure Option α

namespace Lookup

/-- What is found, if it is. -/
def lift {α : Type} (found : Option α) : Lookup α :=
  found.map .ok

/-- Places for consecutive indices. -/
def placesAt (nodes : List HostId) (start width : Nat) : Option (List Place) :=
  (List.range' start width).mapM fun index => nodes[index]?.map (Place.mk index)

/-- Where the run of each of several trees starts. -/
def startsFrom (start : Nat) : List Tree → List (Tree × Nat)
  | [] => []
  | tree :: rest => (tree, start) :: startsFrom (start + tree.width) rest

/-- Let old nodes give way to a tree: one for some by a swap, and otherwise by removal. -/
def exchange (nodes : List HostId) (start width : Nat) (tree : Tree) : Option Plan :=
  if width = 1 ∧ 0 < tree.width then do
    let node ← nodes[start]?
    return ⟨[.swap ⟨start, node⟩ tree], [], []⟩
  else
    return ⟨[.create tree], ← placesAt nodes start width, []⟩

/-- The host children of old siblings that no new one continues. -/
def leftOver (nodes : List HostId) (old : List (Tree × Nat)) (partners : List (Option Nat)) :
    Option (List Place) := do
  guard (∀ index ∈ continued partners, index < old.length)
  let runs ← (old.zipIdx.filter fun (_, index) => !partners.contains (some index)).mapM
    fun ((tree, start), _) => placesAt nodes start tree.width
  return runs.flatten

variable {H : Type} [Host H]

/-- Lay out the children of a host node, if it has as many as the old trees stand for. -/
def layoutChildren (host : H) (parent : HostId) (old new : List Tree)
    (plan : List HostId → List (Tree × Nat) → List (Option Nat) → Lookup Plan) :
    Lookup (List Patch) := do
  let nodes := Host.children host parent
  if Tree.widths old ≠ nodes.length then
    throw (.outOfSync (Tree.widths old) nodes.length)
  let runs := startsFrom 0 old
  let partners := partnersOf old new
  let planned ← plan nodes runs partners
  let rest ← lift (leftOver nodes runs partners)
  return planned.below ++ (← lift (layout parent nodes (planned.without rest)))

mutual

/-- Plan for a new tree that continues an old one, whose run starts at an index. -/
def planMatched (host : H) (nodes : List HostId) (start : Nat) (old : Tree) : Tree → Lookup Plan
  | .text after =>
    match old with
    | .text before => do
      let node ← lift nodes[start]?
      return .keep ⟨start, node⟩ (if before = after then [] else [.update node (.text after)])
    | _ => lift (exchange nodes start old.width (.text after))
  | .element tag props children key =>
    match old with
    | .element oldTag oldProps oldChildren _ =>
      if oldTag = tag then do
        let node ← lift nodes[start]?
        let below ← layoutChildren host node oldChildren children fun nodes runs partners =>
          planSiblings host nodes runs partners children
        let updates := (oldProps.changesTo props).map (Patch.update node)
        return .keep ⟨start, node⟩ (updates ++ below)
      else lift (exchange nodes start 1 (.element tag props children key))
    | _ => lift (exchange nodes start old.width (.element tag props children key))
  | .fragment children key =>
    match old with
    | .fragment oldChildren _ => do
      let runs := startsFrom start oldChildren
      let partners := partnersOf oldChildren children
      let plan ← planSiblings host nodes runs partners children
      return plan.without (← lift (leftOver nodes runs partners))
    | _ => lift (exchange nodes start old.width (.fragment children key))

/-- Plan for new siblings, each with the index of the old one that it continues. -/
def planSiblings (host : H) (nodes : List HostId) (old : List (Tree × Nat))
    (partners : List (Option Nat)) : List Tree → Lookup Plan
  | [] => return .empty
  | child :: rest => do
    let first ← match partners.head?.join with
      | some index => do
        let (tree, start) ← lift old[index]?
        planMatched host nodes start tree child
      | none => pure (.create child)
    return first.append (← planSiblings host nodes old partners.tail rest)

end

/-- The patches after which a container shows a new tree instead of an old one. -/
def diff (policy : KeyPolicy) (host : H) (container : HostId) (old new : Option Tree) :
    Lookup (List Patch) :=
  match (checkTree policy new).defect with
  | some defect => throw defect
  | none => layoutChildren host container old.toList new.toList fun nodes runs partners =>
    planSiblings host nodes runs partners new.toList

@[simp] theorem lift_some (value : α) : lift (some value) = pure value :=
  rfl

/-- The run of some width that starts at an index. -/
def runAt (nodes : List HostId) (start width : Nat) : List Place :=
  ((places nodes).drop start).take width

variable {α β : Type} {nodes : List HostId} {start width : Nat}

theorem getElem?_places (nodes : List HostId) (index : Nat) :
    (places nodes)[index]? = nodes[index]?.map (Place.mk index) := by
  rw [places, List.getElem?_map, List.getElem?_zipIdx]
  cases nodes[index]? <;> simp

theorem length_runAt (inside : start + width ≤ nodes.length) :
    (runAt nodes start width).length = width := by
  have length : (places nodes).length = nodes.length := by simp [places]
  rw [runAt, List.length_take, List.length_drop, length]
  omega

theorem placesAt_eq (inside : start + width ≤ nodes.length) :
    placesAt nodes start width = some (runAt nodes start width) := by
  have found : ∀ index ∈ List.range' start width,
      nodes[index]?.map (Place.mk index) = some ⟨index, nodes.getD index default⟩ := by
    intro index member
    rw [List.mem_range'_1] at member
    rw [List.getD_eq_getElem?_getD, List.getElem?_eq_getElem (by omega)]
    rfl
  rw [placesAt, mapM_eq_some found]
  congr 1
  apply List.ext_getElem?
  intro offset
  rw [runAt, List.getElem?_take, List.getElem?_drop, getElem?_places, List.getElem?_map]
  split
  next less =>
    rw [List.getElem?_range' less, List.getElem?_eq_getElem (by omega)]
    simp [List.getD_eq_getElem?_getD, List.getElem?_eq_getElem (show start + offset < nodes.length by omega)]
  next beyond => rw [List.getElem?_eq_none (by simpa using beyond), Option.map_none]

namespace Reads

variable {plan first second : Plan} {run : List Place} {place : Place} {patches : List Patch}

theorem empty : Reads nodes .empty :=
  ⟨by simp [Plan.empty], by simp [Plan.empty]⟩

theorem create (tree : Tree) : Reads nodes (.create tree) :=
  ⟨by simp [Plan.create, Placement.place?], by simp [Plan.create]⟩

theorem keep (listed : place ∈ places nodes) (patches : List Patch) :
    Reads nodes (.keep place patches) :=
  ⟨by simpa [Plan.keep, Placement.place?] using listed, by simp [Plan.keep]⟩

theorem exchange (listed : ∀ place ∈ run, place ∈ places nodes) (tree : Tree) :
    Reads nodes (.exchange run tree) := by
  have create : Reads nodes ⟨[.create tree], run, []⟩ := ⟨by simp [Placement.place?], listed⟩
  unfold Plan.exchange
  split
  next place =>
    split
    next => exact ⟨by simpa [Placement.place?] using listed, by simp⟩
    next => exact create
  next => exact create

theorem append (reads : Reads nodes first) (next : Reads nodes second) :
    Reads nodes (first.append second) where
  placed place member := by
    rw [Plan.append, List.filterMap_append] at member
    exact (List.mem_append.mp member).elim (reads.placed place) (next.placed place)
  removed place member :=
    (List.mem_append.mp member).elim (reads.removed place) (next.removed place)

theorem without (reads : Reads nodes plan) (listed : ∀ place ∈ run, place ∈ places nodes) :
    Reads nodes (plan.without run) where
  placed := reads.placed
  removed place member := (List.mem_append.mp member).elim (reads.removed place) (listed place)

end Reads

theorem mem_places_of_mem_runAt {place : Place} (member : place ∈ runAt nodes start width) :
    place ∈ places nodes :=
  List.mem_of_mem_drop (List.mem_of_mem_take member)

theorem exists_runAt_one (inside : start + 1 ≤ nodes.length) :
    ∃ node, nodes[start]? = some node ∧ runAt nodes start 1 = [⟨start, node⟩] := by
  have found : nodes[start]? = some nodes[start] := List.getElem?_eq_getElem (by omega)
  refine ⟨_, found, ?_⟩
  rw [runAt, List.take_one, List.head?_drop, getElem?_places, found]
  rfl

theorem exchange_eq (inside : start + width ≤ nodes.length) (tree : Tree) :
    exchange nodes start width tree = some (.exchange (runAt nodes start width) tree) := by
  unfold exchange Plan.exchange
  split
  next single =>
    obtain ⟨rfl, wide⟩ := single
    obtain ⟨node, found, run⟩ := exists_runAt_one inside
    simp only [found, run, wide, if_true]
    rfl
  next other =>
    rw [placesAt_eq inside]
    split
    next place run =>
      have length := length_runAt inside
      rw [run, List.length_singleton] at length
      rw [if_neg fun wide => other ⟨length.symm, wide⟩, run]
      rfl
    next => rfl

/-- Old siblings with their runs, of which the starts are known. -/
def withRuns (nodes : List HostId) (old : List (Tree × Nat)) : List (Tree × List Place) :=
  old.map fun (tree, start) => (tree, runAt nodes start tree.width)

theorem zip_cutRuns (nodes : List HostId) (start : Nat) (old : List Tree) :
    old.zip (cutRuns (runAt nodes start (Tree.widths old)) old) = withRuns nodes (startsFrom start old) := by
  induction old generalizing start with
  | nil => rfl
  | cons tree rest ih =>
    have first : (runAt nodes start (Tree.widths (tree :: rest))).take tree.width =
        runAt nodes start tree.width := by
      rw [runAt, List.take_take, Tree.widths, Nat.min_eq_left (by omega)]
      rfl
    have others : (runAt nodes start (Tree.widths (tree :: rest))).drop tree.width =
        runAt nodes (start + tree.width) (Tree.widths rest) := by
      rw [runAt, List.drop_take, List.drop_drop, Tree.widths, Nat.add_sub_cancel_left]
      rfl
    rw [cutRuns, first, others, List.zip_cons_cons, ih]
    rfl

/-- Whether the runs of old siblings lie among the children. -/
def Fit (nodes : List HostId) (old : List (Tree × Nat)) : Prop :=
  ∀ entry ∈ old, entry.2 + entry.1.width ≤ nodes.length

theorem fit_startsFrom {old : List Tree} (inside : start + Tree.widths old ≤ nodes.length) :
    Fit nodes (startsFrom start old) := by
  induction old generalizing start with
  | nil => simp [Fit, startsFrom]
  | cons tree rest ih =>
    rw [Tree.widths] at inside
    intro entry member
    rcases List.mem_cons.mp member with rfl | later
    · show start + tree.width ≤ _
      omega
    · exact ih (by omega) entry later

theorem leftOver_eq {old : List (Tree × Nat)} (fit : Fit nodes old) {partners : List (Option Nat)}
    (known : ∀ index ∈ continued partners, index < old.length) :
    leftOver nodes old partners = some (Siblings.mk (withRuns nodes old) partners).leftOver := by
  have found : ∀ entry ∈ old.zipIdx.filter (fun (_, index) => !partners.contains (some index)),
      placesAt nodes entry.1.2 entry.1.1.width =
        some (runAt nodes entry.1.2 entry.1.1.width) := by
    intro entry member
    exact placesAt_eq (fit entry.1 (List.fst_mem_of_mem_zipIdx (List.mem_of_mem_filter member)))
  rw [leftOver, guard_true known, Option.bind_eq_bind, Option.bind_some, mapM_eq_some found]
  simp only [Siblings.leftOver, withRuns, List.zipIdx_map, List.filter_map, List.flatMap_map,
    List.contains_eq_mem, decide_not]
  rfl

theorem bind_eq_some {first : Lookup α} {result : Except ReconcileFailure α}
    (same : first = some result) {next : α → Lookup β} {make : α → Except ReconcileFailure β}
    (later : ∀ value, result = .ok value → next value = some (make value)) :
    first >>= next = some (result >>= make) := by
  subst same
  cases result with
  | error => rfl
  | ok value => exact later value rfl

section

variable {H : Type} [Host H] {host : H} {old new trees : List Tree} {plan : Plan} {parent : HostId}

theorem length_startsFrom (start : Nat) (old : List Tree) :
    (startsFrom start old).length = old.length := by
  induction old generalizing start with
  | nil => rfl
  | cons tree rest ih => rw [startsFrom, List.length_cons, List.length_cons, ih]

/-- Whether planning for new siblings looks up what the old ones hold, whatever they are. -/
def LooksUp (host : H) (trees : List Tree) : Prop :=
  ∀ (nodes : List HostId) (old : List (Tree × Nat)) (partners : List (Option Nat)), Fit nodes old →
    (∀ index ∈ continued partners, index < old.length) →
      planSiblings host nodes old partners trees =
          some (ReactiveTree.planSiblings host (withRuns nodes old) partners trees) ∧
        ∀ plan, ReactiveTree.planSiblings host (withRuns nodes old) partners trees = .ok plan →
          Reads nodes plan

/-- With the runs of the old siblings known, planning for new ones is as ever. -/
theorem LooksUp.siblings (looks : LooksUp host new)
    (inside : start + Tree.widths old ≤ nodes.length) :
    planSiblings host nodes (startsFrom start old) (partnersOf old new) new =
        some (ReactiveTree.planSiblings host
          (Siblings.of (runAt nodes start (Tree.widths old)) old new).old
          (Siblings.of (runAt nodes start (Tree.widths old)) old new).partners new) ∧
      leftOver nodes (startsFrom start old) (partnersOf old new) =
        some (Siblings.of (runAt nodes start (Tree.widths old)) old new).leftOver ∧
      ∀ plan, ReactiveTree.planSiblings host
          (Siblings.of (runAt nodes start (Tree.widths old)) old new).old
          (Siblings.of (runAt nodes start (Tree.widths old)) old new).partners new = .ok plan →
        Reads nodes
          (plan.without (Siblings.of (runAt nodes start (Tree.widths old)) old new).leftOver) := by
  have same : Siblings.of (runAt nodes start (Tree.widths old)) old new =
      ⟨withRuns nodes (startsFrom start old), partnersOf old new⟩ := by
    rw [Siblings.of, zip_cutRuns]
  have known : ∀ index ∈ continued (partnersOf old new), index < (startsFrom start old).length := by
    intro index member
    rw [length_startsFrom]
    exact lt_of_mem_continued member
  have fit := fit_startsFrom inside
  obtain ⟨planned, reads⟩ := looks nodes (startsFrom start old) (partnersOf old new) fit known
  rw [same]
  refine ⟨planned, leftOver_eq fit known, fun plan found => (reads plan found).without ?_⟩
  intro place member
  obtain ⟨⟨entry, index⟩, listed, inRun⟩ := List.mem_flatMap.mp member
  have own := List.fst_mem_of_mem_zipIdx (List.mem_of_mem_filter listed)
  obtain ⟨source, -, rfl⟩ := List.mem_map.mp own
  exact mem_places_of_mem_runAt inRun

theorem LooksUp.layoutChildren (looks : LooksUp host new) (parent : HostId) (old : List Tree) :
    layoutChildren host parent old new (fun nodes runs partners =>
        planSiblings host nodes runs partners new) =
      some (ReactiveTree.layoutChildren host parent old new fun siblings =>
        ReactiveTree.planSiblings host siblings.old siblings.partners new) := by
  unfold Lookup.layoutChildren ReactiveTree.layoutChildren
  by_cases width : Tree.widths old = (Host.children host parent).length
  · have inside : 0 + Tree.widths old ≤ (Host.children host parent).length := by omega
    have whole : runAt (Host.children host parent) 0 (Tree.widths old) =
        places (Host.children host parent) := by
      rw [runAt, List.drop_zero, width]
      exact List.take_of_length_le (by simp [places])
    obtain ⟨planned, rest, reads⟩ := looks.siblings inside
    rw [whole] at planned rest reads
    simp only [width, ne_eq, not_true_eq_false, if_false]
    apply bind_eq_some planned
    intro plan found
    rw [rest, lift_some, pure_bind, layout_eq parent (reads plan found)]
    rfl
  · simp only [width, ne_eq, not_false_eq_true, if_true]
    rfl

/-- What a replacement looks up is there. -/
theorem exchanged (inside : start + width ≤ nodes.length) (tree : Tree) :
    lift (exchange nodes start width tree) = some (.ok (.exchange (runAt nodes start width) tree)) ∧
      ∀ plan, Except.ok (ε := ReconcileFailure) (.exchange (runAt nodes start width) tree) = .ok plan →
        Reads nodes plan := by
  rw [exchange_eq inside]
  refine ⟨rfl, ?_⟩
  rintro _ ⟨⟩
  exact .exchange (fun _ => mem_places_of_mem_runAt) tree

mutual

/-- Every look-up while planning for a tree succeeds. -/
theorem planMatched_eq (host : H) : (tree : Tree) → ∀ (nodes : List HostId) (start : Nat) (old : Tree),
    start + old.width ≤ nodes.length →
      planMatched host nodes start old tree =
          some (ReactiveTree.planMatched host (runAt nodes start old.width) old tree) ∧
        ∀ plan, ReactiveTree.planMatched host (runAt nodes start old.width) old tree = .ok plan →
          Reads nodes plan
  | .text content => by
    intro nodes start old inside
    cases old with
    | text before =>
      obtain ⟨node, found, run⟩ := exists_runAt_one inside
      unfold planMatched ReactiveTree.planMatched
      simp only [Tree.width, run, found]
      refine ⟨rfl, ?_⟩
      rintro _ ⟨⟩
      exact .keep (mem_places.mpr found) _
    | element | fragment =>
      unfold planMatched ReactiveTree.planMatched
      exact exchanged inside _
  | .element tag props children key => by
    intro nodes start old inside
    cases old with
    | element oldTag oldProps oldChildren oldKey =>
      obtain ⟨node, found, run⟩ := exists_runAt_one inside
      unfold planMatched ReactiveTree.planMatched
      simp only [Tree.width, run, found]
      split
      next same =>
        rw [lift_some, pure_bind]
        refine ⟨bind_eq_some ((planSiblings_eq host children).layoutChildren node oldChildren)
          fun _ _ => rfl, fun plan planned => ?_⟩
        obtain ⟨below, -, last⟩ := exists_of_bind_eq_ok planned
        cases last
        exact .keep (mem_places.mpr found) _
      next other =>
        rw [← run]
        exact exchanged inside _
    | text | fragment =>
      unfold planMatched ReactiveTree.planMatched
      exact exchanged inside _
  | .fragment children key => by
    intro nodes start old inside
    cases old with
    | text | element =>
      unfold planMatched ReactiveTree.planMatched
      exact exchanged inside _
    | fragment oldChildren oldKey =>
      obtain ⟨planned, rest, reads⟩ := (planSiblings_eq host children).siblings inside
      unfold planMatched ReactiveTree.planMatched
      dsimp only
      rw [rest]
      refine ⟨bind_eq_some planned fun _ _ => rfl, fun plan found => ?_⟩
      obtain ⟨inner, made, last⟩ := exists_of_bind_eq_ok found
      cases last
      exact reads inner made

theorem planSiblings_eq (host : H) : (trees : List Tree) → LooksUp host trees
  | [] => by
    intro nodes old partners fit known
    unfold planSiblings ReactiveTree.planSiblings
    refine ⟨rfl, ?_⟩
    rintro _ ⟨⟩
    exact .empty
  | child :: rest => by
    intro nodes old partners fit known
    have later : ∀ index ∈ continued partners.tail, index < old.length := fun index member =>
      known index ((partners.tail_sublist.filterMap id).subset member)
    obtain ⟨others, readsOthers⟩ := planSiblings_eq host rest nodes old partners.tail fit later
    unfold planSiblings ReactiveTree.planSiblings
    cases partner : partners.head?.join with
    | none =>
      refine ⟨bind_eq_some rfl fun first _ => bind_eq_some others fun _ _ => rfl, ?_⟩
      intro plan found
      obtain ⟨_, ⟨⟩, found⟩ := exists_of_bind_eq_ok found
      obtain ⟨more, made, last⟩ := exists_of_bind_eq_ok found
      cases last
      exact (Reads.create child).append (readsOthers more made)
    | some index =>
      have member : index ∈ continued partners := by
        cases partners with
        | nil => cases partner
        | cons head tail =>
          cases partner
          exact List.mem_filterMap.mpr ⟨_, List.mem_cons_self, rfl⟩
      have inside := known index member
      obtain ⟨first, readsFirst⟩ := planMatched_eq host child nodes old[index].2 old[index].1
        (fit _ (List.getElem_mem inside))
      have source : old[index]? = some old[index] := List.getElem?_eq_getElem inside
      have shown : (withRuns nodes old)[index]? =
          some (old[index].1, runAt nodes old[index].2 old[index].1.width) := by
        rw [withRuns, List.getElem?_map, source]
        rfl
      simp only [source, shown, Option.bind_some, lift_some, pure_bind]
      refine ⟨bind_eq_some first fun _ _ => bind_eq_some others fun _ _ => rfl, ?_⟩
      intro plan found
      obtain ⟨here, madeHere, found⟩ := exists_of_bind_eq_ok found
      obtain ⟨more, made, last⟩ := exists_of_bind_eq_ok found
      cases last
      exact (readsFirst here madeHere).append (readsOthers more made)

end

/-- Every look-up of a diff succeeds, whatever the host, the container and the old tree are. -/
theorem diff_eq (policy : KeyPolicy) (host : H) (container : HostId) (old new : Option Tree) :
    diff policy host container old new = some (ReactiveTree.diff policy host container old new) := by
  unfold diff ReactiveTree.diff
  cases (checkTree policy new).defect with
  | some defect => rfl
  | none => exact (planSiblings_eq host new.toList).layoutChildren container old.toList

end

end Lookup

end ReactiveTree
