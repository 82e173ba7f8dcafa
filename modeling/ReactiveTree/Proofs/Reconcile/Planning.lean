import ReactiveTree.Proofs.Reconcile.Serving
import ReactiveTree.Proofs.Reconcile.Siblings

/-! # Planning for a tree

The plan for new siblings covers the children that the old ones stand for, and serves the new ones.
Both hold by recursion over the new trees: a kept element has a plan of its own for its children, and
the plan of a fragment is part of that of its siblings.
-/

namespace ReactiveTree

open Document Patch

variable {before document : Document} {node id : HostId} {run : List Place} {plan : Plan}
  {place : Place} {patches : List Patch} {trees old : List Tree} {origins : List (Option Part)}

/-- What lies below the children of a node. -/
def Document.Beneath (document : Document) (node id : HostId) : Prop :=
  ∃ child ∈ document.children node, document.Below child id

theorem Document.Beneath.below (beneath : document.Beneath node id) : document.Below node id := by
  obtain ⟨child, member, path⟩ := beneath
  exact .head member path

namespace Plan.Covers

theorem mem_of_keep (covers : plan.Covers run) (kept : .keep place ∈ plan.placements) :
    place ∈ run := by
  refine covers.mem_iff.mp (List.mem_append_left _ ?_)
  exact List.mem_filterMap.mpr ⟨_, kept, rfl⟩

theorem mem_of_leaves (covers : plan.Covers run) (leaves : plan.Leaves id) :
    ∃ place ∈ run, place.node = id := by
  rcases leaves with ⟨place, gone, same⟩ | ⟨place, tree, swapped, same⟩
  · exact ⟨place, covers.mem_iff.mp (List.mem_append_right _ gone), same⟩
  · refine ⟨place, covers.mem_iff.mp (List.mem_append_left _ ?_), same⟩
    exact List.mem_filterMap.mpr ⟨_, swapped, rfl⟩

/-- No node is both kept and taken away. -/
theorem ne_of_leaves (covers : plan.Covers run) (distinct : (run.map Place.node).Nodup)
    (kept : .keep place ∈ plan.placements) (leaves : plan.Leaves id) : place.node ≠ id := by
  rw [← (covers.map Place.node).nodup_iff, List.map_append, List.nodup_append] at distinct
  obtain ⟨placed, -, apart⟩ := distinct
  rcases leaves with ⟨other, gone, rfl⟩ | ⟨other, tree, swapped, rfl⟩
  · refine apart _ (List.mem_map_of_mem ?_) _ (List.mem_map_of_mem gone)
    exact List.mem_filterMap.mpr ⟨_, kept, rfl⟩
  · rw [List.Nodup, List.pairwise_map, List.pairwise_filterMap] at placed
    have symmetric : Std.Symm fun first second : Placement => ∀ left, first.place? = some left →
        ∀ right, second.place? = some right → left.node ≠ right.node :=
      ⟨fun _ _ apart left isLeft right isRight => (apart right isRight left isLeft).symm⟩
    exact placed.forall kept swapped (by simp) place rfl other rfl

end Plan.Covers

/-- Patches that make the children of a node show trees, with the nodes of the parts that these
continue, in each later document that agrees with the one planned for on what lies beneath the
node. -/
structure Reworks (before : Document) (node : HostId) (patches : List Patch)
    (origins : List (Option Part)) (trees : List Tree) : Prop where
  parents : ∀ patch ∈ patches, ∀ parent, patch.parent? = some parent → before.Below node parent
  ordered : patches.Pairwise MayPrecede
  run : ∀ {document}, document.Linked → before.nodes.length ≤ document.nodes.length →
    document.contains node → document.children node = before.children node →
    Agree (before.Beneath node) before document →
    ExactAll document patches ∧
      ChangesWithin (before.Below node) document (carryOutAll document patches) ∧
      (carryOutAll document patches).content? node = document.content? node ∧
      (carryOutAll document patches).ShowsAll ((carryOutAll document patches).children node) trees ∧
      InheritsAll before (carryOutAll document patches)
        ((carryOutAll document patches).children node) origins trees

/-- First the kept nodes are brought up to date, then the children are laid out. -/
theorem Plan.Serves.reworks (linked : before.Linked) (known : before.contains node)
    (shown : before.ShowsAll (before.children node) old)
    (covers : plan.Covers (places (before.children node)))
    (serves : plan.Serves before origins trees) :
    Reworks before node (plan.below ++ plan.layout node) origins trees := by
  have grounded := shown.grounded_parent
  have childless : node ∉ before.children node := fun member => grounded node member .refl
  have member : ∀ {place}, place ∈ places (before.children node) →
      place.node ∈ before.children node := by
    intro place listed
    exact List.mem_of_getElem? (mem_places.mp listed)
  have within : ∀ {id}, plan.Region before id → before.Beneath node id := by
    rintro id ⟨place, kept, path⟩
    exact ⟨place.node, member (covers.mem_of_keep kept), path⟩
  have leaving : ∀ {id}, plan.Leaves id → id ∈ before.children node := by
    intro id leaves
    obtain ⟨place, listed, rfl⟩ := covers.mem_of_leaves leaves
    exact member listed
  -- What is kept has nothing to do with the parent or with the children that leave.
  have apart : ∀ {id}, plan.Region before id → ¬ (id = node ∨ plan.Leaves id) := by
    rintro id ⟨place, kept, path⟩ (rfl | leaves)
    · exact grounded _ (member (covers.mem_of_keep kept)) path
    · have other : place.node ≠ id := covers.ne_of_leaves
        (by rw [map_node_places]; exact linked.distinct node) kept leaves
      have here := member (covers.mem_of_keep kept)
      exact linked.not_below (shown.grounded here) here (leaving leaves) other path
  obtain ⟨-, layoutOrdered, layoutParents, -⟩ := layout_spec linked known childless covers
  refine ⟨?_, ?_, ?_⟩
  · intro patch listed parent here
    rcases List.mem_append.mp listed with early | late
    · exact (within (serves.parents patch early parent here)).below
    · rw [layoutParents patch late] at here
      cases here
      exact .refl
  · refine List.pairwise_append.mpr ⟨serves.ordered, layoutOrdered, fun first early second late => ?_⟩
    refine MayPrecede.of_apart fun parent here there => ?_
    rw [layoutParents second late] at there
    cases there
    exact apart (serves.parents first early node here) (.inl rfl)
  · intro document linkedNow grows knownNow sameChildren agree
    have agreeKept : Agree (plan.Region before) before document := agree.mono within
    have present : ∀ {id}, plan.Region before id → document.contains id := by
      rintro id ⟨place, kept, path⟩
      have old := linked.contains_child (member (covers.mem_of_keep kept))
      exact agreeKept.contains ⟨place, kept, path⟩ (linked.contains_of_below old path)
    obtain ⟨exact, change, fits⟩ := serves.run linkedNow grows agreeKept
    have sameNode := change.outside knownNow fun inside => apart inside (.inl rfl)
    have children : (carryOutAll document plan.below).children node = before.children node :=
      (children_of_node? sameNode).trans sameChildren
    obtain ⟨exactLayout, -, -, step, filled⟩ := layout_spec change.linked
      (change.contains knownNow) (by rwa [children]) (by rwa [children])
    have leavingNow : ∀ {id}, id = node ∨ plan.Leaves id → document.contains id := by
      rintro id (rfl | leaves)
      · exact knownNow
      · have attached := leaving leaves
        rw [← sameChildren] at attached
        exact linkedNow.contains_child attached
    -- What was made below the kept nodes is not touched by the layout.
    have fitsStill := fits.of_agree
      (change.closed linkedNow (agreeKept.closed (plan.region_closed before)))
      (step.change.agree_apart apart leavingNow) fun {place} kept => by
        have inside : plan.Region before place.node := ⟨place, kept, .refl⟩
        exact ⟨.inl inside, change.contains (present inside)⟩
    rw [carryOutAll_append, exactAll_append]
    refine ⟨⟨exact, exactLayout⟩, ?_, ?_, fitsStill.showsAll filled, ?_⟩
    · refine (change.mono fun _ inside => (within inside).below).trans
        (step.change.mono fun _ inside => ?_)
      rcases inside with rfl | leaves
      · exact .refl
      · exact .single (leaving leaves)
    · rw [step.content, content?_of_node? sameNode]
    · refine fitsStill.inheritsAll filled (step.change.closed_new change.linked)
        (fun new known => new.1 ?_) fun fresh known => ⟨fresh, known⟩
      rw [contains_iff_lt] at known ⊢
      have growing := change.grows
      omega

/-- A plan that keeps nothing has nothing to do below. -/
theorem Plan.Serves.of_nothing_kept (nothing : plan.below = [])
    (fits : ∀ document, Fits before document plan.placements origins trees) :
    plan.Serves before origins trees where
  parents := by simp [nothing]
  ordered := by simp [nothing]
  run := by
    intro document linkedNow _ _
    rw [nothing]
    exact ⟨trivial, .refl linkedNow, fits _⟩

theorem covers_create (tree : Tree) : (Plan.create tree).Covers [] :=
  .nil

theorem serves_create (tree : Tree) : (Plan.create tree).Serves before [none] [tree] :=
  .of_nothing_kept rfl fun _ => .create .nil

theorem covers_exchange (run : List Place) (tree : Tree) : (Plan.exchange run tree).Covers run := by
  unfold Plan.exchange
  split
  · split <;> exact .refl _
  · exact .refl _

theorem serves_exchange (run : List Place) (tree : Tree) :
    (Plan.exchange run tree).Serves before [none] [tree] := by
  unfold Plan.exchange
  split
  · split
    · exact .of_nothing_kept rfl fun _ => .swap .nil
    · exact .of_nothing_kept rfl fun _ => .create .nil
  · exact .of_nothing_kept rfl fun _ => .create .nil

theorem covers_keep (place : Place) (patches : List Patch) :
    (Plan.keep place patches).Covers [place] :=
  .refl _

private theorem region_keep :
    (Plan.keep place patches).Region before id ↔ before.Below place.node id := by
  simp [Plan.Region, Plan.keep]

theorem serves_keep {tree : Tree} {origin : Option Part}
    (parents : ∀ patch ∈ patches, ∀ parent, patch.parent? = some parent →
      before.Below place.node parent)
    (ordered : patches.Pairwise MayPrecede)
    (run : ∀ {document}, document.Linked → before.nodes.length ≤ document.nodes.length →
      Agree (before.Below place.node) before document →
      ExactAll document patches ∧
        ChangesWithin (before.Below place.node) document (carryOutAll document patches) ∧
        (carryOutAll document patches).Shows [place.node] tree ∧
        Inherits before (carryOutAll document patches) [place.node] origin tree) :
    (Plan.keep place patches).Serves before [origin] [tree] where
  parents patch member parent here := region_keep.mpr (parents patch member parent here)
  ordered := ordered
  run := by
    intro document linkedNow grows agree
    obtain ⟨exact, change, shown, inherits⟩ := run linkedNow grows (agree.mono region_keep.mpr)
    exact ⟨exact, change.mono fun _ inside => region_keep.mpr inside, .keep shown inherits .nil⟩

/-- A text is kept, and gets its new content if that differs. -/
theorem serves_text {content after : String}
    (shown : before.Shows [place.node] (.text content)) :
    (Plan.keep place (if content = after then [] else [.update place.node (.text after)])).Serves
      before [some ⟨.text content, [place.node]⟩] [.text after] := by
  obtain ⟨only, same, found, childless⟩ := shown
  cases List.singleton_inj.mp same
  have known : ∀ {document}, Agree (before.Below place.node) before document →
      document.content? place.node = some (.text content) ∧
        document.children place.node = [] := by
    intro document agree
    have node : document.node? place.node = before.node? place.node := agree .refl
    exact ⟨(content?_of_node? node).trans found, (children_of_node? node).trans childless⟩
  by_cases equal : content = after
  · subst equal
    rw [if_pos rfl]
    refine serves_keep (by simp) .nil fun linkedNow _ agree => ⟨trivial, .refl linkedNow, ?_, rfl⟩
    exact ⟨_, rfl, (known agree).1, (known agree).2⟩
  · rw [if_neg equal]
    refine serves_keep (by simp [Patch.parent?]) (List.pairwise_singleton ..)
      fun {document} linkedNow _ agree => ?_
    obtain ⟨foundNow, childlessNow⟩ := known agree
    obtain ⟨fits, rewritten⟩ := carryOut_setText after linkedNow foundNow
    refine ⟨⟨⟨Audit.carryOut_opened fits, trivial⟩, trivial⟩, ?_, ?_, rfl⟩
    · exact rewritten.changesWithin.mono fun _ here => here ▸ .refl
    · refine ⟨_, rfl, rewritten.content? (contains_of_content? foundNow), ?_⟩
      exact (rewritten.children _).trans childlessNow

/-- An element is kept: first its props change, then its children. -/
theorem serves_element {tag : String} {oldProps props : Props} {oldChildren children : List Tree}
    {oldKey key : Option Key}
    (shown : before.Shows [place.node] (.element tag oldProps oldChildren oldKey))
    (reworks : Reworks before place.node patches
      (originsWithin before (some ⟨.element tag oldProps oldChildren oldKey, [place.node]⟩) children)
      children) :
    (Plan.keep place ((oldProps.changesTo props).map (Patch.update place.node) ++ patches)).Serves
      before [some ⟨.element tag oldProps oldChildren oldKey, [place.node]⟩]
      [.element tag props children key] := by
  have grounded : before.Grounded place.node :=
    (showsAll_singleton.mpr shown).grounded (List.mem_singleton_self _)
  obtain ⟨only, attributes, listeners, same, found, looks, -⟩ := shown
  cases List.singleton_inj.mp same
  have noParent : ∀ patch ∈ (oldProps.changesTo props).map (Patch.update place.node),
      patch.parent? = none := by
    intro patch member
    obtain ⟨change, -, rfl⟩ := List.mem_map.mp member
    rfl
  refine serves_keep ?_ ?_ fun {document} linkedNow grows agree => ?_
  · intro patch member parent here
    rcases List.mem_append.mp member with early | late
    · rw [noParent patch early] at here
      cases here
    · exact reworks.parents patch late parent here
  · refine List.pairwise_append.mpr ⟨?_, reworks.ordered, fun first early second _ => ?_⟩
    · refine List.pairwise_of_forall_mem_list fun first early second _ => ?_
      exact MayPrecede.of_apart fun parent here => by simp [noParent first early] at here
    · exact MayPrecede.of_apart fun parent here => by simp [noParent first early] at here
  · have node : document.node? place.node = before.node? place.node := agree .refl
    obtain ⟨exact, redressed⟩ := changesTo_spec linkedNow ((content?_of_node? node).trans found) looks
      props
    obtain ⟨latest, latestListeners, rewritten, latestLooks⟩ := redressed
    have knownNow : document.contains place.node :=
      contains_of_content? ((content?_of_node? node).trans found)
    have unchanged : ∀ {id}, before.Beneath place.node id → id ≠ place.node := by
      rintro id ⟨child, member, path⟩ rfl
      exact grounded child member path
    have agreeBeneath : Agree (before.Beneath place.node) before (carryOutAll document
        ((oldProps.changesTo props).map (Patch.update place.node))) := by
      intro id beneath
      rw [rewritten.node?, agree beneath.below]
      simp [unchanged beneath]
    obtain ⟨exactRest, change, content, shown, inherits⟩ := reworks.run rewritten.linked
      (Nat.le_trans grows rewritten.changesWithin.grows)
      (rewritten.changesWithin.contains knownNow)
      ((rewritten.children _).trans (children_of_node? node)) agreeBeneath
    rw [carryOutAll_append, exactAll_append]
    refine ⟨⟨exact, exactRest⟩, ?_, ?_, rfl, ?_⟩
    · exact (rewritten.changesWithin.mono fun _ here => here ▸ .refl).trans change
    · refine ⟨_, latest, latestListeners, rfl, ?_, latestLooks, shown⟩
      rw [content]
      exact rewritten.content? knownNow
    · rwa [List.flatMap_singleton]

/-- A fragment is served by what serves its children. -/
theorem Plan.Serves.fragment {children : List Tree} {origin : Option Part}
    (serves : plan.Serves before (originsWithin before origin children) children)
    (key : Option Key) : plan.Serves before [origin] [.fragment children key] where
  parents := serves.parents
  ordered := serves.ordered
  run := by
    intro document linkedNow grows agree
    obtain ⟨exact, change, fits⟩ := serves.run linkedNow grows agree
    exact ⟨exact, change, .fragment (by rwa [List.append_nil, List.append_nil])⟩

theorem Plan.Covers.append {first second : Plan} {left right : List Place}
    (covers : first.Covers left) (next : second.Covers right) :
    (first.append second).Covers (left ++ right) := by
  unfold Plan.Covers Plan.append at *
  rw [List.filterMap_append]
  refine List.Perm.trans ?_ (List.Perm.append covers next)
  rw [List.append_assoc, List.append_assoc]
  refine List.Perm.append_left _ ?_
  rw [← List.append_assoc, ← List.append_assoc]
  exact List.perm_append_comm.append_right _

/-- Runs of old siblings under one parent, each showing its tree. -/
def RunsShow (before : Document) (parent : HostId) (entries : List (Tree × List Place)) : Prop :=
  ∀ entry ∈ entries, (∀ place ∈ entry.2, place.node ∈ before.children parent) ∧
    before.Shows (entry.2.map Place.node) entry.1

theorem RunsShow.of_mem {parent : HostId} {entries : List (Tree × List Place)}
    (runs : RunsShow before parent entries) {entry : Tree × List Place} (member : entry ∈ entries)
    (listed : place ∈ entry.2) :
    place.node ∈ before.children parent ∧ before.Grounded place.node := by
  obtain ⟨inside, shown⟩ := runs entry member
  exact ⟨inside place listed,
    (showsAll_singleton.mpr shown).grounded (List.mem_map_of_mem listed)⟩

theorem RunsShow.of_mem_chosen {parent : HostId} {entries : List (Tree × List Place)}
    {partners : List (Option Nat)} (runs : RunsShow before parent entries)
    (listed : place ∈ (Siblings.chosen entries partners).flatMap Prod.snd) :
    place.node ∈ before.children parent ∧ before.Grounded place.node := by
  obtain ⟨entry, chosen, inside⟩ := List.mem_flatMap.mp listed
  obtain ⟨partner, -, found⟩ := List.mem_filterMap.mp chosen
  obtain ⟨index, -, here⟩ := Option.bind_eq_some_iff.mp found
  exact runs.of_mem (List.mem_of_getElem? here) inside

/-- Plans whose runs are siblings and have no node in common serve both lists of trees. -/
theorem Plan.Serves.append_of_covers {first second : Plan} {left right : List Place}
    {early late : List Tree} {earlyOrigins lateOrigins : List (Option Part)}
    (linked : before.Linked) (parent : HostId)
    (covers : first.Covers left) (coversNext : second.Covers right)
    (serves : first.Serves before earlyOrigins early)
    (next : second.Serves before lateOrigins late)
    (siblings : ∀ place ∈ left ++ right,
      place.node ∈ before.children parent ∧ before.Grounded place.node)
    (distinct : ((left ++ right).map Place.node).Nodup) :
    (first.append second).Serves before (earlyOrigins ++ lateOrigins) (early ++ late) := by
  rw [List.map_append, List.nodup_append] at distinct
  refine serves.append linked ?_ ?_ next
  · rintro plan place which kept
    refine linked.contains_child (siblings place ?_).1
    rcases which with rfl | rfl
    · exact List.mem_append_left _ (covers.mem_of_keep kept)
    · exact List.mem_append_right _ (coversNext.mem_of_keep kept)
  · rintro id ⟨place, kept, path⟩ ⟨other, keptOther, pathOther⟩
    have inLeft := covers.mem_of_keep kept
    have inRight := coversNext.mem_of_keep keptOther
    obtain ⟨member, grounded⟩ := siblings place (List.mem_append_left _ inLeft)
    obtain ⟨member', grounded'⟩ := siblings other (List.mem_append_right _ inRight)
    have apart := distinct.2.2 _ (List.mem_map_of_mem inLeft) _ (List.mem_map_of_mem inRight)
    exact linked.disjoint_below grounded grounded' member member' apart path pathOther

/-- Whether new siblings can be planned for, whatever old ones they continue. -/
def CanPlan (before : Document) (new : List Tree) : Prop :=
  ∀ (old : List (Tree × List Place)) (partners : List (Option Nat)) (parent : HostId),
    partners.length = new.length → RunsShow before parent old →
    (((Siblings.chosen old partners).flatMap Prod.snd).map Place.node).Nodup →
    ∃ plan, planSiblings before old partners new = .ok plan ∧
      plan.Covers ((Siblings.chosen old partners).flatMap Prod.snd) ∧
      plan.Serves before (originsAmong (fun index => old[index]?.map partOf) partners new) new

/-- A plan for matched siblings, less what is left over, covers all children. -/
theorem CanPlan.siblings {new : List Tree} {parent : HostId} {part : Part}
    (canPlan : CanPlan before new) (within : before.nodesWithin part = run.map Place.node)
    (inside : ∀ place ∈ run, place.node ∈ before.children parent)
    (distinct : (run.map Place.node).Nodup) (shown : before.ShowsAll (run.map Place.node) old)
    (children : part.tree.children = old) :
    ∃ plan, planSiblings before (Siblings.of run old new).old (Siblings.of run old new).partners
        new = .ok plan ∧
      (plan.without (Siblings.of run old new).leftOver).Covers run ∧
      (plan.without (Siblings.of run old new).leftOver).Serves before
        (originsWithin before (some part) new) new := by
  subst children
  have enough : run.length = Tree.widths part.tree.children := by
    have length := shown.length_eq
    rwa [List.length_map] at length
  have whole := Siblings.chosen_perm new enough
  have length : (partnersOf part.tree.children new).length = new.length := by simp [partnersOf]
  have runs : RunsShow before parent (Siblings.of run part.tree.children new).old := by
    intro entry member
    refine ⟨fun place listed => inside place ?_, shows_of_mem_cutRuns shown entry member⟩
    rw [← flatMap_cutRuns enough]
    exact List.mem_flatMap.mpr ⟨entry, member, listed⟩
  have apart := ((whole.map Place.node).nodup_iff.mpr distinct)
  rw [List.map_append, List.nodup_append] at apart
  obtain ⟨plan, planned, covers, serves⟩ := canPlan _ _ parent length runs apart.1
  simp only [child?_of_run before new within] at serves
  refine ⟨plan, planned, ?_, serves.parents, serves.ordered, serves.run⟩
  unfold Plan.Covers Plan.without
  rw [← List.append_assoc]
  exact (covers.append_right _).trans whole

/-- The children of a node are planned for and laid out. -/
theorem CanPlan.layoutChildren {new : List Tree} {part : Part} (canPlan : CanPlan before new)
    (linked : before.Linked) (known : before.contains node)
    (within : before.nodesWithin part = before.children node)
    (shown : before.ShowsAll (before.children node) old) (children : part.tree.children = old) :
    ∃ patches, layoutChildren before node old new (fun siblings =>
        planSiblings before siblings.old siblings.partners new) = .ok patches ∧
      Reworks before node patches (originsWithin before (some part) new) new := by
  have nodes := map_node_places (before.children node)
  have inside : ∀ place ∈ places (before.children node), place.node ∈ before.children node :=
    fun place member => List.mem_of_getElem? (mem_places.mp member)
  obtain ⟨plan, planned, covers, serves⟩ := canPlan.siblings (within.trans nodes.symm) inside
    (by rw [nodes]; exact linked.distinct node) (by rwa [nodes]) children
  refine ⟨_, ?_, serves.reworks linked known shown covers⟩
  have width : Tree.widths old = (Host.children before node).length := shown.length_eq.symm
  have planned : planSiblings before
      (Siblings.of (places (Host.children before node)) old new).old
      (Siblings.of (places (Host.children before node)) old new).partners new = .ok plan := planned
  unfold ReactiveTree.layoutChildren
  simp only [width, ne_eq, not_true_eq_false, if_false, planned]
  rfl

mutual

/-- A plan for a new tree covers the run of the old one and serves the new one. -/
theorem planMatched_spec (linked : before.Linked) : (tree : Tree) →
    ∀ (run : List Place) (old : Tree) (parent : HostId),
      (∀ place ∈ run, place.node ∈ before.children parent) → (run.map Place.node).Nodup →
      before.Shows (run.map Place.node) old →
      ∃ plan, planMatched before run old tree = .ok plan ∧ plan.Covers run ∧
        plan.Serves before [(partOf (old, run)).for? tree] [tree]
  | .text after => by
    intro run old parent inside distinct shown
    cases old with
    | text content =>
      obtain ⟨node, single, found⟩ := id shown
      obtain ⟨place, rfl, rfl⟩ := List.map_eq_singleton_iff.mp single
      exact ⟨_, rfl, covers_keep place _, serves_text shown⟩
    | element => exact ⟨_, rfl, covers_exchange run _, serves_exchange run _⟩
    | fragment => exact ⟨_, rfl, covers_exchange run _, serves_exchange run _⟩
  | .element tag props children key => by
    intro run old parent inside distinct shown
    cases old with
    | text => exact ⟨_, rfl, covers_exchange run _, serves_exchange run _⟩
    | element oldTag oldProps oldChildren oldKey =>
      obtain ⟨node, attributes, listeners, single, found, looks, below⟩ := id shown
      obtain ⟨place, rfl, rfl⟩ := List.map_eq_singleton_iff.mp single
      by_cases same : oldTag = tag
      · subst same
        have within : before.nodesWithin ⟨.element oldTag oldProps oldChildren oldKey, [place.node]⟩ =
            before.children place.node := List.flatMap_singleton ..
        obtain ⟨patches, planned, reworks⟩ := CanPlan.layoutChildren
          (planSiblings_spec linked children) linked (contains_of_content? found) within below rfl
        have continues : (partOf (.element oldTag oldProps oldChildren oldKey, [place])).for?
            (.element oldTag props children key) =
              some ⟨.element oldTag oldProps oldChildren oldKey, [place.node]⟩ := by
          simp [Part.for?, partOf, Tree.sameKind]
        rw [continues]
        refine ⟨_, ?_, covers_keep place _, serves_element shown reworks⟩
        simp only [planMatched, planned, if_true]
        rfl
      · have continues : (partOf (.element oldTag oldProps oldChildren oldKey, [place])).for?
            (.element tag props children key) = none := by
          simp [Part.for?, partOf, Tree.sameKind, same]
        rw [continues]
        refine ⟨_, ?_, covers_exchange [place] _, serves_exchange [place] _⟩
        simp only [planMatched, same, if_false]
    | fragment => exact ⟨_, rfl, covers_exchange run _, serves_exchange run _⟩
  | .fragment children key => by
    intro run old parent inside distinct shown
    cases old with
    | text => exact ⟨_, rfl, covers_exchange run _, serves_exchange run _⟩
    | element => exact ⟨_, rfl, covers_exchange run _, serves_exchange run _⟩
    | fragment oldChildren oldKey =>
      have within : before.nodesWithin (partOf (.fragment oldChildren oldKey, run)) =
          run.map Place.node := rfl
      obtain ⟨plan, planned, covers, serves⟩ :=
        CanPlan.siblings (planSiblings_spec linked children) within inside distinct shown rfl
      refine ⟨_, ?_, covers, serves.fragment key⟩
      simp only [planMatched, planned]
      rfl

/-- Plans for new siblings together cover the runs that they continue. -/
theorem planSiblings_spec (linked : before.Linked) : (trees : List Tree) → CanPlan before trees
  | [] => by
    intro old partners parent length runs distinct
    cases partners with
    | cons => cases length
    | nil => exact ⟨.empty, rfl, .nil, .of_nothing_kept rfl fun _ => .nil⟩
  | child :: rest => by
    intro old partners parent length runs distinct
    cases partners with
    | nil => cases length
    | cons partner others =>
      have length : others.length = rest.length := by simpa using length
      have later := planSiblings_spec linked rest old others parent length runs
      have chosen := Siblings.chosen_cons old partner others
      unfold planSiblings
      simp only [List.head?_cons, Option.join_some, List.tail_cons]
      have origins : originsAmong (fun index => old[index]?.map partOf) (partner :: others)
          (child :: rest) = (((partner.bind fun index => old[index]?).map partOf).bind (·.for? child))
            :: originsAmong (fun index => old[index]?.map partOf) others rest := by
        rw [Option.map_bind]
        rfl
      rw [origins]
      cases matched : partner.bind fun index => old[index]? with
      | none =>
        rw [chosen, matched] at distinct ⊢
        obtain ⟨plan, planned, covers, serves⟩ := later distinct
        refine ⟨(Plan.create child).append plan, by simp only [planned]; rfl,
          (covers_create child).append covers, ?_⟩
        exact (serves_create child).append_of_covers linked parent (covers_create child) covers serves
          (fun place listed => runs.of_mem_chosen listed) distinct
      | some entry =>
        obtain ⟨tree, run⟩ := entry
        have member : (tree, run) ∈ old := by
          obtain ⟨index, -, here⟩ := Option.bind_eq_some_iff.mp matched
          exact List.mem_of_getElem? here
        rw [chosen, matched] at distinct ⊢
        simp only [Option.toList_some, List.cons_append, List.nil_append, List.flatMap_cons]
          at distinct ⊢
        have parts := distinct
        rw [List.map_append, List.nodup_append] at parts
        obtain ⟨inside, shown⟩ := runs (tree, run) member
        obtain ⟨first, plannedFirst, coversFirst, servesFirst⟩ :=
          planMatched_spec linked child run tree parent inside parts.1 shown
        obtain ⟨plan, planned, covers, serves⟩ := later parts.2.1
        refine ⟨first.append plan, by simp only [plannedFirst, planned]; rfl,
          coversFirst.append covers, ?_⟩
        refine servesFirst.append_of_covers linked parent coversFirst covers serves
          (fun place listed => ?_) distinct
        rcases List.mem_append.mp listed with early | late
        · exact runs.of_mem member early
        · exact runs.of_mem_chosen late

end

end ReactiveTree
