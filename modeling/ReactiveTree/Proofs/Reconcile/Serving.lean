import ReactiveTree.Proofs.Reconcile.Inheriting
import ReactiveTree.Proofs.Reconcile.Layout

/-! # Plans that serve trees

A plan serves trees if its placements stand for them one after the other, and its patches below the
kept nodes make each kept node show its tree, with the nodes of the part that the tree continues. The
patches are to work in every later document that agrees with the one planned for on what lies below
the kept nodes, since other patches come before them.
-/

namespace ReactiveTree

open Document Patch

/-- Whether placements stand for trees, with kept nodes that show theirs. What is made anew must not
continue anything. -/
inductive Fits (before document : Document) :
    List Placement → List (Option Part) → List Tree → Prop
  | nil : Fits before document [] [] []
  | keep {place : Place} {origin : Option Part} {tree : Tree} {placements : List Placement}
      {origins : List (Option Part)} {trees : List Tree}
      (shown : document.Shows [place.node] tree)
      (inherits : Inherits before document [place.node] origin tree)
      (later : Fits before document placements origins trees) :
      Fits before document (.keep place :: placements) (origin :: origins) (tree :: trees)
  | create {tree : Tree} {placements : List Placement} {origins : List (Option Part)}
      {trees : List Tree} (later : Fits before document placements origins trees) :
      Fits before document (.create tree :: placements) (none :: origins) (tree :: trees)
  | swap {place : Place} {tree : Tree} {placements : List Placement}
      {origins : List (Option Part)} {trees : List Tree}
      (later : Fits before document placements origins trees) :
      Fits before document (.swap place tree :: placements) (none :: origins) (tree :: trees)
  /-- A fragment has the placements of its children. -/
  | fragment {origin : Option Part} {children trees : List Tree} {key : Option Key}
      {placements : List Placement} {origins : List (Option Part)}
      (inside : Fits before document placements (originsWithin before origin children ++ origins)
        (children ++ trees)) :
      Fits before document placements (origin :: origins) (.fragment children key :: trees)

variable {before document changed start : Document} {placements : List Placement}
  {origins : List (Option Part)} {trees : List Tree} {nodes : List HostId} {id parent : HostId}
  {place : Place}

namespace Fits

theorem append {first second : List Placement} {early late : List Tree}
    {earlyOrigins lateOrigins : List (Option Part)}
    (fits : Fits before document first earlyOrigins early)
    (next : Fits before document second lateOrigins late) :
    Fits before document (first ++ second) (earlyOrigins ++ lateOrigins) (early ++ late) := by
  induction fits with
  | nil => exact next
  | keep shown inherits _ ih => exact .keep shown inherits ih
  | create _ ih => exact .create ih
  | swap _ ih => exact .swap ih
  | fragment _ ih =>
    rw [List.append_assoc, List.append_assoc] at ih
    exact .fragment ih

/-- Placements go on to fit while nothing changes at the kept nodes and below. -/
theorem of_agree (fits : Fits before document placements origins trees) {region : HostId → Prop}
    (closed : document.Closed region) (agree : Agree region document changed)
    (inside : ∀ {place}, .keep place ∈ placements → region place.node) :
    Fits before changed placements origins trees := by
  induction fits with
  | nil => exact .nil
  | @keep place _ _ _ _ _ shown inherits _ ih =>
    have here : ∀ node ∈ [place.node], region node := by
      simpa using inside (List.mem_cons_self ..)
    refine .keep ?_ (inherits.of_agree closed agree here)
      (ih fun member => inside (List.mem_cons_of_mem _ member))
    exact showsAll_singleton.mp ((showsAll_singleton.mpr shown).of_agree closed agree here)
  | create _ ih => exact .create (ih fun member => inside (List.mem_cons_of_mem _ member))
  | swap _ ih => exact .swap (ih fun member => inside (List.mem_cons_of_mem _ member))
  | fragment _ ih => exact .fragment (ih inside)

/-- Nodes that are what the placements call for show the trees. -/
theorem showsAll (fits : Fits before document placements origins trees)
    (filled : Filled start document placements nodes) : document.ShowsAll nodes trees := by
  induction fits generalizing nodes with
  | nil =>
    cases filled
    rfl
  | keep shown _ _ ih =>
    cases filled with
    | keep later => exact ⟨_, _, rfl, shown, ih later⟩
  | create _ ih =>
    cases filled with
    | create grown later => exact ⟨_, _, rfl, grown.shows, ih later⟩
  | swap _ ih =>
    cases filled with
    | swap grown later => exact ⟨_, _, rfl, grown.shows, ih later⟩
  | fragment _ ih => exact showsAll_fragment_cons.mpr (ih filled)

/-- They are taken over where a tree continues a part, and new elsewhere. -/
theorem inheritsAll (fits : Fits before document placements origins trees)
    (filled : Filled start document placements nodes) {region : HostId → Prop}
    (closed : document.Closed region) (new : ∀ {id}, region id → ¬ before.contains id)
    (fresh : ∀ {id}, ¬ start.contains id → document.contains id → region id) :
    InheritsAll before document nodes origins trees := by
  have made : ∀ {piece : List HostId} {tree : Tree}, Grown start document piece tree →
      Inherits before document piece none tree := fun grown =>
    Inherits.of_new closed new
      (fun node member => fresh (grown.fresh node member) (grown.known node member)) _
  induction fits generalizing nodes with
  | nil => trivial
  | keep shown inherits _ ih =>
    cases filled with
    | keep later => exact .cons shown.length_eq inherits (ih later)
  | create _ ih =>
    cases filled with
    | create grown later => exact .cons grown.shows.length_eq (made grown) (ih later)
  | swap _ ih =>
    cases filled with
    | swap grown later => exact .cons grown.shows.length_eq (made grown) (ih later)
  | fragment _ ih => exact (ih filled).append (length_originsWithin ..)

end Fits

/-- What lies below the nodes that a plan keeps. -/
def Plan.Region (plan : Plan) (document : Document) (id : HostId) : Prop :=
  ∃ place, .keep place ∈ plan.placements ∧ document.Below place.node id

/-- The part of a plan that concerns what is below kept nodes does its work. -/
structure Plan.Serves (plan : Plan) (before : Document) (origins : List (Option Part))
    (trees : List Tree) : Prop where
  parents : ∀ patch ∈ plan.below, ∀ parent, patch.parent? = some parent →
    plan.Region before parent
  ordered : plan.below.Pairwise MayPrecede
  run : ∀ {document}, document.Linked → before.nodes.length ≤ document.nodes.length →
    Agree (plan.Region before) before document →
    ExactAll document plan.below ∧
      ChangesWithin (plan.Region before) document (carryOutAll document plan.below) ∧
      Fits before (carryOutAll document plan.below) plan.placements origins trees

namespace Plan

theorem region_closed (plan : Plan) (document : Document) : document.Closed (plan.Region document) := by
  rintro parent child ⟨place, kept, path⟩ member
  exact ⟨place, kept, path.tail member⟩

theorem region_append {first second : Plan} :
    (first.append second).Region document id ↔
      first.Region document id ∨ second.Region document id := by
  simp [Region, Plan.append, or_and_right, exists_or]

/-- Plans for siblings that have nothing in common serve both lists of trees. -/
theorem Serves.append {first second : Plan} {early late : List Tree}
    {earlyOrigins lateOrigins : List (Option Part)} (linked : before.Linked)
    (known : ∀ {plan place}, plan = first ∨ plan = second → .keep place ∈ plan.placements →
      before.contains place.node)
    (apart : ∀ {id}, first.Region before id → ¬ second.Region before id)
    (serves : first.Serves before earlyOrigins early)
    (next : second.Serves before lateOrigins late) :
    (first.append second).Serves before (earlyOrigins ++ lateOrigins) (early ++ late) where
  parents := by
    intro patch member parent here
    rw [region_append]
    rcases List.mem_append.mp member with inFirst | inSecond
    · exact .inl (serves.parents patch inFirst parent here)
    · exact .inr (next.parents patch inSecond parent here)
  ordered := by
    refine List.pairwise_append.mpr ⟨serves.ordered, next.ordered, ?_⟩
    intro patch inFirst other inSecond
    refine MayPrecede.of_apart fun parent here there => ?_
    exact apart (serves.parents patch inFirst parent here) (next.parents other inSecond parent there)
  run := by
    intro document linkedNow grows agree
    have agreeFirst : Agree (first.Region before) before document :=
      agree.mono fun inside => region_append.mpr (.inl inside)
    have agreeSecond : Agree (second.Region before) before document :=
      agree.mono fun inside => region_append.mpr (.inr inside)
    have contains : ∀ {plan id}, plan = first ∨ plan = second → plan.Region before id →
        document.contains id := by
      rintro plan id which ⟨place, kept, path⟩
      have old := linked.contains_of_below (known which kept) path
      rcases which with rfl | rfl
      · exact agreeFirst.contains ⟨place, kept, path⟩ old
      · exact agreeSecond.contains ⟨place, kept, path⟩ old
    obtain ⟨exact, change, fits⟩ := serves.run linkedNow grows agreeFirst
    have agreeNext : Agree (second.Region before) before (carryOutAll document first.below) := by
      intro id inside
      rw [change.outside (contains (.inr rfl) inside) fun other => apart other inside,
        agreeSecond inside]
    obtain ⟨exactNext, changeNext, fitsNext⟩ := next.run change.linked
      (Nat.le_trans grows change.grows) agreeNext
    unfold Plan.append
    rw [carryOutAll_append, exactAll_append]
    refine ⟨⟨exact, exactNext⟩, ?_, ?_⟩
    · refine (change.mono fun _ inside => region_append.mpr (.inl inside)).trans
        (changeNext.mono fun _ inside => region_append.mpr (.inr inside))
    · -- What the first plan made is not touched by the second.
      refine Fits.append (fits.of_agree
        (change.closed linkedNow (agreeFirst.closed (region_closed first before)))
        (changeNext.agree_apart apart fun inside => contains (.inr rfl) inside)
        fun {place} kept => ?_) fitsNext
      have inside : first.Region before place.node := ⟨place, kept, .refl⟩
      exact ⟨.inl inside, change.contains (contains (.inl rfl) inside)⟩

end Plan

end ReactiveTree
