import Mathlib.Data.List.Nodup
import Mathlib.Data.List.Pairwise
import ReactiveTree.Proofs.Reconcile.Rearranging
import ReactiveTree.Reconcile.Layout

/-! # Removals come first

The last child goes first, so no removal moves a child that is still to go: each is where it was
before anything changed.
-/

namespace ReactiveTree

open Document Patch

variable {document : Document} {parent : HostId} {removed : List Place}

/-- Whether a place names a child of a node with its index. -/
def Place.OfChild (document : Document) (parent : HostId) (place : Place) : Prop :=
  (document.children parent)[place.index]? = some place.node

private theorem eraseReps_of_nodup {removed : List Place} (distinct : removed.Nodup) :
    removed.eraseReps = removed := by
  have loop : ∀ (rest : List Place) (last : Place) (done : List Place), (last :: rest).Nodup →
      List.eraseRepsBy.loop (· == ·) last rest done = done.reverse ++ last :: rest := by
    intro rest
    induction rest with
    | nil => simp [List.eraseRepsBy.loop]
    | cons place rest ih =>
      intro last done distinct
      have other : (last == place) = false := by
        rw [beq_eq_false_iff_ne]
        rintro rfl
        simp at distinct
      rw [List.eraseRepsBy.loop, other]
      simpa using ih place (last :: done) (List.nodup_cons.mp distinct).2
  cases removed with
  | nil => rfl
  | cons place rest => exact loop rest place [] distinct

/-- Places in falling order can be emptied one after another. -/
private theorem removeFalling_spec (linked : document.Linked)
    (apart : parent ∉ document.children parent)
    (falling : removed.Pairwise fun earlier later => later.index < earlier.index)
    (placed : ∀ place ∈ removed, place.OfChild document parent) :
    let patches := removed.map fun place => Patch.remove parent place.index place.node
    ExactAll document patches ∧
      Rearranged parent (· ∈ removed.map Place.node) document (carryOutAll document patches) ∧
      (carryOutAll document patches).children parent =
        (document.children parent).filter fun node => node ∉ removed.map Place.node := by
  induction removed generalizing document with
  | nil => exact ⟨trivial, .refl linked, by simp⟩
  | cons place rest ih =>
    obtain ⟨below, falling⟩ := List.pairwise_cons.mp falling
    obtain ⟨inside, here⟩ := List.getElem?_eq_some_iff.mp (placed place (List.mem_cons_self ..))
    let left := (document.children parent).take place.index
    let right := (document.children parent).drop (place.index + 1)
    have split : document.children parent = left ++ place.node :: right := by
      rw [← here, List.getElem_cons_drop, List.take_append_drop]
    have length : left.length = place.index := by simp [left, Nat.le_of_lt inside]
    have other : place.node ≠ parent := by
      intro same
      rw [split] at apart
      simp [same] at apart
    obtain ⟨exact, step, children⟩ := remove_spec linked split other
    rw [length] at exact step children
    have nextPlaced : ∀ later ∈ rest,
        later.OfChild ((Patch.remove parent place.index place.node).carryOut document) parent := by
      intro later member
      have before : later.index < left.length := length ▸ below later member
      have old : (left ++ place.node :: right)[later.index]? = some later.node :=
        split ▸ placed later (List.mem_cons_of_mem _ member)
      rw [Place.OfChild, children, List.getElem?_append_left before]
      rwa [List.getElem?_append_left before] at old
    have nextApart : parent ∉
        ((Patch.remove parent place.index place.node).carryOut document).children parent := by
      rw [children]
      rw [split] at apart
      simp only [List.mem_append, List.mem_cons, not_or] at apart ⊢
      exact ⟨apart.1, apart.2.2⟩
    obtain ⟨exactRest, steps, childrenRest⟩ := ih step.change.linked nextApart falling nextPlaced
    refine ⟨⟨exact, exactRest⟩, ?_, ?_⟩
    · exact (step.mono (by simp)).trans (steps.mono fun member => List.mem_cons_of_mem _ member)
    · rw [List.map_cons, carryOutAll_cons, childrenRest, children,
        ← filter_ne_split (split ▸ linked.distinct parent), ← split, List.filter_filter]
      congr 1
      funext node
      by_cases same : node = place.node <;> simp [same]

private theorem removals_eq (parent : HostId) (distinct : (removed.map Place.index).Nodup) :
    ∃ falling : List Place, falling.Perm removed ∧
      falling.Pairwise (fun earlier later => later.index < earlier.index) ∧
      removals parent removed =
        falling.map fun place => Patch.remove parent place.index place.node := by
  let falling := removed.mergeSort fun left right => right.index ≤ left.index
  have same : falling.Perm removed := List.mergeSort_perm removed _
  have indices : (falling.map Place.index).Nodup :=
    (same.map Place.index).nodup_iff.mpr distinct
  have weak : falling.Pairwise fun left right => right.index ≤ left.index := by
    have ordered : falling.Pairwise fun left right => decide (right.index ≤ left.index) :=
      List.pairwise_mergeSort (by simp; omega) (by simp; omega) removed
    exact ordered.imp fun {left right} less => by simpa using less
  have strict := weak.and (List.pairwise_map.mp indices)
  refine ⟨falling, same, strict.imp fun {left right} less => by omega, ?_⟩
  rw [removals, eraseReps_of_nodup (List.Nodup.of_map _ indices)]

/-- The removals of a plan are exact and leave the other children in order. -/
theorem removals_spec (linked : document.Linked) (apart : parent ∉ document.children parent)
    (placed : ∀ place ∈ removed, place.OfChild document parent)
    (distinct : (removed.map Place.index).Nodup) :
    ExactAll document (removals parent removed) ∧
      Rearranged parent (· ∈ removed.map Place.node) document
        (carryOutAll document (removals parent removed)) ∧
      (carryOutAll document (removals parent removed)).children parent =
        (document.children parent).filter fun node => node ∉ removed.map Place.node := by
  obtain ⟨falling, same, sorted, whole⟩ := removals_eq parent distinct
  obtain ⟨exact, step, children⟩ := removeFalling_spec linked apart sorted
    fun place member => placed place (same.mem_iff.mp member)
  have nodes : ∀ node, node ∈ falling.map Place.node ↔ node ∈ removed.map Place.node :=
    fun node => (same.map Place.node).mem_iff
  simp only [nodes] at step children
  rw [whole]
  exact ⟨exact, step, children⟩

theorem removals_pairwise (parent : HostId) (distinct : (removed.map Place.index).Nodup) :
    (removals parent removed).Pairwise MayPrecede := by
  obtain ⟨falling, -, sorted, whole⟩ := removals_eq parent distinct
  rw [whole, List.pairwise_map]
  refine sorted.imp fun {earlier later} below => ?_
  rintro above index target same here
  cases same
  exact ⟨earlier.index, earlier.node, rfl, below⟩

theorem parent?_of_mem_removals {patch : Patch} (member : patch ∈ removals parent removed) :
    patch.parent? = some parent := by
  obtain ⟨place, -, rfl⟩ := List.mem_map.mp member
  rfl

end ReactiveTree
