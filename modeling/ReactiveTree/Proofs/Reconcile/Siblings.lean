import Mathlib.Data.List.Nodup
import ReactiveTree.Proofs.Document.Showing
import ReactiveTree.Reconcile.Diff

/-! # Matching siblings

The children of a host node are cut into one run for each old sibling, and the run shows it. No old
sibling is continued by two new ones, so the runs that are continued and those that are left over
are all the children, each once.
-/

namespace ReactiveTree

open Document

variable {document : Document} {run : List Place} {old new : List Tree} {index : Nat} {key : Key}

/-- The runs of old siblings show them. -/
theorem shows_of_mem_cutRuns (shown : document.ShowsAll (run.map Place.node) old) :
    ∀ entry ∈ old.zip (cutRuns run old), document.Shows (entry.2.map Place.node) entry.1 := by
  induction old generalizing run with
  | nil => simp
  | cons tree rest ih =>
    obtain ⟨left, right, split, first, others⟩ := shown
    have width := first.length_eq
    have taken : (run.take tree.width).map Place.node = left := by
      rw [List.map_take, split, List.take_left' width]
    have dropped : (run.drop tree.width).map Place.node = right := by
      rw [List.map_drop, split, List.drop_left' width]
    rw [cutRuns, List.zip_cons_cons]
    intro entry member
    rcases List.mem_cons.mp member with rfl | later
    · rw [← taken] at first
      exact first
    · rw [← dropped] at others
      exact ih others entry later

theorem length_cutRuns (run : List Place) (old : List Tree) :
    (cutRuns run old).length = old.length := by
  induction old generalizing run with
  | nil => rfl
  | cons tree rest ih => rw [cutRuns, List.length_cons, List.length_cons, ih]

/-- The runs together are all the children. -/
theorem flatMap_cutRuns (enough : run.length = Tree.widths old) :
    (old.zip (cutRuns run old)).flatMap Prod.snd = run := by
  induction old generalizing run with
  | nil =>
    rw [Tree.widths, List.length_eq_zero_iff] at enough
    simp [enough]
  | cons tree rest ih =>
    rw [Tree.widths] at enough
    have later : (run.drop tree.width).length = Tree.widths rest := by
      rw [List.length_drop]
      omega
    rw [cutRuns, List.zip_cons_cons, List.flatMap_cons, ih later, List.take_append_drop]

theorem key?_of_lastWithKey (found : lastWithKey old key = some index) :
    ∃ tree, old[index]? = some tree ∧ tree.key? = some key := by
  obtain ⟨⟨tree, position⟩, last, rfl⟩ := Option.map_eq_some_iff.mp found
  have member := List.mem_filter.mp (List.mem_of_getLast? last)
  exact ⟨tree, List.mem_zipIdx_iff_getElem?.mp member.1, by simpa using member.2⟩

/-- What a partner is: with a key the last child that has it, and without one the child at the same
index. -/
theorem partner_cases {child : Tree} {position : Nat}
    (found : partner old new child position = some index) :
    (∃ key, child.key? = some key ∧ lastWithKey new key = some position ∧
      ∃ tree, old[index]? = some tree ∧ tree.key? = some key) ∨
    (index = position ∧ ∃ tree, old[index]? = some tree ∧ tree.key? = none) := by
  unfold partner at found
  cases keyed : child.key? with
  | some key =>
    rw [keyed] at found
    simp only [Option.ite_none_right_eq_some] at found
    exact .inl ⟨key, rfl, found.1, key?_of_lastWithKey found.2⟩
  | none =>
    rw [keyed] at found
    obtain ⟨tree, here, rfl⟩ := Option.map_eq_some_iff.mp found
    rw [Option.filter_eq_some_iff] at here
    exact .inr ⟨rfl, tree, here.1, by simpa using here.2⟩

/-- The old siblings that new ones continue, in the order of the new. -/
def continued (partners : List (Option Nat)) : List Nat :=
  partners.filterMap id

theorem continued_nodup (old new : List Tree) : (continued (partnersOf old new)).Nodup := by
  unfold continued partnersOf
  rw [List.filterMap_map, List.Nodup, List.pairwise_filterMap, List.pairwise_iff_getElem]
  intro early late earlyInside lateInside less first here second there
  rw [List.getElem_zipIdx, Nat.zero_add] at here there
  rintro rfl
  rcases partner_cases here with ⟨key, -, isLast, tree, found, keyed⟩ | ⟨rfl, tree, found, unkeyed⟩ <;>
    rcases partner_cases there with ⟨key', -, isLast', tree', found', keyed'⟩ |
      ⟨same, tree', found', unkeyed'⟩ <;>
    (rw [found] at found'; cases found')
  · rw [keyed] at keyed'
    cases keyed'
    rw [isLast] at isLast'
    cases isLast'
    exact Nat.lt_irrefl _ less
  · rw [keyed] at unkeyed'
    cases unkeyed'
  · rw [unkeyed] at keyed'
    cases keyed'
  · exact Nat.lt_irrefl _ (same ▸ less)

theorem lt_of_mem_continued (member : index ∈ continued (partnersOf old new)) :
    index < old.length := by
  obtain ⟨found, listed, same⟩ := List.mem_filterMap.mp member
  obtain ⟨⟨child, position⟩, -, rfl⟩ := List.mem_map.mp listed
  rcases partner_cases same with ⟨_, -, -, tree, here, -⟩ | ⟨-, tree, here, -⟩ <;>
    exact (List.getElem?_eq_some_iff.mp here).1

/-- Entries at distinct indices are those that the indices pick, in another order. -/
private theorem filterMap_getElem?_perm {α : Type} (entries : List α) {indices : List Nat}
    (distinct : indices.Nodup) (inside : ∀ index ∈ indices, index < entries.length) :
    (indices.filterMap fun index => entries[index]?).Perm
      ((entries.zipIdx.filter fun entry => entry.2 ∈ indices).map Prod.fst) := by
  have sorted : indices.Perm ((List.range entries.length).filter fun index => index ∈ indices) := by
    rw [List.perm_ext_iff_of_nodup distinct (List.nodup_range.filter _)]
    intro index
    simp only [List.mem_filter, List.mem_range, decide_eq_true_eq]
    exact ⟨fun member => ⟨inside index member, member⟩, And.right⟩
  have picked : ((List.range entries.length).filter fun index => index ∈ indices).filterMap
      (fun index => entries[index]?) =
        (entries.zipIdx.filter fun entry => entry.2 ∈ indices).map Prod.fst := by
    have positions : List.range entries.length = entries.zipIdx.map Prod.snd := by
      rw [List.zipIdx_map_snd, List.range_eq_range']
    rw [positions, List.filter_map, List.filterMap_map, ← List.filterMap_eq_map]
    refine List.filterMap_congr fun entry member => ?_
    exact List.mem_zipIdx_iff_getElem?.mp (List.mem_of_mem_filter member)
  exact (sorted.filterMap _).trans (.of_eq picked)

namespace Siblings

/-- The old siblings that new ones continue, with their runs. -/
def chosen (old : List (Tree × List Place)) (partners : List (Option Nat)) :
    List (Tree × List Place) :=
  partners.filterMap fun partner => partner.bind fun index => old[index]?

theorem chosen_cons (old : List (Tree × List Place)) (partner : Option Nat)
    (others : List (Option Nat)) :
    chosen old (partner :: others) =
      (partner.bind fun index => old[index]?).toList ++ chosen old others := by
  unfold chosen
  rw [List.filterMap_cons]
  cases partner.bind fun index => old[index]? <;> rfl

/-- Continued runs and those left over are all the children, each once. -/
theorem chosen_perm (new : List Tree) (enough : run.length = Tree.widths old) :
    ((chosen (Siblings.of run old new).old (partnersOf old new)).flatMap Prod.snd ++
      (Siblings.of run old new).leftOver).Perm run := by
  let entries := old.zip (cutRuns run old)
  have length : entries.length = old.length := by
    rw [List.length_zip, length_cutRuns, Nat.min_self]
  have whole : ((entries.zipIdx.filter fun entry => entry.2 ∈ continued (partnersOf old new)) ++
      entries.zipIdx.filter fun entry => !decide (entry.2 ∈ continued (partnersOf old new))).Perm
        entries.zipIdx := List.filter_append_perm _ _
  have first : chosen entries (partnersOf old new) =
      (continued (partnersOf old new)).filterMap fun index => entries[index]? := by
    unfold chosen continued
    rw [List.filterMap_filterMap]
    rfl
  have picks := filterMap_getElem?_perm entries (continued_nodup old new)
    fun index member => length ▸ lt_of_mem_continued member
  have leftOver : (Siblings.of run old new).leftOver = ((entries.zipIdx.filter fun entry =>
      !decide (entry.2 ∈ continued (partnersOf old new))).map Prod.fst).flatMap Prod.snd := by
    unfold Siblings.leftOver
    rw [List.flatMap_map]
    congr 1
    refine List.filter_congr fun entry _ => ?_
    have listed : entry.2 ∈ continued (partnersOf old new) ↔
        some entry.2 ∈ partnersOf old new := by
      simp [continued]
    rw [← decide_not, decide_eq_decide, listed]
    rfl
  have all := (whole.map Prod.fst).flatMap_right Prod.snd
  rw [List.map_append, List.flatMap_append, List.zipIdx_map_fst, flatMap_cutRuns enough] at all
  show (List.flatMap Prod.snd (chosen entries (partnersOf old new)) ++ _).Perm run
  rw [leftOver, first]
  exact ((picks.flatMap_right Prod.snd).append_right _).trans all

end Siblings

end ReactiveTree
