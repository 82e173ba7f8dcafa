import Mathlib.Data.List.Perm.Subperm
import ReactiveTree.Proofs.Graph.Waking

/-! # The order in which effects run loses none and repeats none

Effects are taken from those that remain, so none is taken twice. What is never taken, because it
waits for itself around a cycle, comes last.
-/

namespace ReactiveTree

/-- What is taken from the remaining effects is taken once. -/
theorem Queue.take_subperm (successors : NodeId → List NodeId) (waiting : NodeId → Nat)
    (ready remaining : List NodeId) :
    (Queue.take successors waiting ready remaining).Subperm remaining := by
  induction waiting, ready, remaining using Queue.take.induct successors with
  | case1 waiting remaining =>
    unfold Queue.take
    exact List.nil_subperm
  | case2 waiting remaining effect ready present progress ih =>
    unfold Queue.take
    rw [if_pos present]
    have first : (effect :: remaining.erase effect).Perm remaining :=
      (List.perm_cons_erase present).symm
    exact ((List.subperm_cons effect).mpr ih).trans first.subperm
  | case3 waiting remaining effect ready absent ih =>
    unfold Queue.take
    rwa [if_neg absent]

/-- The order is one of the queued effects. -/
theorem Graph.schedule_perm (graph : Graph) {queued : List NodeId} (distinct : queued.Nodup) :
    (graph.schedule queued).Perm queued := by
  unfold schedule
  split
  next => exact .refl queued
  next =>
    extract_lets needs waiting successors ready taken
    have once : taken.Subperm (addAll [] queued) := Queue.take_subperm _ _ _ _
    have takenOnce : taken.Nodup := by
      obtain ⟨part, same, within⟩ := once
      exact same.nodup_iff.mp ((nodup_addAll List.nodup_nil queued).sublist within)
    have both : (taken ++ queued.filter fun effect => effect ∉ taken).Nodup := by
      refine List.nodup_append.mpr ⟨takenOnce, distinct.filter _, fun effect first other last => ?_⟩
      rintro rfl
      exact of_decide_eq_true (List.mem_filter.mp last).2 first
    refine (List.perm_ext_iff_of_nodup both distinct).mpr fun effect => ?_
    rw [List.mem_append, List.mem_filter, decide_eq_true_iff]
    constructor
    · rintro (first | last)
      · exact (mem_addAll.mp (once.subset first)).resolve_left List.not_mem_nil
      · exact last.1
    · intro member
      exact (Classical.em (effect ∈ taken)).imp_right fun absent => ⟨member, absent⟩

/-- Each effect is woken once. -/
theorem Wakeup.nodup_ofReaches (reaches : List Reach) :
    ((Wakeup.ofReaches reaches).map Wakeup.effect).Nodup := by
  unfold ofReaches
  dsimp only
  rw [List.map_map, show Wakeup.effect ∘ _ = id from rfl, List.map_id]
  exact (List.mergeSort_perm _ _).nodup_iff.mpr (nodup_addAll List.nodup_nil _)

end ReactiveTree
