import Mathlib.Data.List.Pairwise

/-! # The first of several in an ordered list

A scan that stops at the first entry of a kind finds the one that comes before all others of the kind,
and passes exactly the entries that come before every one of them.
-/

namespace ReactiveTree

variable {α : Type} {before : α → α → Prop} [Std.Asymm before] {entries : List α} {chosen : α → Bool}
  {entry : α}

/-- What a scan stops at. -/
theorem find?_eq_some_iff_first (ordered : entries.Pairwise before) :
    entries.find? chosen = some entry ↔ entry ∈ entries ∧ chosen entry ∧
      ∀ other ∈ entries, chosen other → other = entry ∨ before entry other := by
  induction entries with
  | nil => simp
  | cons head rest ih =>
    obtain ⟨least, ordered⟩ := List.pairwise_cons.mp ordered
    rw [List.find?_cons]
    cases hit : chosen head with
    | true =>
      simp only [Option.some.injEq]
      constructor
      · rintro rfl
        refine ⟨List.mem_cons_self, hit, fun other member _ => ?_⟩
        exact (List.mem_cons.mp member).imp_right (least other)
      · rintro ⟨member, -, first⟩
        rcases List.mem_cons.mp member with same | later
        · exact same.symm
        · exact (first head List.mem_cons_self hit).elim id fun ahead =>
            absurd ahead (Std.Asymm.asymm _ _ (least entry later))
    | false =>
      simp only [ih ordered, List.mem_cons]
      constructor
      · rintro ⟨later, isChosen, first⟩
        refine ⟨Or.inr later, isChosen, ?_⟩
        rintro other (rfl | member) otherChosen
        · simp [hit] at otherChosen
        · exact first other member otherChosen
      · rintro ⟨rfl | later, isChosen, first⟩
        · simp [hit] at isChosen
        · exact ⟨later, isChosen, fun other member => first other (Or.inr member)⟩

/-- What a scan passes. -/
theorem mem_takeWhile_iff_ahead (ordered : entries.Pairwise before) :
    entry ∈ entries.takeWhile (fun entry => !chosen entry) ↔ entry ∈ entries ∧
      ∀ other ∈ entries, chosen other → before entry other := by
  induction entries with
  | nil => simp
  | cons head rest ih =>
    obtain ⟨least, ordered⟩ := List.pairwise_cons.mp ordered
    rw [List.takeWhile_cons]
    cases hit : chosen head with
    | true =>
      simp only [Bool.not_true, Bool.false_eq_true, if_false, List.not_mem_nil, false_iff]
      rintro ⟨member, ahead⟩
      have front := ahead head List.mem_cons_self hit
      rcases List.mem_cons.mp member with rfl | later
      · exact Std.Asymm.asymm _ _ front front
      · exact Std.Asymm.asymm _ _ front (least entry later)
    | false =>
      simp only [Bool.not_false, if_true, List.mem_cons, ih ordered]
      constructor
      · rintro (rfl | ⟨later, ahead⟩)
        · refine ⟨Or.inl rfl, ?_⟩
          rintro other (rfl | member) otherChosen
          · simp [hit] at otherChosen
          · exact least other member
        · refine ⟨Or.inr later, ?_⟩
          rintro other (rfl | member) otherChosen
          · simp [hit] at otherChosen
          · exact ahead other member otherChosen
      · rintro ⟨rfl | later, ahead⟩
        · exact Or.inl rfl
        · exact Or.inr ⟨later, fun other member => ahead other (Or.inr member)⟩

end ReactiveTree
