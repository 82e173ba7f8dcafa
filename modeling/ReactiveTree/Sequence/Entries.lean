/-! # Finite maps in insertion order

Attributes, listeners, props and names are kept in the order in which they were first set. A map is
a list of pairs, looked up with `List.lookup`; setting a known key keeps its place.
-/

namespace ReactiveTree

variable {κ ν : Type} [DecidableEq κ]

/-- Give a key a value: in its old place, or at the end if it is new. -/
def setEntry (entries : List (κ × ν)) (key : κ) (value : ν) : List (κ × ν) :=
  match entries with
  | [] => [(key, value)]
  | entry :: rest =>
    if entry.1 = key then (key, value) :: rest else entry :: setEntry rest key value

/-- Forget a key; the other entries keep their order. -/
def removeEntry (entries : List (κ × ν)) (key : κ) : List (κ × ν) :=
  entries.filter fun entry => entry.1 ≠ key

/-- Whether a key has a value. -/
def hasEntry (entries : List (κ × ν)) (key : κ) : Bool :=
  (entries.lookup key).isSome

theorem lookup_setEntry (entries : List (κ × ν)) (key other : κ) (value : ν) :
    (setEntry entries key value).lookup other =
      if other = key then some value else entries.lookup other := by
  induction entries with
  | nil =>
    by_cases same : other = key
    · simp [setEntry, same]
    · simp [setEntry, List.lookup_cons, beq_false_of_ne same, same]
  | cons entry rest hypothesis =>
    obtain ⟨name, old⟩ := entry
    unfold setEntry
    by_cases here : name = key
    · subst here
      by_cases same : other = name
      · simp [same]
      · simp [List.lookup_cons, beq_false_of_ne same, same]
    · by_cases same : other = name
      · subst same
        simp [here]
      · simp [here, List.lookup_cons, beq_false_of_ne same, hypothesis]

theorem lookup_removeEntry (entries : List (κ × ν)) (key other : κ) :
    (removeEntry entries key).lookup other =
      if other = key then none else entries.lookup other := by
  induction entries with
  | nil => simp [removeEntry]
  | cons entry rest hypothesis =>
    obtain ⟨name, old⟩ := entry
    unfold removeEntry at hypothesis ⊢
    rw [List.filter_cons]
    by_cases gone : name = key
    · subst gone
      by_cases same : other = name
      · subst same
        simpa using hypothesis
      · simpa [List.lookup_cons, beq_false_of_ne same, same] using hypothesis
    · by_cases same : other = name
      · subst same
        simp [gone]
      · simpa [gone, List.lookup_cons, beq_false_of_ne same] using hypothesis

theorem mem_keys_setEntry {entries : List (κ × ν)} {key other : κ} {value : ν} :
    other ∈ (setEntry entries key value).map Prod.fst ↔
      other = key ∨ other ∈ entries.map Prod.fst := by
  induction entries with
  | nil => simp [setEntry]
  | cons entry rest hypothesis =>
    unfold setEntry
    by_cases here : entry.1 = key
    · subst here
      simp
    · simp only [here, if_false, List.map_cons, List.mem_cons, hypothesis]
      exact or_left_comm

/-- A map that holds each key once goes on to do so when a key is set. -/
theorem distinct_setEntry {entries : List (κ × ν)} (distinct : (entries.map Prod.fst).Nodup)
    (key : κ) (value : ν) : ((setEntry entries key value).map Prod.fst).Nodup := by
  induction entries with
  | nil => simp [setEntry]
  | cons entry rest hypothesis =>
    rw [List.map_cons, List.nodup_cons] at distinct
    obtain ⟨fresh, others⟩ := distinct
    unfold setEntry
    by_cases here : entry.1 = key
    · subst here
      simpa using ⟨by simpa using fresh, others⟩
    · rw [if_neg here, List.map_cons, List.nodup_cons, mem_keys_setEntry]
      refine ⟨?_, hypothesis others⟩
      rintro (same | old)
      · exact here same
      · exact fresh old

theorem distinct_removeEntry {entries : List (κ × ν)} (distinct : (entries.map Prod.fst).Nodup)
    (key : κ) : ((removeEntry entries key).map Prod.fst).Nodup :=
  distinct.sublist (List.filter_sublist.map Prod.fst)

end ReactiveTree
