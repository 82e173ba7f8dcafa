import Mathlib.Data.List.Lex
import ReactiveTree.Proofs.Reconcile.Comparing
import ReactiveTree.Proofs.Tree.Validity
import ReactiveTree.Reactive.Propagation

/-! # Faults in document order

A tree is refused for the first of its faults that the policy does not put up with, in the order of
the document, where a repeated key is met before anything inside the child that has it. The faults met
before that one are repeated keys, and each of them is noted. None of this depends on the host.
-/

namespace ReactiveTree

namespace Tree

/-- What may be wrong with a part of a tree. -/
inductive Fault where
  /-- An earlier sibling of the part has its key. -/
  | repeatedKey (key : Key)
  | emptyTag
  deriving DecidableEq, Repr

namespace Fault

/-- The failure that reports a fault. -/
def failure : Fault → ReconcileFailure
  | .repeatedKey key => .repeatedKey key
  | .emptyTag => .emptyTag

/-- Whether a policy refuses a tree for a fault. -/
def isRefused (policy : KeyPolicy) : Fault → Bool
  | .repeatedKey _ => policy = .strict
  | .emptyTag => true

end Fault

/-- A fault and where it is; the address leads there by the index of a child at each step. -/
@[ext] structure Finding where
  address : List Nat
  fault : Fault
  deriving DecidableEq, Repr

namespace Finding

/-- Document order: a part comes before what is inside it and before its later siblings, and its key
comes before its tag. -/
def Before (first second : Finding) : Prop :=
  first.address < second.address ∨
    first.address = second.address ∧ first.fault ≠ .emptyTag ∧ second.fault = .emptyTag

/-- A finding in a child is one in the parent. -/
def under (index : Nat) (finding : Finding) : Finding :=
  ⟨index :: finding.address, finding.fault⟩

end Finding

/-- The faults of a tree. -/
inductive HasFault : Tree → Finding → Prop
  | emptyTag (props : Props) (children : List Tree) (key : Option Key) :
      HasFault (.element "" props children key) ⟨[], .emptyTag⟩
  | repeatedKey {tree child : Tree} {index : Nat} {key : Key}
      (found : tree.children[index]? = some child) (keyed : child.key? = some key)
      (earlier : ∃ sibling ∈ tree.children.take index, sibling.key? = some key) :
      HasFault tree ⟨[index], .repeatedKey key⟩
  | inside {tree child : Tree} {index : Nat} {finding : Finding}
      (found : tree.children[index]? = some child) (has : HasFault child finding) :
      HasFault tree (finding.under index)

/-- The first fault that a policy refuses. -/
structure FirstRefused (policy : KeyPolicy) (tree : Tree) (finding : Finding) : Prop where
  has : tree.HasFault finding
  refused : finding.fault.isRefused policy
  first : ∀ other, tree.HasFault other → other.fault.isRefused policy →
    other = finding ∨ finding.Before other

/-- The finding that a child repeats the key of a sibling before it. -/
def repeats (before : List Tree) (child : Tree) : List Finding :=
  match child.key? with
  | some key => if key ∈ before.filterMap key? then [⟨[before.length], .repeatedKey key⟩] else []
  | none => []

mutual

/-- The findings in a tree, in the order of the document. -/
def findings : Tree → List Finding
  | .text _ => []
  | .element tag _ children _ =>
    (if tag = "" then [⟨[], .emptyTag⟩] else []) ++ findingsAmong [] children
  | .fragment children _ => findingsAmong [] children

/-- The findings in siblings, given those before them. -/
def findingsAmong (before : List Tree) : List Tree → List Finding
  | [] => []
  | child :: rest =>
    repeats before child ++ child.findings.map (.under before.length) ++
      findingsAmong (before ++ [child]) rest

end

variable {policy : KeyPolicy} {tree child : Tree} {before rest : List Tree} {finding : Finding}
  {index : Nat} {found : List Finding}

theorem mem_repeats : finding ∈ repeats before child ↔
    ∃ key, child.key? = some key ∧ (∃ sibling ∈ before, sibling.key? = some key) ∧
      finding = ⟨[before.length], .repeatedKey key⟩ := by
  rw [repeats]
  cases keyed : child.key? with
  | none => simp
  | some key =>
    simp only [List.mem_filterMap]
    split <;> simp_all

/-- What is found about the child at an index: that it repeats a key, or a fault of its own. -/
def FoundAt (siblings : List Tree) (index : Nat) (finding : Finding) : Prop :=
  ∃ child, siblings[index]? = some child ∧
    (finding ∈ repeats (siblings.take index) child ∨
      ∃ inner, child.HasFault inner ∧ finding = inner.under index)

/-- A fault is the empty tag of the root or is found about a child. -/
theorem hasFault_iff : tree.HasFault finding ↔
    (∃ props children key, tree = .element "" props children key ∧ finding = ⟨[], .emptyTag⟩) ∨
      ∃ index, FoundAt tree.children index finding := by
  have length {child : Tree} {index : Nat} (found : tree.children[index]? = some child) :
      (tree.children.take index).length = index :=
    List.length_take_of_le (Nat.le_of_lt (List.getElem?_eq_some_iff.mp found).1)
  constructor
  · intro has
    cases has with
    | emptyTag props children key => exact Or.inl ⟨props, children, key, rfl, rfl⟩
    | repeatedKey found keyed earlier =>
      refine Or.inr ⟨_, _, found, Or.inl (mem_repeats.mpr ⟨_, keyed, earlier, ?_⟩)⟩
      rw [length found]
    | inside found has => exact Or.inr ⟨_, _, found, Or.inr ⟨_, has, rfl⟩⟩
  · rintro (⟨props, children, key, rfl, rfl⟩ | ⟨index, child, found, repeated | ⟨inner, has, rfl⟩⟩)
    · exact .emptyTag props children key
    · obtain ⟨key, keyed, earlier, rfl⟩ := mem_repeats.mp repeated
      rw [length found]
      exact .repeatedKey found keyed earlier
    · exact .inside found has

theorem foundAt_length : FoundAt (before ++ child :: rest) before.length finding ↔
    finding ∈ repeats before child ∨
      ∃ inner, child.HasFault inner ∧ finding = inner.under before.length := by
  simp [FoundAt]

mutual

/-- The findings in a tree are its faults. -/
theorem mem_findings : (tree : Tree) → ∀ finding : Finding,
    (finding ∈ tree.findings ↔ tree.HasFault finding)
  | .text content => by
    intro finding
    rw [findings, hasFault_iff]
    simp [FoundAt, children]
  | .element tag props children key => by
    intro finding
    have among := mem_findingsAmong [] children finding
    simp only [List.length_nil, Nat.zero_le, true_and, List.nil_append] at among
    rw [findings, List.mem_append, among, hasFault_iff]
    apply or_congr_left
    by_cases empty : tag = "" <;> simp [empty]
  | .fragment children key => by
    intro finding
    have among := mem_findingsAmong [] children finding
    simp only [List.length_nil, Nat.zero_le, true_and, List.nil_append] at among
    rw [findings, among, hasFault_iff]
    simp [Tree.children]

theorem mem_findingsAmong (before : List Tree) : (rest : List Tree) → ∀ finding : Finding,
    (finding ∈ findingsAmong before rest ↔
      ∃ index, before.length ≤ index ∧ FoundAt (before ++ rest) index finding)
  | [] => by
    intro finding
    simp only [findingsAmong, List.not_mem_nil, List.append_nil, false_iff]
    rintro ⟨index, beyond, child, found, -⟩
    have inside := (List.getElem?_eq_some_iff.mp found).1
    omega
  | child :: rest => by
    intro finding
    have here : FoundAt (before ++ child :: rest) before.length finding ↔
        finding ∈ repeats before child ∨ finding ∈ child.findings.map (.under before.length) := by
      simp [FoundAt, List.mem_map, mem_findings child, eq_comm]
    rw [findingsAmong, List.mem_append, List.mem_append, ← here, mem_findingsAmong _ rest,
      List.append_assoc, List.singleton_append, List.length_append, List.length_singleton]
    constructor
    · rintro (first | ⟨index, bound, found⟩)
      · exact ⟨_, Nat.le_refl _, first⟩
      · exact ⟨index, by omega, found⟩
    · rintro ⟨index, bound, found⟩
      rcases Nat.eq_or_lt_of_le bound with rfl | less
      · exact Or.inl found
      · exact Or.inr ⟨index, less, found⟩

end

instance : Std.Asymm Finding.Before where
  asymm first second := by
    rintro (less | ⟨same, keyed, tagged⟩) (greater | ⟨same', keyed', tagged'⟩)
    · exact lt_asymm less greater
    · exact lt_irrefl _ (same' ▸ less)
    · exact lt_irrefl _ (same ▸ greater)
    · exact keyed' tagged

theorem Finding.before_under {first second : Finding} :
    (first.under index).Before (second.under index) ↔ first.Before second := by
  simp [Before, under]

theorem HasFault.of_address_eq_nil (has : tree.HasFault finding) (root : finding.address = []) :
    finding.fault = .emptyTag := by
  cases has with
  | emptyTag => rfl
  | repeatedKey => cases root
  | inside => cases root

/-- What is found about a child lies in it. -/
theorem FoundAt.head {siblings : List Tree} (found : FoundAt siblings index finding) :
    ∃ rest, finding.address = index :: rest := by
  obtain ⟨child, at_index, repeated | ⟨inner, -, rfl⟩⟩ := found
  · obtain ⟨key, -, -, rfl⟩ := mem_repeats.mp repeated
    have inside := (List.getElem?_eq_some_iff.mp at_index).1
    exact ⟨[], by rw [List.length_take_of_le (Nat.le_of_lt inside)]⟩
  · exact ⟨inner.address, rfl⟩

/-- What is found about a child comes before what is found about a later one. -/
theorem FoundAt.before_of_lt {siblings : List Tree} {later : Nat} {other : Finding}
    (found : FoundAt siblings index finding) (foundLater : FoundAt siblings later other)
    (less : index < later) : finding.Before other := by
  obtain ⟨first, same⟩ := found.head
  obtain ⟨second, same'⟩ := foundLater.head
  apply Or.inl
  rw [same, same']
  exact List.Lex.rel less

/-- That a child repeats a key is found before what is in it. -/
theorem before_of_mem_repeats {inner : Finding} (repeated : finding ∈ repeats before child)
    (has : child.HasFault inner) : finding.Before (inner.under before.length) := by
  obtain ⟨key, -, -, rfl⟩ := mem_repeats.mp repeated
  cases address : inner.address with
  | nil => exact Or.inr ⟨by simp [Finding.under, address], by simp, has.of_address_eq_nil address⟩
  | cons index rest =>
    apply Or.inl
    simp [Finding.under, address]

theorem repeats_pairwise (before : List Tree) (child : Tree) :
    (repeats before child).Pairwise Finding.Before := by
  rw [repeats]
  split
  · split <;> simp
  · simp

mutual

/-- The findings in a tree are in document order. -/
theorem findings_pairwise : (tree : Tree) → tree.findings.Pairwise Finding.Before
  | .text _ => .nil
  | .element tag props children key => by
    rw [findings, List.pairwise_append]
    refine ⟨by split <;> simp, findingsAmong_pairwise [] children, ?_⟩
    intro first member second inside
    obtain ⟨index, -, found⟩ := (mem_findingsAmong [] children second).mp inside
    obtain ⟨rest, address⟩ := found.head
    have root : first.address = [] := by
      split at member <;> simp_all
    apply Or.inl
    rw [root, address]
    exact List.nil_lt_cons ..
  | .fragment children _ => findingsAmong_pairwise [] children

theorem findingsAmong_pairwise (before : List Tree) : (rest : List Tree) →
    (findingsAmong before rest).Pairwise Finding.Before
  | [] => .nil
  | child :: rest => by
    have inside : (child.findings.map (Finding.under before.length)).Pairwise Finding.Before :=
      (findings_pairwise child).map _ fun _ _ => Finding.before_under.mpr
    have about : (repeats before child ++
        child.findings.map (Finding.under before.length)).Pairwise Finding.Before := by
      rw [List.pairwise_append]
      refine ⟨repeats_pairwise before child, inside, ?_⟩
      intro first repeated second member
      obtain ⟨inner, has, rfl⟩ := List.mem_map.mp member
      exact before_of_mem_repeats repeated ((mem_findings child inner).mp has)
    rw [findingsAmong, List.pairwise_append]
    refine ⟨about, findingsAmong_pairwise (before ++ [child]) rest, ?_⟩
    intro first member second member'
    obtain ⟨index, beyond, later⟩ := (mem_findingsAmong _ rest second).mp member'
    rw [List.append_assoc, List.singleton_append] at later
    rw [List.length_append, List.length_singleton] at beyond
    have here : FoundAt (before ++ child :: rest) before.length first := by
      rw [foundAt_length]
      simpa [List.mem_map, mem_findings child, eq_comm] using member
    exact here.before_of_lt later beyond

end

/-- The verdict on faults that are met one after the other. -/
def judge (policy : KeyPolicy) : List Fault → Verdict
  | [] => .sound
  | .emptyTag :: _ => .refuse .emptyTag
  | .repeatedKey key :: rest =>
    match policy with
    | .strict => .refuse (.repeatedKey key)
    | .lastWins => (judge policy rest).after key

theorem judge_append (policy : KeyPolicy) (first second : List Fault) :
    judge policy (first ++ second) = (judge policy first).andThen (judge policy second) := by
  induction first with
  | nil => rfl
  | cons fault rest ih =>
    cases fault with
    | emptyTag => rfl
    | repeatedKey key =>
      cases policy with
      | strict => rfl
      | lastWins =>
        simp only [List.cons_append, judge, ih]
        unfold Verdict.andThen Verdict.after
        cases found : (judge KeyPolicy.lastWins rest).defect <;> simp [found]

theorem defect_judge (policy : KeyPolicy) (faults : List Fault) :
    (judge policy faults).defect = (faults.find? (Fault.isRefused policy)).map Fault.failure := by
  induction faults with
  | nil => rfl
  | cons fault rest ih =>
    cases fault with
    | emptyTag => rfl
    | repeatedKey key =>
      cases policy with
      | strict => rfl
      | lastWins => exact ih

theorem repeated_judge (policy : KeyPolicy) (faults : List Fault) :
    (judge policy faults).repeated.map Fault.repeatedKey =
      faults.takeWhile fun fault => !fault.isRefused policy := by
  induction faults with
  | nil => rfl
  | cons fault rest ih =>
    cases fault with
    | emptyTag => rfl
    | repeatedKey key =>
      cases policy with
      | strict => rfl
      | lastWins => exact congrArg (List.cons (Fault.repeatedKey key)) ih

mutual

/-- The check of a tree judges its faults as they come. -/
theorem check_eq_judge (policy : KeyPolicy) : (tree : Tree) →
    tree.check policy = judge policy (tree.findings.map Finding.fault)
  | .text _ => rfl
  | .element tag props children key => by
    have among := checkSiblings_eq_judge policy children [] [] (by simp)
    rw [check, findings, List.map_append, judge_append, ← among]
    split <;> rfl
  | .fragment children key => by
    rw [check, findings]
    exact checkSiblings_eq_judge policy children [] [] (by simp)

theorem checkSiblings_eq_judge (policy : KeyPolicy) : (trees : List Tree) →
    ∀ (seen : List Key) (before : List Tree), (∀ key, key ∈ seen ↔ key ∈ before.filterMap key?) →
      checkSiblings policy seen trees = judge policy ((findingsAmong before trees).map Finding.fault)
  | [] => fun _ _ _ => rfl
  | child :: rest => by
    intro seen before same
    have here := check_eq_judge policy child
    have faults : (child.findings.map (Finding.under before.length)).map Finding.fault =
        child.findings.map Finding.fault := by
      rw [List.map_map]
      rfl
    rw [checkSiblings, findingsAmong, List.map_append, List.map_append, faults]
    rw [List.append_assoc, judge_append policy _ (_ ++ _), judge_append, ← here]
    have later (seen : List Key) := checkSiblings_eq_judge policy rest seen (before ++ [child])
    simp only [List.filterMap_append, List.mem_append] at later
    unfold repeats
    cases keyed : child.key? with
    | none =>
      rw [later seen (by simp [same, keyed])]
      rfl
    | some key =>
      dsimp only
      by_cases repeated : key ∈ before.filterMap key?
      · have known : ∀ other, other ∈ seen ↔
            other ∈ before.filterMap key? ∨ other ∈ [child].filterMap key? := by
          intro other
          simp only [same, List.filterMap_cons, keyed, List.filterMap_nil, List.mem_singleton]
          exact ⟨Or.inl, fun either => either.elim id fun equal => equal ▸ repeated⟩
        rw [if_pos repeated, if_pos ((same key).mpr repeated), later seen known]
        cases policy with
        | strict => rfl
        | lastWins =>
          simp only [List.map_cons, List.map_nil, judge, Verdict.andThen, Verdict.after,
            Verdict.sound, List.singleton_append]
      · rw [if_neg repeated, if_neg fun member => repeated ((same key).mp member),
          later (key :: seen) (by simp [same, keyed, or_comm])]
        rfl

end

theorem defect_check_eq_some_iff {defect : ReconcileFailure} :
    (tree.check policy).defect = some defect ↔
      ∃ finding, tree.FirstRefused policy finding ∧ finding.fault.failure = defect := by
  rw [check_eq_judge, defect_judge, List.find?_map, Option.map_map, Option.map_eq_some_iff]
  apply exists_congr
  intro finding
  rw [find?_eq_some_iff_first tree.findings_pairwise]
  simp only [mem_findings, Function.comp_apply]
  constructor
  · rintro ⟨⟨has, refused, first⟩, same⟩
    exact ⟨⟨has, refused, first⟩, same⟩
  · rintro ⟨⟨has, refused, first⟩, same⟩
    exact ⟨⟨has, refused, first⟩, same⟩

/-- The faults that are noted are those that come before each refused one. -/
theorem exists_warned (policy : KeyPolicy) (tree : Tree) :
    ∃ warned : List Finding, warned.Pairwise Finding.Before ∧
      (∀ finding, finding ∈ warned ↔ tree.HasFault finding ∧
        ∀ other, tree.HasFault other → other.fault.isRefused policy → finding.Before other) ∧
      (tree.check policy).repeated.map Fault.repeatedKey = warned.map Finding.fault := by
  refine ⟨tree.findings.takeWhile fun finding => !finding.fault.isRefused policy, ?_, ?_, ?_⟩
  · exact tree.findings_pairwise.sublist (List.takeWhile_sublist _)
  · intro finding
    rw [mem_takeWhile_iff_ahead tree.findings_pairwise]
    simp only [mem_findings]
  · rw [check_eq_judge, repeated_judge, List.takeWhile_map]
    rfl

theorem isRefused_lastWins {fault : Fault} : fault.isRefused .lastWins ↔ fault = .emptyTag := by
  cases fault <;> simp [Fault.isRefused]

/-- Whether some element has an empty tag. -/
def HasEmptyTag (tree : Tree) : Prop :=
  ∃ props children key, Occurs (.element "" props children key) tree

/-- Whether some siblings share a key. -/
def HasRepeatedKey (tree : Tree) : Prop :=
  ∃ part, Occurs part tree ∧ ¬ (part.children.filterMap key?).Nodup

theorem not_valid_iff : ¬ tree.Valid policy ↔
    tree.HasEmptyTag ∨ policy = .strict ∧ tree.HasRepeatedKey := by
  constructor
  · intro invalid
    by_contra neither
    rw [not_or, not_and] at neither
    obtain ⟨tagged, distinct⟩ := neither
    apply invalid
    constructor
    · rintro tag props children key occurs rfl
      exact tagged ⟨props, children, key, occurs⟩
    · intro strict part occurs
      by_contra repeated
      exact distinct strict ⟨part, occurs, repeated⟩
  · rintro (⟨props, children, key, occurs⟩ | ⟨strict, part, occurs, repeated⟩) valid
    · exact valid.tagged occurs rfl
    · exact repeated (valid.distinct strict occurs)

theorem valid_strict_iff : tree.Valid .strict ↔ ¬ tree.HasEmptyTag ∧ ¬ tree.HasRepeatedKey := by
  have invalid : ¬ tree.Valid .strict ↔ _ := not_valid_iff
  rw [eq_self, true_and] at invalid
  rw [← not_or, ← invalid, not_not]

end Tree

open ReactiveTree.Tree

/-- The key of which an event tells that siblings share it. -/
def Event.repeated? {κ ν : Type} : Event κ ν → Option Key
  | .repeatedKey key => some key
  | _ => none

/-- A world records the repeated keys of the tree that it reconciles. -/
theorem World.repeated_trace_reconcile {κ ν σ : Type} {world : World κ ν σ} {mount : Mount κ}
    (known : (world.document? mount.document).isSome) (old new : Option Tree) :
    (world.reconcile mount old new).2.trace.filterMap Event.repeated? =
      world.trace.filterMap Event.repeated? ++ (checkTree mount.policy new).repeated := by
  obtain ⟨page, found⟩ := Option.isSome_iff_exists.mp known
  have noted (keys : List Key) (world : World κ ν σ) :
      (keys.foldl (fun world key => world.record (.repeatedKey key)) world).trace.filterMap
        Event.repeated? = world.trace.filterMap Event.repeated? ++ keys := by
    induction keys generalizing world with
    | nil => simp
    | cons key rest ih => simp [ih, trace_record, Event.repeated?]
  have others {step : World κ ν σ → HostEvent → World κ ν σ}
      (quiet : ∀ world event, (step world event).trace.filterMap Event.repeated? =
        world.trace.filterMap Event.repeated?) (events : List HostEvent) (world : World κ ν σ) :
      (events.foldl step world).trace.filterMap Event.repeated? =
        world.trace.filterMap Event.repeated? := by
    induction events generalizing world with
    | nil => rfl
    | cons event rest ih => rw [List.foldl_cons, ih, quiet]
  unfold World.reconcile
  rw [found]
  dsimp only
  rw [others fun world event => by cases event <;> simp [trace_record, Event.repeated?]]
  exact noted _ world

/-- A diff reports a defect of a tree exactly if the check of the tree finds it. -/
theorem diff_eq_error_iff {H : Type} [Host H] {host : H} {container : HostId} {old : Option Tree}
    {new : Tree} {policy : KeyPolicy} {defect : ReconcileFailure} (ofTree : OfTree defect) :
    diff policy host container old (some new) = .error defect ↔
      ∃ finding, new.FirstRefused policy finding ∧ finding.fault.failure = defect := by
  have checked : checkTree policy (some new) = new.check policy := rfl
  rw [← defect_check_eq_some_iff]
  unfold diff
  rw [checked]
  cases found : (new.check policy).defect with
  | some other => simp
  | none =>
    simp only [childPatches_eq_error_iff, reduceCtorEq, iff_false]
    rintro ⟨comparison, -, rfl⟩
    exact ofTree

/-- A computation fails for a defect of a tree if an empty tag or a repeated key makes it fail. -/
theorem exists_ofTree_error_iff {α : Type} {outcome : Except ReconcileFailure α} :
    (∃ defect, OfTree defect ∧ outcome = .error defect) ↔
      outcome = .error .emptyTag ∨ ∃ key, outcome = .error (.repeatedKey key) := by
  constructor
  · rintro ⟨defect, ofTree, failed⟩
    cases defect with
    | emptyTag => exact Or.inl failed
    | repeatedKey key => exact Or.inr ⟨key, failed⟩
    | outOfSync => cases ofTree
  · rintro (failed | ⟨key, failed⟩)
    · exact ⟨.emptyTag, trivial, failed⟩
    · exact ⟨.repeatedKey key, trivial, failed⟩

/-- A diff refuses a tree, whatever the host and the old tree are, exactly if it is not valid. -/
theorem refuses_iff_not_valid {H : Type} [Host H] (host : H) (container : HostId)
    (old : Option Tree) (new : Tree) (policy : KeyPolicy) :
    (diff policy host container old (some new) = .error .emptyTag ∨
      ∃ key, diff policy host container old (some new) = .error (.repeatedKey key)) ↔
        ¬ new.Valid policy := by
  rw [← exists_ofTree_error_iff, ← check_defect, ← ne_eq, Option.ne_none_iff_exists']
  apply exists_congr
  intro defect
  constructor
  · rintro ⟨ofTree, failed⟩
    exact defect_check_eq_some_iff.mpr ((diff_eq_error_iff ofTree).mp failed)
  · intro found
    have ofTree := ofTree_of_check policy new defect found
    exact ⟨ofTree, (diff_eq_error_iff ofTree).mpr (defect_check_eq_some_iff.mp found)⟩

/-- Whatever the host and the old tree are, a diff refuses a tree exactly for an empty tag or, under the
strict policy, siblings with one key, and it reports the first of these faults in the order of the
document. Under the other policy it notes the repeated keys that come before the first empty tag, and
so does the log of a world. -/
theorem diff_refuses_first_fault {H κ ν σ : Type} [Host H] (host : H) (container : HostId)
    (old : Option Tree) (new : Tree) :
    ((diff .strict host container old (some new) = .error .emptyTag ∨
        ∃ key, diff .strict host container old (some new) = .error (.repeatedKey key)) ↔
      new.HasEmptyTag ∨ new.HasRepeatedKey) ∧
    (diff .lastWins host container old (some new) = .error .emptyTag ↔ new.HasEmptyTag) ∧
    (∀ key, diff .lastWins host container old (some new) ≠ .error (.repeatedKey key)) ∧
    (∀ policy defect, OfTree defect →
      (diff policy host container old (some new) = .error defect ↔
        ∃ finding, new.FirstRefused policy finding ∧ finding.fault.failure = defect)) ∧
    ∃ warned : List Finding, warned.Pairwise Finding.Before ∧
      (∀ finding, finding ∈ warned ↔ new.HasFault finding ∧
        ∀ other, new.HasFault other → other.fault = .emptyTag → finding.Before other) ∧
      (checkTree .lastWins (some new)).repeated.map Fault.repeatedKey = warned.map Finding.fault ∧
      ∀ (world : World κ ν σ) (mount : Mount κ), mount.policy = .lastWins →
        (world.document? mount.document).isSome →
        (world.reconcile mount old (some new)).2.trace.filterMap Event.repeated? =
          world.trace.filterMap Event.repeated? ++ (checkTree .lastWins (some new)).repeated := by
  have never (key : Key) : diff .lastWins host container old (some new) ≠
      .error (.repeatedKey key) := by
    intro failed
    have ofTree : OfTree (.repeatedKey key) := trivial
    obtain ⟨finding, first, same⟩ := (diff_eq_error_iff ofTree).mp failed
    have tagged := isRefused_lastWins.mp first.refused
    rw [tagged] at same
    cases same
  refine ⟨?_, ?_, never, fun policy defect ofTree => diff_eq_error_iff ofTree, ?_⟩
  · rw [refuses_iff_not_valid, not_valid_iff, eq_self, true_and]
  · have refused := refuses_iff_not_valid host container old new .lastWins
    simpa [never, not_valid_iff] using refused
  · obtain ⟨warned, ordered, listed, same⟩ := exists_warned .lastWins new
    simp only [isRefused_lastWins] at listed
    refine ⟨warned, ordered, listed, same, fun world mount lenient known => ?_⟩
    rw [World.repeated_trace_reconcile known, lenient]

/-- The key of the second child is repeated and its tag is empty. -/
example : (Tree.fragment [.element "li" .empty [] (some ⟨"k"⟩), .element "" .empty [] (some ⟨"k"⟩)]
    none).check .lastWins = ⟨[⟨"k"⟩], some .emptyTag⟩ := by
  rfl

end ReactiveTree
