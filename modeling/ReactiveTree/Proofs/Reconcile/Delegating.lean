import Mathlib
import ReactiveTree.Proofs.Reconcile.Staying

/-! # Hosts that delegate to a document

The reconciler sees a host only through its operations. So two hosts that answer alike, and go on to do
so whatever is carried out on both, get the same patches and are taken through corresponding states. A
journal that has no move of its own is such a host as long as each move finds its child under the
parent: only then do a removal and an insertion come to what a move in place does. The patches of a
diff see to that.
-/

namespace ReactiveTree

open Document

/-- Whether a command moves a child. -/
def HostCommand.isMove : HostCommand → Bool
  | .moveChild .. => true
  | _ => false

/-- A relation between hosts that answer alike, and that all operations but moves keep. -/
structure InStep {H K : Type} [Host H] [Host K] (related : H → K → Prop) : Prop where
  children : ∀ {host other}, related host other → ∀ id,
    Host.children host id = Host.children other id
  createElement : ∀ {host other}, related host other → ∀ tag,
    (Host.createElement host tag).1 = (Host.createElement other tag).1 ∧
      related (Host.createElement host tag).2 (Host.createElement other tag).2
  createText : ∀ {host other}, related host other → ∀ content,
    (Host.createText host content).1 = (Host.createText other content).1 ∧
      related (Host.createText host content).2 (Host.createText other content).2
  carryOut : ∀ {host other}, related host other → ∀ command : HostCommand,
    command.isMove = false → related (Host.carryOut host command) (Host.carryOut other command)

namespace InStep

variable {H K : Type} [Host H] [Host K] {related : H → K → Prop} {host : H} {other : K}

theorem insertFrom (steps : InStep related) (start : related host other) (parent : HostId) (index : Nat)
    (nodes : List HostId) :
    related (insertFrom host parent index nodes) (ReactiveTree.insertFrom other parent index nodes) := by
  induction nodes generalizing host other index with
  | nil => exact start
  | cons node rest ih =>
    rw [insertFrom_cons, insertFrom_cons]
    exact ih (steps.carryOut start _ rfl) (index + 1)

theorem showProp (steps : InStep related) (start : related host other) (target : HostId) (name : String)
    (value : PropValue) :
    related (showProp host target name value) (ReactiveTree.showProp other target name value) := by
  unfold ReactiveTree.showProp
  split
  next => exact steps.carryOut start _ rfl
  next =>
    split
    next => exact steps.carryOut start _ rfl
    next => exact steps.carryOut start _ rfl

theorem showProps (steps : InStep related) (start : related host other) (target : HostId) (props : Props) :
    related (showProps host target props) (ReactiveTree.showProps other target props) := by
  unfold ReactiveTree.showProps
  induction props.onHost generalizing host other with
  | nil => exact start
  | cons entry rest ih =>
    refine ih ?_
    dsimp only
    split
    next => exact start
    next => exact steps.showProp start target _ _

mutual

/-- Both hosts build the same nodes. -/
theorem build (steps : InStep related) {host : H} {other : K}
    (start : related host other) : (tree : Tree) →
    (tree.build host).1 = (tree.build other).1 ∧ related (tree.build host).2 (tree.build other).2
  | .text content => by
    simp only [Tree.build]
    exact (steps.createText start content).imp_left fun same => by rw [same]
  | .fragment children key => by
    simp only [Tree.build]
    exact buildAll steps start children
  | .element tag props children key => by
    obtain ⟨same, created⟩ := steps.createElement start tag
    obtain ⟨nodes, built⟩ := buildAll steps
      (steps.showProps created (Host.createElement other tag).1 props) children
    simp only [Tree.build, same, nodes]
    exact ⟨trivial, steps.insertFrom built _ 0 _⟩

theorem buildAll (steps : InStep related) {host : H} {other : K}
    (start : related host other) : (trees : List Tree) →
    (Tree.buildAll host trees).1 = (Tree.buildAll other trees).1 ∧
      related (Tree.buildAll host trees).2 (Tree.buildAll other trees).2
  | [] => by
    simp only [Tree.buildAll]
    exact ⟨trivial, start⟩
  | tree :: rest => by
    obtain ⟨nodes, built⟩ := build steps start tree
    obtain ⟨more, finished⟩ := buildAll steps built rest
    simp only [Tree.buildAll, nodes, more]
    exact ⟨trivial, finished⟩

end

theorem change (steps : InStep related) (start : related host other) (target : HostId) (change : Change) :
    related (change.carryOut host target) (change.carryOut other target) := by
  cases change with
  | text => exact steps.carryOut start _ rfl
  | set name value => exact steps.showProp start target name value
  | unset name value => cases value <;> exact steps.carryOut start _ rfl

/-- Patches that do not move take both hosts along. -/
theorem patch (steps : InStep related) (start : related host other) {patch : Patch} (plain : patch.isMove = false) :
    related (patch.carryOut host) (patch.carryOut other) := by
  cases patch with
  | insert parent index tree =>
    obtain ⟨nodes, built⟩ := steps.build start tree
    simp only [Patch.carryOut, nodes]
    exact steps.insertFrom built parent index _
  | remove => exact steps.carryOut start _ rfl
  | replace parent index target tree =>
    obtain ⟨nodes, built⟩ := steps.build start tree
    simp only [Patch.carryOut, nodes]
    exact steps.insertFrom (steps.carryOut built _ rfl) parent index _
  | move => cases plain
  | update target change => exact steps.change start target change

theorem layoutChildren (steps : InStep related) (start : related host other) (parent : HostId) (old new : List Tree)
    {plan plan' : Siblings → Except ReconcileFailure Plan}
    (plans : ∀ siblings, plan siblings = plan' siblings) :
    layoutChildren host parent old new plan =
      ReactiveTree.layoutChildren other parent old new plan' := by
  unfold ReactiveTree.layoutChildren
  rw [steps.children start parent]
  simp only [plans]

mutual

/-- Both hosts get one plan. -/
theorem planMatched (steps : InStep related) {host : H} {other : K}
    (start : related host other) : (tree : Tree) →
    ∀ (run : List Place) (old : Tree),
      planMatched host run old tree = ReactiveTree.planMatched other run old tree
  | .text content => by
    intro run old
    unfold ReactiveTree.planMatched
    rfl
  | .element tag props children key => by
    intro run old
    unfold ReactiveTree.planMatched
    split
    next =>
      split
      next =>
        rw [steps.layoutChildren start _ _ children fun siblings =>
          planSiblings steps start children siblings.old siblings.partners]
      next => rfl
    next => rfl
  | .fragment children key => by
    intro run old
    unfold ReactiveTree.planMatched
    split
    next =>
      dsimp only
      rw [planSiblings steps start children]
    next => rfl

theorem planSiblings (steps : InStep related) {host : H} {other : K}
    (start : related host other) : (trees : List Tree) →
    ∀ (old : List (Tree × List Place)) (partners : List (Option Nat)),
      planSiblings host old partners trees = ReactiveTree.planSiblings other old partners trees
  | [] => fun _ _ => rfl
  | child :: rest => by
    intro old partners
    unfold ReactiveTree.planSiblings
    rw [planSiblings steps start rest]
    split
    next tree run _ => rw [planMatched steps start child run tree]
    next => rfl

end

/-- Both hosts get the same patches. -/
theorem diff (steps : InStep related) (start : related host other) (policy : KeyPolicy)
    (container : HostId) (old new : Option Tree) :
    diff policy host container old new = ReactiveTree.diff policy other container old new := by
  unfold ReactiveTree.diff
  split
  next => rfl
  next =>
    exact steps.layoutChildren start container _ _ fun siblings =>
      steps.planSiblings start _ siblings.old siblings.partners

end InStep

theorem Journal.document_call {detail : Journal.Detail} (journal : Journal detail)
    (command : HostCommand) :
    (journal.call command).document = journal.document.attempt command :=
  (journal.write (.called command)).document_attempt command

/-- A journal of refusals is in step with its document. -/
theorem inStep_document :
    InStep fun (journal : Journal .refusals) (document : Document) => journal.document = document where
  children := by
    rintro journal _ rfl id
    rfl
  createElement := by
    rintro journal _ rfl tag
    exact ⟨rfl, rfl⟩
  createText := by
    rintro journal _ rfl content
    exact ⟨rfl, rfl⟩
  carryOut := by
    rintro journal _ rfl command _
    exact journal.document_attempt command

theorem Journal.document_carryOutAll (journal : Journal .refusals) (patches : List Patch) :
    (Patch.carryOutAll journal patches).document = Patch.carryOutAll journal.document patches := by
  induction patches generalizing journal with
  | nil => rfl
  | cons patch rest ih =>
    have first : (patch.carryOut journal).document = patch.carryOut journal.document := by
      cases patch with
      | move parent target before after =>
        exact journal.document_attempt (.moveChild parent target after)
      | _ => exact inStep_document.patch rfl rfl
    exact (ih (patch.carryOut journal)).trans (congrArg (Patch.carryOutAll · rest) first)

/-- To reconcile on a journal of refusals is to reconcile on its document. -/
theorem Journal.reconcile_document (journal : Journal .refusals) (policy : KeyPolicy)
    (container : HostId) (old new : Option Tree) :
    (reconcile policy journal container old new).1 =
        (reconcile policy journal.document container old new).1 ∧
      (reconcile policy journal container old new).2.document =
        (reconcile policy journal.document container old new).2 := by
  have same : diff policy journal container old new = diff policy journal.document container old new :=
    inStep_document.diff rfl policy container old new
  unfold reconcile
  rw [same]
  split
  next patches _ => exact ⟨rfl, journal.document_carryOutAll patches⟩
  next => exact ⟨rfl, rfl⟩

/-- What a command does to the nodes does not hang on how many mutations there were. -/
theorem Document.nodes_attempt {first second : Document} (same : first.nodes = second.nodes)
    (command : HostCommand) : (first.attempt command).nodes = (second.attempt command).nodes := by
  obtain ⟨nodes, mutations⟩ := first
  obtain ⟨nodes', mutations'⟩ := second
  cases same
  have contents (id : HostId) :
      Document.content? ⟨nodes, mutations⟩ id = Document.content? ⟨nodes, mutations'⟩ id := rfl
  have parents (id : HostId) :
      Document.parent? ⟨nodes, mutations⟩ id = Document.parent? ⟨nodes, mutations'⟩ id := rfl
  have known (id : HostId) :
      Document.contains ⟨nodes, mutations⟩ id = Document.contains ⟨nodes, mutations'⟩ id := rfl
  unfold Document.attempt
  cases command with
  | setText node | setAttribute node | addListener node =>
    simp only [Document.perform, contents]
    cases Document.content? ⟨nodes, mutations'⟩ node with
    | none => rfl
    | some content => cases content <;> rfl
  | removeAttribute node name =>
    simp only [Document.perform, contents]
    cases Document.content? ⟨nodes, mutations'⟩ node with
    | none => rfl
    | some content =>
      cases content with
      | text => rfl
      | element tag attributes =>
        by_cases shown : hasEntry attributes name <;>
          simp [shown, setContent, Document.modify, counted]
  | removeListener node event =>
    simp only [Document.perform, contents]
    cases Document.content? ⟨nodes, mutations'⟩ node with
    | none => rfl
    | some content =>
      cases content with
      | text => rfl
      | element tag attributes listeners =>
        by_cases heard : hasEntry listeners event <;>
          simp [heard, setContent, Document.modify, counted]
  | insertChild parent child index =>
    simp only [Document.perform, known]
    by_cases both : Document.contains ⟨nodes, mutations'⟩ parent ∧
        Document.contains ⟨nodes, mutations'⟩ child
    · simp only [both, and_self, if_true]
      unfold Document.detach
      rw [parents]
      cases Document.parent? ⟨nodes, mutations'⟩ child <;> rfl
    · simp only [both, if_false]
  | removeChild parent child =>
    simp only [Document.perform, parents]
    by_cases attached : Document.parent? ⟨nodes, mutations'⟩ child = some parent
    · simp only [attached, if_true]
      unfold Document.detach
      rw [parents, attached]
      rfl
    · simp only [attached, if_false]
  | moveChild parent child index =>
    simp only [Document.perform, parents]
    by_cases attached : Document.parent? ⟨nodes, mutations'⟩ child = some parent
    · simp only [attached, if_true]
      rfl
    · simp only [attached, if_false]

theorem Document.nodes_ext {first second : Document}
    (same : ∀ id, first.node? id = second.node? id) : first.nodes = second.nodes :=
  List.ext_getElem? fun index => same ⟨index⟩

/-- A child that is removed and inserted again under its parent is where a move puts it. -/
theorem Document.nodes_move {document : Document} (linked : document.Linked) {parent child : HostId}
    (attached : document.parent? child = some parent) (index : Nat) :
    ((document.attempt (.removeChild parent child)).attempt (.insertChild parent child index)).nodes =
      (document.attempt (.moveChild parent child index)).nodes := by
  have moved : document.attempt (.moveChild parent child index) =
      (document.reposition parent child index).counted := by
    simp [Document.attempt, Document.perform, attached]
  have removed : document.attempt (.removeChild parent child) = (document.detach child).counted := by
    simp [Document.attempt, Document.perform, attached]
  have orphan : (document.detach child).counted.parent? child = none := by
    show (document.detach child).parent? child = none
    rw [parent?_detach, if_pos rfl]
  have known {id : HostId} (there : document.contains id) :
      (document.detach child).counted.contains id := by
    rw [contains_iff, node?_counted, node?_detach]
    obtain ⟨node, found⟩ := contains_iff.mp there
    exact ⟨_, by rw [found]; rfl⟩
  rw [removed, moved, attempt_insertChild orphan,
    if_pos ⟨known (linked.contains_parent attached), known (contains_of_parent? attached)⟩]
  refine nodes_ext fun id => ?_
  rw [node?_counted, node?_counted, node?_attach, node?_counted, node?_detach, node?_reposition]
  cases found : document.node? id with
  | none => rfl
  | some node =>
    have above : (if id = child then some parent else if id = child then none else node.parent) =
        node.parent := by
      split
      next own =>
        subst own
        rw [Document.parent?, found] at attached
        exact attached.symm
      next => rfl
    simp only [Option.map_some, attached, Option.some.injEq, @eq_comm _ parent id, above]
    by_cases here : id = parent
    · simp only [if_pos here]
    · simp only [if_neg here]

/-- A journal whose document has the nodes of another. -/
def SameNodes (journal : Journal .everything) (document : Document) : Prop :=
  journal.document.nodes = document.nodes

theorem SameNodes.create {journal : Journal .everything} {document : Document}
    (same : SameNodes journal document) (content : Content) :
    (journal.document.create content).1 = (document.create content).1 ∧
      (journal.document.create content).2.nodes = (document.create content).2.nodes := by
  have same : journal.document.nodes = document.nodes := same
  simp [Document.create, same]

theorem inStep_sameNodes : InStep SameNodes where
  children := by
    intro journal document same id
    have same : journal.document.nodes = document.nodes := same
    show journal.document.children id = document.children id
    unfold Document.children Document.node?
    rw [same]
  createElement same tag := same.create _
  createText same content := same.create _
  carryOut := by
    intro journal document same command plain
    have once : Journal.callsFor command = [command] := by
      cases command <;> first | rfl | cases plain
    show ((Journal.callsFor command).foldl Journal.call journal).document.nodes = _
    rw [once, List.foldl_cons, List.foldl_nil, Journal.document_call]
    exact Document.nodes_attempt same command

/-- A journal follows a move if the child is there. -/
theorem SameNodes.move {journal : Journal .everything} {document : Document}
    (same : SameNodes journal document) (linked : document.Linked) {parent target : HostId}
    (attached : document.parent? target = some parent) (before after : Nat) :
    SameNodes ((Patch.move parent target before after).carryOut journal)
      ((Patch.move parent target before after).carryOut document) := by
  show ((journal.call (.removeChild parent target)).call
    (.insertChild parent target after)).document.nodes =
      (document.attempt (.moveChild parent target after)).nodes
  rw [Journal.document_call, Journal.document_call, ← Document.nodes_move linked attached]
  exact Document.nodes_attempt (Document.nodes_attempt same _) _

section

variable {document : Document} {id : HostId} {patches : List Patch}

/-- Commands that neither insert nor remove a node leave it under its parent. -/
theorem Document.parent?_attempt {command : HostCommand} (kept : command.isInsert = false)
    (stays : ∀ parent, command ≠ .removeChild parent id) :
    (document.attempt command).parent? id = document.parent? id := by
  unfold Document.attempt
  split
  next changed fits =>
    cases command with
    | setText | setAttribute | addListener =>
      simp only [Document.perform] at fits
      split at fits <;> cases fits
      exact parent?_setContent ..
    | removeAttribute | removeListener =>
      simp only [Document.perform] at fits
      split at fits
      · split at fits <;> cases fits
        · exact parent?_setContent ..
        · rfl
      · cases fits
    | insertChild => cases kept
    | removeChild parent child =>
      simp only [Document.perform] at fits
      split at fits <;> cases fits
      show (document.detach child).parent? id = _
      rw [parent?_detach, if_neg]
      rintro rfl
      exact stays parent rfl
    | moveChild =>
      simp only [Document.perform] at fits
      split at fits <;> cases fits
      exact parent?_reposition ..
  next => rfl

/-- A patch leaves every node that it does not take away under its parent. -/
theorem Patch.parent?_carryOut (linked : document.Linked) (known : document.contains id)
    {patch : Patch} (stays : patch.taken? ≠ some id) :
    (patch.carryOut document).parent? id = document.parent? id := by
  have old (tree : Tree) : id ∉ (tree.build document).1 := by
    obtain ⟨-, built⟩ := tree.build_spec linked
    exact fun member => built.fresh id member known
  have built (tree : Tree) : (tree.build document).2.parent? id = document.parent? id := by
    obtain ⟨-, built⟩ := tree.build_spec linked
    exact parent?_of_node? (built.node?_eq known)
  cases patch with
  | insert parent index tree =>
    obtain ⟨-, made⟩ := tree.build_spec linked
    have graft := grafted_insertFrom made.change.linked parent made.orphans made.distinct index
    exact (graft.parents (old tree)).trans (built tree)
  | remove parent index target =>
    refine parent?_attempt rfl fun parent same => ?_
    cases same
    exact stays rfl
  | replace parent index target tree =>
    obtain ⟨-, made⟩ := tree.build_spec linked
    have removed : ChangesWithin (fun _ => True) (tree.build document).2
        (Host.carryOut (tree.build document).2 (.removeChild parent target)) :=
      changesWithin_attempt made.change.linked rfl fun _ _ => trivial
    have graft := grafted_insertFrom removed.linked parent
      (made.orphans_of_changesWithin removed) made.distinct index
    refine (graft.parents (old tree)).trans (Eq.trans ?_ (built tree))
    refine parent?_attempt rfl fun parent same => ?_
    cases same
    exact stays rfl
  | move => exact parent?_attempt rfl nofun
  | update target change =>
    obtain ⟨command, kept, touched, same⟩ := change.exists_command target
    show (change.carryOut document target).parent? id = _
    rw [same]
    refine parent?_attempt kept fun parent here => ?_
    rw [here] at touched
    cases touched

theorem Steady.of_mem {rest : List Patch} {patch : Patch}
    (steady : Steady document (patch :: rest)) (linked : document.Linked) :
    Steady (patch.carryOut document) rest := by
  intro parent target before after member
  obtain ⟨attached, stays⟩ := steady parent target before after (List.mem_cons_of_mem _ member)
  refine ⟨?_, fun other listed => stays other (List.mem_cons_of_mem _ listed)⟩
  rw [Patch.parent?_carryOut linked (contains_of_parent? attached) (stays _ List.mem_cons_self)]
  exact attached

/-- A journal follows steady patches, through every single one. -/
theorem SameNodes.carryOutAll {journal : Journal .everything} (same : SameNodes journal document)
    (linked : document.Linked) (steady : Steady document patches) :
    List.Forall₂ SameNodes (patches.scanl Patch.carryOut journal)
        (patches.scanl Patch.carryOut document) ∧
      SameNodes (Patch.carryOutAll journal patches) (Patch.carryOutAll document patches) := by
  induction patches generalizing journal document with
  | nil => exact ⟨.cons same .nil, same⟩
  | cons patch rest ih =>
    have next : SameNodes (patch.carryOut journal) (patch.carryOut document) := by
      by_cases moves : patch.isMove = true
      · cases patch with
        | move parent target before after =>
          exact same.move linked (steady parent target before after List.mem_cons_self).1 _ _
        | _ => cases moves
      · exact inStep_sameNodes.patch same (Bool.eq_false_iff.mpr moves)
    have change : ChangesWithin (fun _ => True) document (patch.carryOut document) :=
      Patch.changesWithin_carryOut linked fun _ _ => trivial
    obtain ⟨passed, last⟩ := ih next change.linked (steady.of_mem linked)
    rw [List.scanl_cons, List.scanl_cons]
    exact ⟨.cons same passed, last⟩

end

/-- A call of the reconciler. -/
structure Reconciling where
  policy : KeyPolicy
  container : HostId
  old : Option Tree
  new : Option Tree

namespace Reconciling

/-- The result of a call, and the host after it. -/
def call {H : Type} [Host H] (step : Reconciling) (host : H) :
    Except ReconcileFailure (List Patch) × H :=
  reconcile step.policy host step.container step.old step.new

/-- The host at the start of a call and after each of its patches. -/
def passes {H : Type} [Host H] (step : Reconciling) (host : H) : List H :=
  match (step.call host).1 with
  | .ok patches => patches.scanl Patch.carryOut host
  | .error _ => [host]

/-- The results of calls that come one after another, each with the hosts that it goes through. -/
def course {H : Type} [Host H] (host : H) :
    List Reconciling → List (Except ReconcileFailure (List Patch) × List H)
  | [] => []
  | step :: rest => ((step.call host).1, step.passes host) :: course (step.call host).2 rest

/-- Whether no call names a container that lies below itself when its turn comes. -/
def Rooted (document : Document) : List Reconciling → Prop
  | [] => True
  | step :: rest => document.Grounded step.container ∧ Rooted (step.call document).2 rest

/-- Whether each call names a container that is there when its turn comes. -/
def Anchored (document : Document) : List Reconciling → Prop
  | [] => True
  | step :: rest => document.contains step.container ∧ Anchored (step.call document).2 rest

/-- A forest stays one as long as the containers are there, so that none of them lies below itself. -/
theorem Anchored.rooted {document : Document} (forest : document.Forest) {steps : List Reconciling}
    (anchored : Anchored document steps) : Rooted document steps := by
  induction steps generalizing document with
  | nil => trivial
  | cons step rest ih =>
    obtain ⟨known, later⟩ := anchored
    exact ⟨forest.grounded step.container, ih (forest_reconcile forest known) later⟩

end Reconciling

/-- Two hosts through one call. -/
theorem SameNodes.call {journal : Journal .everything} {document : Document}
    (same : SameNodes journal document) (linked : document.Linked) (step : Reconciling)
    (grounded : document.Grounded step.container) :
    (step.call journal).1 = (step.call document).1 ∧
      List.Forall₂ SameNodes (step.passes journal) (step.passes document) ∧
      SameNodes (step.call journal).2 (step.call document).2 := by
  have planned := inStep_sameNodes.diff same step.policy step.container step.old step.new
  unfold Reconciling.passes Reconciling.call reconcile
  rw [planned]
  cases found : diff step.policy document step.container step.old step.new with
  | error failure => exact ⟨rfl, .cons same .nil, same⟩
  | ok patches =>
    obtain ⟨passed, last⟩ := same.carryOutAll linked (steady_diff linked grounded found)
    exact ⟨rfl, passed, last⟩

/-- A host without a move of its own is taken through the same trees. Whatever calls of the reconciler
come one after another, each for a container that does not lie below itself when its turn comes, give
the same results on a document and on a host that delegates to one with the same nodes, but removes and
inserts a child to move it; and after each single patch the nodes are the same. -/
theorem course_of_default_move {journal : Journal .everything} {document : Document}
    (same : journal.document.nodes = document.nodes) (linked : document.Linked)
    (steps : List Reconciling) (rooted : Reconciling.Rooted document steps) :
    (Reconciling.course journal steps).map (fun (result, hosts) =>
        (result, hosts.map fun host => host.document.nodes)) =
      (Reconciling.course document steps).map fun (result, hosts) =>
        (result, hosts.map Document.nodes) := by
  induction steps generalizing journal document with
  | nil => rfl
  | cons step rest ih =>
    obtain ⟨grounded, later⟩ := rooted
    obtain ⟨results, passed, last⟩ := SameNodes.call same linked step grounded
    have linked' : (step.call document).2.Linked := (changesWithin_reconcile linked).linked
    have trees : (step.passes journal).map (fun host => host.document.nodes) =
        (step.passes document).map Document.nodes := by
      rw [← List.forall₂_eq_eq_eq, List.forall₂_map_left_iff, List.forall₂_map_right_iff]
      exact passed
    show (_, (step.passes journal).map fun host => host.document.nodes) :: _ =
      (_, (step.passes document).map Document.nodes) :: _
    rw [results, trees]
    exact congrArg _ (ih last linked' later)

/-- Three keyed items under the root. -/
def Reconciling.items (keys : List String) : Tree :=
  .fragment (keys.map fun key => .element "li" .empty [.text key] (some ⟨key⟩)) none

/-- Items are shown and put into another order, one of them is filled, an old tree is claimed that is
too narrow, and one that has the width of what is there. -/
def Reconciling.shuffle : List Reconciling :=
  [⟨.strict, root, none, some (items ["a", "b", "c"])⟩,
    ⟨.strict, root, some (items ["a", "b", "c"]), some (items ["c", "d", "b", "a"])⟩,
    ⟨.strict, ⟨3⟩, some (.text "?"), some (.element "p" .empty [] none)⟩,
    ⟨.strict, root, some (.text "x"), none⟩,
    ⟨.strict, root, some (items ["a", "b", "c", "d"]), some (items ["d", "a", "c"])⟩]

/-- The journal counts more mutations. -/
theorem course_of_default_move_shuffle :
    (Journal.opened .empty : Journal .everything).document.nodes = Document.empty.nodes ∧
      Document.empty.Linked ∧ Reconciling.Rooted .empty Reconciling.shuffle ∧
      (Reconciling.course (Journal.opened .empty : Journal .everything) Reconciling.shuffle).map
          (fun (result, hosts) => (result, hosts.map fun host => host.document.nodes)) =
        (Reconciling.course Document.empty Reconciling.shuffle).map
          (fun (result, hosts) => (result, hosts.map Document.nodes)) ∧
      (Reconciling.course Document.empty Reconciling.shuffle).map (fun (result, hosts) =>
        (result.isOk, hosts.length)) = [(true, 2), (true, 4), (true, 2), (false, 1), (true, 3)] ∧
      (Reconciling.course (Journal.opened .empty : Journal .everything) Reconciling.shuffle).map
          (fun (_, hosts) => hosts.map fun host => host.document.mutations) ≠
        (Reconciling.course Document.empty Reconciling.shuffle).map
          (fun (_, hosts) => hosts.map Document.mutations) := by
  have anchored : Reconciling.Anchored .empty Reconciling.shuffle := by
    refine ⟨?_, ?_, ?_, ?_, ?_, trivial⟩ <;> cbv
  have rooted := anchored.rooted Forest.empty
  exact ⟨rfl, linked_empty, rooted, course_of_default_move rfl linked_empty _ rooted,
    by cbv, by cbv; decide⟩

/-- Items are taken off a list and put into another order, by an old tree that claims the list for its
own child. -/
def Reconciling.tangled : Reconciling :=
  ⟨.strict, ⟨1⟩, some (.listThen ["a", "b"] ["a", "b"]), some (.listThen ["a"] ["b", "a"])⟩

/-- In a list that is its own child the item that was taken off is moved afterwards. A document refuses
that, and a host that removes and inserts puts the item back. -/
theorem default_move_below_itself :
    Document.knot.Reachable ∧
      (Reconciling.tangled.call Document.knot).2.children ⟨1⟩ = [⟨1⟩, ⟨2⟩] ∧
      (Reconciling.tangled.call (Journal.opened .knot : Journal .everything)).2.document.children ⟨1⟩ =
        [⟨1⟩, ⟨3⟩, ⟨2⟩] ∧
      (Reconciling.course (Journal.opened .knot : Journal .everything) [Reconciling.tangled]).map
          (fun (result, hosts) => (result, hosts.map fun host => host.document.nodes)) ≠
        (Reconciling.course Document.knot [Reconciling.tangled]).map
          (fun (result, hosts) => (result, hosts.map Document.nodes)) := by
  have lists : ((Reconciling.course Document.knot [Reconciling.tangled]).map
      (fun (result, hosts) => (result, hosts.map Document.nodes))).map
        (fun (_, hosts) => hosts.map (List.map HostNode.children)) =
          [[[[], [⟨1⟩, ⟨2⟩, ⟨3⟩], [], []], [[], [⟨1⟩, ⟨2⟩], [], []], [[], [⟨1⟩, ⟨2⟩], [], []]]] := by
    cbv
  have lists' : ((Reconciling.course (Journal.opened .knot : Journal .everything)
      [Reconciling.tangled]).map (fun (result, hosts) =>
        (result, hosts.map fun (host : Journal .everything) => host.document.nodes))).map
          (fun (_, hosts) => hosts.map (List.map HostNode.children)) =
            [[[[], [⟨1⟩, ⟨2⟩, ⟨3⟩], [], []], [[], [⟨1⟩, ⟨2⟩], [], []],
              [[], [⟨1⟩, ⟨3⟩, ⟨2⟩], [], []]]] := by
    cbv
  refine ⟨Document.reachable_knot, by cbv, by cbv, fun same => ?_⟩
  rw [same, lists] at lists'
  revert lists'
  decide

end ReactiveTree
