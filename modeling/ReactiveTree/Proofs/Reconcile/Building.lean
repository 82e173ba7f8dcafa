import ReactiveTree.Proofs.Reconcile.Attributes

/-! # Building what a tree stands for

New nodes put side by side into a list of children take exactly the indices from the one named on,
and the nodes built for a tree show it. Nothing on the way is refused or clamped, and no node that
was there before changes.
-/

namespace ReactiveTree

open Document

variable {document : Document} {parent node : HostId} {nodes left right : List HostId}

theorem insertFrom_cons {H : Type} [Host H] (host : H) (parent : HostId) (index : Nat)
    (node : HostId) (rest : List HostId) :
    insertFrom host parent index (node :: rest) =
      insertFrom (Host.carryOut host (.insertChild parent node index)) parent (index + 1) rest := by
  simp only [insertFrom, List.zipIdx_cons, List.foldl_cons, Nat.zero_add, Nat.add_zero]
  rw [List.zipIdx_succ, List.foldl_map]
  congr 1
  funext host entry
  rw [Nat.add_assoc, Nat.add_comm 1]

theorem insertIdx_length_append (left right : List HostId) (node : HostId) :
    (left ++ right).insertIdx left.length node = left ++ node :: right := by
  induction left with
  | nil => simp
  | cons head rest ih => simpa using ih

/-- Nodes that may be inserted under a parent: it has no part in them, and no node does yet. -/
structure Insertable (document : Document) (parent : HostId) (nodes : List HostId) : Prop where
  parentKnown : document.contains parent
  known : ∀ node ∈ nodes, document.contains node
  orphans : ∀ node ∈ nodes, document.parent? node = none
  distinct : nodes.Nodup
  apart : parent ∉ nodes

/-- What an insertion makes of each node. -/
def adopt (parent : HostId) (children nodes : List HostId) (id : HostId) (node : HostNode) :
    HostNode :=
  { node with
    children := if id = parent then children else node.children
    parent := if id ∈ nodes then some parent else node.parent }

private theorem adopt_adopt (parent : HostId) (children former : List HostId) (node : HostId)
    (rest : List HostId) (id : HostId) (here : HostNode) :
    adopt parent children rest id (adopt parent former [node] id here) =
      adopt parent children (node :: rest) id here := by
  by_cases same : id = parent <;> by_cases one : id = node <;> by_cases later : id ∈ rest <;>
    simp_all [adopt]

private theorem carryOut_insertChild (linked : document.Linked)
    (free : Insertable document parent [node]) (split : document.children parent = left ++ right) :
    (HostCommand.insertChild parent node left.length).fits document ∧
      (Host.carryOut document (.insertChild parent node left.length)).Linked ∧
      (Host.carryOut document (.insertChild parent node left.length)).nodes.length =
        document.nodes.length ∧
      ∀ other, (Host.carryOut document (.insertChild parent node left.length)).node? other =
        (document.node? other).map (adopt parent (left ++ node :: right) [node] other) := by
  have known := free.known node (List.mem_singleton_self _)
  have orphan := free.orphans node (List.mem_singleton_self _)
  have alone : document.detach node = document := by
    unfold Document.detach
    rw [orphan]
  have performed : document.perform (.insertChild parent node left.length) =
      .ok (document.attach parent node left.length).counted := by
    simp [Document.perform, free.parentKnown, known, alone]
  have carried : Host.carryOut document (.insertChild parent node left.length) =
      (document.attach parent node left.length).counted := by
    show Document.attempt _ _ = _
    rw [Document.attempt, performed]
  have absent : node ∉ document.children parent := by
    rw [linked.mem_children_iff, orphan]
    simp
  refine ⟨?_, ?_, ?_, ?_⟩
  · have others : (document.children parent).filter (fun sibling => sibling ≠ node) =
        document.children parent := by
      rw [List.filter_eq_self]
      intro sibling member
      rw [decide_eq_true_eq]
      rintro rfl
      exact absent member
    rw [HostCommand.fits, performed, others, split]
    simp [Except.isOk, Except.toBool]
  · rw [carried]
    exact (linked.attach orphan free.parentKnown known _).counted
  · rw [carried]
    simp [Document.attach, Document.counted, Document.length_modify]
  · intro other
    rw [carried, node?_counted, node?_attach]
    cases found : document.node? other with
    | none => rfl
    | some here =>
      simp only [Option.map_some, adopt, List.mem_singleton, Option.some.injEq]
      congr 1
      by_cases same : other = parent
      · subst same
        have listed : here.children = left ++ right := by
          rw [← split]
          simp [Document.children, found]
        rw [if_pos rfl, if_pos rfl, listed, List.length_append,
          Nat.min_eq_left (Nat.le_add_right ..), insertIdx_length_append]
      · rw [if_neg same, if_neg same]

/-- Nodes inserted side by side fill the indices from the first one on. -/
theorem insertFrom_spec (linked : document.Linked) (free : Insertable document parent nodes)
    (split : document.children parent = left ++ right) :
    insertFrom (Audit.opened document) parent left.length nodes =
        Audit.opened (insertFrom document parent left.length nodes) ∧
      (insertFrom document parent left.length nodes).Linked ∧
      (insertFrom document parent left.length nodes).nodes.length = document.nodes.length ∧
      ∀ other, (insertFrom document parent left.length nodes).node? other =
        (document.node? other).map (adopt parent (left ++ nodes ++ right) nodes other) := by
  induction nodes generalizing document left with
  | nil =>
    refine ⟨rfl, linked, rfl, fun other => ?_⟩
    show document.node? other = _
    cases found : document.node? other with
    | none => rfl
    | some here =>
      simp only [Option.map_some, adopt, List.not_mem_nil, if_false, Option.some.injEq]
      by_cases same : other = parent
      · subst same
        have listed : here.children = left ++ right := by
          rw [← split]
          simp [Document.children, found]
        simp [← listed]
      · simp [same]
  | cons node rest ih =>
    have fresh := List.nodup_cons.mp free.distinct
    have first : Insertable document parent [node] :=
      { parentKnown := free.parentKnown
        known := fun other member => by
          rw [List.mem_singleton.mp member]; exact free.known node (List.mem_cons_self ..)
        orphans := fun other member => by
          rw [List.mem_singleton.mp member]; exact free.orphans node (List.mem_cons_self ..)
        distinct := by simp
        apart := fun member => free.apart
          (by rw [List.mem_singleton.mp member]; exact List.mem_cons_self ..) }
    obtain ⟨fits, nextLinked, nextLength, nextNode⟩ := carryOut_insertChild linked first split
    rw [insertFrom_cons, insertFrom_cons, Audit.carryOut_opened fits]
    generalize Host.carryOut document (.insertChild parent node left.length) = next at *
    have nextSplit : next.children parent = (left ++ [node]) ++ right := by
      obtain ⟨above, found⟩ := contains_iff.mp free.parentKnown
      simp [Document.children, nextNode, found, adopt]
    have keeps : ∀ id, document.contains id → next.contains id := by
      intro id present
      rw [contains_iff_lt] at present ⊢
      omega
    have later : Insertable next parent rest :=
      { parentKnown := keeps _ free.parentKnown
        known := fun other member => keeps _ (free.known other (List.mem_cons_of_mem _ member))
        orphans := fun other member => by
          have old := free.orphans other (List.mem_cons_of_mem _ member)
          have other_ne : other ≠ node := by
            rintro rfl
            exact fresh.1 member
          unfold Document.parent? at old ⊢
          rw [nextNode]
          cases found : document.node? other with
          | none => rfl
          | some here => simpa [adopt, found, other_ne] using old
        distinct := fresh.2
        apart := fun member => free.apart (List.mem_cons_of_mem _ member) }
    obtain ⟨quiet, lastLinked, lastLength, lastNode⟩ := ih nextLinked later nextSplit
    rw [List.length_append, List.length_singleton] at quiet lastLinked lastLength lastNode
    refine ⟨quiet, lastLinked, lastLength.trans nextLength, fun other => ?_⟩
    rw [lastNode, nextNode, Option.map_map]
    congr 1
    funext here
    simp only [Function.comp_apply, adopt_adopt, List.append_assoc, List.nil_append,
      List.cons_append]

/-- New nodes without a parent that show trees; what was there before is as it was. -/
structure Built (before : Document) (nodes : List HostId) (after : Document)
    (trees : List Tree) : Prop where
  change : ChangesWithin (fun _ => False) before after
  fresh : ∀ node ∈ nodes, ¬ before.contains node
  known : ∀ node ∈ nodes, after.contains node
  orphans : ∀ node ∈ nodes, after.parent? node = none
  distinct : nodes.Nodup
  shows : after.ShowsAll nodes trees

namespace Built

variable {before middle after : Document} {more : List HostId} {first second : List Tree}

theorem node?_eq (built : Built before nodes after first) {id : HostId}
    (known : before.contains id) : after.node? id = before.node? id :=
  built.change.outside known not_false

theorem nil (linked : before.Linked) : Built before [] before [] where
  change := .refl linked
  fresh := by simp
  known := by simp
  orphans := by simp
  distinct := List.nodup_nil
  shows := rfl

theorem append (built : Built before nodes middle first) (next : Built middle more after second)
    (linked : before.Linked) : Built before (nodes ++ more) after (first ++ second) where
  change := built.change.trans next.change
  fresh node member := by
    rcases List.mem_append.mp member with early | late
    · exact built.fresh node early
    · exact fun known => next.fresh node late (built.change.contains known)
  known node member := by
    rcases List.mem_append.mp member with early | late
    · exact next.change.contains (built.known node early)
    · exact next.known node late
  orphans node member := by
    rcases List.mem_append.mp member with early | late
    · rw [parent?_of_node? (next.node?_eq (built.known node early))]
      exact built.orphans node early
    · exact next.orphans node late
  distinct := by
    rw [List.nodup_append]
    refine ⟨built.distinct, next.distinct, ?_⟩
    rintro node early _ late rfl
    exact next.fresh node late (built.known node early)
  shows := by
    refine showsAll_append.mpr ⟨nodes, more, rfl, ?_, next.shows⟩
    exact built.shows.persists next.change (built.change.closed_new linked)
      (fun node member => ⟨built.fresh node member, built.known node member⟩)
      fun new => ⟨new.2, not_false⟩

end Built

private theorem changesWithin_create (linked : document.Linked) (content : Content) :
    ChangesWithin (fun _ => False) document (document.create content).2 := by
  refine .of_unchanged (linked.create content) (by simp [Document.create]) fun {id} known => ?_
  rw [node?_create, if_neg]
  rintro rfl
  exact document.not_contains_create content known

private theorem contains_create (document : Document) (content : Content) :
    (document.create content).2.contains (document.create content).1 := by
  simp [Document.contains, Document.create]

private theorem build_text (linked : document.Linked) (content : String) :
    (Tree.text content).build (Audit.opened document) =
        (((Tree.text content).build document).1,
          Audit.opened ((Tree.text content).build document).2) ∧
      Built document ((Tree.text content).build document).1
        ((Tree.text content).build document).2 [.text content] := by
  refine ⟨rfl, ?_⟩
  show Built document [(document.create (.text content)).1] (document.create (.text content)).2 _
  have found : (document.create (.text content)).2.content? (document.create (.text content)).1 =
      some (.text content) := by
    simp [Document.content?, node?_create]
  exact
    { change := changesWithin_create linked _
      fresh := by simpa using document.not_contains_create (.text content)
      known := by simpa using contains_create document (.text content)
      orphans := by simp [parent?_create]
      distinct := by simp
      shows := showsAll_singleton.mpr ⟨_, rfl, found, by simp [children_create]⟩ }

/-- A new element adopts nodes that were built after it got its attributes. -/
private theorem Built.adopted {started dressed filled : Document} {tag : String} {props : Props}
    {children : List Tree} (start : ChangesWithin (fun _ => False) document started)
    (fresh : ¬ document.contains node) (known : started.contains node)
    (orphan : started.parent? node = none) (childless : started.children node = [])
    (redressed : Redressed started dressed node tag props.attribute?)
    (built : Built dressed nodes filled children) (key : Option Key) :
    insertFrom (Audit.opened filled) node 0 nodes = Audit.opened (insertFrom filled node 0 nodes) ∧
      Built document [node] (insertFrom filled node 0 nodes)
        [.element tag props children key] := by
  obtain ⟨attributes, listeners, rewritten, looks⟩ := redressed
  have dressedKnown : dressed.contains node := rewritten.changesWithin.contains known
  have filledNode : filled.node? node = dressed.node? node := built.node?_eq dressedKnown
  have filledChildless : filled.children node = [] ++ [] := by
    rw [children_of_node? filledNode, rewritten.children, childless]
    rfl
  have apart : node ∉ nodes := fun member => built.fresh node member dressedKnown
  have free : Insertable filled node nodes :=
    { parentKnown := built.change.contains dressedKnown
      known := built.known
      orphans := built.orphans
      distinct := built.distinct
      apart }
  obtain ⟨quiet, linked, length, node?⟩ :=
    insertFrom_spec built.change.linked free filledChildless
  rw [List.length_nil, List.nil_append, List.append_nil] at *
  refine ⟨quiet, ?_⟩
  have lastNode : (insertFrom filled node 0 nodes).node? node =
      (dressed.node? node).map (adopt node nodes nodes node) := by
    rw [node?, filledNode]
  have lastContent : (insertFrom filled node 0 nodes).content? node =
      some (.element tag attributes listeners) := by
    rw [← rewritten.content? known, Document.content?, lastNode, Option.map_map]
    rfl
  obtain ⟨here, found⟩ := contains_iff.mp dressedKnown
  have lastChildren : (insertFrom filled node 0 nodes).children node = nodes := by
    simp [Document.children, lastNode, found, adopt]
  have lastParent : (insertFrom filled node 0 nodes).parent? node = none := by
    rw [← orphan, ← rewritten.parent?, Document.parent?, lastNode]
    simp [Document.parent?, found, adopt, apart]
  have lastKnown : (insertFrom filled node 0 nodes).contains node :=
    contains_of_content? lastContent
  have below : (insertFrom filled node 0 nodes).ShowsAll nodes children := by
    refine ShowsAll.congr (built.change.closed_new rewritten.linked) (fun id new => ?_)
      (fun id member => ⟨built.fresh id member, built.known id member⟩) children built.shows
    have other : id ≠ node := by
      rintro rfl
      exact new.1 dressedKnown
    unfold Document.content? Document.children
    rw [node?]
    cases filled.node? id <;> simp [adopt, other]
  exact
    { change := by
        refine .of_unchanged linked ?_ fun {id} old => ?_
        · have dressing := rewritten.length
          have filling := built.change.grows
          have starting := start.grows
          omega
        · have startedKnown := start.contains old
          have other : id ≠ node := by
            rintro rfl
            exact fresh old
          have early : id ∉ nodes := fun member =>
            built.fresh id member (rewritten.changesWithin.contains startedKnown)
          have unadopted : adopt node nodes nodes id = fun here => here := by
            funext here
            simp [adopt, other, early]
          rw [node?, unadopted, Option.map_id',
            built.node?_eq (rewritten.changesWithin.contains startedKnown),
            rewritten.changesWithin.outside startedKnown other, start.outside old not_false]
      fresh := by simpa using fresh
      known := by simpa using lastKnown
      orphans := by simpa using lastParent
      distinct := by simp
      shows := showsAll_singleton.mpr
        ⟨node, attributes, listeners, rfl, lastContent, looks, by rwa [lastChildren]⟩ }

private theorem build_element {H : Type} [Host H] (host : H) (tag : String) (props : Props)
    (children : List Tree) (key : Option Key) :
    (Tree.element tag props children key).build host =
      let (node, host) := Host.createElement host tag
      let (nodes, host) := Tree.buildAll (showProps host node props) children
      ([node], insertFrom host node 0 nodes) := by
  rw [Tree.build]

mutual

/-- The nodes that are built for a tree show it. -/
theorem Tree.build_spec {document : Document} (linked : document.Linked) : (tree : Tree) →
    tree.build (Audit.opened document) =
        ((tree.build document).1, Audit.opened (tree.build document).2) ∧
      Built document (tree.build document).1 (tree.build document).2 [tree]
  | .text content => build_text linked content
  | .fragment children key => by
    obtain ⟨quiet, built⟩ := Tree.buildAll_spec linked children
    simp only [Tree.build]
    exact ⟨quiet, { built with shows := showsAll_singleton.mpr built.shows }⟩
  | .element tag props children key => by
    have created : (document.create (.element tag [] [])).2.content?
        (document.create (.element tag [] [])).1 = some (.element tag [] []) := by
      simp [Document.content?, node?_create]
    have start := changesWithin_create linked (.element tag [] [])
    obtain ⟨quietProps, redressed⟩ := showProps_spec start.linked created props
    obtain ⟨attributes, listeners, rewritten, looks⟩ := redressed
    obtain ⟨quietChildren, built⟩ := Tree.buildAll_spec rewritten.linked children
    obtain ⟨quiet, whole⟩ := Built.adopted start (document.not_contains_create _)
      (contains_create document _) (by simp [parent?_create]) (by simp [children_create])
      ⟨attributes, listeners, rewritten, looks⟩ built key
    rw [build_element, build_element]
    refine ⟨?_, whole⟩
    show ([(document.create (.element tag [] [])).1], insertFrom (Tree.buildAll (showProps
      (Audit.opened (document.create (.element tag [] [])).2)
      (document.create (.element tag [] [])).1 props) children).2 _ 0 (Tree.buildAll (showProps
      (Audit.opened (document.create (.element tag [] [])).2)
      (document.create (.element tag [] [])).1 props) children).1) = _
    rw [quietProps, quietChildren]
    exact congrArg (Prod.mk [(document.create (.element tag [] [])).1]) quiet

theorem Tree.buildAll_spec {document : Document} (linked : document.Linked) :
    (trees : List Tree) →
    Tree.buildAll (Audit.opened document) trees =
        ((Tree.buildAll document trees).1, Audit.opened (Tree.buildAll document trees).2) ∧
      Built document (Tree.buildAll document trees).1 (Tree.buildAll document trees).2 trees
  | [] => ⟨by simp only [Tree.buildAll], by simpa only [Tree.buildAll] using Built.nil linked⟩
  | tree :: rest => by
    obtain ⟨quiet, built⟩ := Tree.build_spec linked tree
    obtain ⟨quietRest, builtRest⟩ := Tree.buildAll_spec built.change.linked rest
    simp only [Tree.buildAll, quiet, quietRest]
    exact ⟨trivial, built.append builtRest linked⟩

end

end ReactiveTree
