import ReactiveTree.Proofs.Reconcile.Building

/-! # Patches to the children of one parent

What a removal, a move, an insertion and a replacement do to the children of their parent, if they
name the right index: each is exact, and apart from the parent, the children that leave and new
nodes everything stays as it is.
-/

namespace ReactiveTree

open Document

/-- Children of one parent come, move or leave; some may leave for good. -/
structure Rearranged (parent : HostId) (gone : HostId → Prop) (before after : Document) : Prop where
  change : ChangesWithin (fun id => id = parent ∨ gone id) before after
  content : after.content? parent = before.content? parent
  attached : after.parent? parent = before.parent? parent

namespace Rearranged

variable {parent : HostId} {gone wider : HostId → Prop} {before middle after : Document}

theorem refl (linked : before.Linked) : Rearranged parent gone before before :=
  ⟨.refl linked, rfl, rfl⟩

theorem trans (first : Rearranged parent gone before middle)
    (second : Rearranged parent gone middle after) : Rearranged parent gone before after where
  change := first.change.trans second.change
  content := second.content.trans first.content
  attached := second.attached.trans first.attached

theorem mono (step : Rearranged parent gone before after)
    (within : ∀ {id}, gone id → wider id) : Rearranged parent wider before after where
  change := step.change.mono fun _ inside => inside.imp_right within
  content := step.content
  attached := step.attached

end Rearranged

variable {document : Document} {parent node : HostId} {left right nodes : List HostId}

theorem filter_ne_split (distinct : (left ++ node :: right).Nodup) :
    (left ++ node :: right).filter (fun sibling => sibling ≠ node) = left ++ right := by
  rw [List.nodup_append] at distinct
  obtain ⟨-, later, apart⟩ := distinct
  have inLeft : left.filter (fun sibling => sibling ≠ node) = left := by
    rw [List.filter_eq_self]
    intro sibling member
    simpa using apart sibling member node (List.mem_cons_self ..)
  have inRight : right.filter (fun sibling => sibling ≠ node) = right := by
    rw [List.filter_eq_self]
    intro sibling member
    rw [decide_eq_true_eq]
    rintro rfl
    exact (List.nodup_cons.mp later).1 member
  rw [List.filter_append, inLeft, List.filter_cons]
  simpa using inRight

private theorem removeChild_spec (linked : document.Linked)
    (split : document.children parent = left ++ node :: right) (apart : node ≠ parent) :
    (HostCommand.removeChild parent node).fits document ∧
      Rearranged parent (· = node) document
        (Host.carryOut document (.removeChild parent node)) ∧
      (Host.carryOut document (.removeChild parent node)).children parent = left ++ right := by
  have attached : document.parent? node = some parent := by
    rw [← linked.mem_children_iff, split]
    simp
  have performed : document.perform (.removeChild parent node) =
      .ok (document.detach node).counted := by
    simp [Document.perform, attached]
  rw [carryOut_of_perform performed]
  refine ⟨fits_of_perform performed (by simp), ?_, ?_⟩
  · exact
      { change :=
          { linked := (linked.detach node).counted
            grows := by
              unfold Document.detach
              rw [attached]
              simp [Document.counted, Document.length_modify]
            outside := by
              intro id known outside
              rw [not_or] at outside
              rw [node?_counted, node?_detach]
              simp [outside.2, attached, Ne.symm outside.1]
            sheds := by
              intro id _
              show (document.detach node).parent? id = _ ∨ (document.detach node).parent? id = none
              rw [parent?_detach]
              split
              · exact .inr rfl
              · exact .inl rfl }
        content := content?_detach document node parent
        attached := by
          show (document.detach node).parent? parent = _
          rw [parent?_detach, if_neg (Ne.symm apart)] }
  · show (document.detach node).children parent = left ++ right
    rw [linked.children_detach, split]
    exact filter_ne_split (split ▸ linked.distinct parent)

theorem remove_spec (linked : document.Linked)
    (split : document.children parent = left ++ node :: right) (apart : node ≠ parent) :
    (Patch.remove parent left.length node).Exact document ∧
      Rearranged parent (· = node) document
        ((Patch.remove parent left.length node).carryOut document) ∧
      ((Patch.remove parent left.length node).carryOut document).children parent =
        left ++ right := by
  obtain ⟨fits, step, children⟩ := removeChild_spec linked split apart
  exact ⟨⟨Audit.carryOut_opened fits, by simp [Patch.InPlace, split]⟩, step, children⟩

theorem move_spec (linked : document.Linked)
    (split : document.children parent = left ++ node :: right) {left' right' : List HostId}
    (others : left ++ right = left' ++ right') :
    (Patch.move parent node left.length left'.length).Exact document ∧
      Rearranged parent (fun _ => False) document
        ((Patch.move parent node left.length left'.length).carryOut document) ∧
      ((Patch.move parent node left.length left'.length).carryOut document).children parent =
        left' ++ node :: right' := by
  have attached : document.parent? node = some parent := by
    rw [← linked.mem_children_iff, split]
    simp
  have known := linked.contains_parent attached
  have performed : document.perform (.moveChild parent node left'.length) =
      .ok (document.reposition parent node left'.length).counted := by
    simp [Document.perform, attached]
  have rest : (document.children parent).filter (fun sibling => sibling ≠ node) =
      left' ++ right' := by
    rw [split, filter_ne_split (split ▸ linked.distinct parent), others]
  have carried : (Patch.move parent node left.length left'.length).carryOut document =
      (document.reposition parent node left'.length).counted := carryOut_of_perform performed
  have children : ((Patch.move parent node left.length left'.length).carryOut document).children
      parent = left' ++ node :: right' := by
    rw [carried]
    show (document.reposition parent node left'.length).children parent = _
    rw [children_reposition _ _ _ _ _ known, if_pos rfl, rest, List.length_append,
      Nat.min_eq_left (Nat.le_add_right ..), insertIdx_length_append]
  have fits : (HostCommand.moveChild parent node left'.length).fits document := by
    rw [HostCommand.fits, performed, rest]
    simp [Except.isOk, Except.toBool]
  refine ⟨⟨Audit.carryOut_opened fits, ?_⟩, ?_, children⟩
  · rw [Patch.InPlace, split, children]
    simp
  · rw [carried]
    exact
      { change :=
          { linked := (linked.reposition attached _).counted
            grows := by simp [Document.reposition, Document.counted, Document.length_modify]
            outside := by
              intro id _ outside
              rw [node?_counted, node?_reposition]
              simp [(not_or.mp outside).1]
            sheds := fun _ => .inl (parent?_reposition document parent node _ _) }
        content := content?_reposition document parent node _ parent
        attached := parent?_reposition document parent node _ parent }

/-- Nodes that were built, once they are in place: the parent may have lost children meanwhile. -/
private theorem insertBuilt_spec {before middle ready : Document} {trees : List Tree}
    {gone : HostId → Prop} (linked : before.Linked) (known : before.contains parent)
    (built : Built before nodes middle trees) (step : Rearranged parent gone middle ready)
    (old : ∀ {id}, gone id → before.contains id)
    (split : ready.children parent = left ++ right) :
    insertFrom (Audit.opened ready) parent left.length nodes =
        Audit.opened (insertFrom ready parent left.length nodes) ∧
      Rearranged parent gone before (insertFrom ready parent left.length nodes) ∧
      (insertFrom ready parent left.length nodes).children parent = left ++ nodes ++ right ∧
      (insertFrom ready parent left.length nodes).ShowsAll nodes trees := by
  have untouched : ∀ {id}, ¬ before.contains id → middle.contains id →
      ready.node? id = middle.node? id := by
    intro id fresh present
    refine step.change.outside present (not_or.mpr ⟨?_, fun member => fresh (old member)⟩)
    rintro rfl
    exact fresh known
  have apart : parent ∉ nodes := fun member => built.fresh parent member known
  have free : Insertable ready parent nodes :=
    { parentKnown := step.change.contains (built.change.contains known)
      known := fun node member => step.change.contains (built.known node member)
      orphans := fun node member => by
        rw [parent?_of_node? (untouched (built.fresh node member) (built.known node member))]
        exact built.orphans node member
      distinct := built.distinct
      apart }
  obtain ⟨quiet, lastLinked, length, node?⟩ := insertFrom_spec step.change.linked free split
  obtain ⟨above, found⟩ := contains_iff.mp free.parentKnown
  have parentNode : (insertFrom ready parent left.length nodes).node? parent =
      some { above with children := left ++ nodes ++ right } := by
    rw [node?, found]
    simp [adopt, apart]
  have oldNode : ∀ {id}, before.contains id → id ≠ parent →
      (insertFrom ready parent left.length nodes).node? id = ready.node? id := by
    intro id present other
    have early : id ∉ nodes := fun member => built.fresh id member present
    have unadopted : adopt parent (left ++ nodes ++ right) nodes id = fun here => here := by
      funext here
      simp [adopt, other, early]
    rw [node?, unadopted, Option.map_id']
  have oldParent : ∀ {id}, before.contains id →
      (insertFrom ready parent left.length nodes).parent? id = ready.parent? id := by
    intro id present
    have early : id ∉ nodes := fun member => built.fresh id member present
    unfold Document.parent?
    rw [node?]
    cases ready.node? id <;> simp [adopt, early]
  refine ⟨quiet, ?_, ?_, ?_⟩
  · exact
      { change :=
          { linked := lastLinked
            grows := by
              have building := built.change.grows
              have stepping := step.change.grows
              omega
            outside := by
              intro id present outside
              rw [oldNode present (not_or.mp outside).1,
                step.change.outside (built.change.contains present) outside,
                built.node?_eq present]
            sheds := by
              intro id present
              rw [oldParent present, ← parent?_of_node? (built.node?_eq present)]
              exact step.change.sheds (built.change.contains present) }
        content := by
          rw [← content?_of_node? (built.node?_eq known), ← step.content]
          simp [Document.content?, parentNode, found]
        attached := by
          rw [oldParent known, step.attached, parent?_of_node? (built.node?_eq known)] }
  · simp [Document.children, parentNode]
  · refine ShowsAll.congr (built.change.closed_new linked) (fun id new => ?_)
      (fun id member => ⟨built.fresh id member, built.known id member⟩) trees built.shows
    have other : id ≠ parent := by
      rintro rfl
      exact new.1 known
    rw [← content?_of_node? (untouched new.1 new.2), ← children_of_node? (untouched new.1 new.2)]
    unfold Document.content? Document.children
    rw [node?]
    cases ready.node? id <;> simp [adopt, other]

/-- What a patch puts among the children: new nodes that show a tree. -/
structure Grown (before after : Document) (nodes : List HostId) (tree : Tree) : Prop where
  fresh : ∀ node ∈ nodes, ¬ before.contains node
  known : ∀ node ∈ nodes, after.contains node
  shows : after.Shows nodes tree

namespace Grown

variable {before middle after start : Document} {gone : HostId → Prop} {tree : Tree}

/-- New nodes are as new from an earlier document on. -/
theorem of_later (grown : Grown middle after nodes tree) {region : HostId → Prop}
    (change : ChangesWithin region before middle) : Grown before after nodes tree where
  fresh node member known := grown.fresh node member (change.contains known)
  known := grown.known
  shows := grown.shows

/-- What was put in place stays as it is while other children come, move and leave. -/
theorem persists (grown : Grown start before nodes tree) (linked : start.Linked)
    (known : start.contains parent) (old : ∀ {id}, gone id → start.contains id)
    (earlier : Rearranged parent gone start before) (step : Rearranged parent gone before after) :
    Grown start after nodes tree where
  fresh := grown.fresh
  known node member := step.change.contains (grown.known node member)
  shows := by
    have shown := showsAll_singleton.mpr grown.shows
    refine showsAll_singleton.mp (shown.persists step.change (earlier.change.closed_new linked)
      (fun node member => ⟨grown.fresh node member, grown.known node member⟩) fun new => ⟨new.2, ?_⟩)
    rintro (rfl | member)
    · exact new.1 known
    · exact new.1 (old member)

end Grown

private theorem grown_of_built {before middle after : Document} {tree : Tree}
    (linked : after.Linked) (built : Built before nodes middle [tree])
    (children : after.children parent = left ++ nodes ++ right)
    (shows : after.ShowsAll nodes [tree]) : Grown before after nodes tree where
  fresh := built.fresh
  known node member := by
    have listed : node ∈ after.children parent := by simp [children, member]
    exact linked.contains_child listed
  shows := showsAll_singleton.mp shows

theorem insert_spec (linked : document.Linked) (known : document.contains parent)
    (split : document.children parent = left ++ right) (tree : Tree) :
    (Patch.insert parent left.length tree).Exact document ∧
      Rearranged parent (fun _ => False) document
        ((Patch.insert parent left.length tree).carryOut document) ∧
      ∃ nodes, ((Patch.insert parent left.length tree).carryOut document).children parent =
          left ++ nodes ++ right ∧
        Grown document ((Patch.insert parent left.length tree).carryOut document) nodes tree := by
  obtain ⟨buildQuiet, built⟩ := tree.build_spec linked
  have ready : (tree.build document).2.children parent = left ++ right := by
    rw [children_of_node? (built.node?_eq known), split]
  obtain ⟨quiet, step, children, shows⟩ :=
    insertBuilt_spec linked known built (.refl built.change.linked) False.elim ready
  refine ⟨⟨?_, ?_⟩, step, _, children, grown_of_built step.change.linked built children shows⟩
  · show insertFrom (tree.build (Audit.opened document)).2 parent left.length
      (tree.build (Audit.opened document)).1 = _
    rw [buildQuiet]
    exact quiet
  · refine ⟨by simp [split], ?_⟩
    rw [split, List.take_left' rfl, List.drop_left' rfl]
    exact children

theorem replace_spec (linked : document.Linked)
    (split : document.children parent = left ++ node :: right) (apart : node ≠ parent)
    (tree : Tree) :
    (Patch.replace parent left.length node tree).Exact document ∧
      Rearranged parent (· = node) document
        ((Patch.replace parent left.length node tree).carryOut document) ∧
      ∃ nodes, ((Patch.replace parent left.length node tree).carryOut document).children parent =
          left ++ nodes ++ right ∧
        Grown document ((Patch.replace parent left.length node tree).carryOut document) nodes
          tree := by
  obtain ⟨buildQuiet, built⟩ := tree.build_spec linked
  have listed : node ∈ document.children parent := by simp [split]
  have known : document.contains parent := contains_of_mem_children listed
  have present : document.contains node := linked.contains_child listed
  have middle : (tree.build document).2.children parent = left ++ node :: right := by
    rw [children_of_node? (built.node?_eq known), split]
  obtain ⟨fits, removal, ready⟩ := removeChild_spec built.change.linked middle apart
  obtain ⟨quiet, step, children, shows⟩ :=
    insertBuilt_spec linked known built removal (fun same => same ▸ present) ready
  refine ⟨⟨?_, ?_⟩, step, _, children, grown_of_built step.change.linked built children shows⟩
  · show insertFrom (Host.carryOut (tree.build (Audit.opened document)).2 (.removeChild parent node))
      parent left.length (tree.build (Audit.opened document)).1 = _
    rw [buildQuiet, Audit.carryOut_opened fits]
    exact quiet
  · have rest : (left ++ node :: right).drop (left.length + 1) = right := by simp
    refine ⟨by simp [split], ?_⟩
    rw [split, List.take_left' rfl, rest]
    exact children

end ReactiveTree
