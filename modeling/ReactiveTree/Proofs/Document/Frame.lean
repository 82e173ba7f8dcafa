import ReactiveTree.Proofs.Document.Showing

/-! # Changes that stay within a region

`ChangesWithin` bounds what a change to a document touches: nodes may be added, and of those that
were there only the ones in the region may differ, none of which gets a new parent. A region that
holds all children of its members still does so afterwards, together with the new nodes, and the new
nodes alone have only new children. What is shown outside the region goes on to be shown.
-/

namespace ReactiveTree

namespace Document

/-- Links agree afterwards, no node is lost, and those outside a region stay as they are. -/
structure ChangesWithin (region : HostId → Prop) (before after : Document) : Prop where
  linked : after.Linked
  grows : before.nodes.length ≤ after.nodes.length
  outside : ∀ {id}, before.contains id → ¬ region id → after.node? id = before.node? id
  /-- A node that leaves its parent has none afterwards. -/
  sheds : ∀ {id}, before.contains id →
    after.parent? id = before.parent? id ∨ after.parent? id = none

variable {before middle after : Document} {region first second : HostId → Prop} {id : HostId}
  {nodes : List HostId} {trees : List Tree}

theorem content?_of_node? (same : after.node? id = before.node? id) :
    after.content? id = before.content? id :=
  congrArg (Option.map HostNode.content) same

theorem parent?_of_node? (same : after.node? id = before.node? id) :
    after.parent? id = before.parent? id :=
  congrArg (Option.bind · HostNode.parent) same

theorem children_of_node? (same : after.node? id = before.node? id) :
    after.children id = before.children id :=
  congrArg (fun node => (node.map HostNode.children).getD []) same

/-- Two documents look the same within a region. -/
def Agree (region : HostId → Prop) (before after : Document) : Prop :=
  ∀ {id}, region id → after.node? id = before.node? id

namespace Agree

theorem mono (agree : Agree second before after) (within : ∀ {id}, first id → second id) :
    Agree first before after :=
  fun inside => agree (within inside)

theorem closed (agree : Agree region before after) (closed : before.Closed region) :
    after.Closed region := by
  intro parent child inside member
  rw [children_of_node? (agree inside)] at member
  exact closed inside member

theorem contains (agree : Agree region before after) (inside : region id)
    (known : before.contains id) : after.contains id := by
  rw [contains_iff] at known ⊢
  rwa [agree inside]

end Agree

/-- A region, with the nodes that a change added. -/
def Extended (region : HostId → Prop) (before after : Document) (id : HostId) : Prop :=
  (region id ∨ ¬ before.contains id) ∧ after.contains id

namespace ChangesWithin

theorem refl (linked : before.Linked) : ChangesWithin region before before :=
  ⟨linked, Nat.le_refl _, fun _ _ => rfl, fun _ => .inl rfl⟩

/-- Adding nodes changes none of those that were there. -/
theorem of_unchanged (linked : after.Linked) (grows : before.nodes.length ≤ after.nodes.length)
    (unchanged : ∀ {id}, before.contains id → after.node? id = before.node? id) :
    ChangesWithin region before after :=
  ⟨linked, grows, fun known _ => unchanged known,
    fun known => .inl (parent?_of_node? (unchanged known))⟩

theorem contains (change : ChangesWithin region before after) (known : before.contains id) :
    after.contains id := by
  rw [contains_iff_lt] at known ⊢
  exact Nat.lt_of_lt_of_le known change.grows

theorem mono (change : ChangesWithin first before after)
    (within : ∀ {id}, before.contains id → first id → region id) :
    ChangesWithin region before after where
  linked := change.linked
  grows := change.grows
  outside known apart := change.outside known fun inside => apart (within known inside)
  sheds := change.sheds

theorem trans (change : ChangesWithin region before middle)
    (next : ChangesWithin region middle after) : ChangesWithin region before after where
  linked := next.linked
  grows := Nat.le_trans change.grows next.grows
  outside known apart :=
    (next.outside (change.contains known) apart).trans (change.outside known apart)
  sheds known := by
    rcases next.sheds (change.contains known) with same | alone
    · rw [same]
      exact change.sheds known
    · exact .inr alone

/-- What is new has only new nodes as children. -/
theorem closed_new (change : ChangesWithin region before after) (linked : before.Linked) :
    after.Closed fun id => ¬ before.contains id ∧ after.contains id := by
  rintro parent child ⟨fresh, -⟩ member
  refine ⟨fun known => ?_, change.linked.contains_child member⟩
  have attached := change.linked.mem_children_iff.mp member
  rcases change.sheds known with same | alone
  · rw [same] at attached
    exact fresh (linked.contains_parent attached)
  · rw [alone] at attached
    cases attached

/-- A region with all children of its members keeps them, with the nodes that are new. -/
theorem closed (change : ChangesWithin region before after) (linked : before.Linked)
    (closed : before.Closed region) : after.Closed (Extended region before after) := by
  rintro parent child ⟨inside, -⟩ member
  refine ⟨?_, change.linked.contains_child member⟩
  by_contra apart
  rw [not_or, not_not] at apart
  obtain ⟨outside, known⟩ := apart
  have attached := change.linked.mem_children_iff.mp member
  rw [parent?_of_node? (change.outside known outside)] at attached
  have old := linked.mem_children_iff.mpr attached
  rcases inside with here | fresh
  · exact outside (closed here old)
  · exact fresh (contains_of_mem_children old)

/-- What was made in a region outlasts a change that stays outside it and clear of new nodes. -/
theorem agree_apart (change : ChangesWithin second middle after)
    (apart : ∀ {id}, first id → ¬ second id) (old : ∀ {id}, second id → before.contains id) :
    Agree (Extended first before middle) middle after := by
  rintro id ⟨here | new, present⟩
  · exact change.outside present (apart here)
  · exact change.outside present fun other => new (old other)

end ChangesWithin

theorem ShowsAll.of_agree (shown : before.ShowsAll nodes trees) (closed : before.Closed region)
    (agree : Agree region before after) (inside : ∀ node ∈ nodes, region node) :
    after.ShowsAll nodes trees :=
  ShowsAll.congr closed (fun _ member =>
    ⟨content?_of_node? (agree member), children_of_node? (agree member)⟩) inside trees shown

/-- What is shown apart from the region that changes is still shown. -/
theorem ShowsAll.persists (shown : before.ShowsAll nodes trees)
    (change : ChangesWithin region before after) (closed : before.Closed first)
    (inside : ∀ node ∈ nodes, first node)
    (apart : ∀ {id}, first id → before.contains id ∧ ¬ region id) :
    after.ShowsAll nodes trees := by
  refine shown.of_agree closed (fun {id} member => ?_) inside
  obtain ⟨known, outside⟩ := apart member
  exact change.outside known outside

end Document

end ReactiveTree
