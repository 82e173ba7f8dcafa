import ReactiveTree.Proofs.Reconcile.Matching
import ReactiveTree.Proofs.Reconcile.Rendering

/-! # Which host nodes stay

A text or an element of a new tree continues an old one if both are matched and of one kind, and so
are the parts above them at each step. Exactly then its host node stays; every other text or element
gets a new one, and a child that is not kept is detached from a parent that is.
-/

namespace ReactiveTree

open Document Patch

/-- Whether the part of a new tree at one address continues that of an old tree at another. -/
inductive Continues : Tree → Tree → List Nat → List Nat → Prop
  | here {old new : Tree} (kind : old.sameKind new) : Continues old new [] []
  | child {old new former latter : Tree} {position index : Nat} {origin address : List Nat}
      (kind : old.sameKind new) (matched : Matched old.children new.children position index)
      (inOld : old.children[position]? = some former) (inNew : new.children[index]? = some latter)
      (below : Continues former latter origin address) :
      Continues old new (position :: origin) (index :: address)

/-- An old host node that a part of the new tree goes on to have. -/
def Document.Stays (before : Document) (old : Part) (new : Tree) (node : HostId) : Prop :=
  ∃ origin address, Continues old.tree new origin address ∧ before.host? old origin = some node

/-- Host nodes stay exactly where parts continue old ones. -/
structure KeepsIdentity (before after : Document) (container : HostId) (old new : Part) : Prop where
  located : ∀ {address tree}, new.tree.at? address = some tree → tree.hasNode →
    ∃ node, after.host? new address = some node ∧ after.Shows [node] tree
  kept : ∀ {origin address}, Continues old.tree new.tree origin address →
    after.host? new address = before.host? old origin
  fresh : ∀ {address node}, after.host? new address = some node →
    (∀ origin, ¬ Continues old.tree new.tree origin address) → ¬ before.contains node
  distinct : ∀ {first second node}, after.host? new first = some node →
    after.host? new second = some node → first = second
  detached : ∀ {parent child}, parent = container ∨ before.Stays old new.tree parent →
    child ∈ before.children parent → ¬ before.Stays old new.tree child →
    after.parent? child = none

variable {before after document : Document} {container node parent child : HostId}
  {old new : Option Tree} {policy : KeyPolicy} {patches : List Patch} {part former latter : Part}
  {origin : Option Part} {address : List Nat} {trees : List Tree} {tree : Tree} {index : Nat}

theorem Continues.kind {old new : Tree} {origin address : List Nat}
    (continues : Continues old new origin address) : old.sameKind new := by
  cases continues with
  | here kind => exact kind
  | child kind => exact kind

/-- A child continues the old child that it is matched with, if the two are of one kind. -/
theorem originsWithin_eq_some_iff (found : trees[index]? = some tree) :
    (originsWithin before origin trees)[index]?.join = some former ↔
      ∃ above position, origin = some above ∧ Matched above.tree.children trees position index ∧
        before.child? above position = some former ∧ former.tree.sameKind tree := by
  cases origin with
  | none =>
    have nothing : (originsWithin before none trees)[index]?.join = none := by
      rw [originsWithin, List.getElem?_map, found]
      rfl
    rw [nothing]
    constructor
    · intro impossible
      cases impossible
    · rintro ⟨_, _, impossible, -⟩
      cases impossible
  | some above =>
    have listed : (partnersOf above.tree.children trees)[index]? =
        some (partner above.tree.children trees tree index) := by
      simp [partnersOf, found]
    have whole : (originsWithin before (some above) trees)[index]?.join =
        ((partner above.tree.children trees tree index).bind (before.child? above)).bind
          (·.for? tree) := by
      rw [originsWithin, getElem?_originsAmong _ _ found, listed]
      rfl
    have same : ∀ part : Part, part.for? tree = some former ↔
        part = former ∧ former.tree.sameKind tree := by
      intro part
      unfold Part.for?
      rw [Option.ite_none_right_eq_some, Option.some.injEq]
      constructor
      · rintro ⟨kind, rfl⟩
        exact ⟨rfl, kind⟩
      · rintro ⟨rfl, kind⟩
        exact ⟨kind, rfl⟩
    rw [whole]
    simp only [Option.bind_eq_some_iff, partner_eq_some_iff found, same]
    constructor
    · rintro ⟨part, ⟨position, matched, isChild⟩, rfl, kind⟩
      exact ⟨above, position, rfl, matched, isChild, kind⟩
    · rintro ⟨_, position, isAbove, matched, isChild, kind⟩
      cases isAbove
      exact ⟨former, ⟨position, matched, isChild⟩, rfl, kind⟩

theorem Tree.hasNode_of_sameKind {old new : Tree} (kind : old.sameKind new) :
    old.hasNode = new.hasNode := by
  cases old <;> cases new <;> first | rfl | cases kind

theorem Inherits.takesOver {nodes : List HostId} (inherits : Inherits before after nodes origin tree)
    (hasNode : tree.hasNode) : TakesOver before nodes origin := by
  cases tree with
  | text => exact inherits
  | element => exact inherits.1
  | fragment => cases hasNode

/-- What a tree inherits, its children inherit from the children of what it continues. -/
theorem Inherits.of_child (inherits : Inherits before after part.nodes origin part.tree)
    (isChild : after.child? part index = some latter) :
    Inherits before after latter.nodes
      (originsWithin before origin part.tree.children)[index]?.join latter.tree := by
  obtain ⟨found, nodes⟩ := child?_eq_some_iff.mp isChild
  have all : InheritsAll before after (after.nodesWithin part)
      (originsWithin before origin part.tree.children) part.tree.children := by
    obtain ⟨tree, nodes⟩ := part
    cases tree with
    | text => cases found
    | element => exact inherits.2
    | fragment => exact inherits
  rw [nodes]
  exact all.pieceAt found

/-- A part has the host node of the old part that it continues. -/
theorem Continues.host?_eq {oldTree newTree : Tree} {origin address : List Nat}
    (continues : Continues oldTree newTree origin address) :
    ∀ {former latter : Part}, former.tree = oldTree → latter.tree = newTree →
      Inherits before after latter.nodes (some former) latter.tree →
      after.host? latter address = before.host? former origin := by
  induction continues with
  | here kind =>
    rintro former latter rfl rfl inherits
    unfold Document.host?
    rw [part?, part?, Option.bind_some, Option.bind_some, Tree.hasNode_of_sameKind kind]
    split
    next hasNode =>
      have same : latter.nodes = former.nodes := inherits.takesOver hasNode
      rw [same]
    next => rfl
  | @child oldTree newTree formerTree latterTree position index origin address _ matched inOld inNew
      below ih =>
    rintro former latter rfl rfl inherits
    let formerChild : Part :=
      ⟨formerTree, pieceAt (before.nodesWithin former) former.tree.children position formerTree⟩
    let latterChild : Part :=
      ⟨latterTree, pieceAt (after.nodesWithin latter) latter.tree.children index latterTree⟩
    have isFormer : before.child? former position = some formerChild :=
      child?_eq_some_iff.mpr ⟨inOld, rfl⟩
    have isLatter : after.child? latter index = some latterChild :=
      child?_eq_some_iff.mpr ⟨inNew, rfl⟩
    have continued := (originsWithin_eq_some_iff inNew).mpr
      ⟨former, position, rfl, matched, isFormer, below.kind⟩
    have inner := inherits.of_child isLatter
    rw [continued] at inner
    rw [host?_cons, host?_cons, isFormer, isLatter]
    exact ih rfl rfl inner

/-- A part that continues nothing has a new host node. -/
theorem Inherits.fresh (inherits : Inherits before after part.nodes origin part.tree)
    (shown : after.ShowsPart part)
    (kind : ∀ former, origin = some former → former.tree.sameKind part.tree)
    (found : after.host? part address = some node)
    (nothing : ∀ former, origin = some former →
      ∀ place, ¬ Continues former.tree part.tree place address) :
    ¬ before.contains node := by
  induction address generalizing part origin with
  | nil =>
    obtain ⟨hasNode, same⟩ := shown.host?_nil.mp found
    cases origin with
    | some former => exact absurd (.here (kind former rfl)) (nothing former rfl [])
    | none => exact inherits.takesOver hasNode node (by simp [same])
  | cons index rest ih =>
    obtain ⟨latter, isLatter, below⟩ := host?_cons_eq_some_iff.mp found
    have inNew := (child?_eq_some_iff.mp isLatter).1
    refine ih (inherits.of_child isLatter) (shown.of_child isLatter) ?_ below ?_
    · intro former continued
      obtain ⟨_, _, -, -, -, same⟩ := (originsWithin_eq_some_iff inNew).mp continued
      exact same
    · intro former continued place further
      obtain ⟨above, position, isOrigin, matched, isFormer, -⟩ :=
        (originsWithin_eq_some_iff inNew).mp continued
      exact nothing above isOrigin (position :: place) (.child (kind above isOrigin) matched
        (child?_eq_some_iff.mp isFormer).1 inNew further)

/-- Where nodes are inherited, one that was there before and has an address stays. -/
theorem Inherits.stays {former latter : Part}
    (inherits : Inherits before after latter.nodes (some former) latter.tree)
    (shown : after.ShowsPart latter) (kind : former.tree.sameKind latter.tree)
    (found : after.host? latter address = some node) (known : before.contains node) :
    before.Stays former latter.tree node := by
  by_contra gone
  refine inherits.fresh shown (fun _ same => Option.some.inj same ▸ kind) found ?_ known
  rintro _ same place continues
  cases same
  refine gone ⟨place, address, continues, ?_⟩
  rw [← continues.host?_eq rfl rfl inherits]
  exact found

/-- After a successful step host nodes stay exactly where parts continue old ones. -/
theorem reconcile_keepsIdentity (reached : document.Reachable) (known : document.contains container)
    (shown : document.ShowsAll (document.children container) old.toList)
    (done : reconcile policy document container old new = (.ok patches, after)) :
    KeepsIdentity document after container (shownPart document container old)
      (shownPart after container new) := by
  have linked := reached.linked
  have valid : ValidTree policy new := by
    by_contra invalid
    obtain ⟨defect, fails, -⟩ := diff_of_not_valid document container old invalid
    simp [reconcile, fails] at done
  obtain ⟨planned, found, reworks⟩ := diff_of_valid linked known shown valid
  obtain ⟨rfl, rfl⟩ : planned = patches ∧ carryOutAll document planned = after := by
    simpa [reconcile, found] using done
  obtain ⟨-, change, -, shows, inheritsAll⟩ :=
    reworks.run linked (Nat.le_refl _) known rfl fun _ => rfl
  generalize carryOutAll document planned = after at *
  have shownAfter : after.ShowsPart (shownPart after container new) := shows
  have inherits : Inherits document after (shownPart after container new).nodes
      (some (shownPart document container old)) (shownPart after container new).tree := inheritsAll
  have under : after.Under container (shownPart after container new).nodes :=
    ⟨change.linked.distinct container, fun _ member => member⟩
  refine ⟨shownAfter.exists_host?, fun continues => continues.host?_eq rfl rfl inherits, ?_,
    shownAfter.host?_injective change.linked under, ?_⟩
  · intro address node here nothing
    exact inherits.fresh shownAfter (fun _ same => Option.some.inj same ▸ rfl) here
      fun _ same place => Option.some.inj same ▸ nothing place
  · intro parent child kept member gone
    have there := linked.mem_children_iff.mp member
    have knownChild := linked.contains_child member
    refine (change.sheds knownChild).resolve_left fun still => ?_
    rw [there, ← change.linked.mem_children_iff] at still
    -- A child that its parent still has is shown by the new tree, and is not new.
    have hasAddress : ∃ address, after.host? (shownPart after container new) address = some child := by
      rcases kept with rfl | ⟨place, address, continues, isHost⟩
      · exact shownAfter.exists_address still
      · rw [← continues.host?_eq rfl rfl inherits] at isHost
        exact shownAfter.exists_address_child isHost still
    obtain ⟨address, here⟩ := hasAddress
    exact gone (inherits.stays shownAfter rfl here knownChild)

/-- Of two items with one key the single new one continues the last. -/
theorem reconcile_keepsIdentity_repeated_key :
    let document := (((empty.createElement "li").2.createElement "li").2.attempt
      (.insertChild root ⟨1⟩ 0)).attempt (.insertChild root ⟨2⟩ 1)
    let item := Tree.element "li" .empty [] (some ⟨"k"⟩)
    let old := some (Tree.fragment [item, item] none)
    let new := some (Tree.fragment [item] none)
    ∃ patches after, reconcile .lastWins document root old new = (.ok patches, after) ∧
      KeepsIdentity document after root (shownPart document root old)
        (shownPart after root new) ∧
      after.host? (shownPart after root new) [0, 0] = some ⟨2⟩ := by
  intro document item old new
  have reached : document.Reachable :=
    (((Reachable.empty.createElement "li").createElement "li").attempt _).attempt _
  have bare : ∀ name, ([] : List (String × String)).lookup name = Props.empty.attribute? name := by
    simp [Props.attribute?, Props.get?, Props.empty]
  have shownItem : ∀ id : HostId, id = ⟨1⟩ ∨ id = ⟨2⟩ → document.Shows [id] item := by
    rintro id (rfl | rfl)
    · exact ⟨⟨1⟩, [], [], rfl, rfl, bare, rfl⟩
    · exact ⟨⟨2⟩, [], [], rfl, rfl, bare, rfl⟩
  have shown : document.ShowsAll (document.children root) old.toList :=
    ⟨[⟨1⟩, ⟨2⟩], [], rfl, ⟨[⟨1⟩], [⟨2⟩], rfl, shownItem _ (.inl rfl), [⟨2⟩], [], rfl,
      shownItem _ (.inr rfl), rfl⟩, rfl⟩
  have valid : ValidTree .lastWins new := (checkTree_defect _ _).mp rfl
  obtain ⟨patches, found, -⟩ := diff_of_valid reached.linked rfl shown valid
  have done : reconcile .lastWins document root old new =
      (.ok patches, carryOutAll document patches) := by
    simp only [reconcile, found]
  have identity := reconcile_keepsIdentity reached rfl shown done
  refine ⟨patches, _, done, identity, ?_⟩
  have inOld : IsLastWithKey [item, item] ⟨"k"⟩ 1 := lastWithKey_eq_some_iff.mp rfl
  have inNew : IsLastWithKey [item] ⟨"k"⟩ 0 := lastWithKey_eq_some_iff.mp rfl
  have continues : Continues (.fragment [item, item] none) (.fragment [item] none) [1] [0] :=
    .child rfl (.keyed inOld inNew) rfl rfl (.here rfl)
  exact identity.kept (.child rfl (.unkeyed rfl rfl rfl rfl) rfl rfl continues)

end ReactiveTree
