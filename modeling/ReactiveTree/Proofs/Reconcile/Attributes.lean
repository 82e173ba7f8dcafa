import ReactiveTree.Proofs.Document.Frame
import ReactiveTree.Proofs.Reconcile.Exact
import ReactiveTree.Reconcile.Matching

/-! # Attributes of a host element

Showing the props of a new element gives it the attributes of those props, and the changes from old
props to new ones turn the attributes of the old into those of the new. Each prop name is its own
attribute name, so names are followed one at a time; listeners never touch an attribute.
-/

namespace ReactiveTree

open Document

variable {before middle after : Document} {node : HostId} {tag : String}
  {attributes : List (String × String)} {listeners : List (String × Handler)}

/-- One node has a new content, and everything else is as before. -/
structure Document.Rewritten (before after : Document) (node : HostId) (content : Content) : Prop where
  linked : after.Linked
  length : after.nodes.length = before.nodes.length
  node? : ∀ other, after.node? other = (before.node? other).map fun here =>
    { here with content := if other = node then content else here.content }

namespace Document.Rewritten

variable {content latest : Content}

theorem content? (change : Rewritten before after node content) (known : before.contains node) :
    after.content? node = some content := by
  obtain ⟨here, found⟩ := contains_iff.mp known
  simp [Document.content?, change.node?, found]

theorem children (change : Rewritten before after node content) (other : HostId) :
    after.children other = before.children other := by
  unfold Document.children
  rw [change.node?]
  cases before.node? other <;> rfl

theorem parent? (change : Rewritten before after node content) (other : HostId) :
    after.parent? other = before.parent? other := by
  unfold Document.parent?
  rw [change.node?]
  cases before.node? other <;> rfl

theorem changesWithin (change : Rewritten before after node content) :
    ChangesWithin (· = node) before after where
  linked := change.linked
  grows := Nat.le_of_eq change.length.symm
  outside := by
    intro id _ apart
    simp [change.node?, apart]
  sheds _ := .inl (change.parent? _)

theorem refl (linked : before.Linked) (found : before.content? node = some content) :
    Rewritten before before node content where
  linked := linked
  length := rfl
  node? := by
    intro other
    cases present : before.node? other with
    | none => rfl
    | some here =>
      by_cases same : other = node
      · subst same
        have shown : here.content = content := by simpa [Document.content?, present] using found
        simp [← shown]
      · simp [same]

theorem trans (change : Rewritten before middle node content)
    (next : Rewritten middle after node latest) : Rewritten before after node latest where
  linked := next.linked
  length := next.length.trans change.length
  node? := by
    intro other
    rw [next.node?, change.node?, Option.map_map]
    congr 1
    funext here
    by_cases same : other = node <;> simp [same]

theorem setContent (linked : before.Linked) (node : HostId) (content : Content) :
    Rewritten before (before.setContent node content).counted node content where
  linked := (linked.setContent node content).counted
  length := by simp [Document.setContent, Document.counted, Document.length_modify]
  node? other := by rw [node?_counted, node?_setContent]

end Document.Rewritten

private theorem removeEntry_of_not_hasEntry {ν : Type} {entries : List (String × ν)} {key : String}
    (absent : ¬ hasEntry entries key) : removeEntry entries key = entries := by
  unfold removeEntry
  rw [List.filter_eq_self]
  rintro ⟨name, value⟩ member
  rw [decide_eq_true_eq]
  rintro rfl
  have missing : ∀ value, (name, value) ∉ entries := by simpa [hasEntry] using absent
  exact missing value member

theorem carryOut_of_perform {command : HostCommand} (performed : before.perform command = .ok after) :
    Host.carryOut before command = after := by
  show Document.attempt _ _ = _
  rw [Document.attempt, performed]

theorem fits_of_perform {command : HostCommand}
    (performed : before.perform command = .ok after)
    (onOneNode : ∀ parent child index, command ≠ .insertChild parent child index ∧
      command ≠ .moveChild parent child index) : command.fits before := by
  cases command with
  | insertChild parent child index => exact absurd rfl (onOneNode parent child index).1
  | moveChild parent child index => exact absurd rfl (onOneNode parent child index).2
  | _ => simp [HostCommand.fits, performed, Except.isOk, Except.toBool]

theorem carryOut_setText {text : String} (content : String) (linked : before.Linked)
    (found : before.content? node = some (.text text)) :
    (HostCommand.setText node content).fits before ∧
      Rewritten before (Host.carryOut before (.setText node content)) node (.text content) := by
  have performed : before.perform (.setText node content) =
      .ok (before.setContent node (.text content)).counted := by
    simp [Document.perform, found]
  rw [carryOut_of_perform performed]
  exact ⟨fits_of_perform performed (by simp), .setContent linked _ _⟩

theorem carryOut_setAttribute (linked : before.Linked)
    (found : before.content? node = some (.element tag attributes listeners))
    (name value : String) :
    (HostCommand.setAttribute node name value).fits before ∧
      Rewritten before (Host.carryOut before (.setAttribute node name value)) node
        (.element tag (setEntry attributes name value) listeners) := by
  have performed : before.perform (.setAttribute node name value) = .ok (before.setContent node
      (.element tag (setEntry attributes name value) listeners)).counted := by
    simp [Document.perform, found]
  rw [carryOut_of_perform performed]
  exact ⟨fits_of_perform performed (by simp), .setContent linked _ _⟩

theorem carryOut_addListener (linked : before.Linked)
    (found : before.content? node = some (.element tag attributes listeners))
    (event : String) (callback : Handler) :
    (HostCommand.addListener node event callback).fits before ∧
      Rewritten before (Host.carryOut before (.addListener node event callback)) node
        (.element tag attributes (setEntry listeners event callback)) := by
  have performed : before.perform (.addListener node event callback) = .ok (before.setContent node
      (.element tag attributes (setEntry listeners event callback))).counted := by
    simp [Document.perform, found]
  rw [carryOut_of_perform performed]
  exact ⟨fits_of_perform performed (by simp), .setContent linked _ _⟩

theorem carryOut_removeAttribute (linked : before.Linked)
    (found : before.content? node = some (.element tag attributes listeners)) (name : String) :
    (HostCommand.removeAttribute node name).fits before ∧
      Rewritten before (Host.carryOut before (.removeAttribute node name)) node
        (.element tag (removeEntry attributes name) listeners) := by
  by_cases present : hasEntry attributes name
  · have performed : before.perform (.removeAttribute node name) = .ok (before.setContent node
        (.element tag (removeEntry attributes name) listeners)).counted := by
      simp [Document.perform, found, present]
    rw [carryOut_of_perform performed]
    exact ⟨fits_of_perform performed (by simp), .setContent linked _ _⟩
  · have performed : before.perform (.removeAttribute node name) = .ok before := by
      simp [Document.perform, found, present]
    rw [carryOut_of_perform performed, removeEntry_of_not_hasEntry present]
    exact ⟨fits_of_perform performed (by simp), .refl linked found⟩

theorem carryOut_removeListener (linked : before.Linked)
    (found : before.content? node = some (.element tag attributes listeners)) (event : String) :
    (HostCommand.removeListener node event).fits before ∧
      Rewritten before (Host.carryOut before (.removeListener node event)) node
        (.element tag attributes (removeEntry listeners event)) := by
  by_cases present : hasEntry listeners event
  · have performed : before.perform (.removeListener node event) = .ok (before.setContent node
        (.element tag attributes (removeEntry listeners event))).counted := by
      simp [Document.perform, found, present]
    rw [carryOut_of_perform performed]
    exact ⟨fits_of_perform performed (by simp), .setContent linked _ _⟩
  · have performed : before.perform (.removeListener node event) = .ok before := by
      simp [Document.perform, found, present]
    rw [carryOut_of_perform performed, removeEntry_of_not_hasEntry present]
    exact ⟨fits_of_perform performed (by simp), .refl linked found⟩

/-- The attribute of one name after a change of props. -/
def Change.attributeAfter (name : String) (shown : Option String) : Change → Option String
  | .text _ => shown
  | .set changed value => if changed = name ∧ ¬ value.isHandler then value.attribute? else shown
  | .unset changed value => if changed = name ∧ ¬ value.isHandler then none else shown

/-- Whether a change is one of props. -/
def Change.ofProps : Change → Bool
  | .text _ => false
  | _ => true

/-- An element is the same but for attributes, which `follow` tells, and listeners. -/
structure Redressed (before after : Document) (node : HostId) (tag : String)
    (follow : String → Option String) : Prop where
  rewritten : ∃ attributes listeners, Rewritten before after node (.element tag attributes listeners) ∧
    ∀ name, attributes.lookup name = follow name

private theorem showProp_spec (linked : before.Linked)
    (found : before.content? node = some (.element tag attributes listeners))
    (name : String) (value : PropValue) :
    showProp (Audit.opened before) node name value = Audit.opened (showProp before node name value) ∧
      Redressed before (showProp before node name value) node tag fun other =>
        (Change.set name value).attributeAfter other (attributes.lookup other) := by
  cases shown : value.attribute? with
  | some text =>
    have kind : showProp before node name value = Host.carryOut before (.setAttribute node name text) ∧
        showProp (Audit.opened before) node name value =
          Host.carryOut (Audit.opened before) (.setAttribute node name text) ∧ ¬ value.isHandler := by
      cases value <;> simp_all [showProp, PropValue.attribute?, PropValue.isHandler]
    obtain ⟨fits, rewritten⟩ := carryOut_setAttribute linked found name text
    rw [kind.1, kind.2.1, Audit.carryOut_opened fits]
    refine ⟨rfl, _, _, rewritten, fun other => ?_⟩
    rw [lookup_setEntry]
    by_cases same : other = name
    · simp [Change.attributeAfter, same, kind.2.2, shown]
    · simp [Change.attributeAfter, same, Ne.symm same]
  | none =>
    by_cases handler : value.isHandler
    · obtain ⟨callback, rfl⟩ : ∃ callback, value = .handler callback := by
        cases value <;> simp_all [PropValue.isHandler]
      obtain ⟨fits, rewritten⟩ := carryOut_addListener linked found (eventName name) callback
      refine ⟨Audit.carryOut_opened fits, _, _, rewritten, fun other => ?_⟩
      simp [Change.attributeAfter, PropValue.isHandler]
    · have kind : showProp before node name value = Host.carryOut before (.removeAttribute node name) ∧
          showProp (Audit.opened before) node name value =
            Host.carryOut (Audit.opened before) (.removeAttribute node name) := by
        cases value <;> simp_all [showProp, PropValue.isHandler]
      obtain ⟨fits, rewritten⟩ := carryOut_removeAttribute linked found name
      rw [kind.1, kind.2, Audit.carryOut_opened fits]
      refine ⟨rfl, _, _, rewritten, fun other => ?_⟩
      rw [lookup_removeEntry]
      by_cases same : other = name
      · simp [Change.attributeAfter, same, handler, shown]
      · simp [Change.attributeAfter, same, Ne.symm same]

theorem Change.carryOut_spec (linked : before.Linked)
    (found : before.content? node = some (.element tag attributes listeners))
    {change : Change} (ofProps : change.ofProps) :
    change.carryOut (Audit.opened before) node = Audit.opened (change.carryOut before node) ∧
      Redressed before (change.carryOut before node) node tag fun other =>
        change.attributeAfter other (attributes.lookup other) := by
  cases change with
  | text => cases ofProps
  | set name value => exact showProp_spec linked found name value
  | unset name value =>
    by_cases handler : value.isHandler
    · obtain ⟨callback, rfl⟩ : ∃ callback, value = .handler callback := by
        cases value <;> simp_all [PropValue.isHandler]
      obtain ⟨fits, rewritten⟩ := carryOut_removeListener linked found (eventName name)
      refine ⟨Audit.carryOut_opened fits, _, _, rewritten, fun other => ?_⟩
      simp [Change.attributeAfter, PropValue.isHandler]
    · have kind : Change.carryOut before node (.unset name value) =
          Host.carryOut before (.removeAttribute node name) ∧
          Change.carryOut (Audit.opened before) node (.unset name value) =
            Host.carryOut (Audit.opened before) (.removeAttribute node name) := by
        cases value <;> simp_all [Change.carryOut, PropValue.isHandler]
      obtain ⟨fits, rewritten⟩ := carryOut_removeAttribute linked found name
      rw [kind.1, kind.2, Audit.carryOut_opened fits]
      refine ⟨rfl, _, _, rewritten, fun other => ?_⟩
      rw [lookup_removeEntry]
      by_cases same : other = name
      · simp [Change.attributeAfter, same, handler]
      · simp [Change.attributeAfter, same, Ne.symm same]

/-- Make several changes to a node, one after another. -/
def Change.carryOutEach {H : Type} [Host H] (host : H) (target : HostId) (changes : List Change) : H :=
  changes.foldl (fun host change => change.carryOut host target) host

/-- The attribute of one name after several changes. -/
def Change.attributeAfterAll (name : String) (shown : Option String) (changes : List Change) :
    Option String :=
  changes.foldl (fun shown change => change.attributeAfter name shown) shown

theorem carryOutAll_update {H : Type} [Host H] (host : H) (target : HostId)
    (changes : List Change) :
    Patch.carryOutAll host (changes.map (Patch.update target)) =
      Change.carryOutEach host target changes := by
  rw [Patch.carryOutAll, List.foldl_map]
  rfl

/-- Changes of props are exact, and what they do to attributes can be told. -/
theorem Change.carryOutEach_spec {changes : List Change} (linked : before.Linked)
    (found : before.content? node = some (.element tag attributes listeners))
    (ofProps : ∀ change ∈ changes, change.ofProps) :
    Patch.ExactAll before (changes.map (Patch.update node)) ∧
      Redressed before (Change.carryOutEach before node changes) node tag fun name =>
        Change.attributeAfterAll name (attributes.lookup name) changes := by
  induction changes generalizing before attributes listeners with
  | nil => exact ⟨trivial, attributes, listeners, .refl linked found, fun name => rfl⟩
  | cons change rest ih =>
    obtain ⟨quiet, next, nextListeners, rewritten, looks⟩ :=
      Change.carryOut_spec linked found (ofProps change (List.mem_cons_self ..))
    have nextFound := rewritten.content? (contains_of_content? found)
    obtain ⟨exact, last, lastListeners, rewrittenLast, looksLast⟩ := ih rewritten.linked nextFound
      fun change member => ofProps change (List.mem_cons_of_mem _ member)
    refine ⟨⟨⟨quiet, trivial⟩, exact⟩, last, lastListeners, rewritten.trans rewrittenLast,
      fun name => ?_⟩
    rw [looksLast, looks]
    rfl

/-- Whether a change concerns the prop of one name. -/
def Change.concerns (name : String) : Change → Bool
  | .text _ => false
  | .set changed _ => changed = name
  | .unset changed _ => changed = name

private theorem attributeAfterAll_append (name : String) (shown : Option String)
    (first second : List Change) :
    Change.attributeAfterAll name shown (first ++ second) =
      Change.attributeAfterAll name (Change.attributeAfterAll name shown first) second :=
  List.foldl_append

private theorem attributeAfterAll_of_not_concerns {name : String} {changes : List Change}
    (elsewhere : ∀ change ∈ changes, ¬ change.concerns name) (shown : Option String) :
    Change.attributeAfterAll name shown changes = shown := by
  induction changes with
  | nil => rfl
  | cons change rest ih =>
    have here : change.attributeAfter name shown = shown := by
      have apart := elsewhere change (List.mem_cons_self ..)
      cases change <;> simp_all [Change.concerns, Change.attributeAfter]
    show Change.attributeAfterAll name (change.attributeAfter name shown) rest = shown
    rw [here]
    exact ih fun change member => elsewhere change (List.mem_cons_of_mem _ member)

/-- If each entry changes its own prop only, then one name sees the changes of its entry. -/
private theorem attributeAfterAll_flatMap {entries : List (String × PropValue)}
    (distinct : (entries.map Prod.fst).Nodup) {changesOf : String × PropValue → List Change}
    (own : ∀ entry, ∀ change ∈ changesOf entry, ∀ name, change.concerns name → entry.1 = name)
    (name : String) (shown : Option String) :
    Change.attributeAfterAll name shown (entries.flatMap changesOf) =
      match entries.lookup name with
      | some value => Change.attributeAfterAll name shown (changesOf (name, value))
      | none => shown := by
  induction entries with
  | nil => rfl
  | cons entry rest ih =>
    obtain ⟨key, value⟩ := entry
    rw [List.map_cons, List.nodup_cons] at distinct
    rw [List.flatMap_cons, attributeAfterAll_append, List.lookup_cons]
    by_cases same : name = key
    · subst same
      have later : ∀ change ∈ rest.flatMap changesOf, ¬ change.concerns name := by
        intro change member concerned
        obtain ⟨entry, present, change_mem⟩ := List.mem_flatMap.mp member
        have listed : entry.1 ∈ rest.map Prod.fst := List.mem_map_of_mem present
        rw [own entry change change_mem name concerned] at listed
        exact distinct.1 listed
      rw [attributeAfterAll_of_not_concerns later]
      simp
    · have elsewhere : ∀ change ∈ changesOf (key, value), ¬ change.concerns name := by
        intro change member concerned
        exact same (own (key, value) change member name concerned).symm
      rw [attributeAfterAll_of_not_concerns elsewhere, ih distinct.2, beq_false_of_ne same]

theorem Props.lookup_onHost (props : Props) (name : String) :
    props.onHost.lookup name = if isReserved name then none else props.get? name := by
  unfold Props.onHost Props.get?
  induction props.entries with
  | nil => simp
  | cons entry rest ih =>
    obtain ⟨key, value⟩ := entry
    rw [List.filter_cons, List.lookup_cons]
    by_cases same : name = key
    · subst same
      by_cases reserved : isReserved name
      · simpa only [reserved, Bool.not_true, Bool.false_eq_true, if_false, if_true] using ih
      · simp [reserved]
    · rw [beq_false_of_ne same]
      by_cases reserved : isReserved key
      · simpa only [reserved, Bool.not_true, Bool.false_eq_true, if_false] using ih
      · simpa [reserved, List.lookup_cons, beq_false_of_ne same] using ih

theorem Props.distinct_onHost (props : Props) : (props.onHost.map Prod.fst).Nodup :=
  props.distinct.sublist (List.filter_sublist.map _)

/-- The changes that show the props of a new element. -/
def Props.shown (props : Props) : List Change :=
  props.onHost.flatMap fun entry => if entry.2 = .flag false then [] else [.set entry.1 entry.2]

theorem showProps_eq {H : Type} [Host H] (host : H) (target : HostId) (props : Props) :
    showProps host target props = Change.carryOutEach host target props.shown := by
  unfold showProps Props.shown Change.carryOutEach
  induction props.onHost generalizing host with
  | nil => rfl
  | cons entry rest ih =>
    rw [List.foldl_cons, ih, List.flatMap_cons, List.foldl_append]
    by_cases hidden : entry.2 = .flag false
    · simp [hidden]
    · simp [hidden, Change.carryOut]

private theorem attributeAfterAll_shown (props : Props) (name : String) :
    Change.attributeAfterAll name none props.shown = props.attribute? name := by
  rw [Props.shown, attributeAfterAll_flatMap props.distinct_onHost, Props.lookup_onHost,
    Props.attribute?]
  · by_cases reserved : isReserved name
    · simp [reserved]
    · rw [if_neg reserved, if_neg reserved]
      cases props.get? name with
      | none => rfl
      | some value =>
        by_cases hidden : value = .flag false
        · simp [hidden, Change.attributeAfterAll, PropValue.attribute?]
        · cases value <;>
            simp_all [Change.attributeAfterAll, Change.attributeAfter, PropValue.isHandler,
              PropValue.attribute?]
  · rintro ⟨key, value⟩ change member other concerned
    by_cases hidden : value = .flag false
    · simp [hidden] at member
    · simp only [hidden, if_false, List.mem_singleton] at member
      subst member
      simpa [Change.concerns] using concerned

theorem Props.ofProps_shown (props : Props) : ∀ change ∈ props.shown, change.ofProps := by
  intro change member
  obtain ⟨entry, -, change_mem⟩ := List.mem_flatMap.mp member
  by_cases hidden : entry.2 = .flag false <;> simp_all [Change.ofProps]

/-- A new element gets the attributes of its props. -/
theorem showProps_spec (linked : before.Linked)
    (found : before.content? node = some (.element tag [] listeners)) (props : Props) :
    showProps (Audit.opened before) node props = Audit.opened (showProps before node props) ∧
      Redressed before (showProps before node props) node tag props.attribute? := by
  obtain ⟨exact, attributes, latest, rewritten, looks⟩ :=
    Change.carryOutEach_spec linked found props.ofProps_shown
  rw [showProps_eq, showProps_eq]
  refine ⟨?_, attributes, latest, rewritten, fun name => ?_⟩
  · rw [← carryOutAll_update, ← carryOutAll_update]
    exact exact.quiet
  · rw [looks]
    exact attributeAfterAll_shown props name

private theorem attributeAfterAll_changesTo (old new : Props) (name : String) :
    Change.attributeAfterAll name (old.attribute? name) (old.changesTo new) =
      new.attribute? name := by
  have gone : ((old.onHost.filter fun entry => (new.get? entry.1).isNone).map fun entry =>
      Change.unset entry.1 entry.2) = old.onHost.flatMap fun entry =>
        if (new.get? entry.1).isNone then [.unset entry.1 entry.2] else [] := by
    induction old.onHost with
    | nil => rfl
    | cons entry rest ih =>
      rw [List.filter_cons, List.flatMap_cons, ← ih]
      split <;> simp
  rw [Props.changesTo, gone, attributeAfterAll_append,
    attributeAfterAll_flatMap old.distinct_onHost, attributeAfterAll_flatMap new.distinct_onHost,
    Props.lookup_onHost, Props.lookup_onHost, Props.attribute?, Props.attribute?]
  · by_cases reserved : isReserved name
    · simp [reserved]
    · simp only [reserved, if_false, Bool.false_eq_true]
      cases before : old.get? name with
      | none =>
        cases after : new.get? name with
        | none => rfl
        | some value =>
          cases value <;> simp [before, propChanges, Change.attributeAfterAll,
            Change.attributeAfter, PropValue.isHandler, PropValue.attribute?]
      | some previous =>
        cases after : new.get? name with
        | none =>
          cases previous <;> simp [Change.attributeAfterAll, Change.attributeAfter,
            PropValue.isHandler, PropValue.attribute?]
        | some value =>
          by_cases same : previous = value
          · simp [before, propChanges, same, Change.attributeAfterAll]
          · cases previous <;> cases value <;>
              simp_all [propChanges, Change.attributeAfterAll, Change.attributeAfter,
                PropValue.isHandler, PropValue.attribute?]
  · rintro ⟨key, value⟩ change member other concerned
    rw [propChanges] at member
    cases change <;> simp_all [Change.concerns] <;> aesop
  · rintro ⟨key, value⟩ change member other concerned
    by_cases absent : (new.get? key).isNone
    · simp only [absent, if_true, List.mem_singleton] at member
      subst member
      simpa [Change.concerns] using concerned
    · simp [absent] at member

theorem Props.ofProps_changesTo (old new : Props) :
    ∀ change ∈ old.changesTo new, change.ofProps := by
  intro change member
  rcases List.mem_append.mp member with gone | new
  · obtain ⟨entry, -, rfl⟩ := List.mem_map.mp gone
    rfl
  · obtain ⟨entry, -, change_mem⟩ := List.mem_flatMap.mp new
    unfold propChanges at change_mem
    cases change with
    | text => aesop
    | _ => rfl

/-- The changes from old props to new ones give an element the attributes of the new. -/
theorem changesTo_spec {old : Props} (linked : before.Linked)
    (found : before.content? node = some (.element tag attributes listeners))
    (looks : ∀ name, attributes.lookup name = old.attribute? name) (new : Props) :
    Patch.ExactAll before ((old.changesTo new).map (Patch.update node)) ∧
      Redressed before
        (Patch.carryOutAll before ((old.changesTo new).map (Patch.update node))) node tag
        new.attribute? := by
  obtain ⟨exact, last, latest, rewritten, looksLast⟩ :=
    Change.carryOutEach_spec linked found (old.ofProps_changesTo new)
  rw [carryOutAll_update]
  refine ⟨exact, last, latest, rewritten, fun name => ?_⟩
  rw [looksLast, looks]
  exact attributeAfterAll_changesTo old new name

end ReactiveTree
