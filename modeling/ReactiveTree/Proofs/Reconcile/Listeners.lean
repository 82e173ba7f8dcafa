import ReactiveTree.Proofs.Reconcile.Building

/-! # Listeners of a host element

A handler is stored under the event that its prop listens for, and several props may listen for one
event; then the last of them has it. Building an element shows its props one after another, and the
changes from old props to new ones touch the listener of an event whenever a prop that listens for it
comes, goes or changes. The last touch decides.
-/

namespace ReactiveTree

open Document

variable {document before : Document} {node : HostId} {tag event : String}
  {attributes : List (String × String)} {listeners : List (String × Handler)} {old new props : Props}

/-- The handler of a prop that listens for an event. -/
def handlerFor (event : String) (entry : String × PropValue) : Option Handler :=
  match entry.2 with
  | .handler callback => if eventName entry.1 = event then some callback else none
  | _ => none

/-- The listener for an event that an element is built with: the last prop that listens for it. -/
def Props.listener? (props : Props) (event : String) : Option Handler :=
  (props.onHost.filterMap (handlerFor event)).getLast?

/-- An element that has the attributes and the listeners of props. -/
structure Document.Wears (document : Document) (node : HostId) (props : Props) : Prop where
  element : ∃ tag, document.tag? node = some tag
  attributes : ∀ name, document.attribute? node name = props.attribute? name
  listeners : ∀ event, document.listener? node event = props.listener? event

theorem handlerFor_eq_some {entry : String × PropValue} {callback : Handler} :
    handlerFor event entry = some callback ↔
      entry.2 = .handler callback ∧ eventName entry.1 = event := by
  obtain ⟨name, value⟩ := entry
  cases value <;> simp [handlerFor, and_comm]

/-- What a change does to the listener for an event, if it touches it. -/
def Change.relistens (event : String) : Change → Option (Option Handler)
  | .set name (.handler callback) => if eventName name = event then some (some callback) else none
  | .unset name (.handler _) => if eventName name = event then some none else none
  | _ => none

theorem listener?_of_content? (found : document.content? node = some (.element tag attributes listeners))
    (event : String) : document.listener? node event = listeners.lookup event := by
  unfold Document.listener?
  rw [found]

theorem attribute?_of_content? (found : document.content? node = some (.element tag attributes listeners))
    (name : String) : document.attribute? node name = attributes.lookup name := by
  unfold Document.attribute?
  rw [found]

theorem exists_content?_of_tag? (element : document.tag? node = some tag) :
    ∃ attributes listeners, document.content? node = some (.element tag attributes listeners) := by
  unfold Document.tag? at element
  split at element
  next attributes listeners found =>
    cases element
    exact ⟨attributes, listeners, found⟩
  next => cases element

theorem Document.Wears.of_content?
    (found : document.content? node = some (.element tag attributes listeners))
    (looks : ∀ name, attributes.lookup name = props.attribute? name)
    (heard : ∀ event, listeners.lookup event = props.listener? event) : document.Wears node props where
  element := ⟨tag, by unfold Document.tag?; rw [found]⟩
  attributes name := (attribute?_of_content? found name).trans (looks name)
  listeners event := (listener?_of_content? found event).trans (heard event)

/-- Only a handler that comes or goes touches a listener. -/
theorem Change.carryOut_listener? (linked : before.Linked)
    (found : before.content? node = some (.element tag attributes listeners))
    {change : Change} (ofProps : change.ofProps) (event : String) :
    (change.carryOut before node).listener? node event =
      (change.relistens event).getD (listeners.lookup event) := by
  have known := contains_of_content? found
  have relisted {after : Document} {attributes' : List (String × String)}
      {listeners' : List (String × Handler)}
      (rewritten : Rewritten before after node (.element tag attributes' listeners')) :
      after.listener? node event = listeners'.lookup event :=
    listener?_of_content? (rewritten.content? known) event
  cases change with
  | text => cases ofProps
  | set name value =>
    cases value with
    | handler callback =>
      have added := relisted (carryOut_addListener linked found (eventName name) callback).2
      refine added.trans ?_
      rw [lookup_setEntry]
      by_cases same : eventName name = event
      · simp [Change.relistens, same]
      · simp [Change.relistens, same, Ne.symm same]
    | text content => exact relisted (carryOut_setAttribute linked found name content).2
    | number value => exact relisted (carryOut_setAttribute linked found name value.text).2
    | flag on =>
      cases on with
      | true => exact relisted (carryOut_setAttribute linked found name "").2
      | false => exact relisted (carryOut_removeAttribute linked found name).2
  | unset name value =>
    cases value with
    | handler callback =>
      have removed := relisted (carryOut_removeListener linked found (eventName name)).2
      refine removed.trans ?_
      rw [lookup_removeEntry]
      by_cases same : eventName name = event
      · simp [Change.relistens, same]
      · simp [Change.relistens, same, Ne.symm same]
    | text => exact relisted (carryOut_removeAttribute linked found name).2
    | number => exact relisted (carryOut_removeAttribute linked found name).2
    | flag => exact relisted (carryOut_removeAttribute linked found name).2

/-- After several changes the last that touches a listener decides it. -/
theorem Change.carryOutEach_listener? {changes : List Change} (linked : before.Linked)
    (found : before.content? node = some (.element tag attributes listeners))
    (ofProps : ∀ change ∈ changes, change.ofProps) (event : String) :
    (Change.carryOutEach before node changes).listener? node event =
      (changes.filterMap (Change.relistens event)).getLast?.getD (listeners.lookup event) := by
  induction changes generalizing before attributes listeners with
  | nil => exact listener?_of_content? found event
  | cons change rest ih =>
    have ofProps' := ofProps change List.mem_cons_self
    obtain ⟨-, next, nextListeners, rewritten, -⟩ := Change.carryOut_spec linked found ofProps'
    have nextFound := rewritten.content? (contains_of_content? found)
    have first := Change.carryOut_listener? linked found ofProps' event
    rw [listener?_of_content? nextFound] at first
    show (Change.carryOutEach (change.carryOut before node) node rest).listener? node event = _
    rw [ih rewritten.linked nextFound fun change member => ofProps change (List.mem_cons_of_mem _ member),
      first, List.filterMap_cons]
    cases touched : change.relistens event with
    | none => rfl
    | some latest => simp [List.getLast?_cons]

theorem relistens_shown (props : Props) (event : String) :
    props.shown.filterMap (Change.relistens event) =
      (props.onHost.filterMap (handlerFor event)).map some := by
  unfold Props.shown
  rw [List.filterMap_flatMap, List.map_filterMap]
  induction props.onHost with
  | nil => rfl
  | cons entry rest ih =>
    obtain ⟨name, value⟩ := entry
    rw [List.flatMap_cons, ih, List.filterMap_cons]
    cases value with
    | handler callback =>
      by_cases same : eventName name = event <;> simp [Change.relistens, handlerFor, same]
    | flag on => cases on <;> simp [Change.relistens, handlerFor]
    | text => simp [Change.relistens, handlerFor]
    | number => simp [Change.relistens, handlerFor]

/-- An element is given the listeners of its props. -/
theorem showProps_listener? (linked : before.Linked)
    (found : before.content? node = some (.element tag [] [])) (props : Props) (event : String) :
    (showProps before node props).listener? node event = props.listener? event := by
  rw [showProps_eq, Change.carryOutEach_listener? linked found props.ofProps_shown,
    relistens_shown, List.getLast?_map]
  unfold Props.listener?
  cases (props.onHost.filterMap (handlerFor event)).getLast? <;> rfl

theorem content?_insertFrom (document : Document) (parent : HostId) (index : Nat) (nodes : List HostId)
    (other : HostId) :
    (insertFrom document parent index nodes).content? other = document.content? other := by
  induction nodes generalizing document index with
  | nil => rfl
  | cons first rest ih =>
    rw [insertFrom_cons, ih]
    show (document.attempt (.insertChild parent first index)).content? other = _
    unfold Document.attempt Document.perform
    by_cases known : document.contains parent ∧ document.contains first
    · have content : ((document.detach first).attach parent first index).counted.content? other =
          document.content? other := by
        rw [content?_of_node? (node?_counted _ other), content?_attach, content?_detach]
      simpa [known] using content
    · simp [known]

/-- Building the children of an element and adopting them leaves it as it was dressed. -/
theorem Built.content?_adopted {dressed filled : Document} {nodes : List HostId} {children : List Tree}
    {content : Content} (built : Built dressed nodes filled children)
    (found : dressed.content? node = some content) (parent : HostId) (index : Nat) :
    (insertFrom filled parent index nodes).content? node = some content := by
  rw [content?_insertFrom, content?_of_node? (built.node?_eq (contains_of_content? found)), found]

/-- An element that is built with props wears them. -/
theorem build_wears (linked : document.Linked) (tag : String) (props : Props) (children : List Tree)
    (key : Option Key) :
    ∃ node, ((Tree.element tag props children key).build document).1 = [node] ∧
      ((Tree.element tag props children key).build document).2.Wears node props := by
  have start : (document.create (.element tag [] [])).2.Linked := linked.create _
  have found : (document.create (.element tag [] [])).2.content? (document.create
      (.element tag [] [])).1 = some (.element tag [] []) := by
    simp [Document.content?, node?_create]
  obtain ⟨-, attributes, listeners, rewritten, looks⟩ := showProps_spec start found props
  have dressed := rewritten.content? (contains_of_content? found)
  have heard (event : String) : listeners.lookup event = props.listener? event := by
    rw [← listener?_of_content? dressed]
    exact showProps_listener? start found props event
  obtain ⟨-, built⟩ := Tree.buildAll_spec rewritten.linked children
  simp only [Tree.build]
  refine ⟨_, rfl, ?_⟩
  exact .of_content? (built.content?_adopted dressed _ 0) looks heard

/-- What becomes of the listener for an event at an old prop: one that listens and goes takes it off. -/
def Props.leave (new : Props) (event : String) (entry : String × PropValue) :
    Option (Option Handler) :=
  if (new.get? entry.1).isNone then (handlerFor event entry).map fun _ => none else none

/-- What becomes of it at a new prop: a handler that is new or another one is put there, and a handler
that has turned into an attribute is taken off. -/
def Props.enter (old : Props) (event : String) (entry : String × PropValue) :
    Option (Option Handler) :=
  let previous := (old.get? entry.1).bind fun value => handlerFor event (entry.1, value)
  match handlerFor event entry with
  | some callback => if previous = some callback then none else some (some callback)
  | none => previous.map fun _ => none

/-- All that the changes do to the listener for an event, in order. -/
def Props.handover (old new : Props) (event : String) : List (Option Handler) :=
  old.onHost.filterMap (new.leave event) ++ new.onHost.filterMap (old.enter event)

theorem relistens_propChanges (old : Props) (event name : String) (value : PropValue) :
    (propChanges old name value).filterMap (Change.relistens event) =
      (old.enter event (name, value)).toList := by
  unfold propChanges Props.enter
  by_cases same : eventName name = event
  · cases old.get? name with
    | none => cases value <;> simp [Change.relistens, handlerFor, same]
    | some previous =>
      cases previous <;> cases value <;>
        simp [List.filterMap_cons, Change.relistens, handlerFor, PropValue.isHandler, same]
      split <;> simp [Change.relistens, same]
  · cases old.get? name with
    | none => cases value <;> simp [Change.relistens, handlerFor, same]
    | some previous =>
      cases previous <;> cases value <;>
        simp [List.filterMap_cons, Change.relistens, handlerFor, PropValue.isHandler, same]

theorem relistens_changesTo (old new : Props) (event : String) :
    (old.changesTo new).filterMap (Change.relistens event) = old.handover new event := by
  unfold Props.changesTo Props.handover
  rw [List.filterMap_append]
  congr 1
  · induction old.onHost with
    | nil => rfl
    | cons entry rest ih =>
      obtain ⟨name, value⟩ := entry
      rw [List.filterMap_cons, ← ih, List.filter_cons]
      by_cases gone : (new.get? name).isNone
      · by_cases same : eventName name = event <;> cases value <;>
          simp [List.filterMap_cons, Change.relistens, Props.leave, handlerFor, gone, same]
      · simp [Props.leave, gone]
  · rw [List.filterMap_flatMap]
    induction new.onHost with
    | nil => rfl
    | cons entry rest ih =>
      obtain ⟨name, value⟩ := entry
      rw [List.flatMap_cons, ih, relistens_propChanges, List.filterMap_cons]
      cases old.enter event (name, value) <;> rfl

/-- The element keeps its tag and gets the attributes of the new props. -/
theorem carryOutAll_attribute? (linked : document.Linked) (wears : document.Wears node old)
    (new : Props) :
    (Patch.carryOutAll document ((old.changesTo new).map (Patch.update node))).tag? node =
        document.tag? node ∧
      ∀ name, (Patch.carryOutAll document
        ((old.changesTo new).map (Patch.update node))).attribute? node name = new.attribute? name := by
  obtain ⟨tag, element⟩ := wears.element
  obtain ⟨attributes, listeners, found⟩ := exists_content?_of_tag? element
  have looks (name : String) : attributes.lookup name = old.attribute? name := by
    rw [← attribute?_of_content? found]
    exact wears.attributes name
  obtain ⟨-, latest, latestListeners, rewritten, looksLast⟩ := changesTo_spec linked found looks new
  have last := rewritten.content? (contains_of_content? found)
  refine ⟨?_, fun name => (attribute?_of_content? last name).trans (looksLast name)⟩
  unfold Document.tag?
  rw [found, last]

/-- The last prop that takes the listener off or puts one there decides it. -/
theorem carryOutAll_listener? (linked : document.Linked) (wears : document.Wears node old) (new : Props)
    (event : String) :
    (Patch.carryOutAll document ((old.changesTo new).map (Patch.update node))).listener? node event =
      (old.handover new event).getLast?.getD (old.listener? event) := by
  obtain ⟨tag, element⟩ := wears.element
  obtain ⟨attributes, listeners, found⟩ := exists_content?_of_tag? element
  rw [carryOutAll_update, Change.carryOutEach_listener? linked found (old.ofProps_changesTo new),
    ← wears.listeners, listener?_of_content? found, relistens_changesTo]

end ReactiveTree
