import Mathlib.Data.Set.Function
import ReactiveTree.Proofs.Reconcile.Listeners

/-! # Handing listeners over

The changes from old props to new ones follow each prop by its own name and know nothing of events. A
prop that goes takes the listener of its event along, also if another one, which stays as it is, still
listens for that event. Where old and new props are not at odds about an event in this way, the last of
the new props that listen for it has the listener in the end.
-/

namespace ReactiveTree

open Document

variable {document : Document} {node : HostId} {event : String} {old new props : Props}

/-- A prop that listens for an event, with its handler. -/
def Props.ListensFor (props : Props) (event name : String) (callback : Handler) : Prop :=
  props.onHost.lookup name = some (.handler callback) ∧ eventName name = event

theorem mem_of_lookup {entries : List (String × PropValue)} {name : String} {value : PropValue}
    (found : entries.lookup name = some value) : (name, value) ∈ entries := by
  induction entries with
  | nil => cases found
  | cons entry rest ih =>
    rw [List.lookup_cons] at found
    by_cases same : name = entry.1
    · subst same
      simp only [beq_self_eq_true, Option.some.injEq] at found
      subst found
      exact List.mem_cons_self
    · rw [beq_false_of_ne same] at found
      exact List.mem_cons_of_mem _ (ih found)

theorem lookup_of_mem {entries : List (String × PropValue)} (distinct : (entries.map Prod.fst).Nodup)
    {name : String} {value : PropValue} (member : (name, value) ∈ entries) :
    entries.lookup name = some value := by
  induction entries with
  | nil => cases member
  | cons entry rest ih =>
    rw [List.map_cons, List.nodup_cons] at distinct
    rw [List.lookup_cons]
    rcases List.mem_cons.mp member with rfl | later
    · simp
    · have apart : name ≠ entry.1 := by
        rintro rfl
        exact distinct.1 (List.mem_map.mpr ⟨_, later, rfl⟩)
      rw [beq_false_of_ne apart]
      exact ih distinct.2 later

namespace Props

theorem ListensFor.unique {name : String} {callback other : Handler}
    (first : props.ListensFor event name callback) (second : props.ListensFor event name other) :
    callback = other := by
  have same := first.1.symm.trans second.1
  cases same
  rfl

theorem listensFor_of_mem {entry : String × PropValue} {callback : Handler} (member : entry ∈ props.onHost)
    (hears : handlerFor event entry = some callback) : props.ListensFor event entry.1 callback := by
  obtain ⟨name, value⟩ := entry
  obtain ⟨rfl, same⟩ := handlerFor_eq_some.mp hears
  exact ⟨lookup_of_mem props.distinct_onHost member, same⟩

/-- Nobody has the listener exactly if no prop listens. -/
theorem listener?_eq_none : props.listener? event = none ↔
    ∀ name callback, ¬ props.ListensFor event name callback := by
  unfold listener?
  rw [List.getLast?_eq_none_iff, List.filterMap_eq_nil_iff]
  constructor
  · intro silent name callback listens
    have hears := silent _ (mem_of_lookup listens.1)
    rw [handlerFor_eq_some.mpr ⟨rfl, listens.2⟩] at hears
    cases hears
  · intro silent entry member
    cases hears : handlerFor event entry with
    | none => rfl
    | some callback => exact (silent _ _ (listensFor_of_mem member hears)).elim

/-- The last prop that listens, with what comes after it. -/
theorem exists_last_of_listener? {callback : Handler} (found : props.listener? event = some callback) :
    ∃ front name back, props.onHost = front ++ (name, .handler callback) :: back ∧
      eventName name = event ∧ ∀ entry ∈ back, handlerFor event entry = none := by
  unfold listener? at found
  rw [List.getLast?_filterMap, List.findSome?_eq_some_iff] at found
  obtain ⟨later, entry, earlier, reversed, hears, silent⟩ := found
  obtain ⟨name, value⟩ := entry
  obtain ⟨rfl, same⟩ := handlerFor_eq_some.mp hears
  refine ⟨earlier.reverse, name, later.reverse, ?_, same, ?_⟩
  · rw [← List.reverse_reverse props.onHost, reversed]
    simp
  · simpa using silent

end Props

/-- Cases in which old and new props are not at odds about the listener for an event. -/
inductive Undisputed (old new : Props) (event : String) : Prop where
  /-- No two names, one among the old props and one among the new, listen for the event. -/
  | sole (one : ∀ {name other callback latest}, old.ListensFor event name callback →
      new.ListensFor event other latest → name = other)
  /-- The same props listen as before, and the same is the last of them. -/
  | kept (same : ∀ name callback, old.ListensFor event name callback ↔ new.ListensFor event name callback)
      (last : old.listener? event = new.listener? event)
  /-- The last new prop that listens has another handler than before, and none after it gives up one. -/
  | renewed {front back : List (String × PropValue)} {name : String} {callback : Handler}
      (split : new.onHost = front ++ (name, .handler callback) :: back) (hears : eventName name = event)
      (fresh : ¬ old.ListensFor event name callback)
      (silent : ∀ entry ∈ back, ∀ latest, ¬ old.ListensFor event entry.1 latest ∧
        ¬ new.ListensFor event entry.1 latest)

theorem Props.isReserved_of_mem_onHost {entry : String × PropValue} (member : entry ∈ props.onHost) :
    isReserved entry.1 = false := by
  unfold Props.onHost at member
  simpa using (List.mem_filter.mp member).2

/-- Below a name that reaches the host, the handler from before is one that listened. -/
theorem Props.previous_eq_some {name : String} {callback : Handler} (shown : isReserved name = false) :
    ((old.get? name).bind fun value => handlerFor event (name, value)) = some callback ↔
      old.ListensFor event name callback := by
  unfold Props.ListensFor
  rw [Props.lookup_onHost, shown, if_neg Bool.false_ne_true]
  cases old.get? name with
  | none => simp
  | some value => simp [handlerFor_eq_some]

theorem Props.handlerFor_of_mem {entry : String × PropValue} (member : entry ∈ props.onHost)
    {callback : Handler} :
    handlerFor event entry = some callback ↔ props.ListensFor event entry.1 callback := by
  refine ⟨Props.listensFor_of_mem member, fun listens => ?_⟩
  have found : props.onHost.lookup entry.1 = some entry.2 :=
    lookup_of_mem props.distinct_onHost member
  rw [listens.1] at found
  exact handlerFor_eq_some.mpr ⟨(Option.some.inj found).symm, listens.2⟩

theorem Props.leave_eq_some {entry : String × PropValue} (member : entry ∈ old.onHost)
    {latest : Option Handler} :
    new.leave event entry = some latest ↔
      latest = none ∧ new.get? entry.1 = none ∧ ∃ callback, old.ListensFor event entry.1 callback := by
  unfold Props.leave
  simp only [← Props.handlerFor_of_mem member]
  cases new.get? entry.1 with
  | some value => simp
  | none => cases handlerFor event entry <;> simp [eq_comm]

theorem Props.enter_eq_some {entry : String × PropValue} (member : entry ∈ new.onHost)
    {latest : Option Handler} :
    old.enter event entry = some latest ↔
      match latest with
      | some callback => new.ListensFor event entry.1 callback ∧
          ¬ old.ListensFor event entry.1 callback
      | none => (∃ callback, old.ListensFor event entry.1 callback) ∧
          ∀ callback, ¬ new.ListensFor event entry.1 callback := by
  have shown := Props.isReserved_of_mem_onHost member
  unfold Props.enter
  simp only [← Props.handlerFor_of_mem member, ← Props.previous_eq_some shown]
  generalize ((old.get? entry.1).bind fun value => handlerFor event (entry.1, value)) = previous
  cases handlerFor event entry with
  | none => cases previous <;> cases latest <;> simp
  | some callback =>
    by_cases kept : previous = some callback
    · cases latest <;> simp [kept]
    · cases latest <;> simp [kept]
      rintro rfl
      exact kept

/-- The listener is taken off by each prop that listened and does so no longer. -/
theorem Props.none_mem_handover : none ∈ old.handover new event ↔
    ∃ name callback, old.ListensFor event name callback ∧
      ∀ latest, ¬ new.ListensFor event name latest := by
  unfold Props.handover
  rw [List.mem_append, List.mem_filterMap, List.mem_filterMap]
  constructor
  · rintro (⟨entry, member, left⟩ | ⟨entry, member, entered⟩)
    · obtain ⟨-, gone, callback, listened⟩ := (Props.leave_eq_some member).mp left
      refine ⟨entry.1, callback, listened, fun latest listens => ?_⟩
      have shown := listens.1
      rw [Props.lookup_onHost, gone] at shown
      split at shown <;> cases shown
    · obtain ⟨⟨callback, listened⟩, silent⟩ := (Props.enter_eq_some member).mp entered
      exact ⟨entry.1, callback, listened, silent⟩
  · rintro ⟨name, callback, listened, silent⟩
    have member := mem_of_lookup listened.1
    cases found : new.get? name with
    | none =>
      exact Or.inl ⟨_, member, (Props.leave_eq_some member).mpr ⟨rfl, found, callback, listened⟩⟩
    | some value =>
      have member' : (name, value) ∈ new.onHost := by
        apply mem_of_lookup
        rw [Props.lookup_onHost, Props.isReserved_of_mem_onHost member, found]
        rfl
      exact Or.inr
        ⟨_, member', (Props.enter_eq_some member').mpr ⟨⟨callback, listened⟩, silent⟩⟩

/-- A handler is put there by each prop that listens with it and did not before. -/
theorem Props.some_mem_handover {callback : Handler} : some callback ∈ old.handover new event ↔
    ∃ name, new.ListensFor event name callback ∧ ¬ old.ListensFor event name callback := by
  unfold Props.handover
  rw [List.mem_append, List.mem_filterMap, List.mem_filterMap]
  constructor
  · rintro (⟨entry, member, left⟩ | ⟨entry, member, entered⟩)
    · obtain ⟨absent, -⟩ := (Props.leave_eq_some member).mp left
      cases absent
    · exact ⟨entry.1, (Props.enter_eq_some member).mp entered⟩
  · rintro ⟨name, listens, fresh⟩
    have member := mem_of_lookup listens.1
    exact Or.inr ⟨_, member, (Props.enter_eq_some member).mpr ⟨listens, fresh⟩⟩

theorem Props.exists_listensFor {callback : Handler} (found : props.listener? event = some callback) :
    ∃ name, props.ListensFor event name callback := by
  obtain ⟨entry, member, hears⟩ := List.mem_filterMap.mp (List.mem_of_getLast? found)
  exact ⟨entry.1, listensFor_of_mem member hears⟩

/-- A handler that is put there, and nothing more afterwards. -/
theorem Props.handover_of_renewed {front back : List (String × PropValue)} {name : String}
    {callback : Handler} (split : new.onHost = front ++ (name, .handler callback) :: back)
    (hears : eventName name = event) (fresh : ¬ old.ListensFor event name callback)
    (silent : ∀ entry ∈ back, ∀ latest, ¬ old.ListensFor event entry.1 latest ∧
      ¬ new.ListensFor event entry.1 latest) :
    (old.handover new event).getLast? = some (some callback) ∧ new.listener? event = some callback := by
  have member : (name, .handler callback) ∈ new.onHost := by simp [split]
  have listens : new.ListensFor event name callback :=
    listensFor_of_mem member (handlerFor_eq_some.mpr ⟨rfl, hears⟩)
  have later {entry : String × PropValue} (behind : entry ∈ back) : entry ∈ new.onHost := by
    simp [split, behind]
  have entered : old.enter event (name, .handler callback) = some (some callback) :=
    (enter_eq_some member).mpr ⟨listens, fresh⟩
  have quiet : back.filterMap (old.enter event) = [] := by
    refine List.filterMap_eq_nil_iff.mpr fun entry behind => ?_
    cases touched : old.enter event entry with
    | none => rfl
    | some latest =>
      have change := (enter_eq_some (later behind)).mp touched
      cases latest with
      | none =>
        obtain ⟨⟨previous, listened⟩, -⟩ := change
        exact ((silent entry behind previous).1 listened).elim
      | some latest => exact ((silent entry behind latest).2 change.1).elim
  have unheard : back.filterMap (handlerFor event) = [] := by
    refine List.filterMap_eq_nil_iff.mpr fun entry behind => ?_
    cases heard : handlerFor event entry with
    | none => rfl
    | some latest =>
      exact ((silent entry behind latest).2 (listensFor_of_mem (later behind) heard)).elim
  constructor
  · unfold handover
    rw [split, List.filterMap_append, List.filterMap_cons, entered, quiet]
    simp
  · unfold listener?
    rw [split, List.filterMap_append, List.filterMap_cons, unheard,
      handlerFor_eq_some.mpr ⟨rfl, hears⟩]
    simp

theorem Props.getLast?_handover_of_forall {latest : Option Handler}
    (only : ∀ touch ∈ old.handover new event, touch = latest)
    (untouched : old.handover new event = [] → old.listener? event = latest) :
    (old.handover new event).getLast?.getD (old.listener? event) = latest := by
  cases last : (old.handover new event).getLast? with
  | none => exact untouched (List.getLast?_eq_none_iff.mp last)
  | some touch => exact only touch (List.mem_of_getLast? last)

/-- If no new prop listens, then none is left that listened. -/
theorem Props.getLast?_handover_of_silent (silent : new.listener? event = none) :
    (old.handover new event).getLast?.getD (old.listener? event) = none := by
  have unheard := listener?_eq_none.mp silent
  apply getLast?_handover_of_forall
  · intro touch member
    cases touch with
    | none => rfl
    | some callback =>
      obtain ⟨name, listens, -⟩ := some_mem_handover.mp member
      exact (unheard name callback listens).elim
  · intro untouched
    refine listener?_eq_none.mpr fun name callback listened => ?_
    have left := none_mem_handover.mpr ⟨name, callback, listened, unheard name⟩
    rw [untouched] at left
    cases left

/-- If no old prop listened, then the last of the new ones is put there last. -/
theorem Props.getLast?_handover_of_unheard (unheard : old.listener? event = none) {callback : Handler}
    (wanted : new.listener? event = some callback) :
    (old.handover new event).getLast? = some (some callback) := by
  have fresh := listener?_eq_none.mp unheard
  obtain ⟨front, name, back, split, hears, silent⟩ := exists_last_of_listener? wanted
  refine (handover_of_renewed split hears (fresh name callback) fun entry behind latest =>
    ⟨fresh entry.1 latest, fun listens => ?_⟩).1
  have member : entry ∈ new.onHost := by simp [split, behind]
  have heard := (handlerFor_of_mem member).mpr listens
  rw [silent entry behind] at heard
  cases heard

/-- If one prop listens before and after, then the listener goes from the one handler to the other. -/
theorem Props.getLast?_handover_of_sole {name : String} {previous callback : Handler}
    (listened : old.ListensFor event name previous) (listens : new.ListensFor event name callback)
    (one : ∀ {first second callback latest}, old.ListensFor event first callback →
      new.ListensFor event second latest → first = second)
    (had : old.listener? event = some previous) :
    (old.handover new event).getLast?.getD (old.listener? event) = some callback := by
  apply getLast?_handover_of_forall
  · intro touch member
    cases touch with
    | none =>
      obtain ⟨other, _, listened', silent⟩ := none_mem_handover.mp member
      rw [one listened' listens] at silent
      exact (silent callback listens).elim
    | some latest =>
      obtain ⟨other, listens', -⟩ := some_mem_handover.mp member
      rw [← one listened listens'] at listens'
      rw [listens'.unique listens]
  · intro untouched
    by_contra apart
    have fresh : ¬ old.ListensFor event name callback := by
      intro listened'
      rw [listened.unique listened'] at had
      exact apart had
    have put := some_mem_handover.mpr ⟨name, listens, fresh⟩
    rw [untouched] at put
    cases put

/-- If the old and the new props are not at odds, the last of the new ones gets the listener. -/
theorem Undisputed.handover (undisputed : Undisputed old new event) :
    (old.handover new event).getLast?.getD (old.listener? event) = new.listener? event := by
  cases undisputed with
  | renewed split hears fresh silent =>
    obtain ⟨touched, found⟩ := Props.handover_of_renewed split hears fresh silent
    rw [touched, found]
    rfl
  | kept same last =>
    apply Props.getLast?_handover_of_forall
    · intro touch member
      cases touch with
      | none =>
        obtain ⟨name, callback, listened, silent⟩ := Props.none_mem_handover.mp member
        exact (silent callback ((same name callback).mp listened)).elim
      | some callback =>
        obtain ⟨name, listens, fresh⟩ := Props.some_mem_handover.mp member
        exact (fresh ((same name callback).mpr listens)).elim
    · exact fun _ => last
  | sole one =>
    cases wanted : new.listener? event with
    | none => exact Props.getLast?_handover_of_silent wanted
    | some callback =>
      cases had : old.listener? event with
      | none =>
        rw [Props.getLast?_handover_of_unheard had wanted]
        rfl
      | some previous =>
        obtain ⟨name, listened⟩ := Props.exists_listensFor had
        obtain ⟨other, listens⟩ := Props.exists_listensFor wanted
        have same := one listened listens
        subst same
        rw [← had]
        exact Props.getLast?_handover_of_sole listened listens one had

/-- The changes from old props to new ones give an element that wears the old the attributes that an
element built with the new ones has, and its listeners too, unless old and new props are at odds about
an event. In any case the listener of an event is what the last prop that gives it up, or has a handler
that is new, makes of it. -/
theorem changes_dress (old new : Props) :
    (∀ start : Document, start.Linked → ∀ tag children key,
      ∃ node, ((Tree.element tag new children key).build start).1 = [node] ∧
        ((Tree.element tag new children key).build start).2.Wears node new) ∧
    ∀ (document : Document) node, document.Linked → document.Wears node old →
      let changed := Patch.carryOutAll document ((old.changesTo new).map (Patch.update node))
      changed.tag? node = document.tag? node ∧
        (∀ name, changed.attribute? node name = new.attribute? name) ∧
        (∀ event, changed.listener? node event =
          (old.handover new event).getLast?.getD (old.listener? event)) ∧
        ∀ event, Undisputed old new event → changed.listener? node event = new.listener? event := by
  refine ⟨fun start linked tag children key => build_wears linked tag new children key,
    fun document node linked wears => ?_⟩
  obtain ⟨kept, looks⟩ := carryOutAll_attribute? linked wears new
  have heard (event : String) := carryOutAll_listener? linked wears new event
  exact ⟨kept, looks, heard, fun event undisputed => (heard event).trans undisputed.handover⟩

/-- Two handlers under two names. -/
def Props.both (first second : String) (apart : first ≠ second) (callback other : Handler) : Props :=
  ⟨[(first, .handler callback), (second, .handler other)], by simpa using apart⟩

/-- One handler. -/
def Props.alone (name : String) (callback : Handler) : Props :=
  ⟨[(name, .handler callback)], by simp⟩

theorem Props.listensFor_alone {first name : String} {callback latest : Handler}
    (shown : isReserved first = false) :
    (alone first callback).ListensFor event name latest ↔
      name = first ∧ latest = callback ∧ eventName first = event := by
  have entries : (alone first callback).onHost = [(first, .handler callback)] := by
    simp [onHost, alone, shown]
  unfold ListensFor
  rw [entries, List.lookup_cons]
  by_cases same : name = first
  · subst same
    simp [eq_comm]
  · simp [beq_false_of_ne same, same]

theorem Props.listensFor_both {first second name : String} {apart : first ≠ second}
    {callback other latest : Handler} (shown : isReserved first = false)
    (shown' : isReserved second = false) :
    (both first second apart callback other).ListensFor event name latest ↔
      name = first ∧ latest = callback ∧ eventName first = event ∨
        name = second ∧ latest = other ∧ eventName second = event := by
  have entries : (both first second apart callback other).onHost =
      [(first, .handler callback), (second, .handler other)] := by
    simp [onHost, both, shown, shown']
  unfold ListensFor
  rw [entries, List.lookup_cons, List.lookup_cons]
  by_cases same : name = first
  · subst same
    simp [apart, eq_comm]
  · by_cases same' : name = second
    · subst same'
      simp [beq_false_of_ne same, Ne.symm apart, eq_comm]
    · simp [beq_false_of_ne same, beq_false_of_ne same', same, same']

/-- Of two props that listen for one event, one goes and takes the listener of the other along. -/
theorem Props.handover_both_alone {first second : String} (apart : first ≠ second)
    (shown : isReserved first = false) (shown' : isReserved second = false)
    (shared : eventName first = eventName second) (callback other : Handler) (latest : Option Handler) :
    ((both first second apart callback other).handover (alone first callback)
      (eventName first)).getLast?.getD latest = none := by
  have left : none ∈ (both first second apart callback other).handover (alone first callback)
      (eventName first) := by
    refine none_mem_handover.mpr ⟨second, other, ?_, fun latest listens => ?_⟩
    · exact (listensFor_both shown shown').mpr (Or.inr ⟨rfl, rfl, shared.symm⟩)
    · exact apart ((listensFor_alone shown).mp listens).1.symm
  cases last : ((both first second apart callback other).handover (alone first callback)
      (eventName first)).getLast? with
  | none =>
    rw [List.getLast?_eq_none_iff] at last
    rw [last] at left
    cases left
  | some touch =>
    cases touch with
    | none => rfl
    | some put =>
      obtain ⟨name, listens, fresh⟩ := some_mem_handover.mp (List.mem_of_getLast? last)
      obtain ⟨rfl, rfl, -⟩ := (listensFor_alone shown).mp listens
      exact (fresh ((listensFor_both shown shown').mpr (Or.inl ⟨rfl, rfl, rfl⟩))).elim

theorem Props.listener?_alone {first : String} (shown : isReserved first = false) (callback : Handler) :
    (alone first callback).listener? (eventName first) = some callback := by
  have listens : (alone first callback).ListensFor (eventName first) first callback :=
    (listensFor_alone shown).mpr ⟨rfl, rfl, rfl⟩
  cases found : (alone first callback).listener? (eventName first) with
  | none => exact (listener?_eq_none.mp found first callback listens).elim
  | some latest =>
    obtain ⟨name, listens'⟩ := exists_listensFor found
    rw [((listensFor_alone shown).mp listens').2.1]

/-- Among props with given names the changes always do right exactly if no two of the names that reach
the host listen for one event. -/
theorem changes_exact_iff {names : Set String} :
    (∀ old new : Props, (∀ entry ∈ old.entries ++ new.entries, entry.1 ∈ names) →
      ∀ (document : Document) node, document.Linked → document.Wears node old →
        (Patch.carryOutAll document ((old.changesTo new).map (Patch.update node))).Wears node new) ↔
      Set.InjOn eventName {name ∈ names | isReserved name = false} := by
  constructor
  · rintro exact first ⟨listed, shown⟩ second ⟨listed', shown'⟩ shared
    by_contra apart
    have given : ∀ entry ∈ (Props.both first second apart (.named "p") (.named "q")).entries ++
        (Props.alone first (.named "p")).entries, entry.1 ∈ names := by
      simp [Props.both, Props.alone, listed, listed']
    obtain ⟨node, -, wears⟩ := build_wears linked_empty "a"
      (Props.both first second apart (.named "p") (.named "q")) [] none
    have linked := (Tree.build_spec linked_empty (.element "a"
      (Props.both first second apart (.named "p") (.named "q")) [] none)).2.change.linked
    have heard := (exact _ _ given _ node linked wears).listeners (eventName first)
    rw [carryOutAll_listener? linked wears, Props.listener?_alone shown] at heard
    have lost := Props.handover_both_alone apart shown shown' shared (.named "p") (.named "q")
      ((Props.both first second apart (.named "p") (.named "q")).listener? (eventName first))
    rw [lost] at heard
    cases heard
  · intro apart old new given document node linked wears
    obtain ⟨kept, looks⟩ := carryOutAll_attribute? linked wears new
    refine ⟨kept ▸ wears.element, looks, fun event => ?_⟩
    have undisputed : Undisputed old new event := by
      refine .sole fun {name other callback latest} listened listens => ?_
      have here := mem_of_lookup listened.1
      have there := mem_of_lookup listens.1
      apply apart
      · exact ⟨given (name, .handler callback) (List.mem_append_left _ (List.mem_filter.mp here).1),
          Props.isReserved_of_mem_onHost here⟩
      · exact ⟨given (other, .handler latest) (List.mem_append_right _ (List.mem_filter.mp there).1),
          Props.isReserved_of_mem_onHost there⟩
      · exact listened.2.trans listens.2.symm
    exact (carryOutAll_listener? linked wears new event).trans undisputed.handover

/-- Two handlers for clicks. -/
def clickProps : Props :=
  .both "onClick" "click" (by decide) (.named "p") (.named "q")

def clickedDocument : Document :=
  ((Tree.element "a" clickProps [] none).build Document.empty).2

theorem clickedDocument_wears :
    clickedDocument.Linked ∧ clickedDocument.Wears ⟨1⟩ clickProps := by
  have linked := (Tree.build_spec linked_empty (.element "a" clickProps [] none)).2.change.linked
  obtain ⟨node, same, wears⟩ := build_wears linked_empty "a" clickProps [] none
  have here : [(⟨1⟩ : HostId)] = [node] := by
    rw [← same]
    decide +kernel
  cases here
  exact ⟨linked, wears⟩

/-- One of two handlers goes, and the other is replaced. -/
theorem changes_dress_clicks :
    let new := Props.ofList [("class", .text "x"), ("onClick", .handler (.named "r"))]
    clickedDocument.Linked ∧ clickedDocument.Wears ⟨1⟩ clickProps ∧
      Undisputed clickProps new "click" ∧
      let changed := Patch.carryOutAll clickedDocument
        ((clickProps.changesTo new).map (Patch.update ⟨1⟩))
      changed.attribute? ⟨1⟩ "class" = some "x" ∧ changed.listener? ⟨1⟩ "click" = some (.named "r") := by
  intro new
  obtain ⟨linked, wears⟩ := clickedDocument_wears
  have fresh : ¬ clickProps.ListensFor "click" "onClick" (.named "r") := by
    rintro ⟨listened, -⟩
    revert listened
    decide +kernel
  have undisputed : Undisputed clickProps new "click" :=
    .renewed (show new.onHost = [("class", .text "x")] ++ [("onClick", .handler (.named "r"))] by
      decide +kernel) (by decide +kernel) fresh nofun
  obtain ⟨-, attributes, -, listeners⟩ :=
    (changes_dress clickProps new).2 clickedDocument ⟨1⟩ linked wears
  refine ⟨linked, wears, undisputed, ?_, ?_⟩
  · exact (attributes "class").trans (by decide +kernel)
  · exact (listeners "click" undisputed).trans (by decide +kernel)

/-- The handler that stays as it was does not listen any more. -/
theorem kept_listener_lost : ¬ ∀ (old new : Props) (document : Document) (node : HostId),
    document.Linked → document.Wears node old →
      (Patch.carryOutAll document ((old.changesTo new).map (Patch.update node))).Wears node new := by
  intro exact
  obtain ⟨linked, wears⟩ := clickedDocument_wears
  have heard := (exact clickProps (.alone "onClick" (.named "p")) clickedDocument ⟨1⟩ linked
    wears).listeners "click"
  revert heard
  decide +kernel

end ReactiveTree
