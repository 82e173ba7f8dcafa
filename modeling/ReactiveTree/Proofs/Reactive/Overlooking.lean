import ReactiveTree.Proofs.Graph.Membership
import ReactiveTree.Proofs.Reactive.Recording
import ReactiveTree.Proofs.Reactive.Releasing
import ReactiveTree.Proofs.Reactive.Restoring

/-! # Changes that an evaluation overlooks

A pass takes the readers of a changed signal off its list, and marks them. When the reader is a
computed whose closure is running, the mark is lost at the end of the evaluation, which leaves the
computed clean. Only a further read puts it back on the list. So what the evaluation leaves is told by
the latest event that bears on the two nodes: a read of the one by the other, or a pass of the signal.
-/

namespace ReactiveTree

variable {κ ν σ : Type}

/-- Whether the source lists the reader after an event, if the event bears on this. -/
def Event.bearing? (owner : ReactorId) (source id : NodeId) : Event κ ν → Option Bool
  | .read node reader => if node = source ∧ reader = some id then some true else none
  | .passStarted home sources => if home = owner ∧ source ∈ sources then some false else none
  | _ => none

/-- Whether the source lists the reader by the latest event that bears on this. -/
def latest? (owner : ReactorId) (source id : NodeId) (events : List (Event κ ν)) : Option Bool :=
  events.findSome? (Event.bearing? owner source id)

section

variable {owner : ReactorId} {source id : NodeId} {events later earlier : List (Event κ ν)}

theorem latest?_append : latest? owner source id (later ++ earlier) =
    (latest? owner source id later).or (latest? owner source id earlier) :=
  List.findSome?_append

theorem latest?_eq_none (remarks : ∀ event ∈ events, Event.IsRemark event) :
    latest? owner source id events = none := by
  refine List.findSome?_eq_none_iff.mpr fun event member => ?_
  have remark := remarks event member
  cases event with
  | read => exact remark.elim
  | passStarted => exact remark.elim
  | _ => rfl

theorem bearing?_eq_true_iff {event : Event κ ν} :
    event.bearing? owner source id = some true ↔ event = .read source (some id) := by
  cases event <;> simp [Event.bearing?]

theorem bearing?_eq_false_iff {event : Event κ ν} : event.bearing? owner source id = some false ↔
    ∃ sources, source ∈ sources ∧ event = .passStarted owner sources := by
  cases event <;> simp [Event.bearing?, and_comm]

/-- The latest event is a pass if one began after the last read. -/
theorem latest?_eq_false_iff : latest? owner source id events = some false ↔
    ∃ later sources earlier, events = later ++ .passStarted owner sources :: earlier ∧
      source ∈ sources ∧ .read source (some id) ∉ later := by
  constructor
  · intro passed
    obtain ⟨later, event, earlier, split, bears, silent⟩ := List.findSome?_eq_some_iff.mp passed
    obtain ⟨sources, changed, rfl⟩ := bearing?_eq_false_iff.mp bears
    refine ⟨later, sources, earlier, split, changed, fun read => ?_⟩
    cases (silent _ read).symm.trans (bearing?_eq_true_iff.mpr rfl)
  · rintro ⟨later, sources, earlier, rfl, changed, unread⟩
    have passed : latest? owner source id (.passStarted owner sources :: earlier : List (Event κ ν)) =
        some false := by
      unfold latest?
      rw [List.findSome?_cons, bearing?_eq_false_iff.mpr ⟨sources, changed, rfl⟩]
    rw [latest?_append, passed]
    cases recent : latest? owner source id later with
    | none => rfl
    | some listed =>
      cases listed with
      | false => rfl
      | true =>
        obtain ⟨event, member, bears⟩ := List.exists_of_findSome?_eq_some recent
        exact absurd (bearing?_eq_true_iff.mp bears ▸ member) unread

/-- Something bears on the two nodes if the one was read by the other. -/
theorem latest?_ne_none (read : .read source (some id) ∈ events) :
    latest? owner source id events ≠ none := by
  intro silent
  cases (List.findSome?_eq_none_iff.mp silent _ read).symm.trans (bearing?_eq_true_iff.mpr rfl)

end

namespace World

variable {world middle after final : World κ ν σ} {owner : ReactorId} {source id : NodeId}
  {events : List (Event κ ν)}

/-- The source is there and lists the reader. -/
def informs (world : World κ ν σ) (owner : ReactorId) (source id : NodeId) : Bool :=
  (world.cell? source).isSome && decide (id ∈ (world.graph owner).dependentsOf source)

/-- A signal and a computed of one reactor are live to the end. -/
structure Endure (final : World κ ν σ) (owner : ReactorId) (source id : NodeId) : Prop where
  origin : ∃ signal, final.signal? source = some signal ∧ signal.reactor = owner
  reader : ∃ computed, final.computed? id = some computed ∧ computed.reactor = owner
  lasts : final.lasting owner source = true
  lasts' : final.lasting owner id = true

/-- The source lists the reader as the latest event says, or as before. -/
def Registers (owner : ReactorId) (source id : NodeId) (world after : World κ ν σ) : Prop :=
  ∃ events, after.past = events ++ world.past ∧ after.informs owner source id =
    (latest? owner source id events).getD (world.informs owner source id)

namespace Endure

variable (endure : final.Endure owner source id)

include endure

theorem ne : source ≠ id := by
  rintro rfl
  obtain ⟨_, found, _⟩ := endure.origin
  obtain ⟨_, found', _⟩ := endure.reader
  unfold signal? at found
  rw [computed?_eq_some_iff.mp found'] at found
  cases found

theorem source_home (leads : world.Precedes final) {cell : Cell κ ν}
    (found : world.cell? source = some cell) : cell.reactor = owner := by
  obtain ⟨cell', found', place⟩ := leads.cell source cell found
  obtain ⟨signal, known, home⟩ := endure.origin
  rw [signal?_eq_some_iff.mp known] at found'
  cases found'
  exact (congrArg Prod.fst place).symm.trans home

theorem reader_place (leads : world.Precedes final) {cell : Cell κ ν}
    (found : world.cell? id = some cell) : cell.place = (owner, .derived) := by
  obtain ⟨cell', found', place⟩ := leads.cell id cell found
  obtain ⟨computed, known, home⟩ := endure.reader
  rw [computed?_eq_some_iff.mp known] at found'
  cases found'
  rw [← place, ← home]
  rfl

/-- What leaves the graph is neither of the two. -/
theorem apart_of_gone (leads : after.Precedes final) {other : NodeId}
    (known : (after.cell? other).isSome) (gone : (after.graph owner).contains other = false) :
    source ≠ other ∧ id ≠ other := by
  have lost := lasting_eq_false leads known gone
  refine ⟨?_, ?_⟩
  · rintro rfl
    exact Bool.false_ne_true (lost.symm.trans endure.lasts)
  · rintro rfl
    exact Bool.false_ne_true (lost.symm.trans endure.lasts')

end Endure

namespace Registers

theorem silently (past : after.past = events ++ world.past)
    (silent : latest? owner source id events = none)
    (same : after.informs owner source id = world.informs owner source id) :
    Registers owner source id world after :=
  ⟨events, past, by rw [silent, same]; rfl⟩

theorem refl (world : World κ ν σ) : Registers owner source id world world :=
  .silently (List.nil_append _).symm rfl rfl

theorem trans (start : Registers owner source id world middle)
    (finish : Registers owner source id middle after) : Registers owner source id world after := by
  obtain ⟨events, past, told⟩ := start
  obtain ⟨later, past', told'⟩ := finish
  refine ⟨later ++ events, by rw [past', past, List.append_assoc], ?_⟩
  rw [told', told, latest?_append]
  cases latest? owner source id later <;> rfl

/-- A step that leaves cells and lists of readers alone. -/
theorem of_cells (past : after.past = events ++ world.past)
    (silent : latest? owner source id events = none) (cells : after.cells = world.cells)
    (kept : id ∈ (after.graph owner).dependentsOf source ↔
      id ∈ (world.graph owner).dependentsOf source) :
    Registers owner source id world after := by
  refine .silently past silent ?_
  unfold informs cell?
  rw [cells, decide_eq_decide.mpr kept]

theorem of_alike (past : after.past = events ++ world.past)
    (silent : latest? owner source id events = none) (cells : after.cells = world.cells)
    (reactors : after.reactors = world.reactors) : Registers owner source id world after := by
  refine .of_cells past silent cells ?_
  rw [graph_of_reactors reactors]

theorem record (world : World κ ν σ) {event : Event κ ν}
    (silent : event.bearing? owner source id = none) :
    Registers owner source id world (world.record event) :=
  .of_alike (List.singleton_append).symm (List.findSome?_eq_none_iff.mpr fun other member => by
    rwa [List.mem_singleton.mp member]) rfl rfl

theorem modifyReactor (world : World κ ν σ) (home : ReactorId) {change : Reactor → Reactor}
    (kept : ∀ state, (change state).graph = state.graph) :
    Registers owner source id world (world.modifyReactor home change) := by
  refine .of_cells (List.nil_append _).symm rfl rfl ?_
  rw [graph_modifyReactor world home fun state _ => kept state]

theorem mapGraph (world : World κ ν σ) (home : ReactorId) {change : Graph → Graph}
    (bare : change .empty = .empty) (kept : home = owner →
      (id ∈ (change (world.graph owner)).dependentsOf source ↔
        id ∈ (world.graph owner).dependentsOf source)) :
    Registers owner source id world (world.mapGraph home change) := by
  refine .of_cells (List.nil_append _).symm rfl rfl ?_
  rw [graph_mapGraph world home bare]
  split
  next same =>
    subst same
    exact kept rfl
  next => exact Iff.rfl

/-- A change of marks, versions and labels. -/
theorem modifyNode (world : World κ ν σ) (home : ReactorId) (other : NodeId) {change : Node → Node}
    (kept : ∀ node, (change node).id = node.id ∧ (change node).dependents = node.dependents) :
    Registers owner source id world (world.mapGraph home (·.modify other change)) := by
  refine .mapGraph world home rfl fun _ => ?_
  have same : ((world.graph owner).modify other change).dependentsOf source =
      (world.graph owner).dependentsOf source :=
    Graph.setOf_modify_of_same _ other change Node.dependents kept source
  rw [same]

theorem unsubscribe (world : World κ ν σ) (home : ReactorId) {other : NodeId} (apart : id ≠ other) :
    Registers owner source id world (world.mapGraph home (·.unsubscribe other)) :=
  .mapGraph world home rfl fun _ => Graph.mem_dependentsOf_unsubscribe_of_ne _ apart

theorem resubscribe (world : World κ ν σ) (home : ReactorId) {other : NodeId} (apart : id ≠ other) :
    Registers owner source id world (world.mapGraph home (·.resubscribe other)) := by
  refine .mapGraph world home rfl fun _ => ?_
  rw [Graph.mem_dependentsOf_resubscribe, or_iff_left fun added => apart added.2]

theorem modifyCell (world : World κ ν σ) (other : NodeId) (change : Cell κ ν → Cell κ ν) :
    Registers owner source id world (world.modifyCell other change) := by
  refine .silently (List.nil_append _).symm rfl ?_
  have known : ((world.modifyCell other change).cell? source).isSome =
      (world.cell? source).isSome := by
    rw [cell?_modifyCell]
    split
    next same => rw [Option.isSome_map, same]
    next => rfl
  unfold informs
  rw [known]
  rfl

theorem hold (world : World κ ν σ) (handle : Handle) :
    Registers owner source id world (world.hold handle) := by
  cases handle with
  | reactor home => exact .modifyReactor world home fun _ => rfl
  | node other => exact .modifyCell world other _

theorem foldl_hold {α : Type} (members : List α) (handle : α → Handle) (world : World κ ν σ) :
    Registers owner source id world
      (members.foldl (fun world member => world.hold (handle member)) world) := by
  induction members generalizing world with
  | nil => exact .refl world
  | cons member rest ih => exact (hold world (handle member)).trans (ih _)

theorem lose (world : World κ ν σ) (handle : Handle) :
    Registers owner source id world (world.lose handle) := by
  cases handle with
  | reactor home => exact .modifyReactor world home fun _ => rfl
  | node other => exact .modifyCell world other _

theorem put (world : World κ ν σ) (home : ReactorId) (other : NodeId) (value : ν) :
    Registers owner source id world (world.put home other value) := by
  have stored : Registers owner source id world
      (world.modifySignal other fun signal => { signal with value }) := .modifyCell world other _
  have bumped : Registers owner source id
      (world.modifySignal other fun signal => { signal with value })
      ((world.modifySignal other fun signal => { signal with value }).mapGraph home
        (·.modify other Node.bump)) := .modifyNode _ home other fun _ => ⟨rfl, rfl⟩
  exact (stored.trans bumped).trans (.record _ rfl)

theorem noteWrite (world : World κ ν σ) (home : ReactorId) (written : NodeId) :
    Registers owner source id world (world.noteWrite home written) := by
  unfold World.noteWrite
  split
  next writer _ =>
    have noted : Registers owner source id world
        (world.mapGraph home (·.noteWrite written writer)) := by
      refine .mapGraph world home rfl fun _ => ?_
      rw [Graph.dependentsOf_noteWrite]
    exact noted.trans (.record _ rfl)
  next => exact .record world rfl

theorem closeBatch (world : World κ ν σ) (home : ReactorId) :
    Registers owner source id world (world.closeBatch home).2 := by
  rw [closeBatch_snd]
  exact .modifyReactor world home fun state => state.closeBatch_kept.1

/-- Another node leaves its graph. -/
theorem unregister (endure : final.Endure owner source id) (world : World κ ν σ) (other : NodeId)
    (leads : (world.unregister other).2.Precedes final) :
    Registers owner source id world (world.unregister other).2 := by
  cases found : world.cell? other with
  | none =>
    have same : (world.unregister other).2 = world := by
      unfold World.unregister
      rw [found]
    rw [same]
    exact .refl world
  | some cell =>
    have left : (world.unregister other).2 = (world.mapGraph cell.reactor (·.remove other)).modifyReactor
        cell.reactor fun reactor => { reactor with pending := reactor.pending.erase other } := by
      unfold World.unregister
      rw [found]
      exact removeNode_eq world cell.reactor other
    have known : ((world.unregister other).2.cell? other).isSome := by
      rw [cell?_unregister, found]
      rfl
    have removed : cell.reactor = owner → source ≠ other ∧ id ≠ other := by
      rintro rfl
      exact endure.apart_of_gone leads known (congrArg Option.isSome (node?_unregister found))
    rw [left]
    refine (mapGraph world cell.reactor rfl fun here => ?_).trans
      (.modifyReactor _ cell.reactor fun _ => rfl)
    exact Graph.mem_dependentsOf_remove_of_ne _ (removed here).2 (removed here).1

/-- A handle is given back. -/
theorem shed (endure : final.Endure owner source id) (world : World κ ν σ) (handle : Handle)
    (leads : (world.shed handle).Precedes final) (known : (world.cell? id).isSome) :
    Registers owner source id world (world.shed handle) := by
  unfold World.shed at leads ⊢
  split at leads
  next last =>
    rw [if_pos last]
    refine (lose world handle).trans ?_
    cases handle with
    | reactor home =>
      have emptied : Registers owner source id (world.lose (.reactor home))
          ((world.lose (.reactor home)).mapGraph home fun _ => .empty) := by
        refine .mapGraph _ home rfl fun here => ?_
        subst here
        have bare : ((world.lose (.reactor home)).perish (.reactor home)).2.graph home = .empty := by
          refine (graph_mapGraph (world.lose (.reactor home)) home rfl home).trans ?_
          exact if_pos rfl
        have gone : (((world.lose (.reactor home)).perish (.reactor home)).2.graph home).contains id =
            false := by
          rw [bare]
          rfl
        exact absurd rfl (endure.apart_of_gone leads known gone).2
      exact emptied.trans (.record _ rfl)
    | node other =>
      unfold World.perish at leads ⊢
      dsimp only at leads ⊢
      split at leads
      next => exact .refl _
      next => exact .unregister endure _ other leads
      next => exact .refl _
  next several =>
    rw [if_neg several]
    exact .lose world handle

/-- A new cell, with its node. -/
theorem addCell (endure : final.Endure owner source id) (world : World κ ν σ) (new : Cell κ ν)
    (leads : (world.addCell new new.kind).2.Precedes final) :
    Registers owner source id world (world.addCell new new.kind).2 := by
  refine .silently (List.nil_append _).symm rfl ?_
  unfold informs
  rw [cell?_addCell]
  split
  next here =>
    -- The source itself is new, and nobody has read it.
    subst here
    have home : new.reactor = owner := by
      refine endure.source_home leads ?_
      rw [cell?_addCell, if_pos rfl]
    have unread : ((world.addCell new new.kind).2.graph owner).dependentsOf world.nextId = [] := by
      by_cases owned : (world.reactor? new.reactor).isSome
      · rw [graph_addCell world new new.kind owned, if_pos home.symm]
        exact (Graph.setOf_insert _ _ rfl world.nextId).trans (if_pos rfl)
      · rcases graph_addCell_cases world new owner with same | ⟨_, present, _⟩
        · unfold graph at same ⊢
          rw [same, ← home, Option.not_isSome_iff_eq_none.mp owned]
          rfl
        · exact absurd present owned
    rw [cell?_nextId, unread]
    rfl
  next apart =>
    rcases graph_addCell_cases world new owner with same | ⟨_, _, inserted⟩
    · rw [same]
    · have kept : ((world.graph owner).insert (.new world.nextId new.kind)).dependentsOf source =
          (world.graph owner).dependentsOf source := by
        refine (Graph.setOf_insert _ (.new world.nextId new.kind) rfl source).trans ?_
        exact if_neg apart
      rw [inserted, kept]

theorem noteRead (endure : final.Endure owner source id) (world : World κ ν σ) {read : NodeId}
    {cell : Cell κ ν} (found : world.cell? read = some cell)
    (leads : (world.noteRead cell.reactor read).Precedes final) (known : (world.cell? id).isSome) :
    Registers owner source id world (world.noteRead cell.reactor read) := by
  cases reading : world.reader? cell.reactor with
  | none =>
    have same : world.noteRead cell.reactor read = world.record (.read read none) := by
      unfold World.noteRead
      rw [show (world.reactor? cell.reactor).bind Reactor.reader? = none from reading]
    rw [same]
    refine .record world ?_
    exact if_neg fun own => nomatch own.2
  | some reader =>
    have same : world.noteRead cell.reactor read =
        (world.mapGraph cell.reactor (·.connect read reader)).record (.read read (some reader)) := by
      unfold World.noteRead
      rw [show (world.reactor? cell.reactor).bind Reactor.reader? = some reader from reading]
    by_cases own : read = source ∧ reader = id
    · obtain ⟨rfl, rfl⟩ := own
      have home : cell.reactor = owner := endure.source_home leads (by rw [cell?_noteRead, found])
      have connected : (world.noteRead cell.reactor read).graph owner =
          (world.graph owner).connect read reader := by
        rw [graph_noteRead_of reading, if_pos home.symm, home]
      have live : ∀ other, (world.cell? other).isSome → final.lasting owner other = true →
          (world.graph owner).contains other = true := by
        intro other there lasts
        have live := leads.live owner other (by rw [cell?_noteRead]; exact there) lasts
        rw [connected] at live
        exact (Graph.contains_connect _ read reader other).symm.trans live
      have known' : (world.cell? read).isSome = true := by
        rw [found]
        rfl
      have listed : reader ∈ ((world.noteRead cell.reactor read).graph owner).dependentsOf read := by
        rw [connected]
        exact (Graph.mem_dependentsOf_connect read reader).mpr (Or.inr
          ⟨⟨endure.ne, live read known' endure.lasts, live reader known endure.lasts'⟩, rfl, rfl⟩)
      refine ⟨[.read read (some reader)], by rw [same]; rfl, ?_⟩
      have told : latest? owner read reader [(.read read (some reader) : Event κ ν)] = some true := by
        unfold latest?
        rw [List.findSome?_cons, bearing?_eq_true_iff.mpr rfl]
      rw [told]
      unfold informs
      rw [cell?_noteRead, known', decide_eq_true listed]
      rfl
    · rw [same]
      have noted : Registers owner source id world
          (world.mapGraph cell.reactor (·.connect read reader)) := by
        refine .mapGraph world _ (Graph.connect_empty read reader) fun _ => ?_
        rw [Graph.mem_dependentsOf_connect, or_iff_left]
        rintro ⟨_, rfl, rfl⟩
        exact own ⟨rfl, rfl⟩
      refine noted.trans (.record _ (if_neg fun named => own ⟨named.1, Option.some.inj named.2⟩))

theorem enterPass (world : World κ ν σ) (home : ReactorId) (sources : List NodeId) :
    Registers owner source id world (world.enterPass home sources) := by
  refine Registers.trans ?_ (.foldl_hold (world.passVisits home sources) _ _)
  have cells : ((world.record (.passStarted home sources)).planPass home sources).2.cells =
    world.cells := rfl
  have graphs := (world.record (.passStarted home sources)).graph_planPass home sources owner
  by_cases passed : home = owner ∧ source ∈ sources
  · obtain ⟨rfl, changed⟩ := passed
    refine ⟨[.passStarted home sources], rfl, ?_⟩
    have told : latest? home source id [(.passStarted home sources : Event κ ν)] = some false := by
      unfold latest?
      rw [List.findSome?_cons, bearing?_eq_false_iff.mpr ⟨sources, changed, rfl⟩]
    rw [told]
    unfold informs
    rw [graphs, if_pos rfl, Graph.dependentsOf_propagate, if_pos changed]
    simp
  · have silent : latest? owner source id [(.passStarted home sources : Event κ ν)] = none :=
      List.findSome?_eq_none_iff.mpr fun event member => by
        rw [List.mem_singleton.mp member]
        exact if_neg passed
    refine .of_cells rfl silent cells ?_
    rw [graphs]
    split
    next here =>
      subst here
      rw [Graph.dependentsOf_propagate, if_neg fun changed => passed ⟨rfl, changed⟩]
      rfl
    next => rfl

theorem enterBody (world : World κ ν σ) (other : NodeId) (home : ReactorId) :
    Registers owner source id world (world.enterBody other home) :=
  (Registers.record world rfl).trans (.modifyReactor _ home fun _ => rfl)

theorem leaveBody (world : World κ ν σ) (other : NodeId) (home : ReactorId) (panicked : Bool) :
    Registers owner source id world (world.leaveBody other home panicked) :=
  have popped : Registers owner source id world (world.modifyReactor home Reactor.popFrame) :=
    .modifyReactor world home fun _ => rfl
  popped.trans (.record _ rfl)

theorem enter (world : World κ ν σ) {other : NodeId} (apart : id ≠ other) (home : ReactorId) :
    Registers owner source id world (world.enter other home) :=
  ((modifyCell world other _).trans (.unsubscribe _ home apart)).trans (.enterBody _ other home)

theorem engage (world : World κ ν σ) {other : NodeId} (apart : id ≠ other) (home : ReactorId) :
    Registers owner source id world (world.engage other home) :=
  ((modifyCell world other _).trans (.unsubscribe _ home apart)).trans (.modifyCell _ other _)

theorem afterEvaluation [BEq ν] (inner : World κ ν σ) (other : NodeId) (computed : Computed κ ν)
    (result : Except Panic ν) :
    Registers owner source id inner (inner.afterEvaluation other computed result).2 := by
  have left : ∀ panicked, Registers owner source id inner
      (inner.leave other computed.reactor panicked) := fun panicked =>
    (leaveBody inner other computed.reactor panicked).trans (.modifyCell _ other _)
  cases result with
  | error panic => exact (left true).trans (.modifyNode _ _ other fun _ => ⟨rfl, rfl⟩)
  | ok value =>
    refine (left false).trans ?_
    show Registers owner source id _ (World.settleValue _ other computed value)
    unfold settleValue
    extract_lets same
    split
    next => exact .modifyNode _ _ other fun _ => ⟨rfl, rfl⟩
    next =>
      have kept : Registers owner source id (inner.leave other computed.reactor false)
          ((inner.leave other computed.reactor false).modifyComputed other
            ({ · with value := some value })) := .modifyCell _ other _
      refine kept.trans (Registers.trans ?_ (.record _ rfl))
      exact .modifyNode _ _ other fun _ => ⟨rfl, rfl⟩

end Registers

theorem Change.registers (change : world.Change after) (leads : after.Precedes final)
    (endure : final.Endure owner source id) (known : (world.cell? id).isSome) :
    Registers owner source id world after := by
  cases change with
  | aside _ remarks past cells reactors =>
    exact .of_alike past (latest?_eq_none remarks) cells reactors
  | hold handle => exact .hold world handle
  | shed handle => exact .shed endure world handle leads known
  | stop =>
    exact ((Registers.modifyCell world _ _).trans (.hold _ _)).trans (.unregister endure _ _ leads)
  | abandon => exact .modifyCell world _ _
  | destroy => exact (Registers.modifyCell world _ _).trans (.unregister endure _ _ leads)
  | defer => exact (Registers.put world _ _ _).trans (.modifyReactor _ _ fun _ => rfl)
  | putLost => exact .put world _ _ _
  | noteWrite => exact .noteWrite world _ _
  | addReactor settings =>
    refine .of_cells (List.nil_append _).symm rfl rfl ?_
    rw [graph_newReactor]
  | addHolding cell => exact (Registers.hold world _).trans (.addCell endure _ cell leads)
  | addEffect home body =>
    exact .addCell endure world (.effect ⟨home, body, false, none, true, false, 0, 2⟩) leads
  | label => exact .modifyNode world _ _ fun _ => ⟨rfl, rfl⟩
  | tweak other => exact .modifyCell world other _

theorem isEngaged_enter (engaged : world.isEngaged id = true) {other : NodeId} (apart : id ≠ other)
    (home : ReactorId) : (world.enter other home).isEngaged id = true :=
  isEngaged_modifyCell engaged apart _

theorem isEngaged_engage (engaged : world.isEngaged id = true) {other : NodeId} (apart : id ≠ other)
    (home : ReactorId) : (world.engage other home).isEngaged id = true := by
  have executing : (world.modifyEffect other ({ · with executing := true })).isEngaged id = true :=
    isEngaged_modifyCell engaged apart _
  exact isEngaged_modifyCell executing apart _

end World

open World in
/-- While the closure of a computed runs, the latest event that bears on it and a signal tells whether
the signal lists it. -/
theorem Trail.registers [BEq ν] {program : Program κ ν σ} {phase : Phase}
    {world after final : World κ ν σ} {owner : ReactorId} {source id : NodeId}
    (trail : Trail program phase world after) (leads : after.Precedes final)
    (endure : final.Endure owner source id) (engaged : world.isEngaged id = true) :
    Registers owner source id world after := by
  induction trail with
  | refl => exact .refl _
  | trans start finish ih ih' =>
    exact (ih (finish.leads.precedes.trans leads) engaged).trans
      (ih' leads ((start.takesTurns.engaged id).trans engaged))
  | serve _ ih => exact ih leads engaged
  | change change => exact change.registers leads endure (isEngaged_isSome engaged)
  | read found _ => exact .noteRead endure _ found leads (isEngaged_isSome engaged)
  | @untracked world inner home inside ih =>
    have pushed : Registers owner source id world
        (world.modifyReactor home (·.pushFrame .untracked)) := .modifyReactor world home fun _ => rfl
    have ran := ih ((inner.leads_popFrame home).precedes.trans leads) engaged
    exact (pushed.trans ran).trans (.modifyReactor inner home fun _ => rfl)
  | @cleanup world other effect inner found inside ih =>
    have pushed : Registers owner source id world
        (world.modifyReactor effect.reactor (·.pushFrame .untracked)) :=
      .modifyReactor world effect.reactor fun _ => rfl
    have ran := ih ((inner.leads_popFrame effect.reactor).precedes.trans leads) engaged
    exact (pushed.trans ran).trans (.modifyReactor inner effect.reactor fun _ => rfl)
  | @batch world inner home inside _ ih =>
    have opened : Registers owner source id world (world.modifyReactor home Reactor.openBatch) :=
      .modifyReactor world home fun _ => rfl
    have ran := ih ((inner.leads_closeBatch home).precedes.trans leads) engaged
    exact (opened.trans ran).trans (.closeBatch inner home)
  | @flush world inner after home inside _ pass ih ih' =>
    have opened : Registers owner source id world (world.modifyReactor home Reactor.openBatch) :=
      .modifyReactor world home fun _ => rfl
    have ran := ih (((inner.leads_closeBatch home).trans pass.leads).precedes.trans leads) engaged
    have engaged' := ((TakesTurns.closeBatch inner home).engaged id).trans
      ((inside.takesTurns.engaged id).trans engaged)
    exact ((opened.trans ran).trans (.closeBatch inner home)).trans (ih' leads engaged')
  | @store world other signal value after _ _ _ pass ih =>
    have engaged' := ((TakesTurns.put world signal.reactor other value).engaged id).trans engaged
    exact (Registers.put world _ other value).trans (ih leads engaged')
  | refresh _ _ ih => exact ih leads engaged
  | @execute world other after run ih =>
    have told : world.Change (world.record (.executed other)) := .record world trivial
    exact (told.registers (run.leads.precedes.trans leads) endure (isEngaged_isSome engaged)).trans
      (ih leads engaged)
  | @born world after home body run ih =>
    have added : world.Change _ := .addEffect home body
    have made := added.registers (run.leads.precedes.trans leads) endure (isEngaged_isSome engaged)
    exact made.trans (ih leads ((added.takesTurns.engaged id).trans engaged))
  | confirm => exact .modifyNode _ _ _ fun _ => ⟨rfl, rfl⟩
  | @evaluate world other computed present inner found home idle inside result ih =>
    have apart := ne_of_idle engaged (computed?_eq_some_iff.mp found) idle
    have entered := (world.leads_enter other computed.reactor).trans inside.leads
    obtain ⟨present', found', _⟩ := entered.computed found
    have ran := ih ((inner.leads_afterEvaluation found' computed result).precedes.trans leads)
      (isEngaged_enter engaged apart computed.reactor)
    exact ((Registers.enter world apart computed.reactor).trans ran).trans
      (.afterEvaluation inner other computed result)
  | decline => exact .refl _
  | @run world other effect middle inner last after panicked found active idle alive cleaned inside
      settled released cleans runs settles ends =>
    have apart := ne_of_idle engaged (effect?_eq_some_iff.mp found) idle
    have late := ((last.leads_endRun other).trans released.leads).precedes.trans leads
    have ended := (((inner.leads_leaveBody other effect.reactor panicked).trans
      (World.leads_countRun _ other)).trans settled.leads).precedes.trans late
    have ran := ((middle.leads_enterBody other effect.reactor).trans inside.leads).precedes.trans ended
    have held : Registers owner source id world (world.hold (.reactor effect.reactor)) := .hold world _
    have begun := held.trans (.engage (world.hold (.reactor effect.reactor)) apart effect.reactor)
    have engaged₁ := isEngaged_engage (((TakesTurns.hold world (.reactor effect.reactor)).engaged
      id).trans engaged) apart effect.reactor
    have engaged₂ := (cleaned.takesTurns.engaged id).trans engaged₁
    have engaged₃ := (inside.takesTurns.engaged id).trans engaged₂
    have counted := ((TakesTurns.countRun (inner.leaveBody other effect.reactor panicked)
      other).engaged id).trans engaged₃
    have engaged₄ := (settled.takesTurns.engaged id).trans counted
    have body := ((begun.trans (cleans ran engaged₁)).trans
      (.enterBody middle other effect.reactor)).trans (runs ended engaged₂)
    have left := (body.trans (.leaveBody inner other effect.reactor panicked)).trans
      ((Registers.modifyCell _ other _).trans (settles late counted))
    exact left.trans ((Registers.modifyCell last other _).trans
      (ends leads (isEngaged_modifyCell engaged₄ apart _)))
  | skip => exact .refl _
  | @again world home entry effect found _ _ =>
    have apart : id ≠ entry.wakeup.effect := by
      rintro rfl
      obtain ⟨cell, present⟩ := Option.isSome_iff_exists.mp (isEngaged_isSome engaged)
      have there : (world.mapGraph home (·.resubscribe entry.wakeup.effect)).cell?
          entry.wakeup.effect = some cell := present
      have derived := congrArg Prod.snd (endure.reader_place leads there)
      rw [effect?_eq_some_iff.mp found] at present
      cases present
      cases derived
    exact .resubscribe world home apart
  | spare _ _ _ _ ih => exact ih leads engaged
  | @wake world home entry effect middle after _ _ _ asked run ih ih' =>
    have back : after.Precedes (after.modifyReactor home Reactor.popChain) :=
      .modifyReactor after home fun _ => rfl
    have on : middle.Precedes (middle.modifyReactor home (·.pushChain entry.wakeup.causes)) :=
      .modifyReactor middle home fun _ => rfl
    have popped := back.trans leads
    have begun := ih (on.trans (run.leads.precedes.trans popped)) engaged
    have pushed : Registers owner source id middle
        (middle.modifyReactor home (·.pushChain entry.wakeup.causes)) :=
      .modifyReactor middle home fun _ => rfl
    have ran := ih' popped ((asked.takesTurns.engaged id).trans engaged)
    exact ((begun.trans pushed).trans ran).trans (.modifyReactor after home fun _ => rfl)
  | done => exact .refl _
  | @next world home entry rest visited dropped after visit drop others ih ih' ih'' =>
    have left := others.leads.precedes.trans leads
    have engaged₁ := (visit.takesTurns.engaged id).trans engaged
    have engaged₂ := (drop.takesTurns.engaged id).trans engaged₁
    exact ((ih (drop.leads.precedes.trans left) engaged).trans (ih' left engaged₁)).trans
      (ih'' leads engaged₂)
  | @pass world home sources after visits ih =>
    have ends := (Leads.record after (.passEnded home) not_false).precedes.trans leads
    have engaged' := ((TakesTurns.enterPass world home sources).engaged id).trans engaged
    exact ((Registers.enterPass world home sources).trans (ih ends engaged')).trans (.record after rfl)

/-- An evaluation leaves its computed clean if it succeeds, and dirty otherwise. -/
theorem World.freshness_afterEvaluation [BEq ν] (inner : World κ ν σ) {id : NodeId}
    {computed : Computed κ ν} {given : Except Panic ν} {node : Node}
    (live : ((inner.afterEvaluation id computed given).2.graph computed.reactor).node? id =
      some node) :
    node.freshness = .clean ↔ (inner.afterEvaluation id computed given).1 = .ok () := by
  have marked : ∀ {graph : Graph} {step : Node → Node} {mark : Freshness},
      (graph.modify id step).node? id = some node →
      (∀ node, (step node).id = node.id ∧ (step node).freshness = mark) → node.freshness = mark := by
    intro graph step mark live marks
    rw [Graph.node?_modify graph (fun node => (marks node).1), if_pos rfl] at live
    obtain ⟨old, _, rfl⟩ := Option.map_eq_some_iff.mp live
    exact (marks old).2
  cases given with
  | error panic =>
    have graphs : (inner.afterEvaluation id computed (.error panic)).2.graph computed.reactor =
        ((inner.leave id computed.reactor true).graph computed.reactor).modify id Node.markDirty :=
      (graph_mapGraph (inner.leave id computed.reactor true) computed.reactor rfl _).trans (if_pos rfl)
    rw [graphs] at live
    have dirty : node.freshness = .dirty := marked live fun _ => ⟨rfl, rfl⟩
    exact iff_of_false (fun clean => nomatch dirty.symm.trans clean) nofun
  | ok value =>
    obtain ⟨⟨step, marks, graphs⟩, _⟩ :=
      settleValue_sound (inner.leave id computed.reactor false) id computed value
    have settled : (inner.afterEvaluation id computed (.ok value)).2.graph computed.reactor =
        ((inner.leave id computed.reactor false).graph computed.reactor).modify id step :=
      (graphs computed.reactor).trans (if_pos rfl)
    rw [settled] at live
    exact iff_of_true (marked live fun node => ⟨(marks node).1, (marks node).2.2.1⟩) rfl

/-- The closure of a computed is marked as running when it begins. -/
theorem World.isEngaged_entered {world : World κ ν σ} {id : NodeId} {computed : Computed κ ν}
    (found : world.computed? id = some computed) (home : ReactorId) :
    (world.enter id home).isEngaged id = true := by
  show (world.modifyComputed id ({ · with computing := true })).isEngaged id = true
  unfold isEngaged modifyComputed
  rw [cell?_modifyCell, if_pos rfl, computed?_eq_some_iff.mp found]
  rfl

/-- An evaluation enters, its closure leaves a trail, and what the closure gave is settled. -/
theorem evaluate_trails [BEq ν] {program : Program κ ν σ} {depth : Nat} {id : NodeId}
    {computed present : Computed κ ν} {world after : World κ ν σ} {result : Except Panic Unit}
    (found : world.computed? id = some present) (idle : present.computing = false)
    (ran : evaluate program (activate program depth) id computed world = some (result, after)) :
    ∃ given inner,
      Trail program (.flat .acting) (world.enter id computed.reactor) inner ∧
      inner.afterEvaluation id computed given = (result, after) := by
  have idle' : (world.computed? id).any Computed.computing = false := by
    rw [found]
    exact idle
  cases inside : (program.compute computed.body).run (activate program depth)
      (world.enter id computed.reactor) with
  | none =>
    rw [evaluate_of_none idle' inside] at ran
    cases ran
  | some outcome =>
    rw [evaluate_of idle' inside] at ran
    exact ⟨outcome.1, outcome.2, program.run_traces depth _ _ _ _ inside, Option.some.inj ran⟩

open World in
/-- An evaluation of a computed leaves it both clean and off the list of a signal that its closure has
read exactly if it succeeds and a pass of the signal has begun after the last read of the signal. -/
theorem overlooked_iff_passed [BEq ν] {program : Program κ ν σ} {depth : Nat} {id : NodeId}
    {computed present : Computed κ ν} {world after : World κ ν σ} {result : Except Panic Unit}
    (found : world.computed? id = some present) (home : present.reactor = computed.reactor)
    (idle : present.computing = false)
    (ran : evaluate program (activate program depth) id computed world = some (result, after)) :
    ∃ events, after.past = events ++ world.past ∧ ∀ source signal node,
      after.signal? source = some signal → signal.reactor = computed.reactor →
      (after.graph computed.reactor).contains source = true →
      (after.graph computed.reactor).node? id = some node →
      .read source (some id) ∈ events →
      (node.freshness = .clean ∧ id ∉ (after.graph computed.reactor).dependentsOf source ↔
        result = .ok () ∧ ∃ later sources earlier,
          events = later ++ .passStarted computed.reactor sources :: earlier ∧ source ∈ sources ∧
            .read source (some id) ∉ later) := by
  obtain ⟨given, inner, trail, ended⟩ := evaluate_trails found idle ran
  obtain rfl : (inner.afterEvaluation id computed given).1 = result := congrArg Prod.fst ended
  obtain rfl : (inner.afterEvaluation id computed given).2 = after := congrArg Prod.snd ended
  obtain ⟨running, found', home'⟩ :=
    ((world.leads_enter id computed.reactor).trans trail.leads).computed found
  have left := inner.leads_afterEvaluation found' computed given
  obtain ⟨last, found'', home''⟩ := left.computed found'
  obtain ⟨later, past⟩ := (trail.leads.trans left).past
  have begun : (world.enter id computed.reactor).past = .started id :: world.past := rfl
  refine ⟨later ++ [.started id], by rw [past, begun, List.append_assoc]; rfl, ?_⟩
  intro source signal node origin owned live live' read
  have endure : World.Endure _ computed.reactor source id :=
    ⟨⟨signal, origin, owned⟩, ⟨last, found'', (home''.trans home').trans home⟩, live,
      congrArg Option.isSome live'⟩
  -- The latest event says whether the signal lists the computed, since the computed has read it.
  obtain ⟨events, past', told⟩ := (trail.registers left.precedes endure
    (isEngaged_entered found computed.reactor)).trans (.afterEvaluation inner id computed given)
  cases List.append_cancel_right (past'.symm.trans past)
  have latest : latest? computed.reactor source id (later ++ [.started id]) =
      latest? computed.reactor source id later := by
    rw [latest?_append]
    exact Option.or_none
  have heard : latest? computed.reactor source id (later ++ [.started id]) ≠ none :=
    latest?_ne_none read
  have known : ((inner.afterEvaluation id computed given).2.cell? source).isSome = true := by
    rw [signal?_eq_some_iff.mp origin]
    rfl
  unfold informs at told
  rw [known, Bool.true_and] at told
  rw [freshness_afterEvaluation inner live', ← latest?_eq_false_iff, latest, ← decide_eq_false_iff_not,
    told]
  rw [latest] at heard
  obtain ⟨listed, recent⟩ := Option.ne_none_iff_exists'.mp heard
  rw [recent, Option.getD_some, Option.some_inj]

/-- A computed that reads a signal and writes it when it is 1, and perhaps reads it again then. -/
def Program.overtaking : Program Bool Nat Unit where
  compute again := .bind (.call (.get ⟨0⟩)) fun value =>
    .bind (if value = 1 then .call (.set ⟨0⟩ 2) else .pure ()) fun _ =>
      if again then .call (.get ⟨0⟩) else .pure value
  effect _ := .pure (.ok none)
  cleanup _ := .pure ()
  callback _ _ := .pure ()
  render _ := .pure none
  handler _ := .pure ()

/-- Make the signal and the computed, which is evaluated at once, and write the signal. -/
def Act.overtaking (again : Bool) : Act Bool Nat Unit Unit :=
  .bind (.call (.newReactor {})) fun _ => .bind (.call (.newSignal ⟨0⟩ 0)) fun _ =>
    .bind (.call (.newComputed ⟨0⟩ again)) fun _ => .call (.set ⟨0⟩ 1)

/-- The signal is changed after it was read, and read again after its pass: the change is not lost. -/
theorem overlooked_iff_passed_rereading : ∃ world computed after node,
    Program.overtaking.run 4 (Act.overtaking true) (World.initial ()) = some (.ok (), world) ∧
      world.computed? ⟨1⟩ = some computed ∧
      evaluate Program.overtaking (activate Program.overtaking 4) ⟨1⟩ computed world =
        some (.ok (), after) ∧
      .changed ⟨0⟩ 2 ∈ after.past ∧ (after.graph computed.reactor).node? ⟨1⟩ = some node ∧
      ¬ (node.freshness = .clean ∧ ⟨1⟩ ∉ (after.graph computed.reactor).dependentsOf ⟨0⟩) := by
  have made : ((Program.overtaking.run 4 (Act.overtaking true) (World.initial ())).bind fun reached =>
      (reached.2.computed? ⟨1⟩).bind fun computed =>
        (evaluate Program.overtaking (activate Program.overtaking 4) ⟨1⟩ computed reached.2).bind
          fun left => (left.2.signal? ⟨0⟩).bind fun signal =>
            ((left.2.graph computed.reactor).node? ⟨1⟩).map fun _ =>
              decide (reached.1 = .ok () ∧ computed.computing = false ∧ left.1 = .ok () ∧
                .changed ⟨0⟩ 2 ∈ left.2.past ∧ signal.reactor = computed.reactor ∧
                (left.2.graph computed.reactor).contains ⟨0⟩ = true ∧
                left.2.past = left.2.past.take 9 ++ reached.2.past ∧
                .read ⟨0⟩ (some ⟨1⟩) ∈ left.2.past.take 9 ∧
                latest? computed.reactor ⟨0⟩ ⟨1⟩ (left.2.past.take 9) = some true)) = some true := by
    decide +kernel
  obtain ⟨⟨_, world⟩, ran, made⟩ := Option.bind_eq_some_iff.mp made
  obtain ⟨computed, found, made⟩ := Option.bind_eq_some_iff.mp made
  obtain ⟨⟨_, after⟩, evaluated, made⟩ := Option.bind_eq_some_iff.mp made
  obtain ⟨signal, origin, made⟩ := Option.bind_eq_some_iff.mp made
  obtain ⟨node, live, made⟩ := Option.map_eq_some_iff.mp made
  obtain ⟨rfl, idle, rfl, changed, home, live', split, read, latest⟩ := of_decide_eq_true made
  obtain ⟨events, past, overlooked⟩ := overlooked_iff_passed found rfl idle evaluated
  obtain rfl : after.past.take 9 = events := List.append_cancel_right (split.symm.trans past)
  refine ⟨world, computed, after, node, ran, found, evaluated, changed, live, fun lost => ?_⟩
  have passed := ((overlooked ⟨0⟩ signal node origin home live' live read).mp lost).2
  rw [← latest?_eq_false_iff, latest] at passed
  cases passed

/-- The signal is changed after it was read. The computed is clean and off the list, and the next read
of it gives its old value. -/
theorem change_overlooked : ∃ world computed after signal node later,
    Program.overtaking.run 4 (Act.overtaking false) (World.initial ()) = some (.ok (), world) ∧
      world.computed? ⟨1⟩ = some computed ∧
      evaluate Program.overtaking (activate Program.overtaking 4) ⟨1⟩ computed world =
        some (.ok (), after) ∧
      [.changed ⟨1⟩ 1, .ended ⟨1⟩ false, .passEnded ⟨0⟩, .passStarted ⟨0⟩ [⟨0⟩], .changed ⟨0⟩ 2,
        .wrote ⟨0⟩ (some ⟨1⟩), .read ⟨0⟩ (some ⟨1⟩), .started ⟨1⟩] ++ world.past = after.past ∧
      after.signal? ⟨0⟩ = some signal ∧ signal.value = 2 ∧
      (after.graph ⟨0⟩).node? ⟨1⟩ = some node ∧ node.freshness = .clean ∧
      ⟨1⟩ ∉ (after.graph ⟨0⟩).dependentsOf ⟨0⟩ ∧
      Program.overtaking.run 4 (.call (.get ⟨1⟩)) after = some (.ok 1, later) ∧
      .read ⟨1⟩ none :: after.past = later.past := by
  have made : ((Program.overtaking.run 4 (Act.overtaking false) (World.initial ())).bind fun reached =>
      (reached.2.computed? ⟨1⟩).bind fun computed =>
        (evaluate Program.overtaking (activate Program.overtaking 4) ⟨1⟩ computed reached.2).bind
          fun left => (left.2.signal? ⟨0⟩).bind fun signal =>
            ((left.2.graph ⟨0⟩).node? ⟨1⟩).bind fun node =>
              (Program.overtaking.run 4 (.call (.get ⟨1⟩)) left.2).map fun last =>
                decide (reached.1 = .ok () ∧ left.1 = .ok () ∧
                  [.changed ⟨1⟩ 1, .ended ⟨1⟩ false, .passEnded ⟨0⟩, .passStarted ⟨0⟩ [⟨0⟩],
                    .changed ⟨0⟩ 2, .wrote ⟨0⟩ (some ⟨1⟩), .read ⟨0⟩ (some ⟨1⟩), .started ⟨1⟩] ++
                      reached.2.past = left.2.past ∧
                  signal.value = 2 ∧ node.freshness = .clean ∧
                  ⟨1⟩ ∉ (left.2.graph ⟨0⟩).dependentsOf ⟨0⟩ ∧ last.1 = .ok 1 ∧
                  .read ⟨1⟩ none :: left.2.past = last.2.past)) = some true := by
    decide +kernel
  obtain ⟨⟨_, world⟩, ran, made⟩ := Option.bind_eq_some_iff.mp made
  obtain ⟨computed, found, made⟩ := Option.bind_eq_some_iff.mp made
  obtain ⟨⟨_, after⟩, evaluated, made⟩ := Option.bind_eq_some_iff.mp made
  obtain ⟨signal, origin, made⟩ := Option.bind_eq_some_iff.mp made
  obtain ⟨node, live, made⟩ := Option.bind_eq_some_iff.mp made
  obtain ⟨⟨_, later⟩, read, made⟩ := Option.map_eq_some_iff.mp made
  obtain ⟨rfl, rfl, past, value, clean, unlisted, rfl, silent⟩ := of_decide_eq_true made
  exact ⟨world, computed, after, signal, node, later, ran, found, evaluated, past, origin, value, live,
    clean, unlisted, read, silent⟩

end ReactiveTree
