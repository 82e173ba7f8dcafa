import Mathlib.Data.Fintype.Card
import Mathlib.Data.Set.Finite.Basic
import Mathlib.Logic.Relation
import ReactiveTree.Proofs.Graph.Membership
import ReactiveTree.Proofs.Graph.Scheduling

/-! # Writers before readers

An effect waits for the queued effects that have written a source behind it. The search upward finds
exactly the sources behind an effect; so the counts of the queue are those of the prerequisites that
are not taken yet, and an effect is taken when its last one is. What is never taken has a prerequisite
that is never taken either, and going on from there must end in a cycle.
-/

namespace ReactiveTree

namespace Graph

variable {graph : Graph} {id source writer effect : NodeId} {queued : List NodeId}

/-- The search keeps what it has found. It goes on from every derived node that it meets, and finds
every source that it meets. -/
theorem sourcesFrom_closed (graph : Graph) (stack visited found : List NodeId) :
    found ⊆ graph.sourcesFrom stack visited found ∧
      ∃ met, visited ⊆ met ∧ (∀ id ∈ stack, graph.dependenciesOf id ⊆ met) ∧
        ∀ id ∈ met, id ∉ visited →
          (graph.kind? id = some .derived → graph.dependenciesOf id ⊆ met) ∧
          (graph.kind? id = some .source → id ∈ graph.sourcesFrom stack visited found) := by
  induction stack, visited, found using Graph.sourcesFrom.induct graph with
  | case1 visited found =>
    rw [sourcesFrom]
    exact ⟨List.Subset.refl _, visited, List.Subset.refl _, by simp, fun _ old new => absurd old new⟩
  | case2 visited found id rest fresh ih =>
    rw [sourcesFrom]
    obtain ⟨kept, met, old, open_, closed⟩ := ih
    refine ⟨fun source known => kept (mem_addAll.mpr (.inl known)), met,
      fun other known => old (List.mem_append_left _ known), fun other pending => ?_,
      fun other known new => ?_⟩
    · rcases List.mem_cons.mp pending with rfl | later
      · intro dependency listed
        by_cases before : dependency ∈ visited
        · exact old (List.mem_append_left _ before)
        · exact old (List.mem_append_right _ (List.mem_filter.mpr ⟨listed, by simpa using before⟩))
      · exact open_ other (List.mem_append_right _ later)
    · by_cases first : other ∈ fresh
      · refine ⟨fun derived => open_ other ?_, fun isSource => kept ?_⟩
        · simp [mem_ofKind, first, derived]
        · simp [mem_ofKind, first, isSource]
      · exact closed other known (by simp [new, first])

/-- The search finds sources only, and only among what is closed under derived dependencies. -/
theorem sourcesFrom_subset (holds : NodeId → Prop) (stack visited found : List NodeId)
    (start : ∀ id ∈ stack, holds id)
    (closed : ∀ id, holds id → ∀ other ∈ graph.dependenciesOf id,
      graph.kind? other = some .derived → holds other) :
    ∀ source ∈ graph.sourcesFrom stack visited found, source ∈ found ∨
      graph.kind? source = some .source ∧ ∃ id, holds id ∧ source ∈ graph.dependenciesOf id := by
  induction stack, visited, found using Graph.sourcesFrom.induct graph with
  | case1 visited found =>
    rw [sourcesFrom]
    exact fun source known => .inl known
  | case2 visited found id rest fresh ih =>
    have here := start id List.mem_cons_self
    have listed : ∀ other ∈ fresh, other ∈ graph.dependenciesOf id :=
      fun other member => (List.mem_filter.mp member).1
    intro source member
    rw [sourcesFrom] at member
    have next := ih (fun other pending => ?_) source member
    · rcases next with known | behind
      · rcases mem_addAll.mp known with old | new
        · exact .inl old
        · obtain ⟨met, isSource⟩ := mem_ofKind.mp new
          exact .inr ⟨isSource, id, here, listed source met⟩
      · exact .inr behind
    · rcases List.mem_append.mp pending with derived | later
      · obtain ⟨met, isDerived⟩ := mem_ofKind.mp (List.mem_reverse.mp derived)
        exact closed id here other (listed other met) isDerived
      · exact start other (List.mem_cons_of_mem _ later)

/-- A source that can be reached up along dependencies, through derived nodes. -/
def Behind (graph : Graph) (effect source : NodeId) : Prop :=
  graph.kind? source = some .source ∧ graph.Reads (fun _ => True) effect source

/-- What a derived dependency reads is read through it. -/
theorem Reads.cons {passing : Node → Prop} {reader middle read : NodeId} {between : Node}
    (listed : middle ∈ graph.dependenciesOf reader) (present : graph.node? middle = some between)
    (derived : between.kind = .derived) (passes : passing between)
    (rest : graph.Reads passing middle read) : graph.Reads passing reader read := by
  obtain ⟨node, live, listed⟩ := mem_setOf.mp listed
  exact .through live listed present derived passes rest

/-- What holds of the dependencies of a reader, and of the dependencies of derived nodes of which it
holds, holds of everything that is read. -/
theorem Reads.closed {passing : Node → Prop} {reader read : NodeId}
    (path : graph.Reads passing reader read) (holds : NodeId → Prop)
    (direct : ∀ other ∈ graph.dependenciesOf reader, holds other)
    (closed : ∀ middle, holds middle → graph.kind? middle = some .derived →
      ∀ other ∈ graph.dependenciesOf middle, holds other) : holds read := by
  induction path with
  | itself live listed => exact direct _ (mem_setOf.mpr ⟨_, live, listed⟩)
  | @through reader middle read node between live listed present derived _ _ ih =>
    apply ih
    apply closed middle (direct _ (mem_setOf.mpr ⟨_, live, listed⟩))
    rw [kind?, present, ← derived]
    rfl

/-- The search finds the sources behind an effect. -/
theorem mem_sourcesBehind : source ∈ graph.sourcesBehind id ↔ graph.Behind id source := by
  constructor
  · intro found
    have behind := graph.sourcesFrom_subset
      (fun other => ∀ read, graph.Reads (fun _ => True) other read →
        graph.Reads (fun _ => True) id read)
      [id] [] [] (by simp) ?_ source found
    · obtain ⟨isSource, other, holds, listed⟩ := behind.resolve_left List.not_mem_nil
      obtain ⟨node, live, listed⟩ := mem_setOf.mp listed
      exact ⟨isSource, holds source (.itself live listed)⟩
    · intro other holds middle listed derived read path
      obtain ⟨between, present, kind⟩ := Option.map_eq_some_iff.mp derived
      exact holds read (.cons listed present kind trivial path)
  · rintro ⟨isSource, path⟩
    obtain ⟨-, met, -, start, closed⟩ := graph.sourcesFrom_closed [id] [] []
    have reached : source ∈ met := by
      apply path.closed (· ∈ met)
      · exact fun other listed => start id List.mem_cons_self listed
      · exact fun middle known derived other listed =>
          (closed middle known List.not_mem_nil).1 derived listed
    exact (closed source reached List.not_mem_nil).2 isSource

/-- One queued effect is a prerequisite of another: it has written a source behind it. -/
structure Precedes (graph : Graph) (queued : List NodeId) (writer effect : NodeId) : Prop where
  queued : writer ∈ queued ∧ effect ∈ queued
  apart : writer ≠ effect
  wrote : ∃ source, graph.Behind effect source ∧ writer ∈ graph.writersOf source

theorem mem_prerequisites (waits : effect ∈ queued) :
    writer ∈ graph.prerequisites queued effect ↔ graph.Precedes queued writer effect := by
  simp only [prerequisites, List.mem_filter, mem_addAll, List.not_mem_nil, false_or,
    List.mem_flatMap, mem_sourcesBehind, decide_eq_true_eq]
  constructor
  · rintro ⟨wrote, apart, member⟩
    exact ⟨⟨member, waits⟩, apart, wrote⟩
  · rintro ⟨⟨member, -⟩, apart, wrote⟩
    exact ⟨wrote, apart, member⟩

theorem nodup_prerequisites (graph : Graph) (queued : List NodeId) (effect : NodeId) :
    (graph.prerequisites queued effect).Nodup :=
  (nodup_addAll List.nodup_nil _).filter _

end Graph

namespace Queue

/-- Releasing effects takes one off each of their counts and appends those that wait for nothing. -/
theorem foldl_release {effects : List NodeId} (distinct : effects.Nodup) (progress : Progress) :
    effects.foldl Progress.release progress =
      { waiting := fun effect =>
          if effect ∈ effects then progress.waiting effect - 1 else progress.waiting effect
        ready := progress.ready ++ effects.filter fun effect => progress.waiting effect - 1 = 0 } := by
  induction effects generalizing progress with
  | nil => simp
  | cons first rest ih =>
    obtain ⟨fresh, distinct⟩ := List.nodup_cons.mp distinct
    rw [List.foldl_cons, ih distinct]
    have others : ∀ effect ∈ rest,
        (progress.release first).waiting effect = progress.waiting effect := by
      intro effect member
      have apart : effect ≠ first := fun same => fresh (same ▸ member)
      simp [Progress.release, apart]
    congr 1
    · funext effect
      by_cases same : effect = first
      · subst same
        simp [fresh, Progress.release]
      · by_cases member : effect ∈ rest
        · simp [member, others effect member]
        · simp [same, member, Progress.release]
    · rw [List.filter_congr fun effect member => by rw [others effect member]]
      by_cases last : progress.waiting first - 1 = 0 <;> simp [Progress.release, last]

/-- The counts of a queue are those of the prerequisites that remain, and the effects that are ready
are those that wait for none. -/
structure Consistent (needs successors : NodeId → List NodeId) (waiting : NodeId → Nat)
    (ready remaining : List NodeId) : Prop where
  remains : remaining.Nodup
  listed : ready.Nodup
  counts : ∀ effect ∈ remaining,
    waiting effect = ((needs effect).filter fun need => need ∈ remaining).length
  ready_iff : ∀ effect, effect ∈ ready ↔ effect ∈ remaining ∧ waiting effect = 0
  follows : ∀ writer ∈ remaining, ∀ effect,
    effect ∈ successors writer ↔ effect ∈ remaining ∧ writer ∈ needs effect
  once : ∀ writer, (successors writer).Nodup
  needed : ∀ effect, (needs effect).Nodup

variable {needs successors : NodeId → List NodeId} {waiting : NodeId → Nat}
  {ready remaining : List NodeId} {effect : NodeId}

/-- An effect that is ready waits for nothing that remains. -/
theorem Consistent.free (consistent : Consistent needs successors waiting ready remaining)
    (isReady : effect ∈ ready) : ∀ need ∈ needs effect, need ∉ remaining := by
  obtain ⟨member, none⟩ := (consistent.ready_iff effect).mp isReady
  rw [consistent.counts effect member, List.length_eq_zero_iff, List.filter_eq_nil_iff] at none
  intro need listed remains
  exact none need listed (decide_eq_true remains)

/-- Of what an effect waits for, one is done when an effect that it needs is taken. -/
theorem Consistent.count_erase (consistent : Consistent needs successors waiting ready remaining)
    (member : effect ∈ remaining) {other : NodeId} (remains : other ∈ remaining) :
    waiting other = ((needs other).filter fun need => need ∈ remaining.erase effect).length +
      if effect ∈ needs other then 1 else 0 := by
  have rest : (needs other).filter (fun need => decide (need ∈ remaining.erase effect)) =
      ((needs other).filter fun need => decide (need ∈ remaining)).erase effect := by
    rw [((consistent.needed other).filter _).erase_eq_filter, List.filter_filter]
    apply List.filter_congr
    intro need _
    by_cases same : need = effect <;> simp [consistent.remains.mem_erase_iff, same]
  rw [consistent.counts other remains, rest]
  by_cases need : effect ∈ needs other
  · have counted : effect ∈ (needs other).filter fun need => decide (need ∈ remaining) := by
      simp [need, member]
    have some := List.length_pos_of_mem counted
    rw [List.length_erase_of_mem counted, if_pos need]
    omega
  · rw [List.erase_of_not_mem (by simp [need]), if_neg need, Nat.add_zero]

/-- Taking an effect that is ready leaves the queue consistent. -/
theorem Consistent.take (consistent : Consistent needs successors waiting (effect :: ready) remaining) :
    let progress := (successors effect).foldl Progress.release ⟨waiting, ready⟩
    Consistent needs successors progress.waiting progress.ready (remaining.erase effect) := by
  obtain ⟨unlisted, listed⟩ := List.nodup_cons.mp consistent.listed
  have member : effect ∈ remaining := ((consistent.ready_iff effect).mp List.mem_cons_self).1
  have left : ∀ other, other ∈ remaining.erase effect ↔ other ≠ effect ∧ other ∈ remaining :=
    fun other => consistent.remains.mem_erase_iff
  have unneeded : effect ∉ needs effect := fun need =>
    consistent.free List.mem_cons_self effect need member
  have next : ∀ other ∈ remaining, other ∈ successors effect ↔ effect ∈ needs other := by
    intro other remains
    simp [consistent.follows effect member other, remains]
  have later : ∀ other ∈ successors effect, other ∈ remaining :=
    fun other follows => ((consistent.follows effect member other).mp follows).1
  intro progress
  have state : progress = _ := foldl_release (consistent.once effect) ⟨waiting, ready⟩
  simp only at state
  rw [state]
  refine ⟨consistent.remains.erase effect, ?_, ?_, ?_, ?_, consistent.once, consistent.needed⟩
  · simp only [List.nodup_append]
    refine ⟨listed, (consistent.once effect).filter _, ?_⟩
    rintro other early _ late rfl
    obtain ⟨follows, -⟩ := List.mem_filter.mp late
    have need := (next other (later other follows)).mp follows
    exact consistent.free (List.mem_cons_of_mem _ early) effect need member
  · intro other remains
    obtain ⟨-, remains⟩ := (left other).mp remains
    have count := consistent.count_erase member remains
    by_cases need : effect ∈ needs other <;> simp [next other remains, need] at count ⊢ <;> omega
  · intro other
    simp only [List.mem_append, List.mem_filter, left, decide_eq_true_eq]
    constructor
    · rintro (early | ⟨follows, none⟩)
      · obtain ⟨remains, none⟩ := (consistent.ready_iff other).mp (List.mem_cons_of_mem _ early)
        refine ⟨⟨fun same => unlisted (same ▸ early), remains⟩, ?_⟩
        split <;> omega
      · have remains := later other follows
        have need := (next other remains).mp follows
        refine ⟨⟨fun same => unneeded (same ▸ need), remains⟩, ?_⟩
        rwa [if_pos follows]
    · rintro ⟨⟨apart, remains⟩, none⟩
      split at none
      next follows => exact .inr ⟨follows, none⟩
      next =>
        have isReady := (consistent.ready_iff other).mpr ⟨remains, none⟩
        exact .inl ((List.mem_cons.mp isReady).resolve_left apart)
  · intro writer remains other
    obtain ⟨apart, remains⟩ := (left writer).mp remains
    rw [consistent.follows writer remains other, left]
    constructor
    · rintro ⟨waits, need⟩
      refine ⟨⟨fun same => ?_, waits⟩, need⟩
      exact consistent.free List.mem_cons_self writer (same ▸ need) remains
    · exact fun ⟨⟨_, waits⟩, need⟩ => ⟨waits, need⟩

/-- Effects are taken after everything that they need, those that are ready first, and what is not
taken needs something else that is not. -/
structure Takes (needs : NodeId → List NodeId) (ready remaining taken : List NodeId) : Prop where
  first : ready <+: taken
  after : ∀ front effect back, taken = front ++ effect :: back →
    ∀ need ∈ needs effect, need ∈ remaining → need ∈ front
  stuck : ∀ effect ∈ remaining, effect ∉ taken →
    ∃ need ∈ needs effect, need ∈ remaining ∧ need ∉ taken

theorem Consistent.takes (consistent : Consistent needs successors waiting ready remaining) :
    Takes needs ready remaining (Queue.take successors waiting ready remaining) := by
  induction waiting, ready, remaining using Queue.take.induct successors with
  | case1 waiting remaining =>
    rw [Queue.take]
    refine ⟨List.prefix_refl _, by simp, fun effect member _ => ?_⟩
    have waits : waiting effect ≠ 0 := fun none =>
      List.not_mem_nil ((consistent.ready_iff effect).mpr ⟨member, none⟩)
    rw [consistent.counts effect member] at waits
    obtain ⟨need, listed⟩ := List.exists_mem_of_length_pos (Nat.pos_of_ne_zero waits)
    obtain ⟨listed, remains⟩ := List.mem_filter.mp listed
    exact ⟨need, listed, of_decide_eq_true remains, List.not_mem_nil⟩
  | case2 waiting remaining effect ready present progress ih =>
    have left : ∀ other, other ∈ remaining.erase effect ↔ other ≠ effect ∧ other ∈ remaining :=
      fun other => consistent.remains.mem_erase_iff
    have next := ih consistent.take
    have released : progress = _ := foldl_release (consistent.once effect) ⟨waiting, ready⟩
    rw [Queue.take, if_pos present]
    change Takes needs _ _ (effect :: Queue.take successors progress.waiting progress.ready _)
    refine ⟨?_, ?_, ?_⟩
    · apply List.cons_prefix_cons.mpr
      refine ⟨rfl, List.IsPrefix.trans ?_ next.first⟩
      rw [released]
      exact List.prefix_append _ _
    · intro front other back split need listed remains
      cases front with
      | nil =>
        obtain ⟨rfl, -⟩ := List.cons.inj split
        exact absurd remains (consistent.free List.mem_cons_self need listed)
      | cons head front =>
        obtain ⟨rfl, rest⟩ := List.cons.inj split
        by_cases same : need = effect
        · exact same ▸ List.mem_cons_self
        · apply List.mem_cons_of_mem
          exact next.after front other back rest need listed ((left need).mpr ⟨same, remains⟩)
    · intro other remains missing
      obtain ⟨apart, missing⟩ := not_or.mp (mt List.mem_cons.mpr missing)
      obtain ⟨need, listed, remains, lost⟩ :=
        next.stuck other ((left other).mpr ⟨apart, remains⟩) missing
      obtain ⟨apart, remains⟩ := (left need).mp remains
      exact ⟨need, listed, remains, by simp [apart, lost]⟩
  | case3 waiting remaining effect ready absent ih =>
    exact absurd ((consistent.ready_iff effect).mp List.mem_cons_self).1 absent

end Queue

section

variable {relation : NodeId → NodeId → Prop} {queued taken : List NodeId}

/-- On a cycle of a relation, or downstream of one. -/
def Tangled (relation : NodeId → NodeId → Prop) (id : NodeId) : Prop :=
  ∃ knot, Relation.TransGen relation knot knot ∧ Relation.ReflTransGen relation knot id

theorem Tangled.step {first second : NodeId} (tangled : Tangled relation first)
    (next : relation first second) : Tangled relation second := by
  obtain ⟨knot, cycle, path⟩ := tangled
  exact ⟨knot, cycle, path.tail next⟩

/-- What comes behind everything that precedes it is on no cycle, nor downstream of one. -/
theorem not_tangled_of_mem
    (ordered : ∀ front id back, taken = front ++ id :: back →
      ∀ before, relation before id → before ∈ front) {id : NodeId} (member : id ∈ taken) :
    ¬ Tangled relation id := by
  have earlier : ∀ {first second}, second ∈ taken → relation first second →
      first ∈ taken ∧ taken.idxOf first < taken.idxOf second := by
    intro first second present before
    have inside := List.idxOf_lt_length_of_mem present
    have split : taken = taken.take (taken.idxOf second) ++ second ::
        taken.drop (taken.idxOf second + 1) := by
      conv_lhs => rw [← List.take_append_drop (taken.idxOf second) taken,
        List.drop_eq_getElem_cons inside, List.getElem_idxOf inside]
    have front := ordered _ _ _ split first before
    refine ⟨List.mem_of_mem_take front, ?_⟩
    by_contra late
    have place := List.mem_take_iff_idxOf_lt (List.mem_of_mem_take front) |>.mp front
    omega
  have along : ∀ {first second}, Relation.TransGen relation first second → second ∈ taken →
      first ∈ taken ∧ taken.idxOf first < taken.idxOf second := by
    intro first second path
    induction path with
    | single before => exact fun present => earlier present before
    | tail _ before ih =>
      intro present
      obtain ⟨middle, less⟩ := earlier present before
      obtain ⟨start, less'⟩ := ih middle
      exact ⟨start, Nat.lt_trans less' less⟩
  rintro ⟨knot, cycle, path⟩
  have present : knot ∈ taken := by
    rcases Relation.reflTransGen_iff_eq_or_transGen.mp path with rfl | path
    · exact member
    · exact (along path member).1
  exact Nat.lt_irrefl _ (along cycle present).2

/-- If whatever is not taken is preceded by something that is not taken, then what is on no cycle,
nor downstream of one, is taken. -/
theorem mem_of_not_tangled
    (stuck : ∀ id ∈ queued, id ∉ taken → ∃ before ∈ queued, relation before id ∧ before ∉ taken)
    {id : NodeId} (member : id ∈ queued) (free : ¬ Tangled relation id) : id ∈ taken := by
  let Free := { id : NodeId // id ∈ queued ∧ ¬ Tangled relation id }
  let precedes : Free → Free → Prop := fun first second =>
    Relation.TransGen relation first.1 second.1
  have finite : Finite Free := by
    have listed : {id | id ∈ queued ∧ ¬ Tangled relation id} ⊆ {id | id ∈ queued} :=
      fun _ holds => holds.1
    exact (queued.finite_toSet.subset listed).to_subtype
  have transitive : IsTrans Free precedes := ⟨fun _ _ _ first second => first.trans second⟩
  -- A cycle through something free would make it tangled.
  have irreflexive : Std.Irrefl precedes :=
    ⟨fun ⟨id, _, free⟩ cycle => free ⟨id, cycle, .refl⟩⟩
  have founded : WellFounded precedes := Finite.wellFounded_of_trans_of_irrefl precedes
  have all : ∀ id : Free, id.1 ∈ taken := by
    intro id
    induction id using founded.induction with
    | _ id ih =>
      obtain ⟨id, member, free⟩ := id
      by_contra missing
      obtain ⟨before, listed, step, lost⟩ := stuck id member missing
      have free' : ¬ Tangled relation before := fun tangled => free (tangled.step step)
      exact lost (ih ⟨before, listed, free'⟩ (.single step))
  exact all ⟨id, member, free⟩

end

namespace Graph

variable {graph : Graph} {queued : List NodeId}

theorem lookup_map_pair {α : Type} (value : NodeId → α) {ids : List NodeId} {id : NodeId}
    (member : id ∈ ids) : (ids.map fun id => (id, value id)).lookup id = some (value id) := by
  induction ids with
  | nil => cases member
  | cons head rest ih =>
    by_cases same : id = head
    · simp [same]
    · have later := (List.mem_cons.mp member).resolve_left same
      simpa [List.lookup_cons, beq_false_of_ne same] using ih later

/-- The counts with which scheduling starts are consistent. -/
theorem consistent_queued (graph : Graph) (distinct : queued.Nodup) {waiting : NodeId → Nat}
    (counts : ∀ effect ∈ queued, waiting effect = (graph.prerequisites queued effect).length) :
    Queue.Consistent (graph.prerequisites queued)
      (fun writer => queued.filter fun effect => writer ∈ graph.prerequisites queued effect)
      waiting (queued.filter fun effect => waiting effect = 0) queued where
  remains := distinct
  listed := distinct.filter _
  counts effect member := by
    rw [counts effect member, List.filter_eq_self.mpr]
    intro writer before
    exact decide_eq_true ((mem_prerequisites member).mp before).queued.1
  ready_iff effect := by simp
  follows writer _ effect := by simp
  once _ := distinct.filter _
  needed := graph.nodup_prerequisites queued

/-- An effect that is queued alone waits for nothing. -/
theorem not_precedes_of_short (graph : Graph) (short : queued.length < 2) (writer effect : NodeId) :
    ¬ graph.Precedes queued writer effect := by
  rintro ⟨⟨first, second⟩, apart, -⟩
  match queued, short with
  | [], _ => cases first
  | [only], _ =>
    rw [List.mem_singleton] at first second
    exact apart (first.trans second.symm)

open Classical in
/-- What is taken off the queue, followed by the rest as it was queued, is sorted except for cycles. -/
theorem sorts_of_takes {ready taken : List NodeId}
    (takes : Queue.Takes (graph.prerequisites queued) ready queued taken) :
    queued.filter (fun effect => effect ∉ taken) =
        queued.filter (fun effect => Tangled (graph.Precedes queued) effect) ∧
      ∀ front effect back, taken = front ++ effect :: back →
        ∀ writer, graph.Precedes queued writer effect → writer ∈ front := by
  have ordered : ∀ front effect back, taken = front ++ effect :: back →
      ∀ writer, graph.Precedes queued writer effect → writer ∈ front := by
    intro front effect back split writer before
    apply takes.after front effect back split writer
    · exact (mem_prerequisites before.queued.2).mpr before
    · exact before.queued.1
  refine ⟨List.filter_congr fun effect member => decide_eq_decide.mpr ⟨fun missing => ?_, ?_⟩, ordered⟩
  · by_contra free
    apply missing
    apply mem_of_not_tangled _ member free
    intro id member missing
    obtain ⟨writer, listed, remains, lost⟩ := takes.stuck id member missing
    exact ⟨writer, remains, (mem_prerequisites member).mp listed, lost⟩
  · exact fun tangled present => not_tangled_of_mem ordered present tangled

open Classical in
/-- Scheduling is a topological sort that leaves cycles for the end. The order is one of the queued
effects. Its last part are the effects on a cycle of prerequisites, or downstream of one, as they were
queued; in the part before, every effect comes behind all of its prerequisites; and first of all come
the effects without any, as they were queued. -/
theorem schedule_sorts (graph : Graph) (queued : List NodeId) (distinct : queued.Nodup) :
    (graph.schedule queued).Perm queued ∧
      ∃ front, graph.schedule queued =
          front ++ queued.filter (fun effect => Tangled (graph.Precedes queued) effect) ∧
        (∀ early effect late, front = early ++ effect :: late →
          ∀ writer, graph.Precedes queued writer effect → writer ∈ early) ∧
        queued.filter (fun effect => ∀ writer, ¬ graph.Precedes queued writer effect) <+: front := by
  refine ⟨graph.schedule_perm distinct, ?_⟩
  by_cases short : queued.length < 2
  · have none := not_precedes_of_short graph short
    have free : ∀ effect, ¬ Tangled (graph.Precedes queued) effect := by
      rintro effect ⟨knot, cycle, -⟩
      cases cycle with
      | single before => exact none _ _ before
      | tail _ before => exact none _ _ before
    refine ⟨queued, ?_, fun _ effect _ _ writer before => absurd before (none writer effect), ?_⟩
    · simp [schedule, short, free]
    · simp [none]
  · rw [schedule, if_neg short]
    extract_lets needs waiting successors ready taken
    have all : addAll [] queued = queued := addAll_of_nodup (by simpa using distinct)
    have counts : ∀ effect ∈ queued,
        waiting effect = (graph.prerequisites queued effect).length := by
      intro effect member
      simp [waiting, needs, lookup_map_pair _ member]
    have follow : successors = fun writer =>
        queued.filter fun effect => writer ∈ graph.prerequisites queued effect := by
      funext writer
      simp only [successors, needs, List.filter_map, List.map_map]
      exact List.map_id' _
    have takes : Queue.Takes (graph.prerequisites queued) ready queued taken := by
      have start := consistent_queued graph distinct counts
      rw [← follow] at start
      simpa only [taken, all] using start.takes
    obtain ⟨rest, ordered⟩ := sorts_of_takes takes
    refine ⟨taken, by rw [rest], ordered, ?_⟩
    have first : ready = queued.filter fun effect =>
        ∀ writer, ¬ graph.Precedes queued writer effect := by
      apply List.filter_congr
      intro effect member
      apply decide_eq_decide.mpr
      rw [counts effect member, List.length_eq_zero_iff, List.eq_nil_iff_forall_not_mem]
      exact forall_congr' fun writer => not_congr (mem_prerequisites member)
    exact first ▸ takes.first

/-- Effect 4 reads the first source through a derived node, and 5 writes it. Effects 6 and 7 write
what the other reads, and 8 reads what 6 writes. Effect 9 reads nothing. -/
def knot : Graph where
  nodes :=
    [{ Node.new ⟨0⟩ .source with writers := [⟨5⟩] },
      { Node.new ⟨1⟩ .source with writers := [⟨7⟩] },
      { Node.new ⟨2⟩ .source with writers := [⟨6⟩] },
      { Node.new ⟨3⟩ .derived with dependencies := [⟨0⟩] },
      { Node.new ⟨4⟩ .effect with dependencies := [⟨3⟩] },
      { Node.new ⟨5⟩ .effect with writes := [⟨0⟩] },
      { Node.new ⟨6⟩ .effect with dependencies := [⟨1⟩], writes := [⟨2⟩] },
      { Node.new ⟨7⟩ .effect with dependencies := [⟨2⟩], writes := [⟨1⟩] },
      { Node.new ⟨8⟩ .effect with dependencies := [⟨2⟩] },
      Node.new ⟨9⟩ .effect]

/-- The effects of the knot, those that are waited for behind those that wait. -/
def knotted : List NodeId :=
  [⟨4⟩, ⟨8⟩, ⟨6⟩, ⟨5⟩, ⟨7⟩, ⟨9⟩]

open Classical in
theorem schedule_sorts_knot :
    knotted.Nodup ∧ knot.schedule knotted = [⟨5⟩, ⟨9⟩, ⟨4⟩, ⟨8⟩, ⟨6⟩, ⟨7⟩] ∧
      Tangled (knot.Precedes knotted) ⟨8⟩ ∧
      ∃ front, [⟨5⟩, ⟨9⟩, ⟨4⟩, ⟨8⟩, ⟨6⟩, ⟨7⟩] =
          front ++ knotted.filter (fun effect => Tangled (knot.Precedes knotted) effect) ∧
        ∀ early late, front = early ++ ⟨4⟩ :: late → ⟨5⟩ ∈ early := by
  have order : knot.schedule knotted = [⟨5⟩, ⟨9⟩, ⟨4⟩, ⟨8⟩, ⟨6⟩, ⟨7⟩] := by decide +kernel
  have precedes : ∀ effect ∈ knotted, ∀ writer ∈ knot.prerequisites knotted effect,
      knot.Precedes knotted writer effect := fun _ waits _ before => (mem_prerequisites waits).mp before
  have chain := precedes ⟨4⟩ (by decide) ⟨5⟩ (by decide +kernel)
  have there := precedes ⟨7⟩ (by decide) ⟨6⟩ (by decide +kernel)
  have back := precedes ⟨6⟩ (by decide) ⟨7⟩ (by decide +kernel)
  have down := precedes ⟨8⟩ (by decide) ⟨6⟩ (by decide +kernel)
  have distinct : knotted.Nodup := by decide
  obtain ⟨-, front, split, ordered, -⟩ := schedule_sorts knot knotted distinct
  exact ⟨distinct, order, ⟨⟨6⟩, .tail (.single there) back, .single down⟩, front, order ▸ split,
    fun early late same => ordered early ⟨4⟩ late same ⟨5⟩ chain⟩

end Graph

end ReactiveTree
