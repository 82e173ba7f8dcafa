import ReactiveTree.Proofs.Reactive.Trails

/-! # What is opened is closed

A reactor has frames, chains and batches open. A change leaves them alone, and what a trail opens it
closes again, so that at its end as many are open as at its start, and the same ones.
-/

namespace ReactiveTree

variable {κ ν σ : Type}

/-- What a reactor has open: frames, chains and batches. -/
def Reactor.opened (reactor : Reactor) : List Frame × List (List NodeId) × Nat :=
  (reactor.frames, reactor.chains, reactor.depth)

namespace World

variable {world inner outer after : World κ ν σ} {owner : ReactorId}

/-- What a reactor has open; nothing for an unknown one. -/
def opened (world : World κ ν σ) (owner : ReactorId) : List Frame × List (List NodeId) × Nat :=
  ((world.reactor? owner).map Reactor.opened).getD ([], [], 0)

theorem opened_of_reactors (same : after.reactors = world.reactors) (owner : ReactorId) :
    after.opened owner = world.opened owner := by
  unfold opened reactor?
  rw [same]

theorem opened_modifyReactor (world : World κ ν σ) (id : ReactorId) {change : Reactor → Reactor}
    (kept : ∀ state, (change state).opened = state.opened) (owner : ReactorId) :
    (world.modifyReactor id change).opened owner = world.opened owner := by
  unfold opened
  rw [reactor?_modifyReactor]
  split
  next same =>
    subst same
    cases world.reactor? owner with
    | none => rfl
    | some state => exact kept state
  next => rfl

@[simp] theorem opened_record (world : World κ ν σ) (event : Event κ ν) (owner : ReactorId) :
    (world.record event).opened owner = world.opened owner :=
  rfl

@[simp] theorem opened_modifyCell (world : World κ ν σ) (id : NodeId)
    (change : Cell κ ν → Cell κ ν) (owner : ReactorId) :
    (world.modifyCell id change).opened owner = world.opened owner :=
  rfl

@[simp] theorem opened_mapGraph (world : World κ ν σ) (id : ReactorId) (change : Graph → Graph)
    (owner : ReactorId) : (world.mapGraph id change).opened owner = world.opened owner := by
  refine opened_modifyReactor world id ?_ owner
  exact fun _ => rfl

@[simp] theorem opened_hold (world : World κ ν σ) (handle : Handle) (owner : ReactorId) :
    (world.hold handle).opened owner = world.opened owner := by
  cases handle with
  | reactor id =>
    refine opened_modifyReactor world id ?_ owner
    exact fun _ => rfl
  | node id => rfl

@[simp] theorem opened_lose (world : World κ ν σ) (handle : Handle) (owner : ReactorId) :
    (world.lose handle).opened owner = world.opened owner := by
  cases handle with
  | reactor id =>
    refine opened_modifyReactor world id ?_ owner
    exact fun _ => rfl
  | node id => rfl

@[simp] theorem opened_unregister (world : World κ ν σ) (id : NodeId) (owner : ReactorId) :
    (world.unregister id).2.opened owner = world.opened owner := by
  unfold unregister
  split
  next => rfl
  next cell _ =>
    refine opened_modifyReactor world cell.reactor ?_ owner
    exact fun _ => rfl

@[simp] theorem opened_perish (world : World κ ν σ) (handle : Handle) (owner : ReactorId) :
    (world.perish handle).2.opened owner = world.opened owner := by
  cases handle with
  | reactor id => exact opened_mapGraph world id _ owner
  | node id =>
    unfold perish
    dsimp only
    split
    next => rfl
    next => exact opened_unregister world id owner
    next => rfl

@[simp] theorem opened_shed (world : World κ ν σ) (handle : Handle) (owner : ReactorId) :
    (world.shed handle).opened owner = world.opened owner := by
  unfold shed
  split
  next => rw [opened_perish, opened_lose]
  next => exact opened_lose world handle owner

@[simp] theorem opened_put (world : World κ ν σ) (home : ReactorId) (id : NodeId) (value : ν)
    (owner : ReactorId) : (world.put home id value).opened owner = world.opened owner :=
  opened_mapGraph (world.modifySignal id fun signal => { signal with value }) home _ owner

@[simp] theorem opened_noteRead (world : World κ ν σ) (home : ReactorId) (id : NodeId)
    (owner : ReactorId) : (world.noteRead home id).opened owner = world.opened owner := by
  unfold noteRead
  split
  next => exact opened_mapGraph world home _ owner
  next => rfl

@[simp] theorem opened_noteWrite (world : World κ ν σ) (home : ReactorId) (id : NodeId)
    (owner : ReactorId) : (world.noteWrite home id).opened owner = world.opened owner := by
  unfold noteWrite
  split
  next => exact opened_mapGraph world home _ owner
  next => rfl

@[simp] theorem opened_addCell (world : World κ ν σ) (cell : Cell κ ν) (kind : NodeKind)
    (owner : ReactorId) : (world.addCell cell kind).2.opened owner = world.opened owner :=
  opened_mapGraph { world with cells := world.cells ++ [cell] } cell.reactor _ owner

/-- A new reactor has nothing open. -/
theorem opened_addReactor (world : World κ ν σ) (settings : Settings) (owner : ReactorId) :
    ({ world with reactors := world.reactors ++ [.new settings] } : World κ ν σ).opened owner =
      world.opened owner := by
  unfold opened
  rcases reactor?_newReactor world settings owner with same | ⟨absent, new⟩
  · rw [same]
  · rw [absent, new]
    rfl

@[simp] theorem opened_engage (world : World κ ν σ) (id : NodeId) (home owner : ReactorId) :
    (world.engage id home).opened owner = world.opened owner :=
  opened_mapGraph (world.modifyEffect id ({ · with executing := true })) home _ owner

theorem opened_foldl_hold (members : List Visit) (world : World κ ν σ) (owner : ReactorId) :
    (members.foldl (fun world entry => world.hold (.node entry.wakeup.effect)) world).opened owner =
      world.opened owner := by
  induction members generalizing world with
  | nil => rfl
  | cons member rest ih => rw [List.foldl_cons, ih, opened_hold]

theorem opened_enterPass (world : World κ ν σ) (home : ReactorId) (sources : List NodeId)
    (owner : ReactorId) : (world.enterPass home sources).opened owner = world.opened owner := by
  unfold enterPass
  rw [opened_foldl_hold]
  exact opened_mapGraph (world.record (.passStarted home sources)) home _ owner

theorem Change.opened (change : world.Change after) (owner : ReactorId) :
    after.opened owner = world.opened owner := by
  cases change with
  | aside _ _ _ _ reactors => exact opened_of_reactors reactors owner
  | hold handle => exact opened_hold world handle owner
  | shed handle => exact opened_shed world handle owner
  | stop =>
    rw [opened_unregister, opened_hold]
    rfl
  | abandon => rfl
  | destroy => exact opened_unregister _ _ owner
  | defer =>
    refine (opened_modifyReactor _ _ ?_ owner).trans (opened_put world _ _ _ owner)
    exact fun _ => rfl
  | putLost => exact opened_put world _ _ _ owner
  | noteWrite => exact opened_noteWrite world _ _ owner
  | addReactor settings => exact opened_addReactor world settings owner
  | addHolding => rw [opened_addCell, opened_hold]
  | addEffect => exact opened_addCell world _ _ owner
  | label => exact opened_mapGraph world _ _ owner
  | tweak => rfl

/-- What is taken off is as what was there to be taken off. -/
theorem opened_congr (same : ∀ other, inner.opened other = outer.opened other)
    {change : Reactor → Reactor}
    (step : List Frame × List (List NodeId) × Nat → List Frame × List (List NodeId) × Nat)
    (commutes : ∀ state, (change state).opened = step state.opened)
    (bare : step ([], [], 0) = ([], [], 0)) (id owner : ReactorId) :
    (inner.modifyReactor id change).opened owner = (outer.modifyReactor id change).opened owner := by
  have stepped : ∀ world : World κ ν σ, (world.modifyReactor id change).opened owner =
      if owner = id then step (world.opened id) else world.opened owner := by
    intro world
    unfold opened
    rw [reactor?_modifyReactor]
    split
    next same =>
      subst same
      cases world.reactor? owner with
      | none => exact bare.symm
      | some state => exact commutes state
    next => rfl
  rw [stepped, stepped, same, same]

theorem opened_popFrame (owner : ReactorId) {frame : Frame} (same : ∀ other,
      inner.opened other = (world.modifyReactor owner (·.pushFrame frame)).opened other)
    (other : ReactorId) :
    (inner.modifyReactor owner Reactor.popFrame).opened other = world.opened other := by
  rw [opened_congr same (fun opened => (opened.1.tail, opened.2)) (fun _ => rfl) rfl,
    popFrame_pushFrame]

theorem opened_popChain (owner : ReactorId) {causes : List NodeId} (same : ∀ other,
      inner.opened other = (world.modifyReactor owner (·.pushChain causes)).opened other)
    (other : ReactorId) :
    (inner.modifyReactor owner Reactor.popChain).opened other = world.opened other := by
  rw [opened_congr same (fun opened => (opened.1, opened.2.1.tail, opened.2.2)) (fun _ => rfl) rfl]
  unfold opened
  rw [reactor?_modifyReactor, reactor?_modifyReactor]
  by_cases here : other = owner
  · subst here
    rw [if_pos rfl, if_pos rfl]
    cases world.reactor? other <;> rfl
  · rw [if_neg here, reactor?_modifyReactor, if_neg here]

theorem closeBatch_snd (world : World κ ν σ) (owner : ReactorId) :
    (world.closeBatch owner).2 = world.modifyReactor owner fun state => state.closeBatch.2 := by
  unfold closeBatch
  refine ext_of_lookups (fun other => ?_) (fun id => by split <;> rfl) (by split <;> rfl)
    (by split <;> rfl) (by split <;> rfl) (by split <;> rfl)
  rw [reactor?_modifyReactor]
  split
  next absent =>
    split
    next same => rw [same, absent]; rfl
    next => rfl
  next state found =>
    rw [reactor?_modifyReactor]
    split
    next => rw [found]; rfl
    next => rfl

theorem opened_closeBatch (owner : ReactorId) (same : ∀ other,
      inner.opened other = (world.modifyReactor owner Reactor.openBatch).opened other)
    (other : ReactorId) : (inner.closeBatch owner).2.opened other = world.opened other := by
  have closed : ∀ state : Reactor, state.closeBatch.2.opened =
      (state.frames, state.chains, state.depth - 1) := by
    intro state
    unfold Reactor.closeBatch
    split
    next shallow =>
      show (state.frames, state.chains, 0) = _
      rw [Nat.sub_eq_zero_of_le shallow]
    next => rfl
  rw [closeBatch_snd, opened_congr same
    (fun opened => (opened.1, opened.2.1, opened.2.2 - 1)) closed rfl]
  unfold opened
  rw [reactor?_modifyReactor, reactor?_modifyReactor]
  by_cases here : other = owner
  · subst here
    rw [if_pos rfl, if_pos rfl]
    cases world.reactor? other with
    | none => rfl
    | some state => exact congrArg (Option.getD · _) (congrArg some (closed state.openBatch))
  · rw [if_neg here, reactor?_modifyReactor, if_neg here]

theorem opened_leaveBody {id : NodeId} (panicked : Bool) (same : ∀ other,
      inner.opened other = (world.enterBody id owner).opened other) (other : ReactorId) :
    (inner.leaveBody id owner panicked).opened other = world.opened other :=
  (opened_popFrame owner same other : _ = (world.record (.started id)).opened other)

theorem opened_afterEvaluation [BEq ν] {id : NodeId} {computed : Computed κ ν} (same : ∀ other,
      inner.opened other = (world.enter id computed.reactor).opened other)
    (result : Except Panic ν) (other : ReactorId) :
    (inner.afterEvaluation id computed result).2.opened other = world.opened other := by
  have left : ∀ panicked, (inner.leave id computed.reactor panicked).opened other =
      world.opened other := by
    intro panicked
    have bared : ((world.modifyComputed id ({ · with computing := true })).mapGraph
        computed.reactor (·.unsubscribe id)).opened other = world.opened other :=
      opened_mapGraph _ _ _ other
    rw [← bared]
    exact opened_leaveBody panicked same other
  cases result with
  | error panic => exact (opened_mapGraph _ _ _ other).trans (left true)
  | ok value =>
    refine Eq.trans ?_ (left false)
    show ((inner.leave id computed.reactor false).settleValue id computed value).opened other = _
    unfold settleValue
    extract_lets kept
    split
    next => exact opened_mapGraph _ _ _ other
    next =>
      exact opened_mapGraph ((inner.leave id computed.reactor false).modifyComputed id
        ({ · with value := some value })) _ _ other

end World

open World in
/-- Whatever is opened on a trail is closed on it. -/
theorem Trail.opened [BEq ν] {program : Program κ ν σ} {phase : Phase}
    {world after : World κ ν σ} (trail : Trail program phase world after)
    (owner : ReactorId) : after.opened owner = world.opened owner := by
  induction trail generalizing owner with
  | refl => rfl
  | trans _ _ start finish => rw [finish, start]
  | serve _ serving => exact serving owner
  | change change => exact change.opened owner
  | read => exact opened_noteRead _ _ _ owner
  | untracked home _ inside => exact opened_popFrame home inside owner
  | cleanup _ _ inside => exact opened_popFrame _ inside owner
  | batch home _ _ inside => exact opened_closeBatch home inside owner
  | flush home _ _ _ inside pass => rw [pass, opened_closeBatch home inside]
  | store _ _ _ _ pass => rw [pass, opened_put]
  | refresh _ _ inside => exact inside owner
  | execute _ run => exact run owner
  | born home body _ run => rw [run, opened_addCell]
  | confirm => exact opened_mapGraph _ _ _ owner
  | evaluate _ _ _ _ result inside => exact opened_afterEvaluation inside result owner
  | decline => rfl
  | run panicked _ _ _ _ _ _ _ _ cleaned inside settled released =>
    exact ((released owner).trans (settled owner)).trans
      ((opened_leaveBody panicked inside owner).trans (by rw [cleaned, opened_engage, opened_hold]))
  | skip => rfl
  | again => exact opened_mapGraph _ _ _ owner
  | spare _ _ _ _ asked => exact asked owner
  | wake _ _ _ _ _ asked run => rw [opened_popChain _ run, asked]
  | done => rfl
  | next _ _ _ visit drop others => rw [others, drop, visit]
  | pass _ visits => rw [opened_record, visits, opened_enterPass]

end ReactiveTree
