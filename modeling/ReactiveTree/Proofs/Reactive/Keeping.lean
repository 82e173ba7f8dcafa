import ReactiveTree.Proofs.Reactive.Owing
import ReactiveTree.Proofs.Reactive.Running
import ReactiveTree.Reactive.Engine

/-! # What runs keep

A run keeps a condition if it holds of whatever the run leaves, panics included, provided that it
held at the start. Closures that only look keep readers listed, whatever the tally.
-/

namespace ReactiveTree

variable {κ ν σ α β : Type} {world : World κ ν σ}

namespace Run

/-- However the run ends, a condition holds of its result and of what it leaves. -/
def Ends (run : Run κ ν σ α) (world : World κ ν σ)
    (condition : Except Panic α → World κ ν σ → Prop) : Prop :=
  ∀ result after, run world = some (result, after) → condition result after

/-- However the run ends, what held of the world still does. -/
def Keeps (invariant : World κ ν σ → Prop) (run : Run κ ν σ α) : Prop :=
  ∀ world, invariant world → run.Ends world fun _ => invariant

variable {invariant : World κ ν σ → Prop}

theorem Ends.mono {run : Run κ ν σ α} {condition condition' : Except Panic α → World κ ν σ → Prop}
    (ends : run.Ends world condition)
    (weaker : ∀ result after, condition result after → condition' result after) :
    run.Ends world condition' :=
  fun result after ran => weaker result after (ends result after ran)

theorem Ends.bind {first : Run κ ν σ α} {next : α → Run κ ν σ β}
    {middle : Except Panic α → World κ ν σ → Prop} {last : Except Panic β → World κ ν σ → Prop}
    (start : first.Ends world middle)
    (goOn : ∀ value after, middle (.ok value) after → (next value).Ends after last)
    (stop : ∀ panic after, middle (.error panic) after → last (.error panic) after) :
    (first >>= next).Ends world last := by
  intro result after ran
  rcases of_bind_eq_some ran with ⟨panic, stopped, rfl⟩ | ⟨value, between, returned, ran⟩
  · exact stop panic after (start _ _ stopped)
  · exact goOn value between (start _ _ returned) result after ran

theorem Ends.of_world {next : World κ ν σ → Run κ ν σ α}
    {condition : Except Panic α → World κ ν σ → Prop} (ends : (next world).Ends world condition) :
    (Run.world >>= next).Ends world condition :=
  ends

theorem Ends.of_modify {change : World κ ν σ → World κ ν σ} {next : Unit → Run κ ν σ α}
    {condition : Except Panic α → World κ ν σ → Prop}
    (ends : (next ()).Ends (change world) condition) :
    (Run.modify change >>= next).Ends world condition :=
  ends

theorem Ends.of_update {change : World κ ν σ → β × World κ ν σ} {next : β → Run κ ν σ α}
    {condition : Except Panic α → World κ ν σ → Prop}
    (ends : (next (change world).1).Ends (change world).2 condition) :
    (Run.update change >>= next).Ends world condition :=
  ends

theorem Ends.attempt {body : Run κ ν σ α} {condition : Except Panic α → World κ ν σ → Prop}
    (ends : body.Ends world condition) :
    body.attempt.Ends world fun result after =>
      ∃ inner, result = .ok inner ∧ condition inner after := by
  intro result after ran
  unfold Run.attempt at ran
  split at ran
  next => cases ran
  next inner left body =>
    cases ran
    exact ⟨inner, rfl, ends inner _ body⟩

/-- A change of the world follows a body in any case. -/
theorem Ends.thenAlways {body : Run κ ν σ α} {change : World κ ν σ → World κ ν σ}
    {condition condition' : Except Panic α → World κ ν σ → Prop} (ends : body.Ends world condition)
    (changed : ∀ result after, condition result after → condition' result (change after)) :
    (body.thenAlways (Run.modify change)).Ends world condition' := by
  refine ends.attempt.bind (fun result after held => ?_) fun panic after held => ?_
  · obtain ⟨_, same, held⟩ := held
    cases same
    refine .of_modify fun result' after' ran => ?_
    rw [ofResult_apply] at ran
    cases ran
    exact changed result after held
  · obtain ⟨_, failed, _⟩ := held
    cases failed

theorem Keeps.pure (value : α) : Keeps invariant (Pure.pure value : Run κ ν σ α) := by
  rintro world holds _ _ ⟨⟩
  exact holds

theorem Keeps.raise (panic : Panic) : Keeps invariant (Run.raise panic : Run κ ν σ α) := by
  rintro world holds _ _ ⟨⟩
  exact holds

theorem Keeps.bind {first : Run κ ν σ α} {next : α → Run κ ν σ β} (start : Keeps invariant first)
    (goOn : ∀ value, Keeps invariant (next value)) : Keeps invariant (first >>= next) :=
  fun world holds => (start world holds).bind (fun value after => goOn value after)
    fun _ _ holds => holds

/-- A run that looks at the world first. -/
theorem Keeps.world_bind {next : World κ ν σ → Run κ ν σ α}
    (goOn : ∀ world, invariant world → (next world).Ends world fun _ => invariant) :
    Keeps invariant (Run.world >>= next) :=
  goOn

theorem Keeps.modify {change : World κ ν σ → World κ ν σ}
    (kept : ∀ world, invariant world → invariant (change world)) :
    Keeps invariant (Run.modify change) := by
  rintro world holds _ _ ⟨⟩
  exact kept world holds

theorem Keeps.update {change : World κ ν σ → α × World κ ν σ}
    (kept : ∀ world, invariant world → invariant (change world).2) :
    Keeps invariant (Run.update change) := by
  rintro world holds _ _ ⟨⟩
  exact kept world holds

theorem Keeps.attempt {body : Run κ ν σ α} (keeps : Keeps invariant body) :
    Keeps invariant body.attempt := by
  intro world holds
  refine (keeps world holds).attempt.mono ?_
  rintro _ after ⟨_, _, holds⟩
  exact holds

theorem Keeps.ofResult (result : Except Panic α) :
    Keeps invariant (Run.ofResult result : Run κ ν σ α) := by
  intro world holds result' after ran
  rw [ofResult_apply] at ran
  cases ran
  exact holds

theorem Keeps.thenAlways {body : Run κ ν σ α} {finish : Run κ ν σ Unit}
    (keeps : Keeps invariant body) (keeps' : Keeps invariant finish) :
    Keeps invariant (body.thenAlways finish) :=
  keeps.attempt.bind fun result => keeps'.bind fun _ => .ofResult result

theorem Keeps.forEach {members : List α} {body : α → Run κ ν σ Unit}
    (keeps : ∀ member, Keeps invariant (body member)) :
    Keeps invariant (Run.forEach members body) := by
  induction members with
  | nil => exact .pure ()
  | cons member rest ih => exact (keeps member).bind fun _ => ih

/-- Whatever is kept along with holding a handle and giving it back. -/
theorem Keeps.holding {handle : Handle} {body : Run κ ν σ α}
    (hold : ∀ world, invariant world → invariant (world.hold handle))
    (drop : ∀ world, invariant world → invariant (world.drop handle))
    (keeps : Keeps invariant body) : Keeps invariant (Run.holding handle body) :=
  (Keeps.modify hold).bind fun _ => keeps.thenAlways (.modify drop)

end Run

/-- The call reads or looks, and changes nothing but what the program has noted. -/
def Request.Looks : Request κ ν σ → Prop
  | .get _ => True
  | .peek _ => True
  | .tryGet _ => True
  | .stored _ => True
  | .note _ => True
  | .look => True
  | _ => False

/-- The act reads, tracked or not, and writes nothing. -/
def Act.Looks : {α : Type} → Act κ ν σ α → Prop
  | _, .pure _ => True
  | _, .raise _ => True
  | _, .bind first next => first.Looks ∧ ∀ value, (next value).Looks
  | _, .call request => request.Looks
  | _, .within (.batch _) _ => False
  | _, .within (.untracked _) body => body.Looks
  | _, .attempt body => body.Looks

section

variable {engine : Engine κ ν σ} {tally : Tally}

theorem readComputed_keeps {id : NodeId}
    (refresh : Run.Keeps (·.Listed tally) (engine (.refresh id))) :
    Run.Keeps (·.Listed tally) (readComputed engine id) := by
  refine refresh.bind fun _ => Run.Keeps.world_bind fun world listed => ?_
  split
  next value _ => exact Run.Keeps.pure value world listed
  next => exact Run.Keeps.raise _ world listed

theorem requireLive_ends (signal : Signal ν) (id : NodeId) (operation : String)
    (world : World κ ν σ) :
    (requireLive signal id operation : Run κ ν σ Unit).Ends world fun _ after => after = world := by
  unfold requireLive
  split <;> rintro _ _ ⟨⟩ <;> rfl

theorem readNode_keeps {id : NodeId} (tracked : Bool)
    (refresh : Run.Keeps (·.Listed tally) (engine (.refresh id))) :
    Run.Keeps (·.Listed tally) (readNode engine id tracked) := by
  refine Run.Keeps.world_bind fun world listed => ?_
  split
  next signal found =>
    refine (requireLive_ends signal id "read" world).bind (fun _ after same => ?_)
      fun _ after same => same ▸ listed
    subst same
    cases tracked with
    | false => exact Run.Keeps.pure signal.value after listed
    | true =>
      have noted : (after.noteRead signal.reactor id).Listed tally :=
        listed.noteRead found (fun same => nomatch same)
      exact Run.Keeps.pure signal.value _ noted
  next computed found =>
    cases tracked with
    | false => exact readComputed_keeps refresh world listed
    | true =>
      have noted : (world.noteRead computed.reactor id).Listed tally :=
        listed.noteRead found (fun same => nomatch same)
      exact readComputed_keeps refresh _ noted
  next => exact Run.Keeps.raise _ world listed

theorem tryComputed_keeps {id : NodeId}
    (refresh : Run.Keeps (·.Listed tally) (engine (.refresh id))) :
    Run.Keeps (·.Listed tally) (tryComputed engine id) := by
  refine (readNode_keeps true refresh).attempt.bind fun result => ?_
  cases result with
  | ok value => exact Run.Keeps.pure _
  | error panic => exact Run.Keeps.pure _

theorem runInFrame_keeps {reactor : ReactorId} {frame : Frame} {body : Run κ ν σ α}
    (keeps : Run.Keeps (·.Listed tally) body) :
    Run.Keeps (·.Listed tally) (runInFrame reactor frame body) := by
  have pushed : ∀ world : World κ ν σ, world.Listed tally →
      (world.modifyReactor reactor (·.pushFrame frame)).Listed tally :=
    fun world listed => listed.modifyRecords reactor fun _ => ⟨rfl, rfl⟩
  have popped : ∀ world : World κ ν σ, world.Listed tally →
      (world.modifyReactor reactor Reactor.popFrame).Listed tally :=
    fun world listed => listed.modifyRecords reactor fun _ => ⟨rfl, rfl⟩
  exact (Run.Keeps.modify pushed).bind fun _ => keeps.thenAlways (.modify popped)

/-- A body in a frame of its own never panics. -/
theorem runBody_ends {reactor : ReactorId} {id : NodeId} {body : Run κ ν σ α}
    (keeps : Run.Keeps (·.Listed tally) body) (listed : world.Listed tally) :
    (runBody reactor id body).Ends world fun result after =>
      (∃ inner, result = .ok inner) ∧ after.Listed tally := by
  refine .of_modify ((runInFrame_keeps keeps _ (listed.record _)).attempt.bind
    (fun result after kept => ?_) fun panic after kept => ?_)
  · obtain ⟨_, _, kept⟩ := kept
    rintro _ _ ⟨⟩
    exact ⟨⟨_, rfl⟩, kept.record _⟩
  · obtain ⟨_, failed, _⟩ := kept
    cases failed

/-- An act that only looks keeps readers listed. -/
theorem Act.Looks.keeps [BEq ν] (refresh : ∀ id, Run.Keeps (·.Listed tally) (engine (.refresh id)))
    {act : Act κ ν σ α} (looks : act.Looks) : Run.Keeps (·.Listed tally) (act.run engine) := by
  induction act with
  | pure value => exact Run.Keeps.pure value
  | raise panic => exact Run.Keeps.raise panic
  | bind first next ih ih' => exact (ih looks.1).bind fun value => ih' value (looks.2 value)
  | call request =>
    cases request with
    | get node => exact readNode_keeps true (refresh node)
    | peek node => exact readNode_keeps false (refresh node)
    | tryGet node => exact tryComputed_keeps (refresh node)
    | stored node => exact Run.Keeps.world_bind fun world listed => Run.Keeps.pure _ world listed
    | note value => exact Run.Keeps.modify fun world listed => listed.record _
    | look => exact Run.Keeps.world_bind fun world listed => Run.Keeps.pure world world listed
    | _ => exact looks.elim
  | within scope body ih =>
    cases scope with
    | batch => exact looks.elim
    | untracked reactor => exact runInFrame_keeps (ih looks)
  | attempt body ih => exact (ih looks).attempt

theorem anyChanged_ends (refresh : ∀ id, Run.Keeps (·.Listed tally) (engine (.refresh id)))
    (owner : ReactorId) (inputs : List (NodeId × Nat)) (listed : world.Listed tally) :
    (anyChanged engine owner inputs).Ends world fun result after =>
      (∃ wanted, result = .ok wanted) ∧ after.Listed tally := by
  induction inputs generalizing world with
  | nil =>
    rintro _ _ ⟨⟩
    exact ⟨⟨_, rfl⟩, listed⟩
  | cons entry rest ih =>
    refine (refresh entry.1 world listed).attempt.bind (fun result after kept => ?_)
      fun panic after kept => ?_
    · obtain ⟨_, _, kept⟩ := kept
      cases result with
      | error panic =>
        rintro _ _ ⟨⟩
        exact ⟨⟨_, rfl⟩, kept⟩
      | ok _ =>
        refine .of_world ?_
        split
        next =>
          rintro _ _ ⟨⟩
          exact ⟨⟨_, rfl⟩, kept⟩
        next => exact ih kept
    · obtain ⟨_, failed, _⟩ := kept
      cases failed

theorem needsRun_ends (refresh : ∀ id, Run.Keeps (·.Listed tally) (engine (.refresh id)))
    (owner : ReactorId) (effect : NodeId) (listed : world.Listed tally) :
    (needsRun engine owner effect).Ends world fun result after =>
      (∃ wanted, result = .ok wanted) ∧ after.Listed tally :=
  anyChanged_ends refresh owner _ listed

end

section

variable [BEq ν] {program : Program κ ν σ} {engine : Engine κ ν σ} {tally : Tally}

theorem World.Listed.settleValue {id : NodeId} (listed : world.Listed tally) (kept : tally.dirty id)
    (computed : Computed κ ν) (value : ν) : (world.settleValue id computed value).Listed tally := by
  unfold World.settleValue
  extract_lets same
  split
  next => exact listed.remark computed.reactor kept (fun _ => ⟨rfl, rfl, rfl⟩) fun _ => rfl
  next =>
    have valued : (world.modifyComputed id ({ · with value := some value })).Listed tally :=
      listed.modifyComputed id fun _ => rfl
    have marked := valued.remark computed.reactor kept
      (fun node => ⟨rfl, rfl, rfl⟩ : ∀ node : Node, node.bump.markClean.id = node.id ∧
        node.bump.markClean.dependencies = node.dependencies ∧
          node.bump.markClean.dependents = node.dependents) fun _ => rfl
    exact marked.record _

/-- An evaluation subscribes its node anew, so that the node may be marked clean at the end. -/
theorem evaluate_keeps (looks : ∀ code, (program.compute code).Looks)
    (refresh : ∀ tally id, Run.Keeps (·.Listed tally) (engine (.refresh id))) {id : NodeId}
    {computed : Computed κ ν} (known : tally.known id (computed.reactor, .derived)) :
    Run.Keeps (·.Listed tally) (evaluate program engine id computed) := by
  refine Run.Keeps.world_bind fun world listed => ?_
  split
  next => exact Run.Keeps.raise _ world listed
  next =>
    have entered : (world.modifyComputed id ({ · with computing := true })).Listed tally :=
      listed.modifyComputed id fun _ => rfl
    obtain ⟨cell, found, place⟩ := entered.known id _ known
    have owner : cell.reactor = computed.reactor := congrArg Prod.fst place
    -- From here on the node is listed wherever it reads, dirty or not, and may become clean.
    have unsubscribed := entered.unsubscribe found
    rw [owner] at unsubscribed
    refine (runBody_ends ((looks computed.body).keeps (refresh _)) unsubscribed).bind
      (fun result after kept => ?_) fun panic after kept => ?_
    · have left : (after.modifyComputed id ({ · with computing := false })).Listed
          ((tally.insisting id).clearing id) := kept.2.modifyComputed id fun _ => rfl
      cases result with
      | ok value =>
        rintro _ _ ⟨⟩
        exact (left.settleValue (Or.inl rfl) computed value).of_clearing.of_insisting
      | error panic =>
        rintro _ _ ⟨⟩
        have marked := left.remark computed.reactor (Or.inl rfl)
          (fun node => ⟨rfl, rfl, rfl⟩ : ∀ node : Node, node.markDirty.id = node.id ∧
            node.markDirty.dependencies = node.dependencies ∧
              node.markDirty.dependents = node.dependents) fun _ => rfl
        exact marked.of_clearing.of_insisting
    · obtain ⟨⟨_, failed⟩, _⟩ := kept
      cases failed

theorem checkInputs_keeps (looks : ∀ code, (program.compute code).Looks)
    (refresh : ∀ tally id, Run.Keeps (·.Listed tally) (engine (.refresh id))) {id : NodeId}
    {computed : Computed κ ν} (known : tally.known id (computed.reactor, .derived))
    (kept : tally.dirty id) (inputs : List (NodeId × Nat)) :
    Run.Keeps (·.Listed tally) (checkInputs program engine id computed inputs) := by
  induction inputs with
  | nil =>
    exact Run.Keeps.modify fun world listed =>
      listed.remark computed.reactor kept (fun _ => ⟨rfl, rfl, rfl⟩) fun _ => rfl
  | cons entry rest ih =>
    refine (refresh tally entry.1).bind fun _ => Run.Keeps.world_bind fun world listed => ?_
    split
    next => exact evaluate_keeps looks refresh known world listed
    next => exact ih world listed

theorem refreshComputed_keeps (looks : ∀ code, (program.compute code).Looks)
    (refresh : ∀ tally id, Run.Keeps (·.Listed tally) (engine (.refresh id))) (tally : Tally)
    (id : NodeId) : Run.Keeps (·.Listed tally) (refreshComputed program engine id) := by
  have held : ∀ {tally : Tally} {body : Run κ ν σ Unit}, Run.Keeps (·.Listed tally) body →
      Run.Keeps (·.Listed tally) (Run.holding (.node id) body) := fun keeps =>
    keeps.holding (fun _ listed => listed.hold _) fun _ listed => listed.drop _
  refine Run.Keeps.world_bind fun world listed => ?_
  split
  next => exact Run.Keeps.pure () world listed
  next computed found =>
    have known := listed.knowing (World.computed?_eq_some_iff.mp found)
    dsimp only
    split
    next => exact Run.Keeps.pure () world listed
    next => exact Run.Keeps.pure () world listed
    next =>
      exact (held (evaluate_keeps looks refresh (Or.inl ⟨rfl, rfl⟩)) world known).mono
        fun _ _ kept => kept.of_knowing
    next mark =>
      -- What is doubtful is listed. To insist on it now covers an input that evaluates this node in
      -- a cycle and leaves it dirty, before it is marked clean.
      have doubtful : ∀ owner node, (world.graph owner).node? id = some node →
          node.freshness ≠ .dirty := by
        intro owner node live
        obtain ⟨cell, present, home, _⟩ := listed.home owner id node live
        rw [World.computed?_eq_some_iff.mp found] at present
        cases present
        change computed.reactor = owner at home
        rw [home, live] at mark
        rw [Option.some.inj mark]
        nofun
      exact (held (checkInputs_keeps looks refresh (Or.inl ⟨rfl, rfl⟩) (Or.inl rfl) _) world
        (known.insisting doubtful)).mono fun _ _ kept => kept.of_insisting.of_knowing

end

end ReactiveTree
