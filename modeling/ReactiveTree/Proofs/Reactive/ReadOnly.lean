import ReactiveTree.Proofs.Reactive.Views
import ReactiveTree.Reactive.Act

/-! # Closures that only read

What an act that only reads gives is a function of what its reads are answered. Answering a read of
a signal by its present value, and a read of a computed by the outcome of its own closure, is
evaluating from scratch; `World.scratch` is that evaluation, and `World.Solves` says of any table of
answers that it agrees with it.
-/

namespace ReactiveTree

variable {κ ν σ : Type}

namespace Request

/-- The call is a tracked read of a node that satisfies a condition. -/
def Reads (allowed : NodeId → Prop) : Request κ ν σ → Prop
  | .get node => allowed node
  | .tryGet node => allowed node
  | _ => False

/-- The answer to a read with its failure as a value. -/
def tried (node : NodeId) : Except Panic ν → Except ReactiveFailure ν
  | .ok value => .ok value
  | .error panic => .error (.failedComputed node panic.message)

/-- What a read gives when reads are answered from a table; other calls have no answer. -/
def outcome (answer : NodeId → Except Panic ν) :
    (request : Request κ ν σ) → Except Panic request.Reply
  | .get node => answer node
  | .tryGet node => .ok (tried node (answer node))
  | _ => .error .other

end Request

namespace Act

/-- The act makes tracked reads of allowed nodes and calls nothing else. -/
def OnlyReads (allowed : NodeId → Prop) : {α : Type} → Act κ ν σ α → Prop
  | _, .pure _ => True
  | _, .raise _ => True
  | _, .bind first next => first.OnlyReads allowed ∧ ∀ value, (next value).OnlyReads allowed
  | _, .call request => request.Reads allowed
  | _, .within _ _ => False
  | _, .attempt body => body.OnlyReads allowed

/-- Whether some answers to its calls lead the act to a tracked read of a node. -/
def MayRead (node : NodeId) : {α : Type} → Act κ ν σ α → Prop
  | _, .pure _ => False
  | _, .raise _ => False
  | _, .bind first next => first.MayRead node ∨ ∃ value, (next value).MayRead node
  | _, .call request => request.Reads (· = node)
  | _, .within _ body => body.MayRead node
  | _, .attempt body => body.MayRead node

/-- What an act gives when its reads are answered from a table. -/
def outcome (answer : NodeId → Except Panic ν) : {α : Type} → Act κ ν σ α → Except Panic α
  | _, .pure value => .ok value
  | _, .raise panic => .error panic
  | _, .bind first next => (first.outcome answer).bind fun value => (next value).outcome answer
  | _, .call request => request.outcome answer
  | _, .within _ body => body.outcome answer
  | _, .attempt body => .ok (body.outcome answer)

theorem OnlyReads.restrict {allowed allowed' : NodeId → Prop} {α : Type} {act : Act κ ν σ α}
    (reads : act.OnlyReads allowed) (met : ∀ node, act.MayRead node → allowed' node) :
    act.OnlyReads allowed' := by
  induction act with
  | pure => trivial
  | raise => trivial
  | bind first next ihFirst ihNext =>
    refine ⟨ihFirst reads.1 fun node may => met node (Or.inl may), fun value => ?_⟩
    exact ihNext value (reads.2 value) fun node may => met node (Or.inr ⟨value, may⟩)
  | call request =>
    cases request with
    | get node => exact met node rfl
    | tryGet node => exact met node rfl
    | _ => exact reads.elim
  | within scope body => exact reads.elim
  | attempt body ih => exact ih reads met

theorem OnlyReads.allowed {allowed : NodeId → Prop} {node : NodeId} {α : Type}
    {act : Act κ ν σ α} (reads : act.OnlyReads allowed) (may : act.MayRead node) :
    allowed node := by
  induction act with
  | pure => exact may.elim
  | raise => exact may.elim
  | bind first next ihFirst ihNext =>
    rcases may with now | ⟨value, later⟩
    · exact ihFirst reads.1 now
    · exact ihNext value (reads.2 value) later
  | call request =>
    cases request with
    | get other => exact (show other = node from may) ▸ reads
    | tryGet other => exact (show other = node from may) ▸ reads
    | _ => exact reads.elim
  | within scope body => exact reads.elim
  | attempt body ih => exact ih reads may

theorem OnlyReads.mono {allowed allowed' : NodeId → Prop} {α : Type} {act : Act κ ν σ α}
    (reads : act.OnlyReads allowed) (wider : ∀ node, allowed node → allowed' node) :
    act.OnlyReads allowed' := by
  induction act with
  | pure => trivial
  | raise => trivial
  | bind first next ihFirst ihNext =>
    exact ⟨ihFirst reads.1, fun value => ihNext value (reads.2 value)⟩
  | call request =>
    cases request with
    | get node => exact wider node reads
    | tryGet node => exact wider node reads
    | _ => exact reads.elim
  | within scope body => exact reads.elim
  | attempt body ih => exact ih reads

/-- Tables that agree on what an act may read lead it to one outcome. -/
theorem OnlyReads.outcome_congr {allowed : NodeId → Prop} {α : Type} {act : Act κ ν σ α}
    (reads : act.OnlyReads allowed) {answer answer' : NodeId → Except Panic ν}
    (agree : ∀ node, allowed node → answer node = answer' node) :
    act.outcome answer = act.outcome answer' := by
  induction act with
  | pure => rfl
  | raise => rfl
  | bind first next ihFirst ihNext =>
    unfold outcome
    rw [ihFirst reads.1]
    congr 1
    funext value
    exact ihNext value (reads.2 value)
  | call request =>
    cases request with
    | get node => exact agree node reads
    | tryGet node =>
      show Except.ok _ = Except.ok _
      rw [agree node reads]
    | _ => exact reads.elim
  | within scope body => exact reads.elim
  | attempt body ih => unfold outcome; rw [ih reads]

end Act

namespace World

/-- The answer to a read of a node, when upstream reads are answered from a table. -/
def answerBy (world : World κ ν σ) (program : Program κ ν σ) (upstream : NodeId → Except Panic ν)
    (id : NodeId) : Except Panic ν :=
  match world.cell? id with
  | some (.signal signal) =>
    if signal.destroyed then
      .error (.text ("signal " ++ id.text ++ " " ++ "read" ++ " after destroy"))
    else .ok signal.value
  | some (.computed computed) => (program.compute computed.body).outcome upstream
  | _ => .error (.text "unknown handle")

/-- Evaluate a node and everything upstream of it from scratch, through at most so many levels. -/
def scratchTo (world : World κ ν σ) (program : Program κ ν σ) : Nat → NodeId → Except Panic ν
  | 0, _ => .error .other
  | levels + 1, id => world.answerBy program (world.scratchTo program levels) id

/-- Evaluate a node and everything upstream of it from scratch, on the present signal values. -/
def scratch (world : World κ ν σ) (program : Program κ ν σ) (id : NodeId) : Except Panic ν :=
  world.scratchTo program (world.cells.length + 1) id

/-- A table gives every node the answer that it leads to. -/
def Solves (world : World κ ν σ) (program : Program κ ν σ) (truth : NodeId → Except Panic ν) :
    Prop :=
  ∀ id, truth id = world.answerBy program truth id

theorem answerBy_skeleton (world : World κ ν σ) (program : Program κ ν σ)
    (upstream : NodeId → Except Panic ν) (id : NodeId) :
    world.skeleton.answerBy program upstream id = world.answerBy program upstream id := by
  unfold answerBy
  rw [skeleton_cell?]
  cases world.cell? id with
  | none => rfl
  | some cell => cases cell <;> rfl

section

variable {world : World κ ν σ} {program : Program κ ν σ} {rank : NodeId → Nat}

/-- Levels beyond the rank of a node make no difference, when closures read lower ranks only. -/
theorem scratchTo_eq
    (falling : ∀ id computed, world.computed? id = some computed →
      (program.compute computed.body).OnlyReads fun node => rank node < rank id)
    {id : NodeId} {levels levels' : Nat} (enough : rank id < levels) (enough' : rank id < levels') :
    world.scratchTo program levels id = world.scratchTo program levels' id := by
  induction levels generalizing id levels' with
  | zero => omega
  | succ levels ih =>
    cases levels' with
    | zero => omega
    | succ levels' =>
      unfold scratchTo answerBy
      split
      next => rfl
      next computed known =>
        have isComputed : world.computed? id = some computed := by simp only [computed?, known]
        refine (falling id computed isComputed).outcome_congr ?_
        intro node below
        exact ih (by omega) (by omega)
      next => rfl

theorem scratch_solves
    (falling : ∀ id computed, world.computed? id = some computed →
      (program.compute computed.body).OnlyReads fun node => rank node < rank id)
    (bounded : ∀ id, rank id ≤ world.cells.length) :
    world.Solves program (world.scratch program) := by
  intro id
  show world.scratchTo program (world.cells.length + 1) id =
    world.scratchTo program (world.cells.length + 2) id
  have := bounded id
  exact scratchTo_eq falling (by omega) (by omega)

end

end World

end ReactiveTree
