import Bytecode.Proofs.LoadElimination.Mentions
import Mathlib.Logic.Relation
/-!
# The states of a sweep

The sweep visits the blocks in dominator order and, within a block, one instruction after another. The states it passes
through are described here step by step: between two blocks it has facts waiting for blocks to come, within a block it
also has the facts at one position. What holds of every such state is proved by induction over these steps. A sweep never
gets stuck if the summaries of the program name fields of the program.
-/

namespace Bytecode

/-- Every field that a summary names is a field of the program. -/
def Program.SummariesNameFields (program : Program) : Prop :=
  ∀ method summary, program.summary? method = some summary → ∀ entry ∈ summary.fields,
    (program.field? entry.1).isSome = true

namespace LoadElimination

/-- The order in which the blocks of a body are visited. -/
def visitOrder (body : Body) : List Nat :=
  (DominatorTree.ofGraph body.flowGraph 0).preorder

/-- Where in its course a sweep is. -/
inductive Stage where
  | between (waiting : Waiting)
  | within (block position : Nat) (facts : Facts) (waiting : Waiting)

/-- The blocks that are done, the sweep so far and its stage. -/
abbrev Moment := List Nat × Sweep × Stage

/-- One step of the sweep over a body. -/
inductive Step (scope : Scope) (body : Body) : Moment → Moment → Prop
  | enter {done rest : List Nat} {block : Nat} {sweep : Sweep} {waiting : Waiting}
      (horder : visitOrder body = done ++ block :: rest) :
      Step scope body (done, sweep, .between waiting)
        (done, sweep, .within block 0 ((waiting.find? block).getD {}) (waiting.erase block))
  | keep {done : List Nat} {block position : Nat} {sweep : Sweep} {facts later : Facts} {waiting : Waiting}
      {instruction : Instruction} (hinstruction : sweep.body.instruction? block position = some instruction)
      (hkept : scope.redundancy? sweep.body facts instruction.operation = none)
      (hafter : scope.after sweep.body facts instruction.operation = .ok later) :
      Step scope body (done, sweep, .within block position facts waiting)
        (done, sweep, .within block (position + 1) later waiting)
  | eliminate {done : List Nat} {block position : Nat} {sweep : Sweep} {facts : Facts} {waiting : Waiting}
      {instruction : Instruction} {redundancy : Redundancy}
      (hinstruction : sweep.body.instruction? block position = some instruction)
      (hredundant : scope.redundancy? sweep.body facts instruction.operation = some redundancy) :
      Step scope body (done, sweep, .within block position facts waiting)
        (done, sweep.eliminate scope block position redundancy,
          .within block (if isRemoved instruction redundancy then position else position + 1) facts waiting)
  | leave {done : List Nat} {block position : Nat} {sweep : Sweep} {facts : Facts} {waiting : Waiting}
      (hend : sweep.body.instruction? block position = none) :
      Step scope body (done, sweep, .within block position facts waiting)
        (done ++ [block], sweep, .between (propagate scope sweep.body block facts waiting))

/-- The states of the sweep over a body. -/
def Reached (scope : Scope) (body : Body) (done : List Nat) (sweep : Sweep) (stage : Stage) : Prop :=
  Relation.ReflTransGen (Step scope body) ([], { body }, .between .empty) (done, sweep, stage)

namespace Reached

variable {scope : Scope} {body : Body} {done done' : List Nat} {sweep sweep' : Sweep} {stage stage' : Stage}

theorem start : Reached scope body [] { body } (.between .empty) :=
  .refl

theorem step (h : Reached scope body done sweep stage)
    (hstep : Step scope body (done, sweep, stage) (done', sweep', stage')) : Reached scope body done' sweep' stage' :=
  h.tail hstep

@[elab_as_elim]
theorem induction {motive : ∀ done sweep stage, Reached scope body done sweep stage → Prop}
    (start : motive [] { body } (.between .empty) .start)
    (step : ∀ {done done' : List Nat} {sweep sweep' : Sweep} {stage stage' : Stage}
      (hreached : Reached scope body done sweep stage)
      (hstep : Step scope body (done, sweep, stage) (done', sweep', stage')),
      motive done sweep stage hreached → motive done' sweep' stage' (hreached.step hstep))
    (h : Reached scope body done sweep stage) : motive done sweep stage h := by
  have hmoment : ∀ (moment : Moment)
      (hsteps : Relation.ReflTransGen (Step scope body) ([], { body }, .between .empty) moment),
      motive moment.1 moment.2.1 moment.2.2 hsteps := by
    intro moment hsteps
    induction hsteps with
    | refl => exact start
    | tail hsteps hstep ih => exact step hsteps hstep ih
  exact hmoment (done, sweep, stage) h

end Reached

/-! ### Block lengths -/

def blockLength (body : Body) (block : Nat) : Nat :=
  ((body.block? block).map (·.instructions.length)).getD 0

private theorem instruction?_eq_none_iff {body : Body} {block position : Nat} :
    body.instruction? block position = none ↔ blockLength body block ≤ position := by
  unfold Body.instruction? blockLength
  cases body.block? block <;> simp

private theorem blockLength_replaceUses (body : Body) (old new : ValueId) (block : Nat) :
    blockLength (body.replaceUses old new) block = blockLength body block := by
  rw [blockLength, blockLength, Body.block?, Body.block?, Body.replaceUses, Body.mapUses, List.getElem?_map,
    Option.map_map]
  congr 2
  funext target
  simp [Block.mapUses]

private theorem blockLength_replaceOperation (body : Body) (block position : Nat) (operation : Operation) :
    blockLength (body.replaceOperation block position operation) block = blockLength body block := by
  rw [blockLength, blockLength, Body.block?, Body.block?, Body.replaceOperation, Body.modifyBlock,
    List.getElem?_modify_eq]
  cases body.blocks[block]? <;> simp

private theorem blockLength_discardInstruction {body : Body} {block position : Nat} {instruction : Instruction}
    (h : body.instruction? block position = some instruction) :
    blockLength (body.discardInstruction block position) block
      = if instruction.debugValues.isEmpty then blockLength body block - 1 else blockLength body block := by
  obtain ⟨target, htarget, hget⟩ := Option.bind_eq_some_iff.1 h
  have hlt := (List.getElem?_eq_some_iff.1 hget).1
  rw [Body.discardInstruction, h]
  cases hdebug : instruction.debugValues.isEmpty with
  | true =>
    have hblock : (body.removeInstruction block position).block? block
        = some { target with instructions := target.instructions.eraseIdx position } := by
      rw [Body.block?, Body.removeInstruction, Body.modifyBlock, List.getElem?_modify_eq]
      exact congrArg (Option.map _) htarget
    simp [hdebug, blockLength, htarget, hblock, List.length_eraseIdx_of_lt hlt]
  | false =>
    simp [hdebug, blockLength_replaceOperation]

theorem instruction?_replaceUses {body : Body} {block position : Nat} {instruction : Instruction}
    (h : body.instruction? block position = some instruction) (old new : ValueId) :
    (body.replaceUses old new).instruction? block position
      = some (instruction.mapUses fun value => if value = old then new else value) := by
  obtain ⟨target, htarget, hget⟩ := Option.bind_eq_some_iff.1 h
  have hblock : (body.replaceUses old new).block? block
      = some (target.mapUses fun value => if value = old then new else value) := by
    rw [Body.block?, Body.replaceUses, Body.mapUses, List.getElem?_map]
    exact congrArg (Option.map _) htarget
  rw [Body.instruction?, hblock]
  simp [Block.mapUses, hget]

private theorem blockLength_eliminate {scope : Scope} {sweep : Sweep} {block position : Nat} {instruction : Instruction}
    (h : sweep.body.instruction? block position = some instruction) (redundancy : Redundancy) :
    blockLength (sweep.eliminate scope block position redundancy).body block
      = if isRemoved instruction redundancy then blockLength sweep.body block - 1 else blockLength sweep.body block := by
  cases redundancy with
  | existingValue dest value =>
    rw [show (sweep.eliminate scope block position (.existingValue dest value)).body
      = (sweep.body.replaceUses dest value).discardInstruction block position from rfl,
      blockLength_discardInstruction (instruction?_replaceUses h dest value), blockLength_replaceUses]
    simp [isRemoved, Instruction.mapUses]
  | constantValue dest constant =>
    exact blockLength_replaceOperation sweep.body block position (constant.materialize dest)
  | initialized type =>
    exact blockLength_discardInstruction h

/-! ### A sweep does not get stuck -/

namespace Scope

variable {scope : Scope}

private theorem afterFieldInitialization_succeeds (receiver : ValueId) (arguments : List ValueId) (fields : KnownFields)
    {entry : FieldId × FieldInitialization} (h : (scope.program.field? entry.1).isSome = true) :
    ∃ later, scope.afterFieldInitialization receiver arguments fields entry = .ok later := by
  obtain ⟨definition, hdefinition⟩ := Option.isSome_iff_exists.1 h
  simp only [afterFieldInitialization, Program.field, hdefinition, bind, Except.bind]
  split
  · split <;> exact ⟨_, rfl⟩
  · exact ⟨_, rfl⟩

private theorem afterInvoke_succeeds (hfields : scope.program.SummariesNameFields) (body : Body) (facts : Facts)
    (kind : InvokeKind) (reference : MethodRef) (arguments : List ValueId) :
    ∃ later, scope.afterInvoke body facts kind reference arguments = .ok later := by
  unfold afterInvoke
  split
  · rename_i summary receiver rest hsummary
    obtain ⟨-, method, hmethod⟩ := initializerSummary?_eq_some hsummary
    obtain ⟨fields, hfold⟩ := foldlM_succeeds (fun entry hentry state =>
      afterFieldInitialization_succeeds (body.aliasRoot receiver) (receiver :: rest) state
        (hfields method summary hmethod entry hentry))
      (if summary.hasOtherEffects then facts.clearNonFinal else facts).fields
    simp only [hfold]
    exact ⟨_, rfl⟩
  · exact ⟨_, rfl⟩

theorem after_succeeds (hfields : scope.program.SummariesNameFields) (body : Body) (facts : Facts)
    (operation : Operation) : ∃ later, scope.after body facts operation = .ok later := by
  cases operation
  case invoke dest kind reference arguments => exact afterInvoke_succeeds hfields body facts kind reference arguments
  all_goals exact ⟨_, rfl⟩

end Scope

private theorem sweepBlock_succeeds {scope : Scope} (hfields : scope.program.SummariesNameFields) (block : Nat) :
    ∀ (remaining position : Nat) (sweep : Sweep) (facts : Facts),
      ∃ result, sweepBlock scope block remaining position sweep facts = .ok result := by
  intro remaining
  induction remaining with
  | zero => exact fun position sweep facts => ⟨(sweep, facts), rfl⟩
  | succ remaining ih =>
    intro position sweep facts
    rw [sweepBlock]
    split
    · exact ⟨_, rfl⟩
    · rename_i instruction _
      split
      · exact ih _ _ _
      · obtain ⟨later, hafter⟩ := Scope.after_succeeds hfields sweep.body facts instruction.operation
        rw [hafter]
        exact ih _ _ _

/-- The sweep over a body ends if the summaries name fields of the program. -/
theorem sweepBody_succeeds {scope : Scope} (hfields : scope.program.SummariesNameFields) (body : Body) :
    ∃ sweep, sweepBody scope body = .ok sweep := by
  have hvisit : ∀ block ∈ visitOrder body, ∀ state, ∃ next, visitBlock scope state block = .ok next := by
    rintro block - ⟨sweep, waiting⟩
    obtain ⟨⟨swept, facts⟩, hswept⟩ := sweepBlock_succeeds hfields block (blockLength sweep.body block) 0 sweep
      ((waiting.find? block).getD {})
    refine ⟨(swept, propagate scope swept.body block facts (waiting.erase block)), ?_⟩
    rw [visitBlock]
    exact congrArg (· >>= _) hswept
  obtain ⟨⟨sweep, waiting⟩, hfold⟩ := foldlM_succeeds hvisit ({ body }, .empty)
  refine ⟨sweep, ?_⟩
  rw [sweepBody]
  exact congrArg (· >>= _) hfold

/-! ### The states that a sweep passes through -/

private theorem sweepBlock_reached {scope : Scope} {body : Body} {done : List Nat} {block : Nat} {waiting : Waiting} :
    ∀ (remaining position : Nat) (sweep : Sweep) (facts : Facts) {swept : Sweep} {later : Facts},
      blockLength sweep.body block = position + remaining →
      Reached scope body done sweep (.within block position facts waiting) →
      sweepBlock scope block remaining position sweep facts = .ok (swept, later) →
      ∃ final, Reached scope body done swept (.within block final later waiting) ∧
        swept.body.instruction? block final = none := by
  intro remaining
  induction remaining with
  | zero =>
    intro position sweep facts swept later hlength hreached hswept
    cases hswept
    exact ⟨position, hreached, instruction?_eq_none_iff.2 (Nat.le_of_eq hlength)⟩
  | succ remaining ih =>
    intro position sweep facts swept later hlength hreached hswept
    obtain ⟨instruction, hinstruction⟩ : ∃ instruction, sweep.body.instruction? block position = some instruction := by
      rw [← Option.ne_none_iff_exists', ne_eq, instruction?_eq_none_iff]
      omega
    rw [sweepBlock, hinstruction] at hswept
    cases hredundant : scope.redundancy? sweep.body facts instruction.operation with
    | some redundancy =>
      simp only [hredundant] at hswept
      refine ih _ _ facts ?_ (hreached.step (.eliminate hinstruction hredundant)) hswept
      rw [blockLength_eliminate hinstruction]
      split <;> omega
    | none =>
      simp only [hredundant] at hswept
      cases hafter : scope.after sweep.body facts instruction.operation with
      | error => simp [hafter, bind, Except.bind] at hswept
      | ok later =>
        rw [hafter] at hswept
        exact ih _ sweep later (by omega) (hreached.step (.keep hinstruction hredundant hafter)) hswept

/-- A visit that succeeds sweeps the block and leaves facts for its successors. -/
theorem visitBlock_eq_ok {scope : Scope} {sweep : Sweep} {waiting : Waiting} {block : Nat} {after : Sweep × Waiting}
    (h : visitBlock scope (sweep, waiting) block = .ok after) :
    ∃ swept facts,
      sweepBlock scope block (blockLength sweep.body block) 0 sweep ((waiting.find? block).getD {}) = .ok (swept, facts) ∧
      after = (swept, propagate scope swept.body block facts (waiting.erase block)) := by
  obtain ⟨⟨swept, facts⟩, hswept, hrest⟩ := exists_of_bind_eq_ok h
  exact ⟨swept, facts, hswept, (Except.ok.inj hrest).symm⟩

/-- The visits of the first blocks lead to a state of the sweep. -/
theorem foldlM_visitBlock_reached {scope : Scope} {body : Body} {done rest : List Nat} {sweep : Sweep} {waiting : Waiting}
    (horder : visitOrder body = done ++ rest)
    (h : done.foldlM (visitBlock scope) ({ body }, .empty) = .ok (sweep, waiting)) :
    Reached scope body done sweep (.between waiting) := by
  refine foldlM_reaches (fun done (state : Sweep × Waiting) =>
    Reached scope body done state.1 (.between state.2)) h .start ?_
  rintro visited block later ⟨before, pending⟩ next hdone hreached hvisit
  obtain ⟨swept, facts, hswept, rfl⟩ := visitBlock_eq_ok hvisit
  have hnext : visitOrder body = visited ++ block :: (later ++ rest) := by
    rw [horder, hdone, List.append_assoc, List.cons_append]
  obtain ⟨final, hreached', hend⟩ :=
    sweepBlock_reached _ 0 before _ (Nat.zero_add _).symm (hreached.step (.enter hnext)) hswept
  exact hreached'.step (.leave hend)

/-- A sweep over a body has every block done that can be reached. -/
theorem sweepBody_reached {scope : Scope} {body : Body} {sweep : Sweep} (h : sweepBody scope body = .ok sweep) :
    ∃ waiting, Reached scope body (visitOrder body) sweep (.between waiting) := by
  obtain ⟨⟨swept, waiting⟩, hfold, hrest⟩ := exists_of_bind_eq_ok h
  obtain rfl : swept = sweep := Except.ok.inj hrest
  exact ⟨waiting, foldlM_visitBlock_reached (List.append_nil _).symm hfold⟩

end LoadElimination

end Bytecode
