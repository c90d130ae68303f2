import Bytecode.Proofs.LoadElimination.History
/-!
# Running the pass again

A second run goes over the instructions that the first one left. As long as it knows no more than the first did, it finds
nothing redundant either and leaves the body as it is. There are two ways in which it can know more.

Trivial phis go after the sweep. What the first run kept apart as a phi and the value it selects is one receiver to the
second, and a field that is read from both is read twice from one object.

A read of an instance that finds the value of a static field known becomes a read of that static field. To the first run
this was no instruction that stays, to the second it is: it makes the value of the static field known.

If neither happens the second run changes nothing. Bodies without phis rule out the one, and programs whose summaries
store no value of a static field the other.
-/

namespace Bytecode

/-- The objects whose fields are read, written or initialized, in order. -/
def Body.receivers (body : Body) : List ValueId :=
  (body.instructions.filterMap (·.operation.receiver?)).map body.aliasRoot

/-- The bodies differ in the phis and in the names of operands. -/
structure Body.Renames (before after : Body) (rename : ValueId → ValueId) : Prop where
  flow : before.SameFlow after
  values : after.values = before.values
  instructions : after.blocks.map (·.instructions)
    = before.blocks.map fun block => block.instructions.map (·.mapUses rename)

namespace Body

private theorem instructionsAt_eq_getD (body : Body) (block : Nat) :
    body.instructionsAt block = ((body.blocks.map (·.instructions))[block]?).getD [] := by
  rw [List.getElem?_map]
  rfl

theorem Renames.refl (body : Body) : body.Renames body id where
  flow := .refl body
  values := rfl
  instructions := by simp only [Instruction.map_mapUses_id]

namespace Renames

variable {before after : Body} {rename : ValueId → ValueId}

theorem instructionsAt (h : before.Renames after rename) (block : Nat) :
    after.instructionsAt block = (before.instructionsAt block).map (·.mapUses rename) := by
  rw [instructionsAt_eq_getD, h.instructions, List.getElem?_map, Body.instructionsAt, Body.block?]
  cases before.blocks[block]? <;> rfl

private theorem instructions_eq (h : before.Renames after rename) :
    after.instructions = before.instructions.map (·.mapUses rename) := by
  rw [Body.instructions, List.flatMap_def, h.instructions, Body.instructions, List.map_flatMap, List.flatMap_def]

theorem receivers (h : before.Renames after rename) :
    after.receivers = (before.instructions.filterMap (·.operation.receiver?)).map
      fun object => before.aliasRoot (rename object) := by
  have hobjects : after.instructions.filterMap (·.operation.receiver?)
      = (before.instructions.filterMap (·.operation.receiver?)).map rename := by
    rw [h.instructions_eq, List.filterMap_map, List.map_filterMap]
    congr 1
    funext instruction
    exact instruction.operation.receiver?_mapOperands rename
  rw [Body.receivers, hobjects, List.map_map]
  congr 1
  funext object
  exact Body.aliasRoot_eq h.values _

end Renames

private theorem map_instructions_of_extractTrivial {blocks rest : List Block} {phi : Phi} {value : ValueId}
    (h : extractTrivial blocks = some (phi, value, rest)) :
    rest.map (·.instructions) = blocks.map (·.instructions) := by
  obtain ⟨front, block, back, before, after, rfl, -, -, rfl⟩ := extractTrivial_eq_some h
  simp

/-- The removal of trivial phis renames operands. -/
theorem map_instructions_removeTrivialPhis (body : Body) :
    ∃ rename, body.removeTrivialPhis.1.blocks.map (·.instructions)
      = body.blocks.map fun block => block.instructions.map (·.mapUses rename) := by
  fun_induction removeTrivialPhis body with
  | case1 body => exact ⟨id, (Renames.refl body).instructions⟩
  | case2 body phi value blocks hsome result removed hrec ih =>
    obtain ⟨rename, hrename⟩ := ih
    refine ⟨fun used => rename (if used = phi.dest then value else used), ?_⟩
    rw [hrec] at hrename
    calc result.blocks.map (·.instructions)
      _ = ({ body with blocks } : Body).blocks.map fun block => (block.instructions.map
            (·.mapUses fun used => if used = phi.dest then value else used)).map (·.mapUses rename) := by
        rw [hrename, replaceUses, mapUses, List.map_map]
        rfl
      _ = (blocks.map (·.instructions)).map fun instructions => instructions.map
            (·.mapUses fun used => rename (if used = phi.dest then value else used)) := by
        simp only [List.map_map, Function.comp_def, Rewriting.mapUses_mapUses]
      _ = _ := by
        rw [map_instructions_of_extractTrivial hsome, List.map_map]
        rfl

private theorem exists_renames_removeTrivialPhis {body : Body} (hbody : body.WellFormed) (hssa : body.StrictSSA) :
    ∃ rename, body.Renames body.removeTrivialPhis.1 rename := by
  obtain ⟨rename, hrename⟩ := body.map_instructions_removeTrivialPhis
  obtain ⟨-, -, hflow, hvalues, -⟩ := removeTrivialPhis_keeps hbody hssa
  exact ⟨rename, hflow, hvalues, hrename⟩

/-! ### Without phis -/

def PhiFree (body : Body) : Prop :=
  ∀ block ∈ body.blocks, block.phis = []

instance (body : Body) : Decidable body.PhiFree :=
  inferInstanceAs (Decidable (∀ block ∈ _, _))

theorem PhiFree.rewriting {body : Body} (h : body.PhiFree) (rewriting : Rewriting) : (rewriting.body body).PhiFree := by
  intro block hblock
  obtain ⟨before, hbefore, rfl⟩ := List.mem_map.1 hblock
  rw [Rewriting.block, h before hbefore]
  rfl

theorem PhiFree.removeTrivialPhis {body : Body} (h : body.PhiFree) : body.removeTrivialPhis.1 = body := by
  unfold Body.removeTrivialPhis
  split
  · rfl
  · next phi value blocks hsome =>
    obtain ⟨front, block, back, before, after, hblocks, hphis, -⟩ := extractTrivial_eq_some hsome
    rw [h block (by rw [hblocks]; simp)] at hphis
    simp at hphis

end Body

/-- No summary says of a field that it holds the value of a static field. -/
def Program.StoresNoStaticField (program : Program) : Prop :=
  ∀ method summary, program.summary? method = some summary → ∀ entry ∈ summary.fields, ∀ reference,
    entry.2 ≠ .constant (.staticField reference)

namespace LoadElimination

/-! ### When nothing more can be known -/

/-- The operation reads a static field whose value is tracked. -/
def Scope.readsStatic (scope : Scope) : Operation → Bool
  | .staticGet _ field => (scope.trackedField? field true).isSome
  | _ => false

/-- All reads of tracked static fields were there before. -/
def CreatesNoStaticRead (scope : Scope) (before after : Body) : Prop :=
  ∀ operation ∈ after.instructions.map (·.operation), scope.readsStatic operation = true →
    operation ∈ before.instructions.map (·.operation)

/-- Receivers that differed still differ, and those that did not still do not. -/
def KeepsApart (before after : Body) : Prop :=
  ∀ left ∈ before.receivers.zip after.receivers, ∀ right ∈ before.receivers.zip after.receivers,
    left.1 = right.1 ↔ left.2 = right.2

instance (scope : Scope) (before after : Body) : Decidable (CreatesNoStaticRead scope before after) :=
  inferInstanceAs (Decidable (∀ operation ∈ _, _ → _))

instance (before after : Body) : Decidable (KeepsApart before after) :=
  inferInstanceAs (Decidable (∀ left ∈ _, ∀ right ∈ _, _))

variable {scope : Scope} {original before after : Body} {corresponds : ValueId → ValueId → Prop}
  {rename : ValueId → ValueId}

/-! ### What stands in for a read -/

/-- What stands in for a read is not redundant and makes nothing known, unless it is a tracked read itself. -/
theorem StandsIn.below {operation : Operation} {less more : Facts} {body : Body} (h : StandsIn scope original operation)
    (hstatic : scope.readsStatic operation = false) (hbelow : Below scope corresponds less more) :
    scope.redundancy? body less (operation.mapOperands rename) = none ∧
      ∃ least, scope.after body less (operation.mapOperands rename) = .ok least ∧ Below scope corresponds least more := by
  cases h with
  | debugValues => exact ⟨rfl, less, rfl, hbelow⟩
  | @constant dest constant _ =>
    cases constant with
    | staticField field =>
      have huntracked : scope.trackedField? field true = none :=
        Option.isNone_iff_eq_none.1 (Option.isSome_eq_false_iff.1 hstatic)
      refine ⟨?_, less.clearNonFinal, ?_, hbelow.clearNonFinal_left⟩
      · show scope.redundancy? body less (.staticGet dest field) = none
        rw [Scope.redundancy?, huntracked]
        rfl
      · show Except.ok (scope.afterStaticGet body less dest field) = Except.ok less.clearNonFinal
        rw [Scope.afterStaticGet, huntracked]
    | _ => exact ⟨rfl, less, rfl, hbelow⟩

/-! ### One block -/

private theorem sweepBlock_keep {block position : Nat} {sweep : Sweep} {facts later : Facts} {instruction : Instruction}
    {rest : List Instruction} (hplace : (sweep.body.instructionsAt block).drop position = instruction :: rest)
    (hkept : scope.redundancy? sweep.body facts instruction.operation = none)
    (hafter : scope.after sweep.body facts instruction.operation = .ok later) (remaining : Nat) :
    sweepBlock scope block (remaining + 1) position sweep facts
      = sweepBlock scope block remaining (position + 1) sweep later := by
  have hinstruction : sweep.body.instruction? block position = some instruction := by
    rw [Body.instruction?_eq, ← Nat.add_zero position, ← List.getElem?_drop, hplace]
    rfl
  rw [sweepBlock, hinstruction]
  simp only [hkept, hafter]
  rfl

/-- Over instructions that led to some facts, a sweep that knows less changes nothing and still knows less. -/
theorem Leads.sweepBlock_eq {start last less : Facts} {instructions : List Instruction} {block position : Nat}
    {sweep : Sweep} (h : Leads scope original start instructions last) (hone : OneToOne corresponds)
    (hmatched : ∀ instruction ∈ instructions, Matched corresponds rename original instruction.operation)
    (hstatic : ∀ instruction ∈ instructions, StandsIn scope original instruction.operation →
      scope.readsStatic instruction.operation = false)
    (hvalues : sweep.body.values = original.values)
    (hplace : (sweep.body.instructionsAt block).drop position = instructions.map (·.mapUses rename))
    (hbelow : Below scope corresponds less start) :
    ∃ least, sweepBlock scope block instructions.length position sweep less = .ok (sweep, least) ∧
      Below scope corresponds least last := by
  -- what was kept is kept again; what stands in left the facts alone, and here at most takes some away
  induction h generalizing less position with
  | done => exact ⟨less, rfl, hbelow⟩
  | @keep facts next last instruction rest hkept hafter _ ih =>
    have hnone := hbelow.redundancy?_eq_none hone (hmatched instruction List.mem_cons_self) hkept
    obtain ⟨later, hlater, hnext⟩ := hbelow.after hone (hmatched instruction List.mem_cons_self) hafter
    rw [← redundancy?_eq hvalues] at hnone
    rw [← after_eq hvalues] at hlater
    rw [List.length_cons, sweepBlock_keep hplace hnone hlater]
    refine ih (fun other hother => hmatched other (List.mem_cons_of_mem _ hother))
      (fun other hother => hstatic other (List.mem_cons_of_mem _ hother)) ?_ hnext
    rw [← List.tail_drop, hplace, List.map_cons, List.tail_cons]
  | @standIn facts last instruction rest hstands _ ih =>
    obtain ⟨hnone, later, hlater, hnext⟩ := hstands.below (hstatic instruction List.mem_cons_self hstands) hbelow
    rw [List.length_cons, sweepBlock_keep hplace hnone hlater]
    refine ih (fun other hother => hmatched other (List.mem_cons_of_mem _ hother))
      (fun other hother => hstatic other (List.mem_cons_of_mem _ hother)) ?_ hnext
    rw [← List.tail_drop, hplace, List.map_cons, List.tail_cons]

/-! ### All blocks -/

/-- The waiting facts are known to the others, block by block. -/
def AllBelow (scope : Scope) (corresponds : ValueId → ValueId → Prop) (less more : Waiting) : Prop :=
  ∀ block, Option.Rel (Below scope corresponds) (less.find? block) (more.find? block)

theorem AllBelow.getD {less more : Waiting} (h : AllBelow scope corresponds less more) (block : Nat) :
    Below scope corresponds ((less.find? block).getD {}) ((more.find? block).getD {}) := by
  have hblock := h block
  cases hless : less.find? block <;> cases hmore : more.find? block <;> rw [hless, hmore] at hblock <;> cases hblock
  · exact .empty
  · assumption

theorem AllBelow.erase {less more : Waiting} (h : AllBelow scope corresponds less more) (block : Nat) :
    AllBelow scope corresponds (less.erase block) (more.erase block) := by
  intro other
  rw [Table.find?_erase, Table.find?_erase]
  split
  · exact .none
  · exact h other

/-- What keeps a sweep over `after` from knowing more than the sweep over `original` that left `before`. -/
structure Comparable (scope : Scope) (original before after : Body) (rename : ValueId → ValueId)
    (corresponds : ValueId → ValueId → Prop) : Prop where
  renames : before.Renames after rename
  values : before.values = original.values
  oneToOne : OneToOne corresponds
  matched : ∀ instruction ∈ before.instructions, Matched corresponds rename original instruction.operation
  standIns : ∀ instruction ∈ before.instructions, StandsIn scope original instruction.operation →
    scope.readsStatic instruction.operation = false

namespace Comparable

theorem propagate (h : Comparable scope original before after rename corresponds) {less more : Waiting}
    {least last : Facts} (hwaiting : AllBelow scope corresponds less more) (hbelow : Below scope corresponds least last)
    (block : Nat) :
    AllBelow scope corresponds (propagate scope after block least less) (propagate scope before block last more) := by
  intro other
  cases hblock : before.block? block with
  | none =>
    rw [LoadElimination.propagate, h.renames.flow.block?_eq_none hblock, LoadElimination.propagate, hblock]
    exact hwaiting other
  | some source =>
    obtain ⟨renamed, hrenamed, hall, hhandlers⟩ := h.renames.flow.exists_block? hblock
    have hinstructions := h.renames.instructionsAt block
    rw [Body.instructionsAt_eq hrenamed, Body.instructionsAt_eq hblock] at hinstructions
    rw [find?_propagate_eq hrenamed, find?_propagate_eq hblock, hall, h.renames.flow.predecessors_eq]
    split
    · rw [passedFacts_eq_of_values (h.renames.values.trans h.values), passedFacts_eq_of_values h.values]
      refine .some (hbelow.passedFacts h.oneToOne hhandlers hinstructions (fun instruction hinstruction => ?_) other)
      exact h.matched instruction (List.mem_flatMap.2 ⟨source, List.mem_of_getElem? hblock, hinstruction⟩)
    · exact hwaiting other

/-- One block of the second sweep. -/
theorem visitBlock_eq (h : Comparable scope original before after rename corresponds) {less waiting : Waiting}
    {block : Nat} {facts : Facts} (hwaiting : AllBelow scope corresponds less waiting)
    (hleads : Leads scope original ((waiting.find? block).getD {}) (before.instructionsAt block) facts) :
    ∃ least, visitBlock scope ({ body := after }, less) block = .ok ({ body := after }, least) ∧
      AllBelow scope corresponds least (LoadElimination.propagate scope before block facts (waiting.erase block)) := by
  let sweep : Sweep := { body := after }
  have hplace : (sweep.body.instructionsAt block).drop 0 = (before.instructionsAt block).map (·.mapUses rename) :=
    h.renames.instructionsAt block
  obtain ⟨least, hswept, hleast⟩ := hleads.sweepBlock_eq h.oneToOne
    (fun instruction hmem => h.matched instruction (Body.mem_instructions_of_instructionsAt hmem))
    (fun instruction hmem => h.standIns instruction (Body.mem_instructions_of_instructionsAt hmem))
    (h.renames.values.trans h.values) hplace (hwaiting.getD block)
  have hlength : ((after.block? block).map (·.instructions.length)).getD 0 = (before.instructionsAt block).length := by
    rw [← List.length_map, ← h.renames.instructionsAt, Body.instructionsAt]
    cases after.block? block <;> rfl
  refine ⟨_, ?_, h.propagate (hwaiting.erase block) hleast block⟩
  rw [visitBlock, hlength, hswept]
  rfl

/-- The whole of the second sweep. -/
theorem foldlM_visitBlock (h : Comparable scope original before after rename corresponds) {done : List Nat}
    {waiting : Waiting} (hhistory : History scope original before done waiting) :
    ∃ less, done.foldlM (visitBlock scope) ({ body := after }, .empty) = .ok ({ body := after }, less) ∧
      AllBelow scope corresponds less waiting := by
  induction hhistory with
  | start =>
    refine ⟨.empty, rfl, fun block => ?_⟩
    rw [Table.find?_empty]
    exact .none
  | visit _ hleads ih =>
    obtain ⟨less, hfold, hwaiting⟩ := ih
    obtain ⟨least, hvisit, hleast⟩ := h.visitBlock_eq hwaiting hleads
    exact ⟨least, foldlM_concat hfold hvisit, hleast⟩

end Comparable

/-! ### The second run -/

/-- What the end of the pass makes of a sweep has other names only. -/
theorem exists_renames_finish (scope : Scope) {sweep : Sweep} (hintact : Intact original sweep.body) :
    ∃ rename, sweep.body.Renames (finish scope sweep).1.body rename := by
  unfold finish
  split
  · exact Body.exists_renames_removeTrivialPhis hintact.wellFormed hintact.strictSSA
  · exact ⟨id, .refl sweep.body⟩

private theorem matched_of_renames (hrenames : before.Renames after rename) (hvalues : before.values = original.values)
    {instruction : Instruction} (hmem : instruction ∈ before.instructions) :
    Matched (fun origin receiver => (origin, receiver) ∈ before.receivers.zip after.receivers) rename original
      instruction.operation := by
  intro object hobject
  rw [hrenames.receivers, Body.receivers, List.zip_map', ← Body.aliasRoot_eq hvalues, ← Body.aliasRoot_eq hvalues]
  exact List.mem_map.2 ⟨object, List.mem_filterMap.2 ⟨instruction, hmem, hobject⟩, rfl⟩

/-- A read of a tracked static field that was there before stands in for nothing. -/
theorem readsStatic_eq_false (hdistinct : original.definitions.Nodup) (hrenames : before.Renames after rename)
    (hcreates : CreatesNoStaticRead scope original after) {instruction : Instruction}
    (hmem : instruction ∈ before.instructions) (hstands : StandsIn scope original instruction.operation) :
    scope.readsStatic instruction.operation = false := by
  rw [Bool.eq_false_iff]
  intro hreads
  have hoperation : (instruction.mapUses rename).operation ∈ after.instructions.map (·.operation) := by
    rw [hrenames.instructions_eq]
    exact List.mem_map_of_mem (List.mem_map_of_mem hmem)
  unfold Instruction.mapUses at hoperation
  generalize instruction.operation = operation at hoperation hstands hreads
  cases hstands with
  | debugValues => cases hreads
  | @constant dest constant _ hread =>
    cases constant with
    | staticField field =>
      obtain ⟨earlier, hearlier, hsame⟩ := List.mem_map.1 (hcreates _ hoperation hreads)
      obtain ⟨read, hreadMem, object, reference, hinstance⟩ := hread
      obtain rfl := Body.instruction_unique hdistinct hearlier hreadMem (by rw [hsame]; rfl) (by rw [hinstance]; rfl)
      cases hsame.symm.trans hinstance
    | _ => cases hreads

/-- Nor is there one if no summary stores the value of a static field. -/
theorem readsStatic_eq_false_of_stores (hstores : scope.program.StoresNoStaticField) {operation : Operation}
    (hstands : StandsIn scope original operation) : scope.readsStatic operation = false := by
  cases hstands with
  | debugValues => rfl
  | @constant dest constant hoffers =>
    cases constant with
    | staticField reference =>
      obtain ⟨-, field, method, summary, hsummary, hentry⟩ := hoffers
      exact absurd rfl (hstores method summary hsummary _ hentry reference)
    | _ => rfl

/-- After a sweep that has created no read of a tracked static field and whose trivial phis keep receivers apart, a sweep
over what the pass returns changes nothing. -/
theorem sweepBody_finish {sweep : Sweep} (hbody : original.WellFormed) (hssa : original.StrictSSA)
    (hunused : original.InitUnused) (hsweep : sweepBody scope original = .ok sweep)
    (hstatic : scope.program.StoresNoStaticField ∨ CreatesNoStaticRead scope original (finish scope sweep).1.body)
    (hapart : KeepsApart sweep.body (finish scope sweep).1.body) :
    sweepBody scope (finish scope sweep).1.body = .ok { body := (finish scope sweep).1.body } := by
  obtain ⟨waiting, hreached⟩ := sweepBody_reached hsweep
  have hintact := (hreached.intact hbody hssa hunused).1
  have hhistory : History scope original sweep.body (visitOrder original) waiting :=
    (hreached.recorded hbody hssa hunused).2
  obtain ⟨rename, hrenames⟩ := exists_renames_finish scope hintact
  have hcomparable : Comparable scope original sweep.body (finish scope sweep).1.body rename
      (fun origin receiver => (origin, receiver) ∈ sweep.body.receivers.zip (finish scope sweep).1.body.receivers) :=
    { renames := hrenames
      values := hintact.values_eq
      oneToOne := fun left left' right right' hleft hright => hapart (left, left') hleft (right, right') hright
      matched := fun _ hmem => matched_of_renames hrenames hintact.values_eq hmem
      standIns := fun _ hmem hstands => hstatic.elim (fun hstores => readsStatic_eq_false_of_stores hstores hstands)
        fun hcreates => readsStatic_eq_false hbody.distinct hrenames hcreates hmem hstands }
  obtain ⟨less, hfold, -⟩ := hcomparable.foldlM_visitBlock hhistory
  have horder : visitOrder (finish scope sweep).1.body = visitOrder original := by
    rw [visitOrder, (hintact.sameFlow.trans hrenames.flow).flowGraph_eq, visitOrder]
  rw [sweepBody, show (DominatorTree.ofGraph (finish scope sweep).1.body.flowGraph 0).preorder
    = visitOrder (finish scope sweep).1.body from rfl, horder, hfold]
  rfl

theorem KeepsApart.refl (body : Body) : KeepsApart body body := by
  have hsame : ∀ pair ∈ body.receivers.zip body.receivers, pair.1 = pair.2 := by
    intro pair hpair
    rw [← List.map_id body.receivers, List.zip_map'] at hpair
    obtain ⟨receiver, -, rfl⟩ := List.mem_map.1 hpair
    rfl
  intro left hleft right hright
  rw [hsame left hleft, hsame right hright]

/-- A sweep creates no phis. -/
theorem Reached.phiFree (hbody : original.WellFormed) (hssa : original.StrictSSA) (hunused : original.InitUnused)
    (hphis : original.PhiFree) {done : List Nat} {sweep : Sweep} {stage : Stage}
    (h : Reached scope original done sweep stage) : sweep.body.PhiFree := by
  induction h using Reached.induction with
  | start => exact hphis
  | step hreached hstep ih =>
    cases hstep with
    | enter => exact ih
    | keep => exact ih
    | eliminate hinstruction hredundant =>
      obtain ⟨dest, hdest⟩ := Scope.dest?_of_redundancy? hredundant
      have hdistinct := (hreached.intact hbody hssa hunused).1.wellFormed.distinct
      rw [Sweep.body_eliminate hdistinct hinstruction hredundant hdest]
      exact ih.rewriting _
    | leave => exact ih

private theorem keepsApart_of_phiFree {sweep : Sweep} (h : sweep.body.PhiFree) (scope : Scope) :
    KeepsApart sweep.body (finish scope sweep).1.body := by
  have hsame : (finish scope sweep).1.body = sweep.body := by
    unfold finish
    split
    · exact h.removeTrivialPhis
    · rfl
  rw [hsame]
  exact .refl sweep.body

/-- A run on a strict body without defects that uses no result of an initialization check: the method it is in, the sweep
over it and what comes of it. -/
structure FirstRun (context : PassContext) (body : Body) (definition : MethodDef) (sweep : Sweep) (outcome : PassOutcome)
    (stats : Stats) : Prop where
  method : context.program.method? body.method = some definition
  defectFree : body.defect? = none
  strictSSA : body.StrictSSA
  initUnused : body.InitUnused
  swept : sweepBody (scopeFor context body definition) body = .ok sweep
  finished : runWithStats context body = .ok (outcome, stats)

private theorem FirstRun.finish_eq {context : PassContext} {body : Body} {definition : MethodDef} {sweep : Sweep}
    {outcome : PassOutcome} {stats : Stats} (h : FirstRun context body definition sweep outcome stats) :
    finish (scopeFor context body definition) sweep = (outcome, stats) := by
  have hrun := h.finished
  rw [runWithStats_eq h.method, h.swept] at hrun
  exact Except.ok.inj hrun

/-- A second run succeeds, reports no change and returns the body as it was, provided that the first run created no read
of a tracked static field and removed no phi that made two receivers one. -/
theorem second_run_changes_nothing (context : PassContext) (body : Body) (definition : MethodDef) (sweep : Sweep)
    (outcome : PassOutcome) (stats : Stats) (h : FirstRun context body definition sweep outcome stats)
    (hstatic : context.program.StoresNoStaticField ∨
      CreatesNoStaticRead (scopeFor context body definition) body outcome.body)
    (hphis : body.PhiFree ∨ KeepsApart sweep.body outcome.body) :
    runWithStats context outcome.body = .ok (.unchanged outcome.body, {}) := by
  let scope := scopeFor context body definition
  have hbody := (Body.defect?_eq_none_iff body).1 h.defectFree
  obtain rfl : (finish scope sweep).1 = outcome := by rw [h.finish_eq]
  obtain ⟨waiting, hreached⟩ := sweepBody_reached h.swept
  have hapart : KeepsApart sweep.body (finish scope sweep).1.body := hphis.elim
    (fun hfree => keepsApart_of_phiFree (hreached.phiFree hbody h.strictSSA h.initUnused hfree) scope) id
  obtain ⟨-, -, -, -, hkept⟩ := finish_keeps scope (hreached.intact hbody h.strictSSA h.initUnused).1
  have hscope : scopeFor context (finish scope sweep).1.body definition = scope := by
    rw [scopeFor, hkept]
    rfl
  rw [runWithStats_eq (hkept.symm ▸ h.method), hscope,
    sweepBody_finish hbody h.strictSSA h.initUnused h.swept hstatic hapart]
  rfl

/-- A phi goes, and the receiver of all reads is another value. -/
theorem second_run_changes_nothing_of_readOnBothWays :
    ∃ (context : PassContext) (definition : MethodDef) (sweep : Sweep) (outcome : PassOutcome) (stats : Stats),
      context.program = readOnBothWays.1 ∧ context.program.StoresNoStaticField ∧ ¬readOnBothWays.2.PhiFree ∧
        KeepsApart sweep.body outcome.body ∧ FirstRun context readOnBothWays.2 definition sweep outcome stats ∧
        stats.total = 1 ∧ runWithStats context outcome.body = .ok (.unchanged outcome.body, {}) := by
  let context : PassContext := { program := readOnBothWays.1, settings := {} }
  have hstores : readOnBothWays.1.StoresNoStaticField := by
    intro method summary hsummary entry hentry reference
    have hfound : (readOnBothWays.1.summaries).find? method = some summary := hsummary
    simp only [readOnBothWays, Program.recordSummary, Table.find?_insert] at hfound
    split at hfound
    · cases hfound
      simp only [List.mem_singleton] at hentry
      subst hentry
      exact FieldInitialization.noConfusion
    · cases hfound
  obtain ⟨definition, hmethod⟩ := Option.isSome_iff_exists.1
    (show (context.program.method? readOnBothWays.2.method).isSome = true by decide)
  have hchecked : ((context.program.method? readOnBothWays.2.method).bind fun definition =>
      (sweepBody (scopeFor context readOnBothWays.2 definition) readOnBothWays.2).toOption.map fun sweep =>
        let finished := finish (scopeFor context readOnBothWays.2 definition) sweep
        (decide (KeepsApart sweep.body finished.1.body), finished.2.total)) = some (true, 1) := by
    decide +kernel
  rw [hmethod, Option.bind_some] at hchecked
  cases hsweep : sweepBody (scopeFor context readOnBothWays.2 definition) readOnBothWays.2 with
  | error error =>
    rw [hsweep] at hchecked
    cases hchecked
  | ok sweep =>
    rw [hsweep] at hchecked
    obtain ⟨hapart, htotal⟩ := Prod.mk.inj (Option.some.inj hchecked)
    have hrun := runWithStats_eq hmethod
    rw [hsweep] at hrun
    have hfirst := FirstRun.mk hmethod (by decide) (Body.strictSSA_of_usesEntryOnly (by decide)) (by decide) hsweep hrun
    exact ⟨context, definition, sweep, _, _, rfl, hstores, by decide, of_decide_eq_true hapart, hfirst, htotal,
      second_run_changes_nothing context readOnBothWays.2 definition sweep _ _ hfirst (.inl hstores)
        (.inr (of_decide_eq_true hapart))⟩

/-! ### What a second run can find -/

/-- The counters of two runs in a row. -/
def runTwice (context : PassContext) (body : Body) : Except Error (Stats × Stats) := do
  let (first, stats) ← runWithStats context body
  let (_, more) ← runWithStats context first.body
  return (stats, more)

/-- A method that reads the successor of an object before a branch and on one side of it again, and then, under both
names, the size of the successor. -/
def sizeReadTwice : Program × Body :=
  let declared := (({} : Program).declareClass "LA;" .program ⟨1⟩ none []).1
  let successor : FieldRef := { holder := ⟨0⟩, name := "next", descriptor := "LA;" }
  let size : FieldRef := { holder := ⟨0⟩, name := "size", descriptor := "I" }
  let withFields := ((declared.addField ⟨0⟩ "next" "LA;" ⟨1⟩).1.addField ⟨0⟩ "size" "I" ⟨1⟩).1
  ((withFields.addMethod ⟨0⟩ "m" "(LA;)I" (AccessFlags.withStatic ⟨1⟩)).1,
    { method := ⟨0⟩
      values := List.replicate 6 {}
      blocks :=
        [{ instructions :=
            [{ operation := .argument ⟨0⟩ 0 }, { operation := .instanceGet ⟨1⟩ ⟨0⟩ successor },
              { operation := .branch .eq ⟨1⟩ none }]
           successors := [1, 2] },
          { instructions := [{ operation := .instanceGet ⟨2⟩ ⟨0⟩ successor }, { operation := .goto }]
            successors := [3] },
          { instructions := [{ operation := .goto }], successors := [3] },
          { phis := [{ dest := ⟨3⟩, operands := [⟨2⟩, ⟨1⟩] }]
            instructions :=
              [{ operation := .instanceGet ⟨4⟩ ⟨1⟩ size }, { operation := .instanceGet ⟨5⟩ ⟨3⟩ size },
                { operation := .return (some ⟨5⟩) }] }] })

/-- A method that creates an object whose initializer stores the value of a static field, and reads it twice. -/
def storedStaticRead : Program × Body :=
  let declared := (({} : Program).declareClass "LA;" .program ⟨1⟩ none []).1
  let shared : FieldRef := { holder := ⟨0⟩, name := "s", descriptor := "I" }
  let field : FieldRef := { holder := ⟨0⟩, name := "f", descriptor := "I" }
  let initializer : MethodRef := { holder := ⟨0⟩, name := "<init>", descriptor := "()V" }
  let withFields := ((declared.addField ⟨0⟩ "s" "I" (AccessFlags.withStatic ⟨1⟩)).1.addField ⟨0⟩ "f" "I" ⟨1⟩).1
  let withInitializer := (withFields.addMethod ⟨0⟩ "<init>" "()V" ⟨0x10001⟩).1
  let withMethod := (withInitializer.addMethod ⟨0⟩ "m" "()I" (AccessFlags.withStatic ⟨1⟩)).1
  (withMethod.recordSummary ⟨0⟩ { fields := [(⟨1⟩, .constant (.staticField shared))] },
    { method := ⟨1⟩
      values := List.replicate 3 {}
      blocks :=
        [{ instructions :=
            [{ operation := .newInstance ⟨0⟩ ⟨0⟩ }, { operation := .invoke none .direct initializer [⟨0⟩] },
              { operation := .instanceGet ⟨1⟩ ⟨0⟩ field }, { operation := .instanceGet ⟨2⟩ ⟨0⟩ field },
              { operation := .return (some ⟨2⟩) }] }] })

/-- A second run can eliminate more: a read whose receiver was a phi in the first run, and the second of two reads that
the first run made reads of one static field. -/
theorem second_run_eliminates_more :
    (sizeReadTwice.2.defect? = none ∧ sizeReadTwice.2.StrictSSA ∧ sizeReadTwice.2.InitUnused ∧
      sizeReadTwice.1.StoresNoStaticField ∧
      (runTwice { program := sizeReadTwice.1, settings := {} } sizeReadTwice.2).toOption.map
        (fun (stats, more) => (stats.total, more.eliminated)) = some (1, 1)) ∧
    storedStaticRead.2.defect? = none ∧ storedStaticRead.2.StrictSSA ∧ storedStaticRead.2.InitUnused ∧
      storedStaticRead.2.PhiFree ∧
      (runTwice { program := storedStaticRead.1, settings := {} } storedStaticRead.2).toOption.map
        (fun (stats, more) => (stats.materialized, more.eliminated)) = some (2, 1) := by
  refine ⟨⟨by decide, Body.strictSSA_of_usesEntryOnly (by decide), by decide, ?_, by decide +kernel⟩, by decide,
    Body.strictSSA_of_usesEntryOnly (by decide), by decide, by decide, by decide +kernel⟩
  intro method summary hsummary
  cases hsummary

end LoadElimination

end Bytecode
