import Bytecode.Proofs.LoadElimination.Redundant
import Bytecode.Proofs.LoadElimination.WellFormed
/-!
# The facts of a sweep hold

At every stage of a sweep the body is a faithful rewriting of the one it started from, and what is known holds wherever a
run of that one passes. All is said of runs of the original body, so nothing has to be carried over when the body changes:
an elimination only adds to the rewriting, and the instructions to come have at most got other names.

In a block with handlers, exceptions leave the block from instructions that can throw and have not been eliminated. If
there is one such instruction, then what is known at the end of the block, without its effect, holds where it throws.
-/

namespace Bytecode.LoadElimination

open Execution

/-- No initializer with a summary is called where an exception would be caught. -/
def Scope.SummariesUncaught (scope : Scope) (body : Body) : Prop :=
  ∀ block ∈ body.blocks, block.handlers ≠ [] → ∀ instruction ∈ block.instructions,
    ∀ dest kind reference arguments, instruction.operation = .invoke dest kind reference arguments →
    scope.initializerSummary? kind reference = none

/-- What is asked of a body and of the program around it. -/
structure Admissible (scope : Scope) (body : Body) : Prop where
  coherent : scope.program.Coherent
  wellFormed : body.WellFormed
  strictSSA : body.StrictSSA
  initUnused : body.InitUnused
  aliasesAssumed : body.AliasesAssumed
  summariesUncaught : scope.SummariesUncaught body

/-- The instruction has at most got other names for its operands. -/
def Plain (rewriting : Rewriting) (instruction : Instruction) : Prop :=
  rewriting.instruction instruction = some (instruction.mapUses rewriting.rename)

/-- The instructions of blocks that have not been visited have at most got other names for their operands. -/
def Untouched (original : Body) (rewriting : Rewriting) (visited : List Nat) : Prop :=
  ∀ position block, position ∉ visited → original.block? position = some block →
    ∀ instruction ∈ block.instructions, Plain rewriting instruction

/-- What is left of some instructions and can throw. -/
def throwing (rewriting : Rewriting) (instructions : List Instruction) : List Instruction :=
  (instructions.filterMap rewriting.instruction).filter (·.operation.canThrow)

variable {Datum Address World : Type} [DecidableEq Address]

section Stages

variable (machine : Machine Datum Address World) (scope : Scope) (original : Body)
  (start : Situation Datum Address World)

/-- The facts hold wherever a run passes the point. -/
def SoundAt (position : Nat) (earlier : List Instruction) (facts : Facts) : Prop :=
  ∀ state, Passes machine scope original start position earlier state →
    Holds machine scope original.aliasOrigin facts state.env state.situation.memory

/-- A run is watched for faults and starts with the class of its method initialized. -/
structure Ready : Prop where
  guarded : machine.guarded = true
  holder : start.memory.initialized scope.holder = true

/-- Facts wait for a block: they hold at its start, and their receivers come from blocks that are done. -/
structure Awaits (done : List Nat) (position : Nat) (facts : Facts) : Prop where
  sound : SoundAt machine scope original start position [] facts
  receives : ∀ value, Receives facts.fields value →
    ∃ upper ∈ done, original.DefinedIn upper (original.aliasOrigin value) ∧ original.Dominates upper position

def AllAwait (done : List Nat) (waiting : Waiting) : Prop :=
  ∀ position facts, position ∉ done → waiting.find? position = some facts →
    Awaits machine scope original start done position facts

/-- A block of which the instructions `before` have been visited and those `after` have not. -/
structure Visited (rewriting : Rewriting) (position index : Nat) (facts : Facts) (block : Block)
    (before after : List Instruction) : Prop where
  found : original.block? position = some block
  split : block.instructions = before ++ after
  length : (before.filterMap rewriting.instruction).length = index
  plain : ∀ instruction ∈ after, Plain rewriting instruction
  sound : SoundAt machine scope original start position before facts
  receives : ∀ value, Receives facts.fields value →
    original.AvailableAfter position block before (original.aliasOrigin value)
  /-- A block is left by a jump from the instruction visited last. -/
  jumps : ∀ earlier instruction, before = earlier ++ [instruction] → ∀ state choice moved,
    Passes machine scope original start position earlier state →
    execute machine scope instruction.operation state = .jump choice moved →
    Holds machine scope original.aliasOrigin facts moved.env moved.situation.memory
  raises : block.handlers ≠ [] → ∀ thrower, throwing rewriting before = [thrower] →
    ∀ earlier instruction later, before = earlier ++ instruction :: later → ∀ state exception moved,
    Passes machine scope original start position earlier state →
    execute machine scope instruction.operation state = .raised exception moved →
    Holds machine scope original.aliasOrigin (scope.withoutEffectOf original facts thrower.operation) moved.env moved.situation.memory

def StageSound (rewriting : Rewriting) (done : List Nat) : Stage → Prop
  | .between waiting => Untouched original rewriting done ∧ AllAwait machine scope original start done waiting
  | .within position index facts waiting =>
    Untouched original rewriting (position :: done) ∧ AllAwait machine scope original start done waiting ∧
      ∃ block before after, Visited machine scope original start rewriting position index facts block before after

end Stages

variable {machine : Machine Datum Address World} {scope : Scope} {original : Body}
  {start : Situation Datum Address World} {rewriting : Rewriting}

/-! ### Facts do not depend on instructions -/

section Values

variable {body other : Body} {facts : Facts}

theorem after_eq (h : other.values = body.values) (operation : Operation) :
    scope.after other facts operation = scope.after body facts operation := by
  have hlocal : other.hasLocalInfo = body.hasLocalInfo := by
    funext value
    simp only [Body.hasLocalInfo, Body.value?, h]
  cases operation <;>
    simp only [Scope.after, Scope.afterInstanceGet, Scope.afterInstancePut, Scope.afterStaticGet, Scope.afterInvoke,
      Body.aliasRoot_eq h, hlocal]

theorem redundancy?_eq (h : other.values = body.values) (operation : Operation) :
    scope.redundancy? other facts operation = scope.redundancy? body facts operation := by
  have hlocal : other.hasLocalInfo = body.hasLocalInfo := by
    funext value
    simp only [Body.hasLocalInfo, Body.value?, h]
  cases operation <;> simp only [Scope.redundancy?, Body.aliasRoot_eq h, hlocal]

theorem withoutEffectOf_eq (h : other.values = body.values) (operation : Operation) :
    scope.withoutEffectOf other facts operation = scope.withoutEffectOf body facts operation := by
  cases operation <;> simp only [Scope.withoutEffectOf, Body.aliasRoot_eq h]

end Values

/-! ### Along a run -/

/-- The class of the method stays initialized. -/
theorem initialized_of_passes (hready : Ready machine scope start) {position : Nat} {earlier : List Instruction}
    {state : State Datum Address World} (h : Passes machine scope original start position earlier state) :
    state.situation.memory.initialized scope.holder = true := by
  induction h with
  | start => exact hready.holder
  | step _ _ _ hexecute ih =>
    obtain ⟨data, result, situation, -, hperform, rfl⟩ := execute_eq_next hexecute
    exact (keepsSettled_of_outcome hready.guarded (.inl ⟨result, hperform⟩)).initialized _ ih
  | @edge _ _ _ _ _ _ instruction state moved _ _ _ hexit _ ih =>
    generalize heffect : execute machine scope instruction.operation state = effect at hexit
    cases hexit with
    | jump =>
      obtain ⟨rfl, -⟩ := execute_eq_jump heffect
      exact ih
    | raise =>
      obtain ⟨-, data, -, hperform⟩ := execute_eq_raised heffect
      exact (keepsSettled_of_outcome hready.guarded (.inr ⟨_, hperform⟩)).initialized _ ih

section Points

variable {position : Nat} {block : Block} {earlier later : List Instruction} {instruction : Instruction}
  {state : State Datum Address World}

/-- Under their new names the operands of an instruction hold the same, and so do the ends of their alias chains. -/
theorem renamed_operands (hadmissible : Admissible scope original)
    (hfaithful : Faithful machine scope original start rewriting)
    (hpasses : Passes machine scope original start position earlier state)
    (hblock : original.block? position = some block) (hsplit : block.instructions = earlier ++ instruction :: later)
    {data : List Datum} (hdata : instruction.operation.operands.mapM state.env = some data) :
    (instruction.operation.mapOperands rewriting.rename).operands.mapM state.env = some data ∧
      RootsAgree original original.aliasOrigin state.env (instruction.operation.mapOperands rewriting.rename) := by
  have hreachable := hpasses.reachable hadmissible.wellFormed
  have huse : ∀ operand ∈ instruction.operation.operands, original.AvailableAfter position block earlier operand :=
    fun operand hoperand => hadmissible.strictSSA.use_available position block hblock hreachable _ _ _ hsplit operand
      (List.mem_append_left _ hoperand)
  rw [RootsAgree, Operation.operands_mapOperands]
  constructor
  · exact mapM_map_of_agree hdata fun operand hoperand datum hdatum =>
      hfaithful.agrees hpasses operand ⟨block, hblock, huse operand hoperand⟩ datum hdatum
  · intro renamed hrenamed datum hdatum
    obtain ⟨operand, hoperand, rfl⟩ := List.mem_map.1 hrenamed
    refine hpasses.env_aliasOrigin hadmissible.aliasesAssumed hadmissible.wellFormed hadmissible.strictSSA
      ⟨block, hblock, ?_⟩ hdatum
    exact hfaithful.available hblock hreachable hsplit operand (huse operand hoperand)

/-- An instruction that raises an exception is still there and can throw. -/
theorem mem_throwing_of_raised (hfaithful : Faithful machine scope original start rewriting)
    (hpasses : Passes machine scope original start position earlier state)
    (hblock : original.block? position = some block) (hsplit : block.instructions = earlier ++ instruction :: later)
    {exception : Datum} {moved : State Datum Address World}
    (hraised : execute machine scope instruction.operation state = .raised exception moved)
    {visited : List Instruction} (hmem : instruction ∈ visited) :
    ∃ rewritten, rewriting.instruction instruction = some rewritten ∧ rewritten ∈ throwing rewriting visited := by
  have hstands := hfaithful.stands hpasses hblock hsplit (by rw [hraised]; nofun)
  obtain ⟨-, data, -, hperform⟩ := execute_eq_raised hraised
  generalize hbecomes : rewriting.instruction instruction = becomes at hstands
  cases hstands with
  | gone hsilent => cases hraised.symm.trans hsilent.1
  | replaced hsilent => cases hraised.symm.trans hsilent.1
  | @renamed rewritten hoperation =>
    refine ⟨rewritten, rfl, List.mem_filter.2 ⟨List.mem_filterMap.2 ⟨instruction, hmem, hbecomes⟩, ?_⟩⟩
    rw [hoperation, ← canThrow_of_raised hperform]
    cases instruction.operation <;> rfl

end Points

/-! ### The instruction at hand -/

section Within

variable {position index : Nat} {facts : Facts} {block : Block} {before after : List Instruction}

private theorem filterMap_of_plain {instructions : List Instruction}
    (h : ∀ instruction ∈ instructions, Plain rewriting instruction) :
    instructions.filterMap rewriting.instruction = instructions.map (·.mapUses rewriting.rename) := by
  rw [← List.filterMap_eq_map]
  exact List.filterMap_congr h

/-- The instruction to visit next is that of the original body under its new names. -/
theorem Visited.instruction? (h : Visited machine scope original start rewriting position index facts block before after) :
    (rewriting.body original).instruction? position index = after.head?.map (·.mapUses rewriting.rename) := by
  have hinstructions : (rewriting.block block).instructions
      = before.filterMap rewriting.instruction ++ after.map (·.mapUses rewriting.rename) := by
    rw [Rewriting.block, h.split, List.filterMap_append, filterMap_of_plain h.plain]
  rw [Body.instruction?, rewriting.block?_of h.found]
  change (rewriting.block block).instructions[index]? = _
  rw [hinstructions, ← h.length, List.getElem?_append_right (Nat.le_refl _), Nat.sub_self, ← List.head?_eq_getElem?,
    List.head?_map]

/-- A block that is entered with facts that wait for it, or with none. -/
theorem Visited.enter (hfound : original.block? position = some block)
    (hplain : ∀ instruction ∈ block.instructions, Plain rewriting instruction)
    (hsound : SoundAt machine scope original start position [] facts)
    (hreceives : ∀ value, Receives facts.fields value →
      original.AvailableAtStart position (original.aliasOrigin value)) :
    Visited machine scope original start rewriting position 0 facts block [] block.instructions where
  found := hfound
  split := rfl
  length := rfl
  plain := hplain
  sound := hsound
  receives value hvalue := .inl (hreceives value hvalue)
  jumps earlier instruction hsplit := by simp at hsplit
  raises _ thrower hthrower := by cases hthrower

private theorem throwing_append (instruction : Instruction) :
    throwing rewriting (before ++ [instruction])
      = throwing rewriting before ++ (rewriting.instruction instruction).toList.filter (·.operation.canThrow) := by
  rw [throwing, List.filterMap_append, List.filter_append, throwing]
  rfl

/-- A place among some instructions and one more is among those or is the last. -/
theorem append_singleton_cases {earlier later : List Instruction} {instruction last : Instruction}
    (h : before ++ [last] = earlier ++ instruction :: later) :
    (earlier = before ∧ instruction = last) ∨ ∃ rest, before = earlier ++ instruction :: rest := by
  rcases List.eq_nil_or_concat later with rfl | ⟨rest, final, rfl⟩
  · obtain ⟨rfl, hlast⟩ := List.append_inj' h rfl
    exact .inl ⟨rfl, (List.singleton_inj.1 hlast).symm⟩
  · right
    rw [List.concat_eq_append, ← List.cons_append, ← List.append_assoc] at h
    exact ⟨rest, (List.append_inj' h rfl).1⟩

/-! ### An instruction that stays -/

section Keeping

variable {instruction : Instruction} {rest : List Instruction} {known : Facts}

theorem SoundAt.keep (hadmissible : Admissible scope original)
    (hready : Ready machine scope start)
    (hfaithful : Faithful machine scope original start rewriting) (hblock : original.block? position = some block)
    (hsplit : block.instructions = before ++ instruction :: rest)
    (h : SoundAt machine scope original start position before facts)
    (hafter : scope.after original facts (instruction.operation.mapOperands rewriting.rename) = .ok known) :
    SoundAt machine scope original start position (before ++ [instruction]) known := by
  intro later hpasses
  obtain ⟨state, hbefore, hexecute⟩ := hpasses.of_append
  obtain ⟨data, result, situation, hdata, hperform, rfl⟩ := execute_eq_next hexecute
  obtain ⟨hrenamed, hroots⟩ := renamed_operands hadmissible hfaithful hbefore hblock hsplit hdata
  rw [← perform_mapOperands machine scope rewriting.rename] at hperform
  rw [← Operation.dest?_mapOperands rewriting.rename]
  refine (h state hbefore).after hready.guarded hadmissible.coherent
    (initialized_of_passes hready hbefore) hrenamed hroots (fun value hdest => ?_) hperform hafter
  rw [Operation.dest?_mapOperands] at hdest
  refine hbefore.env_eq_none hadmissible.wellFormed.distinct hblock hsplit ?_
  exact List.mem_filterMap.2 ⟨instruction, List.mem_cons_self, hdest⟩

/-- A new receiver is available, since the operand that it comes from is. -/
theorem availableAfter_of_receives (hadmissible : Admissible scope original)
    (hfaithful : Faithful machine scope original start rewriting) (hreachable : original.Reachable position)
    (h : Visited machine scope original start rewriting position index facts block before (instruction :: rest))
    (hafter : scope.after original facts (instruction.operation.mapOperands rewriting.rename) = .ok known)
    {value : ValueId} (hvalue : Receives known.fields value) :
    original.AvailableAfter position block before (original.aliasOrigin value) := by
  rcases hvalue.of_after hafter with hold | ⟨renamed, hrenamed, rfl⟩
  · exact h.receives value hold
  · rw [Operation.operands_mapOperands] at hrenamed
    obtain ⟨operand, hoperand, rfl⟩ := List.mem_map.1 hrenamed
    have huse := hadmissible.strictSSA.use_available position block h.found hreachable _ _ _ h.split operand
      (List.mem_append_left _ hoperand)
    exact (hfaithful.available h.found hreachable h.split operand huse).aliasOrigin hadmissible.aliasesAssumed
      hadmissible.wellFormed hadmissible.strictSSA h.found hreachable h.split

/-- Of a block with one instruction left that can throw, an exception is caught as that instruction leaves the facts. -/
theorem holds_of_raised (hadmissible : Admissible scope original)
    (hready : Ready machine scope start)
    (hfaithful : Faithful machine scope original start rewriting)
    (h : Visited machine scope original start rewriting position index facts block before (instruction :: rest))
    (hafter : scope.after original facts (instruction.operation.mapOperands rewriting.rename) = .ok known)
    (hhandlers : block.handlers ≠ []) {thrower : Instruction}
    (hthrower : throwing rewriting (before ++ [instruction]) = [thrower]) {earlier later : List Instruction}
    {found : Instruction} (hsplit : before ++ [instruction] = earlier ++ found :: later)
    {state moved : State Datum Address World} {exception : Datum}
    (hpasses : Passes machine scope original start position earlier state)
    (hraised : execute machine scope found.operation state = .raised exception moved) :
    Holds machine scope original.aliasOrigin (scope.withoutEffectOf original known thrower.operation) moved.env moved.situation.memory := by
  rw [throwing_append, h.plain instruction List.mem_cons_self, Option.toList_some] at hthrower
  by_cases hthrows : (instruction.mapUses rewriting.rename).operation.canThrow = true
  · -- no instruction before this one can throw, so the exception is its own
    simp only [List.filter_cons, hthrows, if_true, List.filter_nil] at hthrower
    obtain ⟨hnone, hlast⟩ := List.append_inj' (show _ = [] ++ [thrower] from hthrower) rfl
    obtain rfl := List.singleton_inj.1 hlast
    rcases append_singleton_cases hsplit with ⟨rfl, rfl⟩ | ⟨middle, hmiddle⟩
    · obtain ⟨henv, data, -, hperform⟩ := execute_eq_raised hraised
      rw [← perform_mapOperands machine scope rewriting.rename] at hperform
      rw [henv]
      refine (h.sound state hpasses).withoutEffectOf (initialized_of_passes hready hpasses) ?_ hperform hafter
      intro dest kind reference arguments hinvoke
      change found.operation.mapOperands rewriting.rename = _ at hinvoke
      cases hoperation : found.operation <;> rw [hoperation] at hinvoke <;> cases hinvoke
      refine hadmissible.summariesUncaught block (List.mem_of_getElem? h.found) hhandlers found ?_ _ _ _ _ hoperation
      rw [h.split]
      simp
    · have hfound : block.instructions = earlier ++ found :: (middle ++ instruction :: rest) := by
        rw [h.split, hmiddle, List.append_assoc]
        rfl
      obtain ⟨rewritten, -, hthrowing⟩ := mem_throwing_of_raised hfaithful hpasses h.found hfound hraised
        (show found ∈ before by rw [hmiddle]; simp)
      rw [hnone] at hthrowing
      cases hthrowing
  · obtain rfl := Except.ok.inj ((after_of_canThrow_eq_false (Bool.eq_false_iff.2 hthrows)).symm.trans hafter)
    simp only [List.filter_cons, hthrows, Bool.false_eq_true, if_false, List.filter_nil, List.append_nil] at hthrower
    rcases append_singleton_cases hsplit with ⟨rfl, rfl⟩ | ⟨middle, hmiddle⟩
    · obtain ⟨-, data, -, hperform⟩ := execute_eq_raised hraised
      rw [← perform_mapOperands machine scope rewriting.rename] at hperform
      exact absurd (canThrow_of_raised hperform) hthrows
    · exact h.raises hhandlers thrower hthrower earlier found middle hmiddle state exception moved hpasses hraised

theorem Visited.keep (hadmissible : Admissible scope original)
    (hready : Ready machine scope start)
    (hfaithful : Faithful machine scope original start rewriting) (hreachable : original.Reachable position)
    (h : Visited machine scope original start rewriting position index facts block before (instruction :: rest))
    (hafter : scope.after original facts (instruction.operation.mapOperands rewriting.rename) = .ok known) :
    Visited machine scope original start rewriting position (index + 1) known block (before ++ [instruction]) rest where
  found := h.found
  split := by
    rw [h.split]
    simp
  length := by
    rw [List.filterMap_append, List.length_append, h.length,
      List.filterMap_cons_some (h.plain instruction List.mem_cons_self)]
    rfl
  plain other hother := h.plain other (List.mem_cons_of_mem _ hother)
  sound := h.sound.keep hadmissible hready hfaithful h.found h.split hafter
  receives value hvalue := (availableAfter_of_receives hadmissible hfaithful hreachable h hafter hvalue).append _
  jumps earlier last hsplit state choice moved hpasses hjump := by
    obtain ⟨rfl, hlast⟩ := List.append_inj' hsplit rfl
    obtain rfl := List.singleton_inj.1 hlast
    obtain ⟨rfl, data, -, hperform⟩ := execute_eq_jump hjump
    rw [← perform_mapOperands machine scope rewriting.rename] at hperform
    rw [after_of_isTerminator (isTerminator_of_jump hperform)] at hafter
    obtain rfl := Except.ok.inj hafter
    exact h.sound _ hpasses
  raises hhandlers thrower hthrower earlier found later hsplit state exception moved hpasses hraised :=
    holds_of_raised hadmissible hready hfaithful h hafter hhandlers hthrower hsplit hpasses hraised

end Keeping

/-! ### An instruction that is eliminated -/

section Eliminating

variable {instruction : Instruction} {rest : List Instruction} {redundancy : Redundancy} {dest : ValueId}

/-- An instruction that defines another value gets at most other names again. -/
theorem Plain.andThen {other : Instruction} (h : Plain rewriting other) (hne : other.operation.dest? ≠ some dest)
    (redundancy : Redundancy) : Plain (rewriting.andThen (redundancy.rewriting dest)) other := by
  have hdest : (other.mapUses rewriting.rename).operation.dest? ≠ some dest := by
    rwa [Instruction.mapUses, Operation.dest?_mapOperands]
  unfold Plain at h ⊢
  simp only [Rewriting.andThen, h, Option.bind_some]
  cases redundancy with
  | existingValue _ value => exact (Rewriting.supersede_other value hdest).trans (by rw [Rewriting.mapUses_mapUses]; rfl)
  | constantValue => exact congrArg some (if_neg hdest)
  | initialized => exact (Rewriting.supersede_other dest hdest).trans (by rw [Rewriting.mapUses_mapUses]; rfl)

/-- A redundant instruction does nothing but define its value, which the redundancy gives. -/
theorem Visited.silent (hadmissible : Admissible scope original)
    (hfaithful : Faithful machine scope original start rewriting)
    (h : Visited machine scope original start rewriting position index facts block before (instruction :: rest))
    (hredundant : scope.redundancy? original facts (instruction.operation.mapOperands rewriting.rename)
      = some redundancy) (hdest : instruction.operation.dest? = some dest) {state : State Datum Address World}
    (hpasses : Passes machine scope original start position before state)
    (hfault : execute machine scope instruction.operation state ≠ .faulty) :
    ∃ after datum, Silent machine scope instruction.operation state after ∧ after.env dest = some datum ∧
      redundancy.Gives machine scope state.env state.situation dest datum := by
  cases hdata : instruction.operation.operands.mapM state.env with
  | none => exact absurd (by rw [execute, hdata]) hfault
  | some data =>
    obtain ⟨hrenamed, hroots⟩ := renamed_operands hadmissible hfaithful hpasses h.found h.split hdata
    obtain ⟨datum, hperform, hgives⟩ := (h.sound state hpasses).redundant hadmissible.coherent hrenamed hroots hredundant
      (by rw [Operation.dest?_mapOperands]; exact hdest)
    rw [perform_mapOperands] at hperform
    refine ⟨{ state with env := assign state.env (some dest) datum }, datum, ⟨?_, rfl⟩, assign_self _ _ _, hgives⟩
    simp only [execute, hdata, hperform, hdest]

/-- Eliminating a redundant instruction is faithful. -/
theorem Visited.faithful (hadmissible : Admissible scope original)
    (hfaithful : Faithful machine scope original start rewriting)
    (h : Visited machine scope original start rewriting position index facts block before (instruction :: rest))
    (hmentions : ∀ value, Mentions facts.fields value → original.AvailableAfter position block before value)
    (hredundant : scope.redundancy? original facts (instruction.operation.mapOperands rewriting.rename)
      = some redundancy) (hdest : instruction.operation.dest? = some dest) :
    Faithful machine scope original start (rewriting.andThen (redundancy.rewriting dest)) := by
  have hbody := hadmissible.wellFormed
  -- the value is defined at the instruction at hand and nowhere else
  have hgives : ∀ {other : Nat} {otherBlock : Block} {earlier later : List Instruction} {found : Instruction}
      {state : State Datum Address World}, Passes machine scope original start other earlier state →
      original.block? other = some otherBlock → otherBlock.instructions = earlier ++ found :: later →
      found.operation.dest? = some dest → execute machine scope found.operation state ≠ .faulty →
      ∃ after datum, Silent machine scope found.operation state after ∧ after.env dest = some datum ∧
        redundancy.Gives machine scope state.env state.situation dest datum := by
    intro other otherBlock earlier later found state hpasses hother hparts hfound hfault
    obtain ⟨rfl, rfl, rfl⟩ := Body.definition_unique hbody.distinct h.found hother h.split hparts hdest hfound
    exact h.silent hadmissible hfaithful hredundant hdest hpasses hfault
  have hsilent : ∀ {other : Nat} {otherBlock : Block} {earlier : List Instruction} {found : Instruction}
      {later : List Instruction} {state : State Datum Address World},
      Passes machine scope original start other earlier state → original.block? other = some otherBlock →
      otherBlock.instructions = earlier ++ found :: later → found.operation.dest? = some dest →
      execute machine scope found.operation state ≠ .faulty →
      ∃ after, Silent machine scope found.operation state after := by
    intro other otherBlock earlier found later state hpasses hother hparts hfound hfault
    obtain ⟨after, -, hafter, -⟩ := hgives hpasses hother hparts hfound hfault
    exact ⟨after, hafter⟩
  rcases Scope.redundancy?_cases hredundant with ⟨found, known, hfound, -, hread, husable⟩ | ⟨found, type, -, -, rfl⟩
  · rw [Operation.dest?_mapOperands] at hfound
    obtain rfl := Option.some.inj (hfound.symm.trans hdest)
    cases known with
    | existing value =>
      obtain rfl := Option.some.inj husable
      have hsupports := Rewriting.supports_of_availableAfter hbody.distinct h.found h.split hdest
        (hmentions value (mentions_of_knownRead? hread))
      refine hfaithful.supersede hbody (.inr ⟨hsupports, fun hpasses => hpasses.agreeAt hbody hsupports ?_ ?_⟩) hsilent
      · intro other otherBlock earlier defining later state after hpasses hother hparts hdefines hexecute
        obtain ⟨silent, datum, hsilent, hdatum, hvalue⟩ :=
          hgives hpasses hother hparts hdefines (by rw [hexecute]; nofun)
        cases hexecute.symm.trans hsilent.1
        rw [hdatum]
        exact hvalue
      · intro _ _ _ next _ _ _ _ _ _ _ _ _ hnext hphi
        exact absurd hdest (Body.dest?_ne_of_phi hbody.distinct hnext hphi h.found (by rw [h.split]; simp))
    | constant constant =>
      rw [Scope.usable?, Option.ite_none_right_eq_some] at husable
      obtain rfl := Option.some.inj husable.2
      refine hfaithful.redefine hbody (constant.dest?_materialize found) (constant.operands_materialize found) ?_
      intro other otherBlock earlier defining later state hpasses hother hparts hdefines hfault
      obtain ⟨after, datum, hsilent, hdatum, hdone⟩ := hgives hpasses hother hparts hdefines hfault
      exact ⟨after, datum, hsilent, hdone, hdatum⟩
  · exact hfaithful.supersede hbody (.inl rfl) hsilent

/-- What has been visited neither defines nor uses the value at hand, and so stays as it is. -/
theorem Visited.filterMap_eliminate
    (h : Visited machine scope original start rewriting position index facts block before (instruction :: rest))
    (hcurrent : (rewriting.body original).WellFormed) (hstrict : (rewriting.body original).StrictSSA)
    (hreachable : original.Reachable position) (hdest : instruction.operation.dest? = some dest)
    (redundancy : Redundancy) :
    before.filterMap (rewriting.andThen (redundancy.rewriting dest)).instruction
      = before.filterMap rewriting.instruction := by
  have hblock := rewriting.block?_of h.found
  have hinstruction := h.instruction?
  rw [Body.instruction?, hblock] at hinstruction
  have hget : (rewriting.block block).instructions[index]? = some (instruction.mapUses rewriting.rename) := hinstruction
  have hdefines : (instruction.mapUses rewriting.rename).operation.dest? = some dest := by
    rwa [Instruction.mapUses, Operation.dest?_mapOperands]
  have hfront : (rewriting.block block).instructions.take index = before.filterMap rewriting.instruction := by
    rw [Rewriting.block, h.split, List.filterMap_append, ← h.length, List.take_left]
  have hnot := Body.not_availableAfter_of_dest? hcurrent.distinct hblock hget hdefines
  rw [hfront] at hnot
  have hsplit := eq_take_cons_drop hget
  rw [hfront] at hsplit
  refine List.filterMap_congr fun visited hvisited => ?_
  simp only [Rewriting.andThen]
  cases hbecomes : rewriting.instruction visited with
  | none => rfl
  | some kept =>
    have hkept : kept ∈ before.filterMap rewriting.instruction := List.mem_filterMap.2 ⟨visited, hvisited, hbecomes⟩
    obtain ⟨front, back, hparts⟩ := List.append_of_mem hkept
    refine Redundancy.instruction_rewriting_eq_self (fun heq => hnot ?_) fun huse => hnot ?_
    · exact .inr (.inr (List.mem_filterMap.2 ⟨kept, hkept, heq⟩))
    · have hplace := hsplit.trans (by rw [hparts, List.append_assoc, List.cons_append])
      rw [hparts]
      exact Body.AvailableAfter.append (hstrict.use_available position _ hblock
        ((rewriting.sameFlow original).reachable_iff.2 hreachable) front kept _ hplace dest huse) _

private theorem Visited.length_eliminate
    (h : Visited machine scope original start rewriting position index facts block before (instruction :: rest))
    (hcurrent : (rewriting.body original).WellFormed) (hstrict : (rewriting.body original).StrictSSA)
    (hreachable : original.Reachable position) (hdest : instruction.operation.dest? = some dest)
    (redundancy : Redundancy) :
    ((before ++ [instruction]).filterMap (rewriting.andThen (redundancy.rewriting dest)).instruction).length
      = if isRemoved (instruction.mapUses rewriting.rename) redundancy then index else index + 1 := by
  have hhere : (rewriting.andThen (redundancy.rewriting dest)).instruction instruction
      = (redundancy.rewriting dest).instruction (instruction.mapUses rewriting.rename) := by
    have hplain : rewriting.instruction instruction = _ := h.plain instruction List.mem_cons_self
    simp only [Rewriting.andThen, hplain, Option.bind_some]
  have hdefines : (instruction.mapUses rewriting.rename).operation.dest? = some dest := by
    rwa [Instruction.mapUses, Operation.dest?_mapOperands]
  have hlength := redundancy.length_rewriting hdefines
  rw [← hhere] at hlength
  rw [List.filterMap_append, h.filterMap_eliminate hcurrent hstrict hreachable hdest redundancy, List.length_append,
    h.length, show [instruction].filterMap (rewriting.andThen (redundancy.rewriting dest)).instruction
      = ((rewriting.andThen (redundancy.rewriting dest)).instruction instruction).toList from rfl, hlength]
  split <;> rfl

/-- The instructions to come define other values, and so get at most other names again. -/
theorem Visited.plain_eliminate (hdistinct : original.definitions.Nodup)
    (h : Visited machine scope original start rewriting position index facts block before (instruction :: rest))
    (hdest : instruction.operation.dest? = some dest) (redundancy : Redundancy) {other : Instruction}
    (hother : other ∈ rest) : Plain (rewriting.andThen (redundancy.rewriting dest)) other := by
  refine (h.plain other (List.mem_cons_of_mem _ hother)).andThen (fun heq => ?_) redundancy
  have hget : block.instructions[before.length]? = some instruction := by simp [h.split]
  obtain ⟨-, -, -, hlater⟩ :=
    Rewriting.split_at_definition (Body.block_definitions_nodup hdistinct h.found) hget hdest
  refine hlater (List.mem_filterMap.2 ⟨other, ?_, heq⟩)
  rw [h.split]
  simpa using hother

/-- Where a redundant instruction has gone on, the facts still hold. -/
theorem Visited.sound_eliminate (hadmissible : Admissible scope original)
    (hfaithful : Faithful machine scope original start rewriting)
    (h : Visited machine scope original start rewriting position index facts block before (instruction :: rest))
    (hredundant : scope.redundancy? original facts (instruction.operation.mapOperands rewriting.rename)
      = some redundancy) (hdest : instruction.operation.dest? = some dest) :
    SoundAt machine scope original start position (before ++ [instruction]) facts := by
  intro later hpasses
  obtain ⟨state, hbefore, hexecute⟩ := hpasses.of_append
  obtain ⟨after, -, hsilent, -⟩ := h.silent hadmissible hfaithful hredundant hdest hbefore (by rw [hexecute]; nofun)
  cases hexecute.symm.trans hsilent.1
  rw [hsilent.2]
  refine (h.sound state hbefore).extend ?_
  obtain ⟨data, result, situation, -, -, rfl⟩ := execute_eq_next hexecute
  refine extends_assign (fun value hvalue => ?_) result
  exact hbefore.env_eq_none hadmissible.wellFormed.distinct h.found h.split
    (List.mem_filterMap.2 ⟨instruction, List.mem_cons_self, hvalue⟩)

/-- If one instruction that can throw is left after eliminating and one was left before, then it is that one. -/
theorem Visited.throwing_eliminate
    (h : Visited machine scope original start rewriting position index facts block before (instruction :: rest))
    (hcurrent : (rewriting.body original).WellFormed) (hstrict : (rewriting.body original).StrictSSA)
    (hreachable : original.Reachable position) (hdest : instruction.operation.dest? = some dest)
    {thrower rewritten : Instruction}
    (hthrower : throwing (rewriting.andThen (redundancy.rewriting dest)) (before ++ [instruction]) = [thrower])
    (hmem : rewritten ∈ throwing rewriting before) : throwing rewriting before = [thrower] := by
  have hsame : throwing (rewriting.andThen (redundancy.rewriting dest)) before = throwing rewriting before := by
    rw [throwing, h.filterMap_eliminate hcurrent hstrict hreachable hdest redundancy, throwing]
  rw [throwing_append, hsame] at hthrower
  cases hfirst : throwing rewriting before with
  | nil =>
    rw [hfirst] at hmem
    cases hmem
  | cons first others =>
    rw [hfirst, List.cons_append] at hthrower
    obtain ⟨rfl, hnil⟩ := List.cons.inj hthrower
    rw [(List.append_eq_nil_iff.1 hnil).1]

/-- A redundant instruction is visited. -/
theorem Visited.eliminate (hadmissible : Admissible scope original)
    (hfaithful : Faithful machine scope original start rewriting)
    (h : Visited machine scope original start rewriting position index facts block before (instruction :: rest))
    (hcurrent : (rewriting.body original).WellFormed) (hstrict : (rewriting.body original).StrictSSA)
    (hreachable : original.Reachable position)
    (hredundant : scope.redundancy? original facts (instruction.operation.mapOperands rewriting.rename)
      = some redundancy) (hdest : instruction.operation.dest? = some dest) :
    Visited machine scope original start (rewriting.andThen (redundancy.rewriting dest)) position
      (if isRemoved (instruction.mapUses rewriting.rename) redundancy then index else index + 1) facts block
      (before ++ [instruction]) rest where
  found := h.found
  split := by
    rw [h.split]
    simp
  length := h.length_eliminate hcurrent hstrict hreachable hdest redundancy
  plain other hother := h.plain_eliminate hadmissible.wellFormed.distinct hdest redundancy hother
  sound := h.sound_eliminate hadmissible hfaithful hredundant hdest
  receives value hvalue := (h.receives value hvalue).append _
  jumps earlier last hsplit state choice moved hpasses hjump := by
    obtain ⟨rfl, hlast⟩ := List.append_inj' hsplit rfl
    obtain rfl := List.singleton_inj.1 hlast
    obtain ⟨after, -, hsilent, -⟩ := h.silent hadmissible hfaithful hredundant hdest hpasses (by rw [hjump]; nofun)
    cases hjump.symm.trans hsilent.1
  raises hhandlers thrower hthrower earlier found later hsplit state exception moved hpasses hraised := by
    rcases append_singleton_cases hsplit with ⟨rfl, rfl⟩ | ⟨middle, hmiddle⟩
    · obtain ⟨after, -, hsilent, -⟩ := h.silent hadmissible hfaithful hredundant hdest hpasses (by rw [hraised]; nofun)
      cases hraised.symm.trans hsilent.1
    · have hfound : block.instructions = earlier ++ found :: (middle ++ instruction :: rest) := by
        rw [h.split, hmiddle, List.append_assoc]
        rfl
      obtain ⟨rewritten, -, hmem⟩ := mem_throwing_of_raised hfaithful hpasses h.found hfound hraised
        (show found ∈ before by rw [hmiddle]; simp)
      have honly := h.throwing_eliminate hcurrent hstrict hreachable hdest hthrower hmem
      exact h.raises hhandlers thrower honly earlier found middle hmiddle state exception moved hpasses hraised

end Eliminating

end Within

end Bytecode.LoadElimination
