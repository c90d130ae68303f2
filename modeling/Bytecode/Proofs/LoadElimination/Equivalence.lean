import Bytecode.Proofs.Execution.Guard
import Bytecode.Proofs.Execution.Simulation
import Bytecode.Proofs.LoadElimination.Soundness
/-!
# The pass keeps the meaning of bodies

The facts that a block passes on hold at the start of a successor without other predecessors, whichever way the block is
left. So the facts of a sweep hold at all its stages, the swept body is a faithful rewriting of the one it started from, and
the two run in step.
-/

namespace Bytecode

/-- The instructions at the positions where a block can throw. -/
theorem Block.map_throwers (block : Block) :
    block.throwers.map (block.instructions[·]?) = (block.instructions.filter (·.operation.canThrow)).map some := by
  have hall : (List.range block.instructions.length).map (block.instructions[·]?) = block.instructions.map some := by
    apply List.ext_getElem?
    intro index
    by_cases hlt : index < block.instructions.length
    · simp [hlt]
    · simp [Nat.le_of_not_lt hlt]
  have hfilter : block.throwers.map (block.instructions[·]?)
      = ((List.range block.instructions.length).map (block.instructions[·]?)).filter
        (·.any (·.operation.canThrow)) := by
    rw [List.filter_map]
    rfl
  rw [hfilter, hall, List.filter_map]
  rfl

theorem Block.handlers_ne_nil {block : Block} {successor : Nat} (h : block.hasCatchSuccessor successor = true) :
    block.handlers ≠ [] := by
  intro hnone
  rw [Block.hasCatchSuccessor, hnone] at h
  cases h

namespace LoadElimination

open Execution

section Sweeping

variable {Datum Address World : Type} [DecidableEq Address] {machine : Machine Datum Address World} {scope : Scope}
  {original : Body} {start : Situation Datum Address World} {rewriting : Rewriting}

/-! ### Leaving a block -/

omit [DecidableEq Address] in
/-- Passing facts on adds nothing to them. -/
theorem Holds.passedFacts {origin : ValueId → ValueId} {facts : Facts} {env : ValueId → Option Datum} {memory : Memory Datum Address}
    (h : Holds machine scope origin facts env memory) (body : Body) (block : Block) (successor : Nat) :
    Holds machine scope origin (passedFacts scope body block facts successor) env memory := by
  unfold LoadElimination.passedFacts
  split
  · exact h
  · split
    · exact .empty env memory
    · split
      · exact h.dropEffect _
      · exact h

/-- What is passed along an exceptional edge if one instruction can throw. -/
theorem passedFacts_of_thrower {body : Body} {block : Block} {facts : Facts} {successor : Nat} {thrower : Instruction}
    (hcatch : block.hasCatchSuccessor successor = true)
    (hthrower : block.instructions.filter (·.operation.canThrow) = [thrower]) :
    passedFacts scope body block facts successor = scope.withoutEffectOf body facts thrower.operation := by
  have hmap := block.map_throwers
  rw [hthrower] at hmap
  obtain ⟨place, hplace, hget⟩ := List.map_eq_singleton_iff.1 hmap
  have hhandlers := List.isEmpty_eq_false_iff.2 (Block.handlers_ne_nil hcatch)
  simp [passedFacts, hcatch, hplace, Block.exceptionalExit?, hhandlers, hget]

/-- Nothing is passed along an exceptional edge if several instructions can throw. -/
theorem passedFacts_of_throwers {body : Body} {block : Block} {facts : Facts} {successor : Nat}
    (hcatch : block.hasCatchSuccessor successor = true)
    (hthrowers : 1 < (block.instructions.filter (·.operation.canThrow)).length) :
    passedFacts scope body block facts successor = {} := by
  have hlength := congrArg List.length block.map_throwers
  rw [List.length_map, List.length_map] at hlength
  rw [passedFacts, if_neg (by rw [hcatch]; exact Bool.false_ne_true), if_pos (hlength ▸ hthrowers)]

section Exits

variable {position index target : Nat} {facts : Facts} {block : Block} {before earlier later : List Instruction}
  {instruction : Instruction} {state moved : State Datum Address World}

/-- Where an exception is caught, the facts hold that are passed to the handler. -/
theorem Visited.caught (hfaithful : Faithful machine scope original start rewriting)
    (h : Visited machine scope original start rewriting position index facts block before [])
    (hpasses : Passes machine scope original start position earlier state)
    (hsplit : block.instructions = earlier ++ instruction :: later) {exception : Datum}
    (hraised : execute machine scope instruction.operation state = .raised exception moved)
    (hcatch : block.hasCatchSuccessor target = true) :
    Holds machine scope original.aliasOrigin
      (passedFacts scope (rewriting.body original) (rewriting.block block) facts target) moved.env
      moved.situation.memory := by
  have hbefore : block.instructions = before := h.split.trans (List.append_nil before)
  have hcatch' : (rewriting.block block).hasCatchSuccessor target = true := hcatch
  have hthrowing : (rewriting.block block).instructions.filter (·.operation.canThrow) = throwing rewriting before := by
    rw [Rewriting.block, hbefore, throwing]
  obtain ⟨rewritten, -, hmem⟩ := mem_throwing_of_raised hfaithful hpasses h.found hsplit hraised
    (show instruction ∈ before by rw [← hbefore, hsplit]; simp)
  cases hthrowers : throwing rewriting before with
  | nil =>
    rw [hthrowers] at hmem
    cases hmem
  | cons thrower others =>
    cases others with
    | nil =>
      have hvalues : scope.withoutEffectOf (rewriting.body original) facts thrower.operation
          = scope.withoutEffectOf original facts thrower.operation :=
        withoutEffectOf_eq (show (rewriting.body original).values = original.values from rfl) _
      rw [passedFacts_of_thrower hcatch' (hthrowing.trans hthrowers), hvalues]
      exact h.raises (Block.handlers_ne_nil hcatch) thrower hthrowers earlier instruction later (hbefore.symm.trans hsplit)
        state exception moved hpasses hraised
    | cons second others =>
      rw [passedFacts_of_throwers hcatch' (by rw [hthrowing, hthrowers]; simp)]
      exact .empty _ _

/-- Whichever way a block is left, the facts that it passes on hold. -/
theorem Visited.passed (hadmissible : Admissible scope original)
    (hfaithful : Faithful machine scope original start rewriting)
    (h : Visited machine scope original start rewriting position index facts block before [])
    (hpasses : Passes machine scope original start position earlier state)
    (hsplit : block.instructions = earlier ++ instruction :: later)
    (hexit : Exits machine block target (execute machine scope instruction.operation state) moved) :
    Holds machine scope original.aliasOrigin
      (passedFacts scope (rewriting.body original) (rewriting.block block) facts target) moved.env
      moved.situation.memory := by
  generalize heffect : execute machine scope instruction.operation state = effect at hexit
  cases hexit with
  | @jump choice moved hsuccessor =>
    obtain ⟨-, data, -, hperform⟩ := execute_eq_jump heffect
    obtain ⟨front, last, hends, -, hfront⟩ := (hadmissible.wellFormed.fits position block h.found).ends
    -- only the last instruction of a block jumps
    have hlast : earlier = front ∧ instruction = last := by
      refine (append_singleton_cases (hends.symm.trans hsplit)).resolve_right ?_
      rintro ⟨rest, rfl⟩
      have hopen := hfront instruction (by simp)
      rw [isTerminator_of_jump hperform] at hopen
      cases hopen
    obtain ⟨rfl, rfl⟩ := hlast
    have hbefore : before = earlier ++ [instruction] := (List.append_nil before).symm.trans (h.split.symm.trans hends)
    exact (h.jumps earlier instruction hbefore state choice moved hpasses heffect).passedFacts _ _ _
  | @raise exception moved _ handler hcatcher hhandler htarget =>
    have hcatch : block.hasCatchSuccessor target = true :=
      List.any_eq_true.2 ⟨handler, List.mem_of_getElem? hhandler, decide_eq_true htarget⟩
    exact (h.caught hfaithful hpasses hsplit heffect hcatch :)

end Exits

/-- What a block passes on waits for a successor without other predecessors. -/
theorem Visited.awaits (hadmissible : Admissible scope original)
    (hfaithful : Faithful machine scope original start rewriting) {done rest : List Nat} {position index target : Nat}
    {facts : Facts} {block : Block} {before : List Instruction}
    (h : Visited machine scope original start rewriting position index facts block before [])
    (hmentions : ∀ value, Mentions facts.fields value → original.AvailableAfter position block before value)
    (horder : visitOrder original = done ++ position :: rest) (hsuccessor : target ∈ block.allSuccessors)
    (hone : (original.predecessors target).length = 1) (htarget : target ∉ done ++ [position]) :
    Awaits machine scope original start (done ++ [position]) target
      (passedFacts scope (rewriting.body original) (rewriting.block block) facts target) := by
  have habove : ∀ value, original.AvailableAfter position block before value →
      ∃ upper ∈ done ++ [position], original.DefinedIn upper value ∧ original.Dominates upper target :=
    fun value hvalue => exists_upper_of_atEnd (.refl original) horder h.found hsuccessor hone htarget
      (hvalue.atEnd h.found h.split)
  refine ⟨fun later hpasses => ?_, fun value hvalue => habove _ (h.receives value hvalue.of_passedFacts)⟩
  generalize hpoint : [] = point at hpasses
  cases hpasses with
  | start => exact absurd (mem_done_of_dominates (.refl original) horder (Digraph.entry_dominates position)) htarget
  | step => simp at hpoint
  | @edge source _ sourceBlock next earlier later instruction state moved hpasses hblock hsplit hexit hnext =>
    obtain ⟨only, honly⟩ := List.length_eq_one_iff.1 hone
    have hlt := (List.getElem?_eq_some_iff.1 hnext).1
    have hsource := Body.mem_predecessors.2 ⟨hlt, sourceBlock, hblock, hexit.mem_allSuccessors⟩
    have hposition := Body.mem_predecessors.2 ⟨hlt, block, h.found, hsuccessor⟩
    rw [honly, List.mem_singleton] at hsource hposition
    obtain rfl : source = position := hsource.trans hposition.symm
    obtain rfl := Option.some.inj (h.found.symm.trans hblock)
    -- the target defines nothing that comes from blocks that are done
    have hsame : ∀ value, original.AvailableAfter source block before value →
        arrive original source target next moved.env value = moved.env value := by
      intro value hvalue
      obtain ⟨upper, hupper, hdefined, -⟩ := habove value hvalue
      refine arrive_of_not_mem fun hmem => htarget ?_
      rwa [← Body.DefinedIn.unique hadmissible.wellFormed.distinct hdefined ⟨next, hnext, hmem⟩]
    exact (h.passed hadmissible hfaithful hpasses hsplit hexit).congr
      (fun value hvalue => hsame value (hmentions value (mentions_of_passedFacts hvalue)))
      fun value hvalue => hsame _ (h.receives value hvalue.of_passedFacts)

theorem AllAwait.leave (hadmissible : Admissible scope original)
    (hfaithful : Faithful machine scope original start rewriting) {done rest : List Nat} {position index : Nat}
    {facts : Facts} {waiting : Waiting} {block : Block} {before : List Instruction}
    (hwaiting : AllAwait machine scope original start done waiting)
    (h : Visited machine scope original start rewriting position index facts block before [])
    (hmentions : ∀ value, Mentions facts.fields value → original.AvailableAfter position block before value)
    (horder : visitOrder original = done ++ position :: rest) :
    AllAwait machine scope original start (done ++ [position])
      (propagate scope (rewriting.body original) position facts waiting) := by
  intro target passed htarget hfound
  rcases find?_propagate hfound with hbefore | ⟨rewritten, hrewritten, hsuccessor, hone, rfl⟩
  · obtain ⟨hsound, hreceives⟩ := hwaiting target passed (fun hmem => htarget (List.mem_append_left _ hmem)) hbefore
    refine ⟨hsound, fun value hvalue => ?_⟩
    obtain ⟨upper, hupper, hplace⟩ := hreceives value hvalue
    exact ⟨upper, List.mem_append_left _ hupper, hplace⟩
  · obtain rfl := Option.some.inj ((rewriting.block?_of h.found).symm.trans hrewritten)
    rw [(rewriting.sameFlow original).predecessors_eq] at hone
    exact h.awaits hadmissible hfaithful hmentions horder hsuccessor hone htarget

/-! ### The whole sweep -/

/-- The instruction at hand is the next one of the original body. -/
theorem Visited.next {position index : Nat} {facts : Facts} {block : Block} {before after : List Instruction}
    (h : Visited machine scope original start rewriting position index facts block before after) {found : Instruction}
    (hfound : (rewriting.body original).instruction? position index = some found) :
    ∃ instruction rest, after = instruction :: rest ∧ found = instruction.mapUses rewriting.rename := by
  rw [h.instruction?] at hfound
  obtain ⟨instruction, hinstruction, rfl⟩ := Option.map_eq_some_iff.1 hfound
  obtain ⟨rest, rfl⟩ := List.head?_eq_some_iff.1 hinstruction
  exact ⟨instruction, rest, rfl, rfl⟩

/-- What facts mention in the swept body is available in the original one. -/
theorem Visited.availableAfter_of_mentions (hlawful : rewriting.Lawful) {position index : Nat} {facts : Facts}
    {block : Block} {before after : List Instruction}
    (h : Visited machine scope original start rewriting position index facts block before after)
    (husable : Usable (rewriting.body original) position index facts) {value : ValueId}
    (hvalue : Mentions facts.fields value) : original.AvailableAfter position block before value := by
  have havailable := (husable value hvalue).2 (rewriting.block block) (rewriting.block?_of h.found)
  have hfront : (rewriting.block block).instructions.take index = before.filterMap rewriting.instruction := by
    rw [Rewriting.block, h.split, List.filterMap_append, ← h.length, List.take_left]
  rw [hfront] at havailable
  exact hlawful.availableAfter_of havailable

theorem Untouched.andThen {visited : List Nat} (h : Untouched original rewriting visited)
    (hdistinct : original.definitions.Nodup) {position : Nat} (hposition : position ∈ visited) {dest : ValueId}
    (hdest : original.DefinedIn position dest) (redundancy : Redundancy) :
    Untouched original (rewriting.andThen (redundancy.rewriting dest)) visited := by
  intro other block hother hblock instruction hinstruction
  refine (h other block hother hblock instruction hinstruction).andThen (fun heq => hother ?_) redundancy
  have hdefined : original.DefinedIn other dest := .of_dest? hblock hinstruction heq
  rwa [Body.DefinedIn.unique hdistinct hdefined hdest]

private theorem stageSound_identity : StageSound machine scope original start .identity [] (.between .empty) := by
  constructor
  · intro position block _ _ instruction _
    exact congrArg some (Rewriting.mapUses_eq_self fun _ _ => rfl).symm
  · intro position facts _ hfound
    rw [Table.find?_empty] at hfound
    cases hfound

theorem StageSound.enter {done rest : List Nat} {position : Nat} {waiting : Waiting}
    (h : StageSound machine scope original start rewriting done (.between waiting))
    (horder : visitOrder original = done ++ position :: rest) :
    StageSound machine scope original start rewriting done
      (.within position 0 ((waiting.find? position).getD {}) (waiting.erase position)) := by
  obtain ⟨huntouched, hwaiting⟩ := h
  have hposition := not_mem_done horder
  obtain ⟨passed, hpath⟩ := reachable_of_visitOrder horder
  obtain ⟨block, hblock⟩ : ∃ block, original.block? position = some block :=
    ⟨_, List.getElem?_eq_getElem hpath.target_lt⟩
  refine ⟨fun other block hother => huntouched other block fun hmem => hother (List.mem_cons_of_mem _ hmem),
    fun other facts hother hfound => ?_, block, [], block.instructions,
    .enter hblock (huntouched position block hposition hblock) ?_ ?_⟩
  · rw [Table.find?_erase] at hfound
    split at hfound
    · cases hfound
    · exact hwaiting other facts hother hfound
  · cases hfound : waiting.find? position with
    | none => exact fun _ _ => .empty _ _
    | some facts => exact (hwaiting position facts hposition hfound).sound
  · cases hfound : waiting.find? position with
    | none => exact fun value hvalue => absurd hvalue (not_receives_empty value)
    | some facts =>
      intro value hvalue
      obtain ⟨upper, hupper, hdefined, hdominates⟩ := (hwaiting position facts hposition hfound).receives value hvalue
      exact ⟨upper, fun heq => hposition (heq ▸ hupper), hdefined, hdominates⟩

/-- At every stage of a sweep the body is a faithful rewriting of the original one, and the facts hold. -/
theorem Reached.sound (hadmissible : Admissible scope original) (hready : Ready machine scope start) {done : List Nat}
    {sweep : Sweep} {stage : Stage} (h : Reached scope original done sweep stage) :
    ∃ rewriting, Faithful machine scope original start rewriting ∧ sweep.body = rewriting.body original ∧
      StageSound machine scope original start rewriting done stage := by
  have hintact : ∀ {done sweep stage}, Reached scope original done sweep stage →
      Intact original sweep.body ∧ StageFits original sweep.body done stage := fun hreached =>
    hreached.intact hadmissible.wellFormed hadmissible.strictSSA hadmissible.initUnused
  induction h using Reached.induction with
  | start =>
    exact ⟨.identity, faithful_identity machine scope original start, (Rewriting.identity_body original).symm,
      stageSound_identity⟩
  | step hreached hstep ih =>
    cases hstep with
    | enter horder =>
      obtain ⟨rewriting, hfaithful, hbody, hstage⟩ := ih
      exact ⟨rewriting, hfaithful, hbody, hstage.enter horder⟩
    | keep hinstruction _ hafter =>
      obtain ⟨rewriting, hfaithful, hbody, huntouched, hwaiting, block, before, after, hvisited⟩ := ih
      obtain ⟨hkept, ⟨rest, horder⟩, -⟩ := hintact hreached
      rw [hbody] at hinstruction
      obtain ⟨instruction, later, rfl, rfl⟩ := hvisited.next hinstruction
      rw [after_eq hkept.values_eq] at hafter
      exact ⟨rewriting, hfaithful, hbody, huntouched, hwaiting, block, before ++ [instruction], later,
        hvisited.keep hadmissible hready hfaithful (reachable_of_visitOrder horder) hafter⟩
    | eliminate hinstruction hredundant =>
      obtain ⟨rewriting, hfaithful, hbody, huntouched, hwaiting, block, before, after, hvisited⟩ := ih
      obtain ⟨hkept, ⟨rest, horder⟩, -, husable⟩ := hintact hreached
      obtain ⟨dest, hdest⟩ := Scope.dest?_of_redundancy? hredundant
      have heliminated := Sweep.body_eliminate hkept.wellFormed.distinct hinstruction hredundant hdest
      rw [redundancy?_eq hkept.values_eq] at hredundant
      rw [hbody] at hinstruction husable heliminated
      obtain ⟨instruction, later, rfl, rfl⟩ := hvisited.next hinstruction
      rw [Instruction.mapUses, Operation.dest?_mapOperands] at hdest
      have hdefined : original.DefinedIn _ dest := ⟨block, hvisited.found, List.mem_append_right _
        (List.mem_filterMap.2 ⟨instruction, by rw [hvisited.split]; simp, hdest⟩)⟩
      refine ⟨rewriting.andThen _, hvisited.faithful hadmissible hfaithful
        (fun value => hvisited.availableAfter_of_mentions hfaithful.lawful husable) hredundant hdest, ?_,
        huntouched.andThen hadmissible.wellFormed.distinct List.mem_cons_self hdefined _, hwaiting, block,
        before ++ [instruction], later, hvisited.eliminate hadmissible hfaithful (hbody ▸ hkept.wellFormed)
          (hbody ▸ hkept.strictSSA) (reachable_of_visitOrder horder) hredundant hdest⟩
      rw [heliminated, Rewriting.andThen_body]
    | leave hend =>
      obtain ⟨rewriting, hfaithful, hbody, huntouched, hwaiting, block, before, after, hvisited⟩ := ih
      obtain ⟨-, ⟨rest, horder⟩, -, husable⟩ := hintact hreached
      rw [hbody] at hend husable ⊢
      rw [hvisited.instruction?, Option.map_eq_none_iff, List.head?_eq_none_iff] at hend
      obtain rfl := hend
      refine ⟨rewriting, hfaithful, rfl, fun other block hother => huntouched other block fun hmem => hother ?_,
        hwaiting.leave hadmissible hfaithful hvisited
          (fun value => hvisited.availableAfter_of_mentions hfaithful.lawful husable) horder⟩
      simpa [or_comm] using hmem

/-! ### The pass -/

/-- The body that the pass returns is a faithful rewriting as well. -/
theorem finish_faithful (hadmissible : Admissible scope original)
    (hfaithful : Faithful machine scope original start rewriting) {sweep : Sweep} (hintact : Intact original sweep.body)
    (hbody : sweep.body = rewriting.body original) :
    ∃ further, Faithful machine scope original start further ∧ (finish scope sweep).1.body = further.body original := by
  unfold finish
  split
  · exact hfaithful.removeTrivialPhis hadmissible.wellFormed hadmissible.strictSSA hbody hintact.wellFormed
      hintact.strictSSA
  · exact ⟨rewriting, hfaithful, hbody⟩

end Sweeping

/-- A body of one of the program's methods as the pass expects it. -/
structure Accepted (context : PassContext) (body : Body) (definition : MethodDef) : Prop where
  built : context.program.Built
  method : context.program.method? body.method = some definition
  noDefect : body.defect? = none
  strictSSA : body.StrictSSA
  initUnused : body.InitUnused
  summariesUncaught : (scopeFor context body definition).SummariesUncaught body

/-- The pass keeps the meaning of every body that it accepts, if values with one alias root are copies of one value: from
any start with the class of the method initialized, on any machine, the two bodies visit the same blocks in the same
situations and end alike. This is so as long as no final field is given a value again and summaries copy only constants.
The pass succeeds if the summaries name fields of the program. -/
theorem runWithStats_keeps_meaning (context : PassContext) (body : Body) (definition : MethodDef)
    (haccepted : Accepted context body definition) (haliases : body.AliasesAssumed) :
    (context.program.SummariesNameFields → ∃ result, runWithStats context body = .ok result) ∧
      ∀ outcome stats, runWithStats context body = .ok (outcome, stats) →
        ∀ {Datum Address World : Type} [DecidableEq Address] (machine : Machine Datum Address World)
          (start : Situation Datum Address World), start.memory.initialized definition.holder = true → ∀ count,
          run machine.guard (scopeFor context body definition) body start count ≠ .faulty →
          (run machine (scopeFor context body definition) outcome.body start count).observe
            = (run machine (scopeFor context body definition) body start count).observe := by
  rw [runWithStats_eq haccepted.method]
  have hadmissible : Admissible (scopeFor context body definition) body :=
    ⟨haccepted.built.coherent, (Body.defect?_eq_none_iff body).1 haccepted.noDefect, haccepted.strictSSA,
      haccepted.initUnused, haliases, haccepted.summariesUncaught⟩
  constructor
  · intro hfields
    obtain ⟨sweep, hsweep⟩ := sweepBody_succeeds
      (show (scopeFor context body definition).program.SummariesNameFields from hfields) body
    rw [hsweep]
    exact ⟨_, rfl⟩
  · intro outcome stats hrun Datum Address World _ machine start hholder count hguard
    cases hsweep : sweepBody (scopeFor context body definition) body with
    | error =>
      rw [hsweep] at hrun
      cases hrun
    | ok sweep =>
      rw [hsweep] at hrun
      obtain rfl : (finish (scopeFor context body definition) sweep).1 = outcome :=
        congrArg Prod.fst (Except.ok.inj hrun)
      obtain ⟨waiting, hreached⟩ := sweepBody_reached hsweep
      have hintact := (hreached.intact hadmissible.wellFormed hadmissible.strictSSA hadmissible.initUnused).1
      have hready : Ready machine.guard (scopeFor context body definition) start := ⟨rfl, hholder⟩
      obtain ⟨rewriting, hfaithful, hbody, -⟩ := hreached.sound hadmissible hready
      obtain ⟨further, hfurther, hresult⟩ := finish_faithful hadmissible hfaithful hintact hbody
      have hrewritten := (finish_keeps (scopeFor context body definition) hintact).1
      rw [hresult] at hrewritten ⊢
      have hsame := (run_inStep hfurther hadmissible.wellFormed hadmissible.strictSSA hrewritten count hguard).observe_eq
      exact observe_eq_of_guard hguard hsame

/-! ### Samples -/

private theorem summariesUncaught_of_handlers {scope : Scope} {body : Body}
    (h : ∀ block ∈ body.blocks, block.handlers = []) :
    scope.SummariesUncaught body :=
  fun block hblock hhandlers => absurd (h block hblock) hhandlers

/-- A body with its program and the arguments that it is run on. -/
structure Sample where
  program : Program
  body : Body
  argument : Nat → Int

namespace Sample

/-- A machine over numbers. Every number but zero is the address of an object, and code outside the body does nothing. -/
def machine (sample : Sample) : Machine Int Int Unit where
  argument := sample.argument
  number := id
  null := 0
  string _ := 0
  address? datum := if datum = 0 then none else some datum
  respond _ _ memory _ := { thrown := false, datum := 7, memory, world := () }
  choose _ _ _ := 0
  catcher? _ _ _ := none
  guarded := false

/-- All classes are initialized, and all fields contain five. -/
def start : Situation Int Int Unit where
  memory :=
    { instanceField := fun _ _ => 5
      staticField := fun _ => 5
      initialized := fun _ => true
      settledInstance := fun _ _ => false
      settledStatic := fun _ => false }
  world := ()
  caught := 0

def context (sample : Sample) : PassContext :=
  { program := sample.program, settings := {} }

def definition (sample : Sample) : MethodDef :=
  (sample.program.method? sample.body.method).getD default

def scope (sample : Sample) : Scope :=
  scopeFor sample.context sample.body sample.definition

def returned? : Observation Int Int Unit → Option Int
  | .finished (.returned result) _ => result
  | _ => none

/-- What a body returns within a number of blocks. -/
def result? (sample : Sample) (body : Body) (count : Nat) : Option Int :=
  returned? (run sample.machine sample.scope body start count).observe

/-- The pass accepts the body and changes what it returns. -/
def Changes (sample : Sample) (before after : Int) : Prop :=
  Accepted sample.context sample.body sample.definition ∧ sample.result? sample.body 1 = some before ∧
    (runWithStats sample.context sample.body).toOption.bind (sample.result? ·.1.body 1) = some after

end Sample

theorem runWithStats_keeps_meaning_of_readOnBothWays :
    let sample : Sample := { program := readOnBothWays.1, body := readOnBothWays.2, argument := fun _ => 1 }
    Accepted sample.context sample.body sample.definition ∧ sample.body.AliasesAssumed ∧
      run sample.machine.guard sample.scope sample.body Sample.start 3 ≠ .faulty ∧
      ∃ outcome stats, runWithStats sample.context sample.body = .ok (outcome, stats) ∧ stats.total = 1 ∧
        sample.result? outcome.body 3 = some 5 := by
  intro sample
  have haccepted : Accepted sample.context sample.body sample.definition :=
    ⟨.recordSummary _ _ (.addMethod _ _ _ _ (.addField _ _ _ _ (.declareClass _ _ _ _ _ .empty))), by decide, by decide,
      Body.strictSSA_of_usesEntryOnly (by decide), by decide, summariesUncaught_of_handlers (by decide)⟩
  have haliases : sample.body.AliasesAssumed := by decide
  have hguarded : Sample.returned? (run sample.machine.guard sample.scope sample.body Sample.start 3).observe = some 5 := by
    decide +kernel
  have hfault : run sample.machine.guard sample.scope sample.body Sample.start 3 ≠ .faulty := by
    intro hfaulty
    rw [hfaulty] at hguarded
    cases hguarded
  have hresult : sample.result? sample.body 3 = some 5 := by decide +kernel
  have htotal : (runWithStats sample.context sample.body).toOption.map (·.2.total) = some 1 := by decide +kernel
  cases hrun : runWithStats sample.context sample.body with
  | error => simp [hrun, Except.toOption] at htotal
  | ok result =>
    rw [hrun] at htotal
    refine ⟨haccepted, haliases, hfault, result.1, result.2, rfl, Option.some.inj htotal, ?_⟩
    have hsame := (runWithStats_keeps_meaning sample.context sample.body sample.definition haccepted haliases).2 result.1
      result.2 hrun sample.machine Sample.start rfl 3 hfault
    exact (congrArg Sample.returned? hsame).trans hresult

/-- A class with a field and a method of two arguments. -/
def fieldAndMethod (flags : AccessFlags) : Program :=
  let declared := (({} : Program).declareClass "LA;" .program ⟨1⟩ none []).1
  ((declared.addField ⟨0⟩ "f" "I" flags).1.addMethod ⟨0⟩ "m" "(LA;LA;)I" (AccessFlags.withStatic ⟨1⟩)).1

private theorem built_fieldAndMethod (flags : AccessFlags) : (fieldAndMethod flags).Built :=
  .addMethod _ _ _ _ (.addField _ _ _ _ (.declareClass _ _ _ _ _ .empty))

/-- A body of one block. -/
def straight (values : List ValueInfo) (operations : List Operation) : Body :=
  { method := ⟨0⟩, values, blocks := [{ instructions := operations.map fun operation => { operation } }] }

/-- One object under two names gets two values in its final field, and the first name is read. -/
def finalWrittenTwice : Sample where
  program := fieldAndMethod ⟨17⟩
  body :=
    let field : FieldRef := { holder := ⟨0⟩, name := "f", descriptor := "I" }
    straight (List.replicate 5 {})
      [.argument ⟨0⟩ 0, .argument ⟨1⟩ 1, .constNumber ⟨2⟩ 1, .constNumber ⟨3⟩ 2, .instancePut ⟨0⟩ field ⟨2⟩,
        .instancePut ⟨1⟩ field ⟨3⟩, .instanceGet ⟨4⟩ ⟨0⟩ field, .return (some ⟨4⟩)]
  argument _ := 1

/-- A value is recorded as an alias of the first argument and is a copy of the second. -/
def aliasOfAnother : Sample where
  program := fieldAndMethod ⟨1⟩
  body :=
    let field : FieldRef := { holder := ⟨0⟩, name := "f", descriptor := "I" }
    straight [{}, {}, { aliasOf := some ⟨0⟩ }, { aliasOf := some ⟨2⟩ }, {}, {}]
      [.argument ⟨0⟩ 0, .argument ⟨1⟩ 1, .assume ⟨2⟩ ⟨0⟩, .assume ⟨3⟩ ⟨1⟩, .constNumber ⟨4⟩ 1,
        .instancePut ⟨0⟩ field ⟨4⟩, .instanceGet ⟨5⟩ ⟨3⟩ field, .return (some ⟨5⟩)]
  argument index := index + 1

/-- An initializer copies a static field, which is written before the copy is read. -/
def variableCopied : Sample where
  program :=
    let reference : FieldRef := { holder := ⟨0⟩, name := "s", descriptor := "I" }
    let extended := ((fieldAndMethod ⟨1⟩).addField ⟨0⟩ "s" "I" (AccessFlags.withStatic ⟨1⟩)).1
    (extended.addMethod ⟨0⟩ "<init>" "()V" ⟨1⟩).1.recordSummary ⟨1⟩
      { fields := [(⟨0⟩, .constant (.staticField reference))] }
  body :=
    straight (List.replicate 3 {})
      [.newInstance ⟨0⟩ ⟨0⟩, .invoke none .direct { holder := ⟨0⟩, name := "<init>", descriptor := "()V" } [⟨0⟩],
        .constNumber ⟨1⟩ 2, .staticPut { holder := ⟨0⟩, name := "s", descriptor := "I" } ⟨1⟩,
        .instanceGet ⟨2⟩ ⟨0⟩ { holder := ⟨0⟩, name := "f", descriptor := "I" }, .return (some ⟨2⟩)]
  argument _ := 1

/-- None of the conditions on final fields, aliases and summaries can be dropped. -/
theorem runWithStats_changes_meaning :
    finalWrittenTwice.Changes 2 1 ∧ aliasOfAnother.Changes 5 1 ∧ variableCopied.Changes 5 2 := by
  have hbuilt := built_fieldAndMethod
  refine ⟨⟨⟨hbuilt _, ?_, ?_, ?_, ?_, ?_⟩, ?_, ?_⟩, ⟨⟨hbuilt _, ?_, ?_, ?_, ?_, ?_⟩, ?_, ?_⟩,
    ⟨⟨.recordSummary _ _ (.addMethod _ _ _ _ (.addField _ _ _ _ (hbuilt _))), ?_, ?_, ?_, ?_, ?_⟩, ?_, ?_⟩⟩
  case refine_3 | refine_10 | refine_17 => exact Body.strictSSA_of_usesEntryOnly (by decide)
  case refine_5 | refine_12 | refine_19 => exact summariesUncaught_of_handlers (by decide)
  all_goals decide +kernel

end LoadElimination

end Bytecode
