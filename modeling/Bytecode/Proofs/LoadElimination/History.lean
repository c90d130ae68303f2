import Bytecode.Proofs.Body.Substitution
import Bytecode.Proofs.LoadElimination.Equivalence
import Bytecode.Proofs.LoadElimination.KnowingLess
/-!
# How a sweep came to its facts

A sweep does not come back to what it has visited. The instructions that it leaves behind are therefore instructions that
it found not redundant, or they stand in for a read that was eliminated; and its facts are those that the former lead to,
one after another, from the facts that waited for the block. Later eliminations do not touch any of this, since the value
that is eliminated is neither defined nor used in what has been visited.
-/

namespace Bytecode

namespace Body

/-- The instructions of a block, none if there is no such block. -/
def instructionsAt (body : Body) (block : Nat) : List Instruction :=
  ((body.block? block).map (·.instructions)).getD []

/-- The value is read from a field of an object. -/
def ReadsInstance (body : Body) (value : ValueId) : Prop :=
  ∃ instruction ∈ body.instructions, ∃ object field, instruction.operation = .instanceGet value object field

theorem instruction?_eq (body : Body) (block position : Nat) :
    body.instruction? block position = (body.instructionsAt block)[position]? := by
  unfold instruction? instructionsAt
  cases body.block? block <;> rfl

theorem instructionsAt_eq {body : Body} {block : Nat} {target : Block} (h : body.block? block = some target) :
    body.instructionsAt block = target.instructions := by
  rw [instructionsAt, h]
  rfl

theorem mem_instructions_of_instructionsAt {body : Body} {block : Nat} {instruction : Instruction}
    (h : instruction ∈ body.instructionsAt block) : instruction ∈ body.instructions := by
  cases hblock : body.block? block with
  | none =>
    rw [instructionsAt, hblock] at h
    cases h
  | some target =>
    rw [instructionsAt_eq hblock] at h
    exact List.mem_flatMap.2 ⟨target, List.mem_of_getElem? hblock, h⟩

/-- A block and the one in its place have the same successors and handlers. -/
theorem SameFlow.exists_block? {body other : Body} (h : body.SameFlow other) {position : Nat} {block : Block}
    (hblock : body.block? position = some block) :
    ∃ found, other.block? position = some found ∧ found.allSuccessors = block.allSuccessors ∧
      found.handlers = block.handlers := by
  have hmap := h.block?_map_eq position
  rw [hblock, Option.map_some, Option.map_eq_some_iff] at hmap
  obtain ⟨found, hfound, hpair⟩ := hmap
  obtain ⟨hsuccessors, hhandlers⟩ := Prod.mk.inj hpair
  refine ⟨found, hfound, ?_, hhandlers⟩
  rw [Block.allSuccessors, hsuccessors, hhandlers, Block.allSuccessors]

theorem SameFlow.block?_eq_none {body other : Body} (h : body.SameFlow other) {position : Nat}
    (hnone : body.block? position = none) : other.block? position = none := by
  have hmap := h.block?_map_eq position
  rwa [hnone, Option.map_none, Option.map_eq_none_iff] at hmap

end Body

theorem Rewriting.instructionsAt_body (rewriting : Rewriting) (body : Body) (block : Nat) :
    (rewriting.body body).instructionsAt block = (body.instructionsAt block).filterMap rewriting.instruction := by
  rw [Body.instructionsAt, Rewriting.block?_body, Body.instructionsAt]
  cases body.block? block <;> rfl

theorem Instruction.map_mapUses_id (instructions : List Instruction) :
    instructions.map (·.mapUses id) = instructions := by
  have hsame : ∀ instruction : Instruction, instruction.mapUses id = instruction := fun _ =>
    Rewriting.mapUses_eq_self fun _ _ => rfl
  simp only [hsame, List.map_id']

namespace LoadElimination

/-- What can be left in the place of a redundant instruction. -/
inductive StandsIn (scope : Scope) (original : Body) : Operation → Prop
  | debugValues : StandsIn scope original .debugLocalRead
  | constant {dest : ValueId} {constant : Constant} (hoffers : scope.Offers constant)
      (hread : original.ReadsInstance dest) : StandsIn scope original (constant.materialize dest)

/-- From some facts the instructions lead to others: one that is not redundant changes the facts, and one that stands in
for a read does not. -/
inductive Leads (scope : Scope) (original : Body) : Facts → List Instruction → Facts → Prop
  | done {facts : Facts} : Leads scope original facts [] facts
  | keep {facts next last : Facts} {instruction : Instruction} {rest : List Instruction}
      (hkept : scope.redundancy? original facts instruction.operation = none)
      (hafter : scope.after original facts instruction.operation = .ok next)
      (hrest : Leads scope original next rest last) : Leads scope original facts (instruction :: rest) last
  | standIn {facts last : Facts} {instruction : Instruction} {rest : List Instruction}
      (hstands : StandsIn scope original instruction.operation)
      (hrest : Leads scope original facts rest last) : Leads scope original facts (instruction :: rest) last

/-- The facts that wait after some blocks were visited, each led to by the instructions of its block. -/
inductive History (scope : Scope) (original body : Body) : List Nat → Waiting → Prop
  | start : History scope original body [] .empty
  | visit {done : List Nat} {waiting : Waiting} {block : Nat} {facts : Facts}
      (hbefore : History scope original body done waiting)
      (hleads : Leads scope original ((waiting.find? block).getD {}) (body.instructionsAt block) facts) :
      History scope original body (done ++ [block]) (propagate scope body block facts (waiting.erase block))

variable {scope : Scope} {original body other : Body}

theorem Leads.append {start middle last : Facts} {first second : List Instruction}
    (h : Leads scope original start first middle) (hsecond : Leads scope original middle second last) :
    Leads scope original start (first ++ second) last := by
  induction h with
  | done => exact hsecond
  | keep hkept hafter _ ih => exact .keep hkept hafter (ih hsecond)
  | standIn hstands _ ih => exact .standIn hstands (ih hsecond)

/-! ### What is passed on -/

/-- What a block passes on, by the instructions that can throw. -/
theorem passedFacts_eq (scope : Scope) (body : Body) (block : Block) (facts : Facts) (successor : Nat) :
    passedFacts scope body block facts successor =
      if block.hasCatchSuccessor successor = true then
        match block.instructions.filter (·.operation.canThrow) with
        | [] => facts
        | [thrower] => scope.withoutEffectOf body facts thrower.operation
        | _ => {}
      else facts := by
  by_cases hcatch : block.hasCatchSuccessor successor = true
  · rw [if_pos hcatch]
    split
    · next hnone =>
      have hmap := block.map_throwers
      rw [hnone, List.map_nil, List.map_eq_nil_iff] at hmap
      simp [passedFacts, hcatch, hmap, Block.exceptionalExit?]
    · next thrower hthrower => exact passedFacts_of_thrower hcatch hthrower
    · next hnil hsingle =>
      apply passedFacts_of_throwers hcatch
      cases hthrowers : block.instructions.filter (·.operation.canThrow) with
      | nil => exact absurd hthrowers hnil
      | cons first others =>
        cases others with
        | nil => exact absurd hthrowers (hsingle first)
        | cons second others => simp
  · rw [if_neg hcatch]
    simp [passedFacts, hcatch]

theorem passedFacts_eq_of_values (hvalues : other.values = body.values) (block : Block) (facts : Facts) (successor : Nat) :
    passedFacts scope other block facts successor = passedFacts scope body block facts successor := by
  simp only [passedFacts_eq, withoutEffectOf_eq hvalues]

/-- Under other names, and with less known, less is passed on. -/
theorem Below.passedFacts {corresponds : ValueId → ValueId → Prop} {less more : Facts} {rename : ValueId → ValueId}
    (h : Below scope corresponds less more) (hone : OneToOne corresponds) {before after : Block}
    (hhandlers : after.handlers = before.handlers)
    (hinstructions : after.instructions = before.instructions.map (·.mapUses rename))
    (hmatched : ∀ instruction ∈ before.instructions, Matched corresponds rename body instruction.operation)
    (successor : Nat) :
    Below scope corresponds (passedFacts scope body after less successor)
      (passedFacts scope body before more successor) := by
  have hcatch : after.hasCatchSuccessor successor = before.hasCatchSuccessor successor := by
    rw [Block.hasCatchSuccessor, hhandlers, Block.hasCatchSuccessor]
  have hthrowers : after.instructions.filter (·.operation.canThrow)
      = (before.instructions.filter (·.operation.canThrow)).map (·.mapUses rename) := by
    rw [hinstructions, List.filter_map]
    congr 2
    funext instruction
    exact instruction.operation.canThrow_mapOperands rename
  rw [passedFacts_eq, passedFacts_eq, hcatch, hthrowers]
  by_cases hcaught : before.hasCatchSuccessor successor = true
  · rw [if_pos hcaught, if_pos hcaught]
    cases hfilter : before.instructions.filter (·.operation.canThrow) with
    | nil => exact h
    | cons thrower others =>
      cases others with
      | nil =>
        have hmem : thrower ∈ before.instructions.filter (·.operation.canThrow) := by
          rw [hfilter]
          exact List.mem_cons_self
        exact h.withoutEffectOf hone (hmatched thrower (List.mem_filter.1 hmem).1)
      | cons second others => exact .empty
  · rw [if_neg hcaught, if_neg hcaught]
    exact h

private theorem propagate_eq (hflow : body.SameFlow other) (hvalues : other.values = body.values) {position : Nat}
    (hinstructions : other.instructionsAt position = body.instructionsAt position) (facts : Facts) (waiting : Waiting) :
    propagate scope other position facts waiting = propagate scope body position facts waiting := by
  unfold propagate
  cases hblock : body.block? position with
  | none => rw [hflow.block?_eq_none hblock]
  | some block =>
    obtain ⟨rewritten, hrewritten, hall, hhandlers⟩ := hflow.exists_block? hblock
    rw [Body.instructionsAt_eq hrewritten, Body.instructionsAt_eq hblock] at hinstructions
    have hpassed : ∀ successor, passedFacts scope other rewritten facts successor
        = passedFacts scope body block facts successor := by
      intro successor
      have hcatch : rewritten.hasCatchSuccessor successor = block.hasCatchSuccessor successor := by
        rw [Block.hasCatchSuccessor, hhandlers, Block.hasCatchSuccessor]
      simp only [passedFacts_eq, hcatch, hinstructions, withoutEffectOf_eq hvalues]
    simp only [hrewritten, hall, hflow.predecessors_eq, hpassed]

/-- A history is that of any body in which the visited blocks have the same instructions. -/
theorem History.congr {done : List Nat} {waiting : Waiting} (h : History scope original body done waiting)
    (hflow : body.SameFlow other) (hvalues : other.values = body.values)
    (hinstructions : ∀ block ∈ done, other.instructionsAt block = body.instructionsAt block) :
    History scope original other done waiting := by
  induction h with
  | start => exact .start
  | @visit done waiting block facts _ hleads ih =>
    have hlast := hinstructions block (by simp)
    rw [← propagate_eq hflow hvalues hlast]
    refine .visit (ih fun visited hvisited => hinstructions visited (List.mem_append_left _ hvisited)) ?_
    rwa [hlast]

/-! ### Where constants come from -/

/-- Every constant that the facts know of is offered by a summary, and only an instance is known to hold one. -/
def Offered (scope : Scope) (facts : Facts) : Prop :=
  Below scope Eq facts facts

theorem oneToOne_eq : OneToOne Eq := by
  rintro left _ right _ rfl rfl
  exact Iff.rfl

theorem matched_id (body : Body) (operation : Operation) : Matched Eq id body operation :=
  fun _ _ => rfl

theorem Offered.after {facts later : Facts} {operation : Operation} (h : Offered scope facts)
    (hafter : scope.after body facts operation = .ok later) : Offered scope later := by
  obtain ⟨least, hleast, hbelow⟩ := Below.after h oneToOne_eq (matched_id body operation) hafter
  have hsame : operation.mapOperands id = operation := Operation.mapOperands_eq_self fun _ _ => rfl
  rw [hsame, hafter] at hleast
  obtain rfl := Except.ok.inj hleast
  exact hbelow

/-- Only a read of an instance finds a constant. -/
theorem Offered.of_knownRead? {facts : Facts} {operation : Operation} {constant : Constant}
    (h : Offered scope facts) (hknown : scope.knownRead? body facts operation = some (.constant constant)) :
    scope.Offers constant ∧ ∃ dest object field, operation = .instanceGet dest object field := by
  unfold Scope.knownRead? at hknown
  split at hknown
  · obtain ⟨definition, -, hinstance⟩ := Option.bind_eq_some_iff.1 hknown
    exact ⟨h.fields.offers_of_instance? hinstance, _, _, _, rfl⟩
  · obtain ⟨definition, -, hstatic⟩ := Option.bind_eq_some_iff.1 hknown
    exact absurd hstatic (h.fields.static?_ne_constant definition.id constant)
  · cases hknown

theorem Offered.getD {found : Option Facts} (h : ∀ facts, found = some facts → Offered scope facts) :
    Offered scope (found.getD {}) := by
  cases found with
  | none => exact .empty
  | some facts => exact h facts rfl

theorem Leads.offered {start last : Facts} {instructions : List Instruction}
    (h : Leads scope original start instructions last) (hstart : Offered scope start) :
    Offered scope last := by
  induction h with
  | done => exact hstart
  | keep _ hafter _ ih => exact ih (hstart.after hafter)
  | standIn _ _ ih => exact ih hstart

theorem History.offered {done : List Nat} {waiting : Waiting} (h : History scope original body done waiting) :
    ∀ block facts, waiting.find? block = some facts → Offered scope facts := by
  induction h with
  | start =>
    intro block facts hfound
    rw [Table.find?_empty] at hfound
    cases hfound
  | @visit done waiting block last _ hleads ih =>
    intro other facts hfound
    rcases find?_propagate hfound with hbefore | ⟨target, htarget, -, -, rfl⟩
    · rw [Table.find?_erase] at hbefore
      split at hbefore
      · cases hbefore
      · exact ih other facts hbefore
    · exact Below.passedFacts (hleads.offered (.getD (ih block))) oneToOne_eq rfl
        (Instruction.map_mapUses_id target.instructions).symm (fun _ _ => matched_id body _) other

/-! ### An elimination does not touch what has been visited -/

/-- The instruction neither defines nor uses the value. -/
def Avoids (instruction : Instruction) (value : ValueId) : Prop :=
  instruction.operation.dest? ≠ some value ∧ value ∉ instruction.uses

private theorem filterMap_rewriting {redundancy : Redundancy} {dest : ValueId} {instructions : List Instruction}
    (h : ∀ instruction ∈ instructions, Avoids instruction dest) :
    instructions.filterMap (redundancy.rewriting dest).instruction = instructions := by
  rw [List.filterMap_congr fun instruction hmem =>
    Redundancy.instruction_rewriting_eq_self (h instruction hmem).1 (h instruction hmem).2, List.filterMap_some]

section Elimination

variable {done rest : List Nat} {block position : Nat} {instruction : Instruction} {dest : ValueId}

/-- A block that is done is not dominated by the block at hand, and so it has no use for what is defined there. -/
theorem avoids_of_done (hintact : Intact original body) (horder : visitOrder original = done ++ block :: rest)
    (hinstruction : body.instruction? block position = some instruction) (hdest : instruction.operation.dest? = some dest)
    {visited : Nat} (hvisited : visited ∈ done) {earlier : Instruction} (hearlier : earlier ∈ body.instructionsAt visited) :
    Avoids earlier dest := by
  have hdistinct := hintact.wellFormed.distinct
  obtain ⟨target, htarget, hget⟩ := Option.bind_eq_some_iff.1 hinstruction
  have hdefined : body.DefinedIn block dest := .of_dest? htarget (List.mem_of_getElem? hget) hdest
  obtain ⟨front, back, hdone⟩ := List.append_of_mem hvisited
  have hplace : visitOrder original = front ++ visited :: (back ++ block :: rest) := by
    rw [horder, hdone, List.append_assoc, List.cons_append]
  cases hfound : body.block? visited with
  | none =>
    rw [Body.instructionsAt, hfound] at hearlier
    cases hearlier
  | some home =>
    rw [Body.instructionsAt_eq hfound] at hearlier
    constructor
    · intro hsame
      have hthere : body.DefinedIn visited dest := .of_dest? hfound hearlier hsame
      exact not_mem_done horder (Body.DefinedIn.unique hdistinct hdefined hthere ▸ hvisited)
    · intro huse
      obtain ⟨left, right, hsplit⟩ := List.append_of_mem hearlier
      have hreachable := hintact.sameFlow.reachable_iff.2 (reachable_of_visitOrder hplace)
      obtain ⟨upper, hupper, hdominates⟩ :=
        (hintact.strictSSA.use_available visited home hfound hreachable left earlier right hsplit dest huse).atEnd hfound
          hsplit
      obtain rfl := Body.DefinedIn.unique hdistinct hupper hdefined
      -- the block at hand would have been visited by the time of the block that is done
      have hmem := mem_done_of_dominates hintact.sameFlow hplace hdominates
      refine not_mem_done horder ?_
      rw [hdone]
      rcases List.mem_append.1 hmem with hfront | hlast
      · exact List.mem_append_left _ hfront
      · rw [List.mem_singleton.1 hlast]
        exact List.mem_append_right _ List.mem_cons_self

/-- Nor have the instructions in front of the definition. -/
theorem avoids_of_take (hintact : Intact original body) (hreachable : original.Reachable block)
    (hinstruction : body.instruction? block position = some instruction) (hdest : instruction.operation.dest? = some dest)
    {earlier : Instruction} (hearlier : earlier ∈ (body.instructionsAt block).take position) : Avoids earlier dest := by
  obtain ⟨target, htarget, hget⟩ := Option.bind_eq_some_iff.1 hinstruction
  have hnot := Body.not_availableAfter_of_dest? hintact.wellFormed.distinct htarget hget hdest
  rw [Body.instructionsAt_eq htarget] at hearlier
  refine ⟨fun hsame => hnot (.inr (.inr (List.mem_filterMap.2 ⟨earlier, hearlier, hsame⟩))), fun huse => hnot ?_⟩
  obtain ⟨left, right, hsplit⟩ := List.append_of_mem hearlier
  have hplace : target.instructions = left ++ earlier :: (right ++ target.instructions.drop position) := by
    conv_lhs => rw [← List.take_append_drop position target.instructions, hsplit]
    simp
  rw [hsplit]
  exact (hintact.strictSSA.use_available block target htarget (hintact.sameFlow.reachable_iff.2 hreachable) left earlier
    _ hplace dest huse).append _

/-- The instructions up to the one that is eliminated stay, followed by what is left in its place. -/
theorem take_eliminate (hintact : Intact original body) (hreachable : original.Reachable block)
    (hinstruction : body.instruction? block position = some instruction) (hdest : instruction.operation.dest? = some dest)
    (redundancy : Redundancy) :
    (((redundancy.rewriting dest).body body).instructionsAt block).take
        (if isRemoved instruction redundancy then position else position + 1)
      = (body.instructionsAt block).take position ++ ((redundancy.rewriting dest).instruction instruction).toList := by
  have hget : (body.instructionsAt block)[position]? = some instruction := by rw [← Body.instruction?_eq, hinstruction]
  have hbefore : ((body.instructionsAt block).take position).filterMap (redundancy.rewriting dest).instruction
      = (body.instructionsAt block).take position :=
    filterMap_rewriting fun earlier hearlier => avoids_of_take hintact hreachable hinstruction hdest hearlier
  have hlength : ((body.instructionsAt block).take position
      ++ ((redundancy.rewriting dest).instruction instruction).toList).length
        = if isRemoved instruction redundancy then position else position + 1 := by
    rw [List.length_append, List.length_take_of_le (List.getElem?_eq_some_iff.1 hget).1.le,
      redundancy.length_rewriting hdest]
    split <;> rfl
  have hsplit : ((redundancy.rewriting dest).body body).instructionsAt block
      = ((body.instructionsAt block).take position ++ ((redundancy.rewriting dest).instruction instruction).toList)
        ++ ((body.instructionsAt block).drop (position + 1)).filterMap (redundancy.rewriting dest).instruction := by
    rw [Rewriting.instructionsAt_body]
    conv_lhs => rw [eq_take_cons_drop hget, List.filterMap_append, hbefore]
    rw [List.append_assoc]
    congr 1
    cases hbecomes : (redundancy.rewriting dest).instruction instruction <;> simp [hbecomes]
  rw [← hlength, hsplit, List.take_left]

/-- Eliminating creates no read of an instance. -/
theorem readsInstance_of_rewriting {redundancy : Redundancy} {value : ValueId}
    (h : ((redundancy.rewriting dest).body body).ReadsInstance value) : body.ReadsInstance value := by
  obtain ⟨rewritten, hmem, object, field, hread⟩ := h
  obtain ⟨instruction, hinstruction, hrewritten⟩ := Rewriting.mem_instructions_body.1 hmem
  rcases Redundancy.operation_rewriting hrewritten with ⟨rename, hsame⟩ | hdebug | ⟨constant, hconstant⟩
  · rw [hsame] at hread
    cases hoperation : instruction.operation <;> rw [hoperation] at hread <;> cases hread
    exact ⟨instruction, hinstruction, _, _, hoperation⟩
  · rw [hdebug] at hread
    cases hread
  · rw [hconstant] at hread
    cases constant <;> cases hread

/-- What is left of a redundant instruction stands in for it. -/
theorem standsIn_of_rewriting {facts : Facts} {redundancy : Redundancy} {left : Instruction}
    (hoffered : Offered scope facts)
    (hreads : ∀ value, body.ReadsInstance value → original.ReadsInstance value)
    (hmem : instruction ∈ body.instructions) (hdest : instruction.operation.dest? = some dest)
    (hredundant : scope.redundancy? body facts instruction.operation = some redundancy)
    (hleft : (redundancy.rewriting dest).instruction instruction = some left) :
    StandsIn scope original left.operation := by
  have hsuperseded : ∀ new, (Rewriting.supersede dest new).instruction instruction = some left →
      StandsIn scope original left.operation := by
    intro new hnew
    rw [Rewriting.supersede_definition new hdest] at hnew
    split at hnew <;> cases hnew
    exact .debugValues
  cases redundancy with
  | existingValue _ new => exact hsuperseded new hleft
  | initialized _ => exact hsuperseded dest hleft
  | constantValue found constant =>
    obtain rfl := Option.some.inj hleft
    rw [if_pos hdest]
    rcases Scope.redundancy?_cases hredundant with ⟨_, known, -, -, hknown, husable⟩ | ⟨_, _, -, -, hinitialized⟩
    · cases known with
      | existing value => cases husable
      | constant other =>
        rw [Scope.usable?, Option.ite_none_right_eq_some] at husable
        cases husable.2
        obtain ⟨hoffers, result, object, field, hread⟩ := hoffered.of_knownRead? hknown
        rw [hread] at hdest
        cases hdest
        exact .constant hoffers (hreads dest ⟨instruction, hmem, object, field, hread⟩)
    · cases hinitialized

end Elimination

/-! ### The whole sweep -/

/-- At every stage the facts are those that the visited instructions lead to. -/
def Recorded (scope : Scope) (original body : Body) (done : List Nat) : Stage → Prop
  | .between waiting => History scope original body done waiting
  | .within block position facts waiting =>
    ∃ before : Waiting, waiting = before.erase block ∧ History scope original body done before ∧
      Leads scope original ((before.find? block).getD {}) ((body.instructionsAt block).take position) facts

/-- The facts of a sweep have a history in the body that it leaves, which reads no instance that was not read before. -/
theorem Reached.recorded (hbody : original.WellFormed) (hssa : original.StrictSSA) (hunused : original.InitUnused)
    {done : List Nat} {sweep : Sweep} {stage : Stage} (h : Reached scope original done sweep stage) :
    (∀ value, sweep.body.ReadsInstance value → original.ReadsInstance value) ∧
      Recorded scope original sweep.body done stage := by
  induction h using Reached.induction with
  | start => exact ⟨fun _ => id, .start⟩
  | step hreached hstep ih =>
    cases hstep with
    | @enter _ _ block _ waiting _ => exact ⟨ih.1, waiting, rfl, ih.2, .done⟩
    | @keep _ block position sweep _ _ _ instruction hinstruction hkept hafter =>
      obtain ⟨hreads, before, hwaiting, hhistory, hleads⟩ := ih
      have hvalues := (hreached.intact hbody hssa hunused).1.values_eq
      refine ⟨hreads, before, hwaiting, hhistory, ?_⟩
      rw [List.take_add_one, ← Body.instruction?_eq, hinstruction]
      rw [redundancy?_eq hvalues] at hkept
      rw [after_eq hvalues] at hafter
      exact hleads.append (.keep hkept hafter .done)
    | @eliminate _ block position sweep facts _ instruction redundancy hinstruction hredundant =>
      obtain ⟨hreads, before, hwaiting, hhistory, hleads⟩ := ih
      obtain ⟨hintact, ⟨rest, horder⟩, -⟩ := hreached.intact hbody hssa hunused
      obtain ⟨dest, hdest⟩ := Scope.dest?_of_redundancy? hredundant
      have hoffered := hleads.offered (.getD (hhistory.offered block))
      rw [Sweep.body_eliminate hintact.wellFormed.distinct hinstruction hredundant hdest]
      refine ⟨fun value hvalue => hreads value (readsInstance_of_rewriting hvalue), before, hwaiting, ?_, ?_⟩
      · refine hhistory.congr (Rewriting.sameFlow _ _) rfl fun visited hvisited => ?_
        rw [Rewriting.instructionsAt_body]
        exact filterMap_rewriting fun earlier hearlier => avoids_of_done hintact horder hinstruction hdest hvisited hearlier
      · rw [take_eliminate hintact (reachable_of_visitOrder horder) hinstruction hdest]
        refine hleads.append ?_
        cases hleft : (redundancy.rewriting dest).instruction instruction with
        | none => exact .done
        | some left =>
          exact .standIn (standsIn_of_rewriting hoffered hreads (Body.mem_instructions_of_instruction? hinstruction)
            hdest hredundant hleft) .done
    | @leave _ block position sweep facts _ hend =>
      obtain ⟨hreads, before, rfl, hhistory, hleads⟩ := ih
      refine ⟨hreads, .visit hhistory ?_⟩
      rw [Body.instruction?_eq, List.getElem?_eq_none_iff] at hend
      rwa [List.take_of_length_le hend] at hleads

end LoadElimination

end Bytecode
