import Bytecode.Proofs.LoadElimination.History
import Bytecode.Proofs.Graph.ImmediateDominators
/-!
# What the sweep has still to visit

Eliminating an instruction renames values in the whole body and changes one place of the block at hand. So what the sweep
has still to visit is, at every stage, what was there at the start under other names. In a strict body only the results of
reads are renamed, each when the sweep comes to it, and to a value whose definition the sweep has passed. What an
instruction uses when the sweep comes to it is therefore never renamed again.
-/

namespace Bytecode

def Operation.readsField : Operation → Bool
  | .instanceGet .. | .staticGet .. => true
  | _ => false

theorem Operation.readsField_mapOperands (operation : Operation) (rename : ValueId → ValueId) :
    (operation.mapOperands rename).readsField = operation.readsField := by
  cases operation <;> rfl

namespace Body

private theorem instructionsAt_mapUses (body : Body) (rename : ValueId → ValueId) (block : Nat) :
    (body.mapUses rename).instructionsAt block = (body.instructionsAt block).map (·.mapUses rename) := by
  rw [instructionsAt, block?, mapUses, List.getElem?_map, instructionsAt, block?]
  cases body.blocks[block]? <;> rfl

theorem instructionsAt_modifyBlock_ne (body : Body) {block other : Nat} (hne : other ≠ block) (f : Block → Block) :
    (body.modifyBlock block f).instructionsAt other = body.instructionsAt other := by
  have hblock : (body.modifyBlock block f).block? other = body.block? other :=
    List.getElem?_modify_ne f body.blocks (Ne.symm hne)
  rw [instructionsAt, hblock, instructionsAt]

private theorem instructionsAt_removeInstruction (body : Body) (block position : Nat) :
    (body.removeInstruction block position).instructionsAt block = (body.instructionsAt block).eraseIdx position := by
  rw [instructionsAt, block?, removeInstruction, modifyBlock, List.getElem?_modify_eq, instructionsAt, block?]
  cases body.blocks[block]? <;> rfl

private theorem instructionsAt_replaceOperation (body : Body) (block position : Nat) (operation : Operation) :
    (body.replaceOperation block position operation).instructionsAt block
      = (body.instructionsAt block).modify position ({ · with operation := operation }) := by
  rw [instructionsAt, block?, replaceOperation, modifyBlock, List.getElem?_modify_eq, instructionsAt, block?]
  cases body.blocks[block]? with
  | none => simp
  | some target => rfl

theorem lt_length_of_instruction? {body : Body} {block position : Nat} {instruction : Instruction}
    (h : body.instruction? block position = some instruction) : position < (body.instructionsAt block).length := by
  rw [instruction?_eq] at h
  exact (List.getElem?_eq_some_iff.1 h).1

/-- Some instruction has the value as its result. -/
def Computes (body : Body) (value : ValueId) : Prop :=
  ∃ instruction ∈ body.instructions, instruction.operation.dest? = some value

/-- The value is the result of reading a field. -/
def ReadsField (body : Body) (value : ValueId) : Prop :=
  ∃ instruction ∈ body.instructions, instruction.operation.dest? = some value ∧
    instruction.operation.readsField = true

end Body

namespace LoadElimination

/-! ### What an elimination does to the instructions -/

namespace Redundancy

/-- The names that change. -/
def rename : Redundancy → ValueId → ValueId
  | .existingValue dest value => fun used => if used = dest then value else used
  | .constantValue .. | .initialized _ => id

/-- The operation that is left if the instruction is not taken out. -/
def left : Redundancy → Operation
  | .constantValue dest constant => constant.materialize dest
  | .existingValue .. | .initialized _ => .debugLocalRead

/-- What is left of the eliminated instruction. -/
def remnant (redundancy : Redundancy) (instruction : Instruction) : List Instruction :=
  if isRemoved instruction redundancy then []
  else [{ instruction.mapUses redundancy.rename with operation := redundancy.left }]

end Redundancy

section Elimination

variable {scope : Scope} {sweep : Sweep} {block position other : Nat} {instruction : Instruction}

private theorem instructionsAt_discardInstruction {body : Body}
    (h : body.instruction? block position = some instruction) :
    (body.discardInstruction block position).instructionsAt block
      = (body.instructionsAt block).take position ++
        (if instruction.debugValues.isEmpty then [] else [{ instruction with operation := .debugLocalRead }]) ++
        (body.instructionsAt block).drop (position + 1) := by
  rw [Body.instruction?_eq] at h
  rw [Body.discardInstruction, Body.instruction?_eq, h]
  obtain ⟨hlt, hget⟩ := List.getElem?_eq_some_iff.1 h
  cases hdebug : instruction.debugValues.isEmpty with
  | true =>
    simp [hdebug, Body.instructionsAt_removeInstruction, List.eraseIdx_eq_take_drop_succ]
  | false =>
    simp [hdebug, Body.instructionsAt_replaceOperation, List.modify_eq_take_cons_drop hlt, hget]

private theorem instructionsAt_eliminate_ne (hne : other ≠ block) (redundancy : Redundancy) :
    (sweep.eliminate scope block position redundancy).body.instructionsAt other
      = (sweep.body.instructionsAt other).map (·.mapUses redundancy.rename) := by
  have hdiscard : ∀ body : Body, (body.discardInstruction block position).instructionsAt other
      = body.instructionsAt other := by
    intro body
    rw [Body.discardInstruction]
    split
    · exact body.instructionsAt_modifyBlock_ne hne _
    · exact body.instructionsAt_modifyBlock_ne hne _
  cases redundancy with
  | existingValue dest value => exact (hdiscard _).trans (sweep.body.instructionsAt_mapUses _ other)
  | constantValue dest constant =>
    exact (sweep.body.instructionsAt_modifyBlock_ne hne _).trans (Instruction.map_mapUses_id _).symm
  | initialized type => exact (hdiscard _).trans (Instruction.map_mapUses_id _).symm

theorem instructionsAt_eliminate (h : sweep.body.instruction? block position = some instruction)
    (redundancy : Redundancy) :
    (sweep.eliminate scope block position redundancy).body.instructionsAt block
      = ((sweep.body.instructionsAt block).take position).map (·.mapUses redundancy.rename)
        ++ redundancy.remnant instruction
        ++ ((sweep.body.instructionsAt block).drop (position + 1)).map (·.mapUses redundancy.rename) := by
  cases redundancy with
  | existingValue dest value =>
    have hdiscarded := instructionsAt_discardInstruction (instruction?_replaceUses h dest value)
    rw [show (sweep.eliminate scope block position (.existingValue dest value)).body
      = (sweep.body.replaceUses dest value).discardInstruction block position from rfl, hdiscarded, Body.replaceUses,
      Body.instructionsAt_mapUses, List.map_take, List.map_drop]
    simp [Redundancy.remnant, isRemoved, Redundancy.rename, Redundancy.left, Instruction.mapUses]
  | constantValue dest constant =>
    rw [Body.instruction?_eq] at h
    obtain ⟨hlt, hget⟩ := List.getElem?_eq_some_iff.1 h
    have hsame : instruction.mapUses id = instruction := Rewriting.mapUses_eq_self fun _ _ => rfl
    rw [show (sweep.eliminate scope block position (.constantValue dest constant)).body
      = sweep.body.replaceOperation block position (constant.materialize dest) from rfl,
      Body.instructionsAt_replaceOperation, List.modify_eq_take_cons_drop hlt, hget]
    simp [Redundancy.remnant, isRemoved, Redundancy.rename, Redundancy.left, Instruction.map_mapUses_id, hsame]
  | initialized type =>
    have hsame : instruction.mapUses id = instruction := Rewriting.mapUses_eq_self fun _ _ => rfl
    rw [show (sweep.eliminate scope block position (.initialized type)).body
      = sweep.body.discardInstruction block position from rfl, instructionsAt_discardInstruction h]
    simp [Redundancy.remnant, isRemoved, Redundancy.rename, Redundancy.left, Instruction.map_mapUses_id, hsame]

theorem values_eliminate (redundancy : Redundancy) :
    (sweep.eliminate scope block position redundancy).body.values = sweep.body.values := by
  have hdiscard : ∀ body : Body, (body.discardInstruction block position).values = body.values := by
    intro body
    rw [Body.discardInstruction]
    split <;> rfl
  cases redundancy with
  | existingValue dest value => exact hdiscard _
  | constantValue dest constant => rfl
  | initialized type => exact hdiscard _

end Elimination

/-! ### Definitions that the sweep has passed -/

/-- No instruction that the sweep has still to visit defines the value. The sweep has done some blocks and is in another
one, of which it has visited the first instructions. -/
def IsPast (original : Body) (done : List Nat) (block visited : Nat) (value : ValueId) : Prop :=
  ∀ other ∉ done, ∀ instruction ∈ (original.instructionsAt other).drop (if other = block then visited else 0),
    instruction.operation.dest? ≠ some value

section Past

variable {original : Body} {done rest : List Nat} {block visited : Nat} {value : ValueId} {instruction : Instruction}

theorem IsPast.mono (h : IsPast original done block visited value) {further : Nat} (hle : visited ≤ further) :
    IsPast original done block further value := by
  intro other hother instruction hmem
  have hfurther : (if other = block then visited else 0) ≤ if other = block then further else 0 := by
    split <;> omega
  exact h other hother instruction ((List.drop_sublist_drop_left _ hfurther).subset hmem)

theorem IsPast.enter (h : IsPast original done 0 0 value) (block : Nat) : IsPast original done block 0 value := by
  intro other hother
  rw [ite_self]
  have hsame := h other hother
  rwa [ite_self] at hsame

theorem IsPast.leave (h : IsPast original done block visited value) : IsPast original (done ++ [block]) 0 0 value := by
  intro other hother instruction hmem
  rw [List.mem_append, List.mem_singleton, not_or] at hother
  rw [ite_self] at hmem
  refine h other hother.1 instruction ?_
  rwa [if_neg hother.2]

theorem definedIn_of_instructionsAt {body : Body} (hmem : instruction ∈ body.instructionsAt block)
    (hdest : instruction.operation.dest? = some value) : body.DefinedIn block value := by
  cases hblock : body.block? block with
  | none =>
    rw [Body.instructionsAt, hblock] at hmem
    cases hmem
  | some target =>
    rw [Body.instructionsAt_eq hblock] at hmem
    exact .of_dest? hblock hmem hdest

theorem not_isPast (hblock : block ∉ done) (hget : (original.instructionsAt block)[visited]? = some instruction)
    (hdest : instruction.operation.dest? = some value) : ¬ IsPast original done block visited value := by
  intro h
  refine h block hblock instruction ?_ hdest
  rw [if_pos rfl]
  exact List.mem_of_getElem? (i := 0) (by rw [List.getElem?_drop, Nat.add_zero, hget])

/-- What an instruction defines is past once the instruction has been visited. -/
theorem isPast_of_dest (hdistinct : original.definitions.Nodup)
    (hget : (original.instructionsAt block)[visited]? = some instruction)
    (hdest : instruction.operation.dest? = some value) : IsPast original done block (visited + 1) value := by
  intro other _ later hlater hsame
  have hhere := definedIn_of_instructionsAt (List.mem_of_getElem? hget) hdest
  have hthere := definedIn_of_instructionsAt (List.mem_of_mem_drop hlater) hsame
  obtain rfl := Body.DefinedIn.unique hdistinct hthere hhere
  rw [if_pos rfl] at hlater
  cases hblock : original.block? other with
  | none =>
    rw [Body.instructionsAt, hblock] at hget
    cases hget
  | some target =>
    rw [Body.instructionsAt_eq hblock] at hget hlater
    obtain ⟨-, -, -, hnot⟩ :=
      Rewriting.split_at_definition (Body.block_definitions_nodup hdistinct hblock) hget hdest
    exact hnot (List.mem_filterMap.2 ⟨later, hlater, hsame⟩)

/-- What an instruction uses is past when the sweep comes to it: it is defined earlier in the block, by a phi or in a
dominator, which is done. -/
theorem isPast_of_use (hdistinct : original.definitions.Nodup) (hssa : original.StrictSSA)
    (horder : visitOrder original = done ++ block :: rest) {index : Nat} (hle : index ≤ visited)
    (hget : (original.instructionsAt block)[index]? = some instruction) (huse : value ∈ instruction.uses) :
    IsPast original done block visited value := by
  suffices hpast : IsPast original done block index value from hpast.mono hle
  intro other hother later hlater hdest
  have hthere := definedIn_of_instructionsAt (List.mem_of_mem_drop hlater) hdest
  cases hblock : original.block? block with
  | none =>
    rw [Body.instructionsAt, hblock] at hget
    cases hget
  | some target =>
    rw [Body.instructionsAt_eq hblock] at hget
    have havailable := hssa.use_available block target hblock (reachable_of_visitOrder horder) _ _ _
      (eq_take_cons_drop hget) value huse
    rcases havailable with ⟨upper, hne, hdefined, hdominates⟩ | hphi | hearlier
    · obtain rfl := Body.DefinedIn.unique hdistinct hthere hdefined
      have hmem := mem_done_of_dominates (.refl original) horder hdominates
      rcases List.mem_append.1 hmem with hdone | hlast
      · exact hother hdone
      · exact hne (List.mem_singleton.1 hlast)
    · cases hfound : original.block? other with
      | none =>
        rw [Body.instructionsAt, hfound] at hlater
        simp at hlater
      | some home =>
        rw [Body.instructionsAt_eq hfound] at hlater
        exact Body.dest?_ne_of_phi hdistinct hblock hphi hfound (List.mem_of_mem_drop hlater) hdest
    · obtain ⟨before, hbefore, hsame⟩ := List.mem_filterMap.1 hearlier
      have hhere : original.DefinedIn block value := .of_dest? hblock (List.mem_of_mem_take hbefore) hsame
      obtain rfl := Body.DefinedIn.unique hdistinct hthere hhere
      rw [if_pos rfl, Body.instructionsAt_eq hblock] at hlater
      have hnodup := (List.nodup_append.1 (Body.block_definitions_nodup hdistinct hblock)).2.1
      rw [← List.take_append_drop index target.instructions, List.filterMap_append, List.nodup_append] at hnodup
      exact hnodup.2.2 value hearlier value (List.mem_filterMap.2 ⟨later, hlater, hdest⟩) rfl

end Past

/-! ### One elimination -/

/-- Only the result of a read is renamed, to a value that the facts mention, and then no instruction defines it. -/
theorem rename_of_redundancy? {scope : Scope} {body : Body} {facts : Facts} {operation : Operation}
    {redundancy : Redundancy} (h : scope.redundancy? body facts operation = some redundancy) {dest used : ValueId}
    (hdest : operation.dest? = some dest) (hne : redundancy.rename used ≠ used) :
    used = dest ∧ Mentions facts.fields (redundancy.rename used) ∧ operation.readsField = true ∧
      (redundancy.rewriting dest).gone dest = true := by
  rcases Scope.redundancy?_cases h with ⟨found, known, hfound, -, hread, husable⟩ | ⟨_, type, -, -, rfl⟩
  · obtain rfl : dest = found := Option.some.inj (hdest.symm.trans hfound)
    cases known with
    | existing value =>
      obtain rfl := Option.some.inj husable
      have hused : used = dest := by
        by_contra hother
        exact hne (if_neg hother)
      refine ⟨hused, ?_, ?_, ?_⟩
      · have hvalue : (Redundancy.existingValue dest value).rename used = value := if_pos hused
        rw [hvalue]
        exact mentions_of_knownRead? hread
      · cases operation <;> first | rfl | cases hread
      · simp [Redundancy.rewriting, Rewriting.supersede]
    | constant constant =>
      rw [Scope.usable?, Option.ite_none_right_eq_some] at husable
      obtain rfl := Option.some.inj husable.2
      exact absurd rfl hne
  · exact absurd rfl hne

theorem computes_of_rewriting {redundancy : Redundancy} {dest value : ValueId} {body : Body}
    (h : ((redundancy.rewriting dest).body body).Computes value) :
    body.Computes value ∧ (redundancy.rewriting dest).gone value = false := by
  obtain ⟨rewritten, hmem, hresult⟩ := h
  obtain ⟨instruction, hinstruction, hrewritten⟩ := Rewriting.mem_instructions_body.1 hmem
  have hlawful := redundancy.rewriting_lawful dest
  exact ⟨⟨instruction, hinstruction, hlawful.dest?_of_instruction hrewritten hresult⟩,
    hlawful.gone_of_instruction hrewritten hresult⟩

/-! ### The invariant -/

/-- What the sweep has still to visit is what was there, under other names. The sweep stands at `position` of a block,
having visited the first instructions of that block as it was. -/
structure Tracked (original body : Body) (done : List Nat) (rename : ValueId → ValueId) (block position visited : Nat)
    (facts : Facts) (waiting : Waiting) : Prop where
  distinct : body.definitions.Nodup
  values_eq : body.values = original.values
  upcoming : ∀ other ∉ done, (body.instructionsAt other).drop (if other = block then position else 0)
    = ((original.instructionsAt other).drop (if other = block then visited else 0)).map (·.mapUses rename)
  renamed : ∀ value, rename value ≠ value →
    IsPast original done block visited (rename value) ∧ original.ReadsField value ∧ ¬ body.Computes value
  known : ∀ value, Mentions facts.fields value → IsPast original done block visited value
  awaiting : ∀ other found, waiting.find? other = some found →
    ∀ value, Mentions found.fields value → IsPast original done block visited value
  passed : ∀ instruction ∈ (body.instructionsAt block).take position, ∀ value ∈ instruction.uses,
    IsPast original done block visited value

namespace Tracked

variable {original body : Body} {done rest : List Nat} {rename : ValueId → ValueId} {block position visited : Nat}
  {facts : Facts} {waiting : Waiting} {instruction : Instruction}

theorem start (hdistinct : original.definitions.Nodup) : Tracked original original [] id 0 0 0 {} .empty where
  distinct := hdistinct
  values_eq := rfl
  upcoming other _ := by
    rw [ite_self, Instruction.map_mapUses_id]
  renamed _ hne := absurd rfl hne
  known value hvalue := absurd hvalue (not_mentions_empty value)
  awaiting other found hfound := by
    rw [Table.find?_empty] at hfound
    cases hfound
  passed instruction hmem := by
    rw [List.take_zero] at hmem
    cases hmem

theorem enter (h : Tracked original body done rename 0 0 0 {} waiting) (block : Nat) :
    Tracked original body done rename block 0 0 ((waiting.find? block).getD {}) (waiting.erase block) := by
  refine ⟨h.distinct, h.values_eq, fun other hother => ?_, fun value hne => ?_, fun value hvalue => ?_,
    fun other found hfound value hvalue => ?_, fun instruction hmem => ?_⟩
  · have hsame := h.upcoming other hother
    rw [ite_self] at hsame
    rw [ite_self]
    exact hsame
  · obtain ⟨hrenamed, hrest⟩ := h.renamed value hne
    exact ⟨hrenamed.enter block, hrest⟩
  · cases hfound : waiting.find? block with
    | none =>
      rw [hfound] at hvalue
      exact absurd hvalue (not_mentions_empty value)
    | some found =>
      rw [hfound] at hvalue
      exact (h.awaiting block found hfound value hvalue).enter block
  · rw [Table.find?_erase] at hfound
    split at hfound
    · cases hfound
    · exact (h.awaiting other found hfound value hvalue).enter block
  · rw [List.take_zero] at hmem
    cases hmem

/-- The instruction at hand is the next one of the block as it was, under other names. -/
theorem exists_origin (h : Tracked original body done rename block position visited facts waiting) (hblock : block ∉ done)
    (hinstruction : body.instruction? block position = some instruction) :
    ∃ origin, (original.instructionsAt block)[visited]? = some origin ∧ origin.mapUses rename = instruction := by
  have hupcoming := congrArg (·[0]?) (h.upcoming block hblock)
  simp only [if_true, List.getElem?_map, List.getElem?_drop, Nat.add_zero, ← Body.instruction?_eq] at hupcoming
  rw [hinstruction, Body.instruction?_eq] at hupcoming
  exact Option.map_eq_some_iff.1 hupcoming.symm

/-- After the instruction at hand. -/
theorem upcoming_next (h : Tracked original body done rename block position visited facts waiting)
    (hblock : block ∉ done) : (body.instructionsAt block).drop (position + 1)
      = ((original.instructionsAt block).drop (visited + 1)).map (·.mapUses rename) := by
  have hupcoming := congrArg List.tail (h.upcoming block hblock)
  simpa only [if_true, List.tail_drop, ← List.map_tail] using hupcoming

/-- What a visited instruction used is past under its present name. -/
theorem isPast_rename (h : Tracked original body done rename block position visited facts waiting)
    (hdistinct : original.definitions.Nodup) (hssa : original.StrictSSA)
    (horder : visitOrder original = done ++ block :: rest) {index : Nat} (hle : index ≤ visited)
    (hget : (original.instructionsAt block)[index]? = some instruction) {value : ValueId}
    (huse : value ∈ instruction.uses) : IsPast original done block visited (rename value) := by
  by_cases hsame : rename value = value
  · rw [hsame]
    exact isPast_of_use hdistinct hssa horder hle hget huse
  · exact (h.renamed value hsame).1

theorem isPast_of_uses (h : Tracked original body done rename block position visited facts waiting)
    (hdistinct : original.definitions.Nodup) (hssa : original.StrictSSA)
    (horder : visitOrder original = done ++ block :: rest)
    (hinstruction : body.instruction? block position = some instruction) {value : ValueId}
    (huse : value ∈ instruction.uses) : IsPast original done block visited value := by
  obtain ⟨origin, hget, rfl⟩ := h.exists_origin (not_mem_done horder) hinstruction
  rw [Rewriting.uses_mapUses] at huse
  obtain ⟨used, hused, rfl⟩ := List.mem_map.1 huse
  exact h.isPast_rename hdistinct hssa horder (Nat.le_refl _) hget hused

theorem keep (h : Tracked original body done rename block position visited facts waiting)
    (hdistinct : original.definitions.Nodup) (hssa : original.StrictSSA)
    (horder : visitOrder original = done ++ block :: rest)
    (hinstruction : body.instruction? block position = some instruction) {scope : Scope} {later : Facts}
    (hafter : scope.after body facts instruction.operation = .ok later) :
    Tracked original body done rename block (position + 1) (visited + 1) later waiting := by
  have hblock := not_mem_done horder
  have hpast : ∀ {value}, IsPast original done block visited value → IsPast original done block (visited + 1) value :=
    fun hvalue => hvalue.mono (Nat.le_succ _)
  refine ⟨h.distinct, h.values_eq, fun other hother => ?_, fun value hne => ?_, fun value hvalue => ?_,
    fun other found hfound value hvalue => hpast (h.awaiting other found hfound value hvalue),
    fun passed hmem value huse => ?_⟩
  · by_cases heq : other = block
    · subst heq
      simpa only [if_true] using h.upcoming_next hblock
    · simpa only [heq, if_false] using h.upcoming other hother
  · obtain ⟨hrenamed, hrest⟩ := h.renamed value hne
    exact ⟨hpast hrenamed, hrest⟩
  · rcases Scope.mentions_of_after hafter hvalue with hold | hoperand | ⟨hdest, -⟩
    · exact hpast (h.known value hold)
    · exact hpast (h.isPast_of_uses hdistinct hssa horder hinstruction (List.mem_append_left _ hoperand))
    · obtain ⟨origin, hget, rfl⟩ := h.exists_origin hblock hinstruction
      rw [Instruction.mapUses, Operation.dest?_mapOperands] at hdest
      exact isPast_of_dest hdistinct hget hdest
  · rw [List.take_add_one, ← Body.instruction?_eq, hinstruction, List.mem_append, Option.toList_some,
      List.mem_singleton] at hmem
    rcases hmem with hbefore | rfl
    · exact hpast (h.passed passed hbefore value huse)
    · exact hpast (h.isPast_of_uses hdistinct hssa horder hinstruction huse)

theorem leave (h : Tracked original body done rename block position visited facts waiting) (scope : Scope) :
    Tracked original body (done ++ [block]) rename 0 0 0 {} (propagate scope body block facts waiting) := by
  refine ⟨h.distinct, h.values_eq, fun other hother => ?_, fun value hne => ?_,
    fun value hvalue => absurd hvalue (not_mentions_empty value), fun other found hfound value hvalue => ?_,
    fun instruction hmem => ?_⟩
  · rw [List.mem_append, List.mem_singleton, not_or] at hother
    have hupcoming := h.upcoming other hother.1
    rw [if_neg hother.2, if_neg hother.2] at hupcoming
    rw [ite_self]
    exact hupcoming
  · obtain ⟨hrenamed, hrest⟩ := h.renamed value hne
    exact ⟨hrenamed.leave, hrest⟩
  · rcases find?_propagate hfound with hbefore | ⟨target, -, -, -, rfl⟩
    · exact (h.awaiting other found hbefore value hvalue).leave
    · exact (h.known value (mentions_of_passedFacts hvalue)).leave
  · rw [List.take_zero] at hmem
    cases hmem

section Eliminate

variable {scope : Scope} {sweep : Sweep} {redundancy : Redundancy}
  (h : Tracked original sweep.body done rename block position visited facts waiting)
  (hblock : block ∉ done) (hinstruction : sweep.body.instruction? block position = some instruction)
  (hredundant : scope.redundancy? sweep.body facts instruction.operation = some redundancy)

include h hblock hinstruction

private theorem upcoming_eliminate {other : Nat} (hother : other ∉ done) :
    ((sweep.eliminate scope block position redundancy).body.instructionsAt other).drop
        (if other = block then if isRemoved instruction redundancy then position else position + 1 else 0)
      = ((original.instructionsAt other).drop (if other = block then visited + 1 else 0)).map
        (·.mapUses fun value => redundancy.rename (rename value)) := by
  have hcompose : ∀ instructions : List Instruction,
      (instructions.map (·.mapUses rename)).map (·.mapUses redundancy.rename)
        = instructions.map (·.mapUses fun value => redundancy.rename (rename value)) := by
    intro instructions
    rw [List.map_map]
    exact List.map_congr_left fun instruction _ => Rewriting.mapUses_mapUses rename redundancy.rename instruction
  by_cases heq : other = block
  · subst heq
    rw [if_pos rfl, if_pos rfl, instructionsAt_eliminate hinstruction, h.upcoming_next hblock, hcompose]
    have hlt := Body.lt_length_of_instruction? hinstruction
    refine List.drop_left' ?_
    rw [List.length_append, List.length_map, List.length_take_of_le hlt.le, Redundancy.remnant]
    split <;> rfl
  · have hupcoming := h.upcoming other hother
    rw [if_neg heq, if_neg heq, List.drop_zero, List.drop_zero] at hupcoming
    rw [if_neg heq, if_neg heq, instructionsAt_eliminate_ne heq, hupcoming, List.drop_zero, List.drop_zero, hcompose]

include hredundant

/-- A value whose definition has been passed keeps its name. -/
theorem rename_eq_of_isPast {value : ValueId} (hpast : IsPast original done block visited value) :
    redundancy.rename value = value := by
  by_contra hne
  obtain ⟨dest, hdest⟩ := Scope.dest?_of_redundancy? hredundant
  obtain ⟨rfl, -⟩ := rename_of_redundancy? hredundant hdest hne
  obtain ⟨origin, hget, rfl⟩ := h.exists_origin hblock hinstruction
  rw [Instruction.mapUses, Operation.dest?_mapOperands] at hdest
  exact not_isPast hblock hget hdest hpast

private theorem renamed_eliminate {value : ValueId} (hne : redundancy.rename (rename value) ≠ value) :
    IsPast original done block (visited + 1) (redundancy.rename (rename value)) ∧ original.ReadsField value ∧
      ¬ (sweep.eliminate scope block position redundancy).body.Computes value := by
  obtain ⟨dest, hdest⟩ := Scope.dest?_of_redundancy? hredundant
  rw [Sweep.body_eliminate h.distinct hinstruction hredundant hdest]
  by_cases hsame : rename value = value
  · -- the value is renamed now: it is the result of the read at hand
    rw [hsame] at hne ⊢
    obtain ⟨rfl, hmentions, hreads, hgone⟩ := rename_of_redundancy? hredundant hdest hne
    obtain ⟨origin, hget, rfl⟩ := h.exists_origin hblock hinstruction
    rw [Instruction.mapUses, Operation.readsField_mapOperands] at hreads
    rw [Instruction.mapUses, Operation.dest?_mapOperands] at hdest
    refine ⟨(h.known _ hmentions).mono (Nat.le_succ _), ?_, fun hcomputes => ?_⟩
    · exact ⟨origin, Body.mem_instructions_of_instructionsAt (List.mem_of_getElem? hget), hdest, hreads⟩
    · rw [(computes_of_rewriting hcomputes).2] at hgone
      cases hgone
  · obtain ⟨hpast, hreads, hnot⟩ := h.renamed value hsame
    rw [h.rename_eq_of_isPast hblock hinstruction hredundant hpast]
    exact ⟨hpast.mono (Nat.le_succ _), hreads, fun hcomputes => hnot (computes_of_rewriting hcomputes).1⟩

/-- What stays of the visited instructions keeps its names. -/
theorem take_eliminate_eq : ((sweep.eliminate scope block position redundancy).body.instructionsAt block).take
      (if isRemoved instruction redundancy then position else position + 1)
    = (sweep.body.instructionsAt block).take position ++ redundancy.remnant instruction := by
  have hlt := Body.lt_length_of_instruction? hinstruction
  have hsame : ((sweep.body.instructionsAt block).take position).map (·.mapUses redundancy.rename)
      = (sweep.body.instructionsAt block).take position := by
    rw [List.map_congr_left (g := id), List.map_id]
    intro passed hpassed
    exact Rewriting.mapUses_eq_self fun value huse =>
      h.rename_eq_of_isPast hblock hinstruction hredundant (h.passed passed hpassed value huse)
  rw [instructionsAt_eliminate hinstruction, hsame]
  refine List.take_left' ?_
  rw [List.length_append, List.length_take_of_le hlt.le, Redundancy.remnant]
  split <;> rfl

end Eliminate

private theorem uses_remnant {redundancy : Redundancy} {left : Instruction}
    (hleft : left ∈ redundancy.remnant instruction)
    {value : ValueId} (huse : value ∈ left.uses) : ∃ used ∈ instruction.uses, redundancy.rename used = value := by
  unfold Redundancy.remnant at hleft
  split at hleft
  · cases hleft
  · obtain rfl := List.mem_singleton.1 hleft
    have hnone : redundancy.left.operands = [] := by
      cases redundancy with
      | constantValue dest constant => exact constant.operands_materialize dest
      | existingValue | initialized => rfl
    rw [Instruction.uses, hnone, List.nil_append] at huse
    obtain ⟨used, hused, rfl⟩ := List.mem_map.1 huse
    exact ⟨used, List.mem_append_right _ hused, rfl⟩

theorem eliminate {sweep : Sweep} (h : Tracked original sweep.body done rename block position visited facts waiting)
    (hdistinct : original.definitions.Nodup) (hssa : original.StrictSSA)
    (horder : visitOrder original = done ++ block :: rest)
    (hinstruction : sweep.body.instruction? block position = some instruction) {scope : Scope} {redundancy : Redundancy}
    (hredundant : scope.redundancy? sweep.body facts instruction.operation = some redundancy) :
    Tracked original (sweep.eliminate scope block position redundancy).body done
      (fun value => redundancy.rename (rename value)) block
      (if isRemoved instruction redundancy then position else position + 1) (visited + 1) facts waiting := by
  have hblock := not_mem_done horder
  have hpast : ∀ {value}, IsPast original done block visited value → IsPast original done block (visited + 1) value :=
    fun hvalue => hvalue.mono (Nat.le_succ _)
  refine ⟨?_, (values_eliminate redundancy).trans h.values_eq,
    fun other hother => h.upcoming_eliminate hblock hinstruction hother,
    fun value hne => h.renamed_eliminate hblock hinstruction hredundant hne,
    fun value hvalue => hpast (h.known value hvalue),
    fun other found hfound value hvalue => hpast (h.awaiting other found hfound value hvalue),
    fun passed hmem value huse => hpast ?_⟩
  · obtain ⟨dest, hdest⟩ := Scope.dest?_of_redundancy? hredundant
    rw [Sweep.body_eliminate h.distinct hinstruction hredundant hdest,
      (redundancy.rewriting_lawful dest).body_definitions]
    exact h.distinct.filter _
  · rw [h.take_eliminate_eq hblock hinstruction hredundant, List.mem_append] at hmem
    rcases hmem with hbefore | hleft
    · exact h.passed passed hbefore value huse
    · obtain ⟨used, hused, rfl⟩ := uses_remnant hleft huse
      have hsettled := h.isPast_of_uses hdistinct hssa horder hinstruction hused
      rwa [h.rename_eq_of_isPast hblock hinstruction hredundant hsettled]

end Tracked

/-- The sweep is in a block that comes after those that are done. -/
theorem Reached.order {scope : Scope} {original : Body} {done : List Nat} {sweep : Sweep} {block position : Nat}
    {facts : Facts} {waiting : Waiting}
    (h : Reached scope original done sweep (.within block position facts waiting)) :
    ∃ rest, visitOrder original = done ++ block :: rest := by
  generalize hstage : Stage.within block position facts waiting = stage at h
  induction h using Reached.induction generalizing position facts with
  | start => cases hstage
  | step _ hstep ih =>
    cases hstep with
    | enter horder =>
      cases hstage
      exact ⟨_, horder⟩
    | keep =>
      cases hstage
      exact ih rfl
    | eliminate =>
      cases hstage
      exact ih rfl
    | leave => cases hstage

/-- In a strict body the sweep tracks at every stage what it has still to visit. -/
theorem Reached.tracked {scope : Scope} {original : Body} (hdistinct : original.definitions.Nodup)
    (hssa : original.StrictSSA) {done : List Nat} {sweep : Sweep} {stage : Stage}
    (h : Reached scope original done sweep stage) :
    ∃ rename visited, match stage with
      | .between waiting => Tracked original sweep.body done rename 0 0 0 {} waiting
      | .within block position facts waiting =>
        Tracked original sweep.body done rename block position visited facts waiting := by
  induction h using Reached.induction with
  | start => exact ⟨id, 0, .start hdistinct⟩
  | step hreached hstep ih =>
    cases hstep with
    | @enter _ _ block _ _ _ =>
      obtain ⟨rename, visited, htracked⟩ := ih
      exact ⟨rename, 0, htracked.enter block⟩
    | keep hinstruction _ hafter =>
      obtain ⟨rename, visited, htracked⟩ := ih
      obtain ⟨rest, horder⟩ := hreached.order
      exact ⟨rename, visited + 1, htracked.keep hdistinct hssa horder hinstruction hafter⟩
    | eliminate hinstruction hredundant =>
      obtain ⟨rename, visited, htracked⟩ := ih
      obtain ⟨rest, horder⟩ := hreached.order
      exact ⟨_, visited + 1, htracked.eliminate hdistinct hssa horder hinstruction hredundant⟩
    | leave =>
      obtain ⟨rename, visited, htracked⟩ := ih
      exact ⟨rename, 0, htracked.leave scope⟩

end LoadElimination

end Bytecode
