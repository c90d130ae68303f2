import Bytecode.Proofs.Execution.Faithful
import Bytecode.Proofs.LoadElimination.Idempotence
import Bytecode.Proofs.LoadElimination.Initializers
import Bytecode.Proofs.LoadElimination.RepeatedRead
/-!
# Affected values

When a read is eliminated or becomes a constant, the values that are computed from its result are reported as affected.
They are looked up in the body as it is then. In a strict body these are the values that were computed from it at the
start: nothing that uses the result has been visited yet, and no other value has been renamed to it. So the report lists
exactly the values with an operand that was such a read.

The report is not brought up to date. A value of it can be gone in the end, as a read that was eliminated later or as a
phi that became trivial. And two changes are left out: that of a read that becomes a constant, and that of a value with a
phi that became trivial as an operand.
-/

namespace Bytecode

/-! ### Definitions and their operands -/

def Block.definers (block : Block) : List (ValueId × List ValueId) :=
  block.phis.map (fun phi => (phi.dest, phi.operands)) ++
    block.instructions.filterMap fun instruction =>
      instruction.operation.dest?.map fun dest => (dest, instruction.operation.operands)

namespace Body

/-- Every value that is defined, with the operands of the phi or instruction that defines it. -/
def definers (body : Body) : List (ValueId × List ValueId) :=
  body.blocks.flatMap (·.definers)

variable {body : Body} {value : ValueId} {operands : List ValueId}

theorem mem_definers : (value, operands) ∈ body.definers ↔
    (∃ block ∈ body.blocks, ∃ phi ∈ block.phis, phi.dest = value ∧ phi.operands = operands) ∨
      ∃ instruction ∈ body.instructions, instruction.operation.dest? = some value ∧
        instruction.operation.operands = operands := by
  simp only [definers, Block.definers, instructions, List.mem_flatMap, List.mem_append, List.mem_map, List.mem_filterMap,
    Option.map_eq_some_iff, Prod.mk.injEq]
  constructor
  · rintro ⟨block, hblock, ⟨phi, hphi, hdest⟩ | ⟨instruction, hinstruction, dest, hdest, rfl, hoperands⟩⟩
    · exact .inl ⟨block, hblock, phi, hphi, hdest⟩
    · exact .inr ⟨instruction, ⟨block, hblock, hinstruction⟩, hdest, hoperands⟩
  · rintro (⟨block, hblock, phi, hphi, hdest⟩ | ⟨instruction, ⟨block, hblock, hinstruction⟩, hdest, hoperands⟩)
    · exact ⟨block, hblock, .inl ⟨phi, hphi, hdest⟩⟩
    · exact ⟨block, hblock, .inr ⟨instruction, hinstruction, value, hdest, rfl, hoperands⟩⟩

private theorem map_fst_definers (body : Body) : body.definers.map Prod.fst = body.definitions := by
  rw [definers, definitions, List.map_flatMap]
  apply List.flatMap_congr
  intro block _
  simp [Block.definers, Block.definitions, List.map_filterMap, Function.comp_def]

private theorem mem_definitions_iff_definers :
    value ∈ body.definitions ↔ ∃ operands, (value, operands) ∈ body.definers := by
  simp [← map_fst_definers]

/-- What defines a value is determined by it. -/
theorem definers_unique (hdistinct : body.definitions.Nodup) {left right : List ValueId}
    (hleft : (value, left) ∈ body.definers) (hright : (value, right) ∈ body.definers) : left = right := by
  rw [← map_fst_definers] at hdistinct
  exact congrArg Prod.snd (List.inj_on_of_nodup_map hdistinct hleft hright rfl)

private theorem mem_affectedBy {used : ValueId} :
    value ∈ body.affectedBy used ↔ ∃ operands, (value, operands) ∈ body.definers ∧ used ∈ operands := by
  simp only [mem_definers, affectedBy, instructions, List.mem_flatMap, List.mem_append, List.mem_map, List.mem_filterMap,
    List.mem_filter, List.contains_iff_mem]
  constructor
  · rintro ⟨block, hblock, ⟨phi, ⟨hphi, hused⟩, hdest⟩ | ⟨instruction, ⟨hinstruction, hused⟩, hdest⟩⟩
    · exact ⟨_, .inl ⟨block, hblock, phi, hphi, hdest, rfl⟩, hused⟩
    · exact ⟨_, .inr ⟨instruction, ⟨block, hblock, hinstruction⟩, hdest, rfl⟩, hused⟩
  · rintro ⟨_, ⟨block, hblock, phi, hphi, hdest, rfl⟩ | ⟨instruction, ⟨block, hblock, hinstruction⟩, hdest, rfl⟩, hused⟩
    · exact ⟨block, hblock, .inl ⟨phi, ⟨hphi, hused⟩, hdest⟩⟩
    · exact ⟨block, hblock, .inr ⟨instruction, ⟨hinstruction, hused⟩, hdest⟩⟩

/-- The value is the result of a field read, and no instruction of the later body is this read, whatever the names of its
operands: the read was eliminated or became a constant. -/
def LosesRead (before after : Body) (value : ValueId) : Prop :=
  ∃ read ∈ before.instructions, read.operation.dest? = some value ∧ read.operation.readsField = true ∧
    ∀ instruction ∈ after.instructions, instruction.operation.unnamed ≠ read.operation.unnamed

/-- The value is the result of a phi and is not defined in the later body. -/
def LosesPhi (before after : Body) (value : ValueId) : Prop :=
  before.IsPhiResult value ∧ value ∉ after.definitions

end Body

/-- A rewritten body has the definitions of the phis that stay, under other names, and of what the instructions have
become. -/
theorem Rewriting.mem_definers_body {rewriting : Rewriting} {body : Body} {value : ValueId} {operands : List ValueId} :
    (value, operands) ∈ (rewriting.body body).definers ↔
      (∃ block ∈ body.blocks, ∃ phi ∈ block.phis, rewriting.gone value = false ∧ phi.dest = value ∧
        phi.operands.map rewriting.rename = operands) ∨
      ∃ instruction ∈ body.instructions, ∃ rewritten, rewriting.instruction instruction = some rewritten ∧
        rewritten.operation.dest? = some value ∧ rewritten.operation.operands = operands := by
  rw [Body.mem_definers]
  refine or_congr ⟨?_, ?_⟩ ⟨?_, ?_⟩
  · rintro ⟨_, hblock, _, hphi, rfl, rfl⟩
    obtain ⟨block, hbefore, rfl⟩ := List.mem_map.1 hblock
    obtain ⟨phi, hkept, rfl⟩ := List.mem_map.1 hphi
    obtain ⟨hmem, hstays⟩ := List.mem_filter.1 hkept
    rw [Bool.not_eq_true'] at hstays
    exact ⟨block, hbefore, phi, hmem, hstays, rfl, rfl⟩
  · rintro ⟨block, hblock, phi, hphi, hstays, rfl, rfl⟩
    refine ⟨_, List.mem_map_of_mem hblock, phi.mapOperands rewriting.rename, ?_, rfl, rfl⟩
    exact List.mem_map_of_mem (List.mem_filter.2 ⟨hphi, by rw [hstays]; rfl⟩)
  · rintro ⟨rewritten, hrewritten, hdefines⟩
    obtain ⟨instruction, hinstruction, hsome⟩ := mem_instructions_body.1 hrewritten
    exact ⟨instruction, hinstruction, rewritten, hsome, hdefines⟩
  · rintro ⟨instruction, hinstruction, rewritten, hsome, hdefines⟩
    exact ⟨rewritten, mem_instructions_body.2 ⟨instruction, hinstruction, hsome⟩, hdefines⟩

theorem Operation.dest?_unnamed (operation : Operation) : operation.unnamed.dest? = operation.dest? :=
  Operation.dest?_mapOperands _ operation

namespace LoadElimination

/-! ### One elimination -/

/-- The results of reads that are eliminated or become constants. -/
def Redundancy.reads (dest : ValueId) : Redundancy → List ValueId
  | .existingValue .. | .constantValue .. => [dest]
  | .initialized _ => []

/-- The three ways in which the definition of a value is redundant. -/
theorem Scope.redundancy?_of_dest {scope : Scope} {body : Body} {facts : Facts} {operation : Operation}
    {redundancy : Redundancy} (hoffered : Offered scope facts)
    (h : scope.redundancy? body facts operation = some redundancy) {dest : ValueId}
    (hdest : operation.dest? = some dest) :
    (∃ value, redundancy = .existingValue dest value ∧ operation.readsField = true) ∨
    (∃ constant object field, redundancy = .constantValue dest constant ∧ operation = .instanceGet dest object field) ∨
    ∃ type, redundancy = .initialized type ∧ operation = .initClass dest type := by
  rcases redundancy?_cases h with ⟨found, known, hfound, -, hread, husable⟩ | ⟨found, type, rfl, -, rfl⟩
  · obtain rfl : dest = found := Option.some.inj (hdest.symm.trans hfound)
    cases known with
    | existing value =>
      obtain rfl := Option.some.inj husable
      refine .inl ⟨value, rfl, ?_⟩
      cases operation <;> first | rfl | cases hread
    | constant constant =>
      rw [usable?, Option.ite_none_right_eq_some] at husable
      obtain rfl := Option.some.inj husable.2
      obtain ⟨-, result, object, field, rfl⟩ := hoffered.of_knownRead? hread
      cases hdest
      exact .inr (.inl ⟨constant, object, field, rfl, rfl⟩)
  · cases hdest
    exact .inr (.inr ⟨type, rfl, rfl⟩)

namespace Redundancy

variable {redundancy : Redundancy} {dest value : ValueId}

private theorem instruction_rewriting_other {instruction : Instruction}
    (hne : instruction.operation.dest? ≠ some dest) :
    (redundancy.rewriting dest).instruction instruction
      = some (instruction.mapUses (redundancy.rewriting dest).rename) := by
  cases redundancy with
  | existingValue _ new => exact Rewriting.supersede_other new hne
  | initialized => exact Rewriting.supersede_other dest hne
  | constantValue =>
    refine congrArg some ?_
    rw [if_neg hne]
    exact (Rewriting.mapUses_eq_self fun _ _ => rfl).symm

theorem eq_of_mem_reads (h : value ∈ redundancy.reads dest) : value = dest := by
  cases redundancy with
  | existingValue => exact List.mem_singleton.1 h
  | constantValue => exact List.mem_singleton.1 h
  | initialized => exact absurd h List.not_mem_nil

private theorem mem_reads_of_rename (h : (redundancy.rewriting dest).rename value ≠ value) :
    value ∈ redundancy.reads dest := by
  cases redundancy with
  | existingValue _ new =>
    by_contra hne
    exact h (if_neg fun heq => hne (List.mem_singleton.2 heq))
  | constantValue => exact absurd rfl h
  | initialized =>
    refine absurd ?_ h
    change (if value = dest then dest else value) = value
    split <;> simp_all

private theorem eq_of_gone (h : (redundancy.rewriting dest).gone value = true) : value = dest := by
  by_contra hne
  rw [gone_rewriting hne] at h
  cases h

/-- The read at hand does not stay: what is left of it has no operands and is another operation. -/
theorem replaced_of_reads {scope : Scope} {body : Body} {facts : Facts} {instruction rewritten : Instruction}
    (hoffered : Offered scope facts) (h : scope.redundancy? body facts instruction.operation = some redundancy)
    (hdest : instruction.operation.dest? = some dest) (hread : dest ∈ redundancy.reads dest)
    (hrewritten : (redundancy.rewriting dest).instruction instruction = some rewritten) :
    rewritten.operation.operands = [] ∧ rewritten.operation.unnamed ≠ instruction.operation.unnamed := by
  rcases Scope.redundancy?_of_dest hoffered h hdest with
    ⟨value, rfl, -⟩ | ⟨constant, object, field, rfl, hoperation⟩ | ⟨type, rfl, -⟩
  · rw [rewriting, Rewriting.supersede_definition value hdest] at hrewritten
    split at hrewritten <;> cases hrewritten
    refine ⟨rfl, fun heq => ?_⟩
    have hsame := congrArg Operation.dest? heq
    rw [Operation.dest?_unnamed, Operation.dest?_unnamed, hdest] at hsame
    cases hsame
  · obtain rfl := Option.some.inj hrewritten
    rw [if_pos hdest, hoperation]
    refine ⟨constant.operands_materialize dest, fun heq => ?_⟩
    cases constant <;> cases heq
  · cases hread

private theorem readsField_of_reads {scope : Scope} {body : Body} {facts : Facts} {operation : Operation}
    (hoffered : Offered scope facts) (h : scope.redundancy? body facts operation = some redundancy)
    (hdest : operation.dest? = some dest) (hread : dest ∈ redundancy.reads dest) : operation.readsField = true := by
  rcases Scope.redundancy?_of_dest hoffered h hdest with
    ⟨value, -, hreads⟩ | ⟨constant, object, field, -, rfl⟩ | ⟨type, rfl, -⟩
  · exact hreads
  · rfl
  · cases hread

/-- What defines a value that goes was a read or an initialization check. -/
theorem mem_reads_or_initClass {scope : Scope} {body : Body} {facts : Facts} {operation : Operation}
    (hoffered : Offered scope facts) (h : scope.redundancy? body facts operation = some redundancy)
    (hdest : operation.dest? = some dest) : dest ∈ redundancy.reads dest ∨
      (redundancy.rewriting dest).gone dest = true ∧ ∃ type, operation = .initClass dest type := by
  rcases Scope.redundancy?_of_dest hoffered h hdest with
    ⟨value, rfl, -⟩ | ⟨constant, object, field, rfl, -⟩ | ⟨type, rfl, hinit⟩
  · exact .inl List.mem_cons_self
  · exact .inl List.mem_cons_self
  · exact .inr ⟨decide_eq_true rfl, type, hinit⟩

/-- What the rewriting renames is what the redundancy does: a check that goes has no users to rename. -/
theorem rename_rewriting {scope : Scope} {body : Body} {facts : Facts} {operation : Operation}
    (hoffered : Offered scope facts) (h : scope.redundancy? body facts operation = some redundancy)
    (hdest : operation.dest? = some dest) : (redundancy.rewriting dest).rename = redundancy.rename := by
  rcases Scope.redundancy?_of_dest hoffered h hdest with
    ⟨value, rfl, -⟩ | ⟨constant, object, field, rfl, -⟩ | ⟨type, rfl, -⟩
  · rfl
  · rfl
  · funext used
    change (if used = dest then dest else used) = used
    split <;> simp_all

theorem affected_eliminate {scope : Scope} {sweep : Sweep} {facts : Facts} {operation : Operation}
    (hoffered : Offered scope facts) (h : scope.redundancy? sweep.body facts operation = some redundancy)
    (hdest : operation.dest? = some dest) (block position : Nat) :
    (sweep.eliminate scope block position redundancy).affected
      = sweep.affected ++ (redundancy.reads dest).flatMap sweep.body.affectedBy := by
  rcases Scope.redundancy?_of_dest hoffered h hdest with
    ⟨value, rfl, -⟩ | ⟨constant, object, field, rfl, -⟩ | ⟨type, rfl, -⟩
  · simp [Sweep.eliminate, Sweep.record, reads]
  · simp [Sweep.eliminate, Sweep.record, reads]
  · simp [Sweep.eliminate, Sweep.record, reads]

end Redundancy

/-! ### The account of a sweep -/

/-- What has become of a body in a sweep. The results of the reads that were eliminated or became constants are listed;
what defines none of these and does not go stays under other names. -/
structure Account (original : Body) (sweep : Sweep) (rewriting : Rewriting) (reads : List ValueId) : Prop where
  body_eq : sweep.body = rewriting.body original
  lawful : rewriting.Lawful
  renamed : ∀ value, rewriting.rename value ≠ value → value ∈ reads
  gone : ∀ value, rewriting.gone value = true → value ∈ reads ∨ original.IsInitResult value
  kept : ∀ instruction : Instruction, (∀ dest, instruction.operation.dest? = some dest →
      dest ∉ reads ∧ rewriting.gone dest = false) →
    rewriting.instruction instruction = some (instruction.mapUses rewriting.rename)
  replaced : ∀ value ∈ reads, ∃ read ∈ original.instructions, read.operation.dest? = some value ∧
    read.operation.readsField = true ∧ ∀ rewritten, rewriting.instruction read = some rewritten →
      rewritten.operation.operands = [] ∧ rewritten.operation.unnamed ≠ read.operation.unnamed
  affected : ∀ value, value ∈ sweep.affected ↔
    ∃ operands, (value, operands) ∈ original.definers ∧ ∃ read ∈ reads, read ∈ operands

/-- The operands of the reads that were replaced have been passed. -/
def Settled (original : Body) (reads : List ValueId) (done : List Nat) (block visited : Nat) : Prop :=
  ∀ value ∈ reads, ∀ operands, (value, operands) ∈ original.definers →
    ∀ used ∈ operands, IsPast original done block visited used

theorem Settled.imp {original : Body} {reads : List ValueId} {done later : List Nat} {block visited other further : Nat}
    (h : Settled original reads done block visited)
    (himp : ∀ {used}, IsPast original done block visited used → IsPast original later other further used) :
    Settled original reads later other further :=
  fun value hvalue operands hmem used hused => himp (h value hvalue operands hmem used hused)

namespace Account

variable {original : Body} {sweep : Sweep} {rewriting : Rewriting} {reads : List ValueId} {value : ValueId}
  {operands : List ValueId}

theorem start (original : Body) : Account original { body := original } .identity [] where
  body_eq := (Rewriting.identity_body original).symm
  lawful := Rewriting.identity_lawful
  renamed _ hne := absurd rfl hne
  gone _ hgone := absurd hgone Bool.false_ne_true
  kept instruction _ := congrArg some (Rewriting.mapUses_eq_self fun _ _ => rfl).symm
  replaced _ hmem := absurd hmem List.not_mem_nil
  affected _ := by simp

theorem kept_of_dest (h : Account original sweep rewriting reads) {instruction : Instruction}
    (hdest : instruction.operation.dest? = some value) (hread : value ∉ reads) (hstays : rewriting.gone value = false) :
    rewriting.instruction instruction = some (instruction.mapUses rewriting.rename) :=
  h.kept instruction fun _ hother => Option.some.inj (hdest.symm.trans hother) ▸ ⟨hread, hstays⟩

/-- A definition of the body as it is was there before, with other names for its operands or as a read. -/
theorem exists_definer (h : Account original sweep rewriting reads) (hdistinct : original.definitions.Nodup)
    (hmem : (value, operands) ∈ sweep.body.definers) :
    ∃ before, (value, before) ∈ original.definers ∧
      (operands = before.map rewriting.rename ∨ operands = [] ∧ value ∈ reads) := by
  rw [h.body_eq] at hmem
  rcases Rewriting.mem_definers_body.1 hmem with ⟨block, hblock, phi, hphi, -, hdest, rfl⟩ |
    ⟨instruction, hinstruction, rewritten, hsome, hdest, rfl⟩
  · exact ⟨phi.operands, Body.mem_definers.2 (.inl ⟨block, hblock, phi, hphi, hdest, rfl⟩), .inl rfl⟩
  · have hbefore := h.lawful.dest?_of_instruction hsome hdest
    refine ⟨_, Body.mem_definers.2 (.inr ⟨instruction, hinstruction, hbefore, rfl⟩), ?_⟩
    by_cases hread : value ∈ reads
    · obtain ⟨read, hmember, hresult, -, hreplaced⟩ := h.replaced value hread
      obtain rfl := Body.instruction_unique hdistinct hmember hinstruction hresult hbefore
      exact .inr ⟨(hreplaced rewritten hsome).1, hread⟩
    · have hsame := h.kept_of_dest hbefore hread (h.lawful.gone_of_instruction hsome hdest)
      obtain rfl := Option.some.inj (hsome.symm.trans hsame)
      exact .inl (Operation.operands_mapOperands _ _)

/-- A definition that neither goes nor is a read that was replaced stays. -/
theorem mem_definers (h : Account original sweep rewriting reads) (hmem : (value, operands) ∈ original.definers)
    (hread : value ∉ reads) (hstays : rewriting.gone value = false) :
    (value, operands.map rewriting.rename) ∈ sweep.body.definers := by
  rw [h.body_eq, Rewriting.mem_definers_body]
  rcases Body.mem_definers.1 hmem with ⟨block, hblock, phi, hphi, hdest, rfl⟩ | ⟨instruction, hinstruction, hdest, rfl⟩
  · exact .inl ⟨block, hblock, phi, hphi, hstays, hdest, rfl⟩
  · refine .inr ⟨instruction, hinstruction, _, h.kept_of_dest hdest hread hstays, ?_, ?_⟩
    · rw [Instruction.mapUses, Operation.dest?_mapOperands, hdest]
    · rw [Instruction.mapUses, Operation.operands_mapOperands]

/-- What has operands and was not replaced does not go: an initialization check has none. -/
theorem gone_eq_false (h : Account original sweep rewriting reads) (hdistinct : original.definitions.Nodup)
    (hmem : (value, operands) ∈ original.definers) {used : ValueId} (hused : used ∈ operands) (hread : value ∉ reads) :
    rewriting.gone value = false := by
  rw [Bool.eq_false_iff]
  intro hgone
  obtain ⟨check, hcheck, type, hoperation⟩ := (h.gone value hgone).resolve_left hread
  have hnone : (value, []) ∈ original.definers :=
    Body.mem_definers.2 (.inr ⟨check, hcheck, by rw [hoperation]; rfl, by rw [hoperation]; rfl⟩)
  rw [Body.definers_unique hdistinct hmem hnone] at hused
  exact List.not_mem_nil hused

section AtHand

variable {done rest : List Nat} {block position visited : Nat} {facts : Facts} {waiting : Waiting}
  {instruction : Instruction} {dest : ValueId} (h : Account original sweep rewriting reads)
  (hdistinct : original.definitions.Nodup)
  (htracked : Tracked original sweep.body done rewriting.rename block position visited facts waiting)
  (hblock : block ∉ done) (hinstruction : sweep.body.instruction? block position = some instruction)
  (hdest : instruction.operation.dest? = some dest)

include h hdistinct htracked hblock hinstruction hdest

/-- Nothing was done yet to the instruction at hand but to rename its operands. -/
theorem exists_untouched : ∃ origin, (original.instructionsAt block)[visited]? = some origin ∧
    origin.operation.dest? = some dest ∧ origin.mapUses rewriting.rename = instruction ∧
    rewriting.instruction origin = some instruction ∧ dest ∉ reads ∧ rewriting.gone dest = false := by
  obtain ⟨origin, hget, hsame⟩ := htracked.exists_origin hblock hinstruction
  have horigin : origin ∈ original.instructions :=
    Body.mem_instructions_of_instructionsAt (List.mem_of_getElem? hget)
  have horiginDest : origin.operation.dest? = some dest := by
    rw [← hsame, Instruction.mapUses, Operation.dest?_mapOperands] at hdest
    exact hdest
  have hmem := Body.mem_instructions_of_instruction? hinstruction
  rw [h.body_eq] at hmem
  obtain ⟨source, hsource, hrewritten⟩ := Rewriting.mem_instructions_body.1 hmem
  obtain rfl := Body.instruction_unique hdistinct hsource horigin (h.lawful.dest?_of_instruction hrewritten hdest)
    horiginDest
  refine ⟨source, hget, horiginDest, hsame, hrewritten, fun hread => ?_, h.lawful.gone_of_instruction hrewritten hdest⟩
  obtain ⟨read, hmember, hresult, -, hreplaced⟩ := h.replaced dest hread
  obtain rfl := Body.instruction_unique hdistinct hmember hsource hresult horiginDest
  refine (hreplaced instruction hrewritten).2 ?_
  rw [← hsame, Instruction.mapUses, Execution.unnamed_mapOperands]

/-- No other value has the name of the result at hand. -/
theorem rename_eq_iff : rewriting.rename value = dest ↔ value = dest := by
  obtain ⟨origin, hget, horiginDest, -⟩ := h.exists_untouched hdistinct htracked hblock hinstruction hdest
  have hsame : rewriting.rename dest = dest := by
    by_contra hne
    exact (htracked.renamed dest hne).2.2 ⟨instruction, Body.mem_instructions_of_instruction? hinstruction, hdest⟩
  constructor
  · intro heq
    by_contra hne
    have hpast := (htracked.renamed value fun hkept => hne (hkept.symm.trans heq)).1
    rw [heq] at hpast
    exact not_isPast hblock hget horiginDest hpast
  · rintro rfl
    exact hsame

/-- The users of the result at hand are those it had at the start. -/
theorem mem_affectedBy_iff (hsettled : Settled original reads done block visited) :
    value ∈ sweep.body.affectedBy dest ↔ ∃ operands, (value, operands) ∈ original.definers ∧ dest ∈ operands := by
  obtain ⟨origin, hget, horiginDest, -⟩ := h.exists_untouched hdistinct htracked hblock hinstruction hdest
  rw [Body.mem_affectedBy]
  constructor
  · rintro ⟨operands, hmem, hused⟩
    obtain ⟨before, hbefore, rfl | ⟨rfl, -⟩⟩ := h.exists_definer hdistinct hmem
    · obtain ⟨used, hused, heq⟩ := List.mem_map.1 hused
      rw [h.rename_eq_iff hdistinct htracked hblock hinstruction hdest] at heq
      exact ⟨before, hbefore, heq ▸ hused⟩
    · exact absurd hused List.not_mem_nil
  · rintro ⟨operands, hmem, hused⟩
    -- a user that was replaced would have had its operands passed
    have hread : value ∉ reads := fun hread =>
      not_isPast hblock hget horiginDest (hsettled value hread operands hmem dest hused)
    refine ⟨_, h.mem_definers hmem hread (h.gone_eq_false hdistinct hmem hused hread), List.mem_map.2 ⟨dest, hused, ?_⟩⟩
    exact (h.rename_eq_iff hdistinct htracked hblock hinstruction hdest).2 rfl

/-- The operands of the instruction at hand have been passed. -/
theorem settled_eliminate (hssa : original.StrictSSA) (horder : visitOrder original = done ++ block :: rest)
    (hsettled : Settled original reads done block visited) (redundancy : Redundancy) :
    Settled original (reads ++ redundancy.reads dest) done block (visited + 1) := by
  obtain ⟨origin, hget, horiginDest, -⟩ := h.exists_untouched hdistinct htracked hblock hinstruction hdest
  intro value hvalue operands hmem used hused
  rcases List.mem_append.1 hvalue with hread | hnow
  · exact (hsettled value hread operands hmem used hused).mono (Nat.le_succ _)
  · obtain rfl := Redundancy.eq_of_mem_reads hnow
    have horigin : (value, origin.operation.operands) ∈ original.definers := Body.mem_definers.2
      (.inr ⟨origin, Body.mem_instructions_of_instructionsAt (List.mem_of_getElem? hget), horiginDest, rfl⟩)
    rw [Body.definers_unique hdistinct hmem horigin] at hused
    exact (isPast_of_use hdistinct hssa horder (Nat.le_refl _) hget (List.mem_append_left _ hused)).mono (Nat.le_succ _)

variable {scope : Scope} {redundancy : Redundancy} (hoffered : Offered scope facts)
  (hredundant : scope.redundancy? sweep.body facts instruction.operation = some redundancy)

include hoffered hredundant

private theorem gone_eliminate (hgone : (rewriting.andThen (redundancy.rewriting dest)).gone value = true) :
    value ∈ reads ++ redundancy.reads dest ∨ original.IsInitResult value := by
  rcases Bool.or_eq_true_iff.1 hgone with hbefore | hnow
  · exact (h.gone value hbefore).imp_left (List.mem_append_left _)
  · obtain rfl := Redundancy.eq_of_gone hnow
    rcases Redundancy.mem_reads_or_initClass hoffered hredundant hdest with hread | ⟨-, type, hinit⟩
    · exact .inl (List.mem_append_right _ hread)
    · obtain ⟨origin, hget, -, hsame, -⟩ := h.exists_untouched hdistinct htracked hblock hinstruction hdest
      refine .inr ⟨origin, Body.mem_instructions_of_instructionsAt (List.mem_of_getElem? hget), type, ?_⟩
      rw [← hsame, Instruction.mapUses] at hinit
      cases horiginal : origin.operation <;> rw [horiginal] at hinit <;> cases hinit
      rfl

omit hdistinct htracked hblock hinstruction in
private theorem kept_eliminate {other : Instruction} (hother : ∀ found, other.operation.dest? = some found →
      found ∉ reads ++ redundancy.reads dest ∧ (rewriting.andThen (redundancy.rewriting dest)).gone found = false) :
    (rewriting.andThen (redundancy.rewriting dest)).instruction other
      = some (other.mapUses (rewriting.andThen (redundancy.rewriting dest)).rename) := by
  have hbefore := h.kept other fun found hfound => by
    obtain ⟨hread, hgone⟩ := hother found hfound
    exact ⟨fun hmem => hread (List.mem_append_left _ hmem), (Bool.or_eq_false_iff.1 hgone).1⟩
  have hne : (other.mapUses rewriting.rename).operation.dest? ≠ some dest := by
    intro heq
    rw [Instruction.mapUses, Operation.dest?_mapOperands] at heq
    obtain ⟨hread, hgone⟩ := hother dest heq
    rcases Redundancy.mem_reads_or_initClass hoffered hredundant hdest with hmem | ⟨hnow, -⟩
    · exact hread (List.mem_append_right _ hmem)
    · exact Bool.false_ne_true ((Bool.or_eq_false_iff.1 hgone).2.symm.trans hnow)
  change (rewriting.instruction other).bind (redundancy.rewriting dest).instruction = _
  rw [hbefore, Option.bind_some, Redundancy.instruction_rewriting_other hne, Rewriting.mapUses_mapUses]
  rfl

private theorem replaced_eliminate (hvalue : value ∈ reads ++ redundancy.reads dest) :
    ∃ read ∈ original.instructions, read.operation.dest? = some value ∧ read.operation.readsField = true ∧
      ∀ rewritten, (rewriting.andThen (redundancy.rewriting dest)).instruction read = some rewritten →
        rewritten.operation.operands = [] ∧ rewritten.operation.unnamed ≠ read.operation.unnamed := by
  obtain ⟨origin, hget, horiginDest, hsame, hrewritten, hfresh, -⟩ :=
    h.exists_untouched hdistinct htracked hblock hinstruction hdest
  rcases List.mem_append.1 hvalue with hread | hnow
  · -- what is left of an earlier read has no operands to be renamed
    obtain ⟨read, hmem, hresult, hreadsField, hreplaced⟩ := h.replaced value hread
    refine ⟨read, hmem, hresult, hreadsField, fun rewritten hboth => ?_⟩
    obtain ⟨middle, hmiddle, hlast⟩ := Option.bind_eq_some_iff.1 hboth
    have hne : middle.operation.dest? ≠ some dest := by
      intro heq
      have hagain := h.lawful.dest?_of_instruction hmiddle heq
      exact hfresh (Option.some.inj (hresult.symm.trans hagain) ▸ hread)
    rw [Redundancy.instruction_rewriting_other hne] at hlast
    obtain rfl := Option.some.inj hlast
    obtain ⟨hnone, hother⟩ := hreplaced middle hmiddle
    constructor
    · rw [Instruction.mapUses, Operation.operands_mapOperands, hnone, List.map_nil]
    · rwa [Instruction.mapUses, Execution.unnamed_mapOperands]
  · obtain rfl := Redundancy.eq_of_mem_reads hnow
    have horiginOperation : instruction.operation = origin.operation.mapOperands rewriting.rename := by
      rw [← hsame]
      rfl
    refine ⟨origin, Body.mem_instructions_of_instructionsAt (List.mem_of_getElem? hget), horiginDest, ?_, ?_⟩
    · rw [← Operation.readsField_mapOperands _ rewriting.rename, ← horiginOperation]
      exact Redundancy.readsField_of_reads hoffered hredundant hdest hnow
    · intro rewritten hboth
      change (rewriting.instruction origin).bind (redundancy.rewriting value).instruction = some rewritten at hboth
      rw [hrewritten, Option.bind_some] at hboth
      have hreplaced := Redundancy.replaced_of_reads hoffered hredundant hdest hnow hboth
      rwa [horiginOperation, Execution.unnamed_mapOperands] at hreplaced

theorem affected_eliminate (hsettled : Settled original reads done block visited) :
    value ∈ (sweep.eliminate scope block position redundancy).affected ↔ ∃ operands,
      (value, operands) ∈ original.definers ∧ ∃ read ∈ reads ++ redundancy.reads dest, read ∈ operands := by
  have husers : value ∈ sweep.body.affectedBy dest ↔ ∃ operands, (value, operands) ∈ original.definers ∧ dest ∈ operands :=
    h.mem_affectedBy_iff hdistinct htracked hblock hinstruction hdest hsettled
  rw [Redundancy.affected_eliminate hoffered hredundant hdest, List.mem_append, h.affected]
  constructor
  · rintro (⟨operands, hmem, read, hread, hused⟩ | hnow)
    · exact ⟨operands, hmem, read, List.mem_append_left _ hread, hused⟩
    · obtain ⟨read, hread, huser⟩ := List.mem_flatMap.1 hnow
      obtain rfl := Redundancy.eq_of_mem_reads hread
      obtain ⟨operands, hmem, hused⟩ := husers.1 huser
      exact ⟨operands, hmem, read, List.mem_append_right _ hread, hused⟩
  · rintro ⟨operands, hmem, read, hread, hused⟩
    rcases List.mem_append.1 hread with hbefore | hnow
    · exact .inl ⟨operands, hmem, read, hbefore, hused⟩
    · obtain rfl := Redundancy.eq_of_mem_reads hnow
      exact .inr (List.mem_flatMap.2 ⟨read, hnow, husers.2 ⟨operands, hmem, hused⟩⟩)

/-- **One elimination.** A read at hand joins those that were replaced, and its users those that are affected. -/
theorem eliminate (hsettled : Settled original reads done block visited) :
    Account original (sweep.eliminate scope block position redundancy) (rewriting.andThen (redundancy.rewriting dest))
      (reads ++ redundancy.reads dest) where
  body_eq := by
    rw [Sweep.body_eliminate htracked.distinct hinstruction hredundant hdest, h.body_eq, Rewriting.andThen_body]
  lawful := h.lawful.andThen (redundancy.rewriting_lawful dest)
  renamed value hne := by
    by_cases hkept : rewriting.rename value = value
    · change (redundancy.rewriting dest).rename (rewriting.rename value) ≠ value at hne
      rw [hkept] at hne
      exact List.mem_append_right _ (Redundancy.mem_reads_of_rename hne)
    · exact List.mem_append_left _ (h.renamed value hkept)
  gone value := h.gone_eliminate hdistinct htracked hblock hinstruction hdest hoffered hredundant
  kept other := h.kept_eliminate hdest hoffered hredundant
  replaced value := h.replaced_eliminate hdistinct htracked hblock hinstruction hdest hoffered hredundant
  affected value := h.affected_eliminate hdistinct htracked hblock hinstruction hdest hoffered hredundant hsettled

end AtHand

end Account

/-- In a strict body there is an account of the sweep at every stage. -/
theorem Reached.accounted {scope : Scope} {original : Body} (hdistinct : original.definitions.Nodup)
    (hssa : original.StrictSSA) {done : List Nat} {sweep : Sweep} {stage : Stage}
    (h : Reached scope original done sweep stage) :
    ∃ rewriting reads visited, Account original sweep rewriting reads ∧ match stage with
      | .between waiting =>
        Tracked original sweep.body done rewriting.rename 0 0 0 {} waiting ∧ Settled original reads done 0 0
      | .within block position facts waiting =>
        Tracked original sweep.body done rewriting.rename block position visited facts waiting ∧
          Settled original reads done block visited := by
  induction h using Reached.induction with
  | start =>
    refine ⟨.identity, [], 0, .start original, .start hdistinct, ?_⟩
    exact fun value hvalue => absurd hvalue List.not_mem_nil
  | step hreached hstep ih =>
    cases hstep with
    | @enter _ _ block _ _ _ =>
      obtain ⟨rewriting, reads, -, haccount, htracked, hsettled⟩ := ih
      exact ⟨rewriting, reads, 0, haccount, htracked.enter block, hsettled.imp fun hpast => hpast.enter block⟩
    | keep hinstruction _ hafter =>
      obtain ⟨rewriting, reads, visited, haccount, htracked, hsettled⟩ := ih
      obtain ⟨rest, horder⟩ := hreached.order
      exact ⟨rewriting, reads, visited + 1, haccount, htracked.keep hdistinct hssa horder hinstruction hafter,
        hsettled.imp fun hpast => hpast.mono (Nat.le_succ _)⟩
    | eliminate hinstruction hredundant =>
      obtain ⟨rewriting, reads, visited, haccount, htracked, hsettled⟩ := ih
      obtain ⟨rest, horder⟩ := hreached.order
      obtain ⟨dest, hdest⟩ := Scope.dest?_of_redundancy? hredundant
      have hblock := not_mem_done horder
      have hoffered := hreached.offered.1
      have htracked' := htracked.eliminate hdistinct hssa horder hinstruction hredundant
      rw [← Redundancy.rename_rewriting hoffered hredundant hdest] at htracked'
      exact ⟨_, _, visited + 1,
        haccount.eliminate hdistinct htracked hblock hinstruction hdest hoffered hredundant hsettled, htracked',
        haccount.settled_eliminate hdistinct htracked hblock hinstruction hdest hssa horder hsettled _⟩
    | leave =>
      obtain ⟨rewriting, reads, visited, haccount, htracked, hsettled⟩ := ih
      exact ⟨rewriting, reads, 0, haccount, htracked.leave _, hsettled.imp IsPast.leave⟩

/-! ### After the sweep -/

theorem Reached.affected_eq_nil {scope : Scope} {original : Body} {done : List Nat} {sweep : Sweep} {stage : Stage}
    (h : Reached scope original done sweep stage) (hchanges : sweep.stats.hasChanges = false) : sweep.affected = [] := by
  rw [h.eq_start hchanges]

/-- What the report lists is what the sweep found, in ascending order. -/
theorem affected_finish {scope : Scope} {sweep : Sweep} (h : sweep.stats.hasChanges = false → sweep.affected = []) :
    (finish scope sweep).1.affected = ascending ValueId.index sweep.affected := by
  unfold finish
  split
  · rfl
  · next hchanges =>
    rw [h (Bool.eq_false_iff.2 hchanges)]
    rfl

/-- After the sweep some phis go, and their results are replaced. -/
theorem body_finish_eq (scope : Scope) {sweep : Sweep} (hdistinct : sweep.body.definitions.Nodup) :
    ∃ gone rename, (finish scope sweep).1.body = (Rewriting.withoutPhis gone rename).body sweep.body ∧
      (∀ value, gone value = true → sweep.body.IsPhiResult value) ∧
      ∀ value, rename value ≠ value → gone value = true := by
  unfold finish
  split
  · obtain ⟨gone, rename, hbody, hreplaces⟩ := Body.removeTrivialPhis_eq hdistinct
    exact ⟨gone, rename, hbody, hreplaces.isPhiResult, hreplaces.gone_of_ne⟩
  · exact ⟨fun _ => false, id, (Rewriting.withoutPhis_nothing sweep.body).symm, by simp, by simp⟩

section Finished

variable {original after : Body} {sweep : Sweep} {rewriting : Rewriting} {reads : List ValueId} {gone : ValueId → Bool}
  {rename : ValueId → ValueId} {value : ValueId} (h : Account original sweep rewriting reads)
  (hdistinct : original.definitions.Nodup) (hafter : after = (Rewriting.withoutPhis gone rename).body sweep.body)

include hafter

omit h hdistinct in
/-- What is defined without the phis was defined before, by a phi that stays or by an instruction. -/
theorem exists_definer_of_withoutPhis {operands : List ValueId} (hmem : (value, operands) ∈ after.definers) :
    ∃ before, (value, before) ∈ sweep.body.definers ∧ operands = before.map rename ∧
      (gone value = false ∨ ∃ instruction ∈ sweep.body.instructions, instruction.operation.dest? = some value) := by
  rw [hafter] at hmem
  rcases Rewriting.mem_definers_body.1 hmem with ⟨block, hblock, phi, hphi, hstays, hdest, rfl⟩ |
    ⟨instruction, hinstruction, rewritten, hsome, hdest, rfl⟩
  · exact ⟨_, Body.mem_definers.2 (.inl ⟨block, hblock, phi, hphi, hdest, rfl⟩), rfl, .inl hstays⟩
  · obtain rfl := Option.some.inj hsome
    rw [Instruction.mapUses, Operation.dest?_mapOperands] at hdest
    exact ⟨_, Body.mem_definers.2 (.inr ⟨instruction, hinstruction, hdest, rfl⟩), Operation.operands_mapOperands _ _,
      .inr ⟨instruction, hinstruction, hdest⟩⟩

include h

/-- An instruction that was not replaced is there in the end, under other names. -/
theorem Account.mem_instructions_after {instruction : Instruction} (hinstruction : instruction ∈ original.instructions)
    (hdest : instruction.operation.dest? = some value) (hread : value ∉ reads)
    (hstays : rewriting.gone value = false) : ∃ rename, instruction.mapUses rename ∈ after.instructions := by
  have hswept : instruction.mapUses rewriting.rename ∈ sweep.body.instructions := by
    rw [h.body_eq]
    exact Rewriting.mem_instructions_body.2 ⟨instruction, hinstruction, h.kept_of_dest hdest hread hstays⟩
  refine ⟨fun used => rename (rewriting.rename used), ?_⟩
  rw [hafter, ← Rewriting.mapUses_mapUses]
  exact Rewriting.mem_instructions_body.2 ⟨_, hswept, rfl⟩

include hdistinct

/-- The reads that are no longer there are those of the account. -/
theorem Account.losesRead_iff : original.LosesRead after value ↔ value ∈ reads := by
  constructor
  · rintro ⟨read, hmem, hdest, hreadsField, hlost⟩
    by_contra hread
    have hstays : rewriting.gone value = false := by
      rw [Bool.eq_false_iff]
      intro hgone
      obtain ⟨check, hcheck, type, hoperation⟩ := (h.gone value hgone).resolve_left hread
      obtain rfl := Body.instruction_unique hdistinct hmem hcheck hdest (by rw [hoperation]; rfl)
      rw [hoperation] at hreadsField
      cases hreadsField
    obtain ⟨names, hleft⟩ := h.mem_instructions_after hafter hmem hdest hread hstays
    refine hlost _ hleft ?_
    rw [Instruction.mapUses, Execution.unnamed_mapOperands]
  · intro hread
    obtain ⟨read, hmem, hdest, hreadsField, hreplaced⟩ := h.replaced value hread
    refine ⟨read, hmem, hdest, hreadsField, fun instruction hinstruction hsame => ?_⟩
    rw [hafter] at hinstruction
    obtain ⟨swept, hswept, hsome⟩ := Rewriting.mem_instructions_body.1 hinstruction
    obtain rfl := Option.some.inj hsome
    rw [Instruction.mapUses, Execution.unnamed_mapOperands] at hsame
    rw [h.body_eq] at hswept
    obtain ⟨origin, horigin, hrewritten⟩ := Rewriting.mem_instructions_body.1 hswept
    -- operations that differ in names only define the same value
    have hresult : swept.operation.dest? = some value := by
      rw [← Operation.dest?_unnamed, hsame, Operation.dest?_unnamed, hdest]
    obtain rfl := Body.instruction_unique hdistinct horigin hmem
      (h.lawful.dest?_of_instruction hrewritten hresult) hdest
    exact (hreplaced swept hrewritten).2 hsame

/-- A value with a replaced read among its operands is still defined, or it is itself such a read, or a phi that is gone. -/
theorem Account.kept_or_lost {operands : List ValueId} (hmem : (value, operands) ∈ original.definers) {used : ValueId}
    (hused : used ∈ operands) :
    value ∈ after.definitions ∨ original.LosesPhi after value ∨ original.LosesRead after value := by
  by_cases hdefined : value ∈ after.definitions
  · exact .inl hdefined
  · rcases Body.mem_definers.1 hmem with ⟨block, hblock, phi, hphi, hdest, -⟩ | ⟨instruction, hinstruction, hdest, rfl⟩
    · exact .inr (.inl ⟨⟨block, hblock, phi, hphi, hdest⟩, hdefined⟩)
    · refine .inr (.inr ((h.losesRead_iff hdistinct hafter).2 ?_))
      by_contra hread
      obtain ⟨names, hleft⟩ := h.mem_instructions_after hafter hinstruction hdest hread
        (h.gone_eq_false hdistinct hmem hused hread)
      have hdefiner : (value, _) ∈ after.definers := Body.mem_definers.2 (.inr ⟨_, hleft, by
        rw [Instruction.mapUses, Operation.dest?_mapOperands, hdest], rfl⟩)
      exact hdefined (Body.mem_definitions_iff_definers.2 ⟨_, hdefiner⟩)

/-- A value with other operands than before has a replaced read among its operands, is such a read itself, or has a phi
that is gone among its operands. -/
theorem Account.operands_changed (hgone : ∀ value, gone value = true → sweep.body.IsPhiResult value)
    (hrename : ∀ value, rename value ≠ value → gone value = true) {before later : List ValueId}
    (hbefore : (value, before) ∈ original.definers) (hlater : (value, later) ∈ after.definers) (hne : before ≠ later) :
    (∃ read ∈ reads, read ∈ before) ∨ original.LosesRead after value ∨
      ∃ operand ∈ before, original.LosesPhi after operand := by
  have hswept : sweep.body.definitions.Nodup := by
    rw [h.body_eq, h.lawful.body_definitions]
    exact hdistinct.filter _
  obtain ⟨middle, hmiddle, rfl, -⟩ := exists_definer_of_withoutPhis hafter hlater
  obtain ⟨origin, horigin, rfl | ⟨-, hread⟩⟩ := h.exists_definer hdistinct hmiddle
  · obtain rfl := Body.definers_unique hdistinct hbefore horigin
    obtain ⟨operand, hoperand, hchanged⟩ : ∃ operand ∈ before, rename (rewriting.rename operand) ≠ operand := by
      by_contra hnone
      refine hne ?_
      rw [List.map_map, List.map_congr_left fun operand hoperand => ?_, List.map_id]
      by_contra hchanged
      exact hnone ⟨operand, hoperand, hchanged⟩
    by_cases hsame : rewriting.rename operand = operand
    · rw [hsame] at hchanged
      have hphi := hgone operand (hrename operand hchanged)
      refine .inr (.inr ⟨operand, hoperand, ?_, fun hdefined => ?_⟩)
      · rw [h.body_eq] at hphi
        exact Body.isPhiResult_of_rewriting hphi
      · obtain ⟨operands, hmem⟩ := Body.mem_definitions_iff_definers.1 hdefined
        obtain ⟨-, -, -, hstays | ⟨instruction, hinstruction, hdest⟩⟩ := exists_definer_of_withoutPhis hafter hmem
        · exact Bool.false_ne_true (hstays.symm.trans (hrename operand hchanged))
        · exact hphi.dest?_ne hswept hinstruction hdest
    · exact .inl ⟨operand, h.renamed operand hsame, hoperand⟩
  · exact .inr (.inl ((h.losesRead_iff hdistinct hafter).2 hread))

end Finished

/-- **Affected values.** On a strict body without defects the pass succeeds if the summaries name fields of the program. It
reports in strictly ascending order exactly the values that had the result of a read that is gone among their operands.
Such a value is still defined unless it is such a read itself or a phi that is gone. A value that is defined before and
after with different operands is reported unless it is a read that became a constant or has a phi that is gone among its
operands. -/
theorem affected_values_use_lost_reads (context : PassContext) (body : Body)
    (hmethod : (context.program.method? body.method).isSome = true) (hdefect : body.defect? = none)
    (hssa : body.StrictSSA) :
    (context.program.SummariesNameFields → ∃ outcome stats, runWithStats context body = .ok (outcome, stats)) ∧
    ∀ outcome stats, runWithStats context body = .ok (outcome, stats) →
      outcome.affected.Pairwise (·.index < ·.index) ∧
      (∀ value, value ∈ outcome.affected ↔
        ∃ operands, (value, operands) ∈ body.definers ∧ ∃ read ∈ operands, body.LosesRead outcome.body read) ∧
      (∀ value ∈ outcome.affected, value ∈ outcome.body.definitions ∨ body.LosesPhi outcome.body value ∨
        body.LosesRead outcome.body value) ∧
      ∀ value before after, (value, before) ∈ body.definers → (value, after) ∈ outcome.body.definers → before ≠ after →
        value ∈ outcome.affected ∨ body.LosesRead outcome.body value ∨
          ∃ operand ∈ before, body.LosesPhi outcome.body operand := by
  obtain ⟨definition, hdefinition⟩ := Option.isSome_iff_exists.1 hmethod
  have hdistinct := ((Body.defect?_eq_none_iff body).1 hdefect).distinct
  rw [runWithStats_eq hdefinition]
  constructor
  · intro hfields
    obtain ⟨sweep, hsweep⟩ := sweepBody_succeeds
      (show (scopeFor context body definition).program.SummariesNameFields from hfields) body
    rw [hsweep]
    exact ⟨_, _, rfl⟩
  · intro outcome stats hrun
    cases hsweep : sweepBody (scopeFor context body definition) body with
    | error error =>
      rw [hsweep] at hrun
      cases hrun
    | ok sweep =>
      rw [hsweep] at hrun
      obtain rfl : (finish (scopeFor context body definition) sweep).1 = outcome :=
        congrArg Prod.fst (Except.ok.inj hrun)
      obtain ⟨waiting, hreached⟩ := sweepBody_reached hsweep
      obtain ⟨rewriting, reads, -, haccount, htracked, -⟩ := hreached.accounted hdistinct hssa
      obtain ⟨gone, rename, hafter, hgone, hrename⟩ :=
        body_finish_eq (scopeFor context body definition) htracked.distinct
      have hlost (read : ValueId) :
          body.LosesRead (finish (scopeFor context body definition) sweep).1.body read ↔ read ∈ reads :=
        haccount.losesRead_iff hdistinct hafter
      have haffected (value : ValueId) : value ∈ (finish (scopeFor context body definition) sweep).1.affected ↔
          ∃ operands, (value, operands) ∈ body.definers ∧ ∃ read ∈ reads, read ∈ operands := by
        rw [affected_finish hreached.affected_eq_nil, mem_ascending ValueId.index_injective, haccount.affected]
      refine ⟨?_, fun value => ?_, fun value hvalue => ?_, fun value before after hbefore hlater hne => ?_⟩
      · rw [affected_finish hreached.affected_eq_nil]
        exact pairwise_ascending ValueId.index_injective _
      · rw [haffected]
        refine exists_congr fun operands => and_congr_right fun _ => exists_congr fun read => ?_
        rw [hlost, and_comm]
      · obtain ⟨operands, hmem, read, -, hused⟩ := (haffected value).1 hvalue
        exact haccount.kept_or_lost hdistinct hafter hmem hused
      · refine (haccount.operands_changed hdistinct hafter hgone hrename hbefore hlater hne).imp_left fun hread => ?_
        exact (haffected value).2 ⟨before, hbefore, hread⟩

/-- A phi is reported, since one of its operands was a read that is gone, and goes itself. -/
theorem affected_values_of_sizeReadTwice :
    (sizeReadTwice.1.method? sizeReadTwice.2.method).isSome = true ∧ sizeReadTwice.2.defect? = none ∧
      sizeReadTwice.2.StrictSSA ∧
      ∃ outcome stats, runWithStats { program := sizeReadTwice.1, settings := {} } sizeReadTwice.2 = .ok (outcome, stats) ∧
        outcome.affected = [⟨3⟩] ∧
        (∃ operands, (⟨3⟩, operands) ∈ sizeReadTwice.2.definers ∧
          ∃ read ∈ operands, sizeReadTwice.2.LosesRead outcome.body read) ∧
        (⟨3⟩ ∈ outcome.body.definitions ∨ sizeReadTwice.2.LosesPhi outcome.body ⟨3⟩ ∨
          sizeReadTwice.2.LosesRead outcome.body ⟨3⟩) := by
  let context : PassContext := { program := sizeReadTwice.1, settings := {} }
  have hmethod : (context.program.method? sizeReadTwice.2.method).isSome = true := by decide
  have hdefect : sizeReadTwice.2.defect? = none := by decide
  have hssa : sizeReadTwice.2.StrictSSA := Body.strictSSA_of_usesEntryOnly (by decide)
  have hchecked : (runWithStats context sizeReadTwice.2).toOption.map (·.1.affected) = some [⟨3⟩] := by decide +kernel
  obtain ⟨⟨outcome, stats⟩, hrun, haffected⟩ := exists_of_toOption_map hchecked
  obtain ⟨-, hexact, hkept, -⟩ :=
    (affected_values_use_lost_reads context sizeReadTwice.2 hmethod hdefect hssa).2 outcome stats hrun
  have hmem : ⟨3⟩ ∈ outcome.affected := haffected ▸ List.mem_cons_self
  exact ⟨hmethod, hdefect, hssa, outcome, stats, hrun, haffected, (hexact ⟨3⟩).1 hmem, hkept ⟨3⟩ hmem⟩

/-- Three strict bodies without defects, each with the values reported and the definitions before and after. In the first a
phi is reported that is gone, and the operand of the last read changes without a report. In the second a read is reported
that is gone. In the third two reads become constants and lose their operand, and nothing is reported. -/
theorem affected_values_out_of_date :
    let report (program : Program) (body : Body) :=
      (runWithStats { program, settings := {} } body).toOption.map fun finished =>
        (finished.1.affected, finished.1.body.definers)
    (sizeReadTwice.2.defect? = none ∧ sizeReadTwice.2.StrictSSA ∧
      sizeReadTwice.2.definers
        = [(⟨0⟩, []), (⟨1⟩, [⟨0⟩]), (⟨2⟩, [⟨0⟩]), (⟨3⟩, [⟨2⟩, ⟨1⟩]), (⟨4⟩, [⟨1⟩]), (⟨5⟩, [⟨3⟩])] ∧
      report sizeReadTwice.1 sizeReadTwice.2
        = some ([⟨3⟩], [(⟨0⟩, []), (⟨1⟩, [⟨0⟩]), (⟨4⟩, [⟨1⟩]), (⟨5⟩, [⟨1⟩])])) ∧
    (sizeReadThroughAlias.2.defect? = none ∧ sizeReadThroughAlias.2.StrictSSA ∧
      report sizeReadThroughAlias.1 sizeReadThroughAlias.2
        = some ([⟨3⟩, ⟨4⟩, ⟨6⟩, ⟨7⟩],
          [(⟨0⟩, []), (⟨1⟩, [⟨0⟩]), (⟨3⟩, [⟨1⟩]), (⟨4⟩, [⟨1⟩]), (⟨5⟩, [⟨3⟩]), (⟨7⟩, [⟨5⟩, ⟨4⟩])])) ∧
    storedStaticRead.2.defect? = none ∧ storedStaticRead.2.StrictSSA ∧
      storedStaticRead.2.definers = [(⟨0⟩, []), (⟨1⟩, [⟨0⟩]), (⟨2⟩, [⟨0⟩])] ∧
      report storedStaticRead.1 storedStaticRead.2 = some ([], [(⟨0⟩, []), (⟨1⟩, []), (⟨2⟩, [])]) := by
  intro report
  exact ⟨⟨by decide, Body.strictSSA_of_usesEntryOnly (by decide), by decide, by decide +kernel⟩,
    ⟨by decide, Body.strictSSA_of_usesEntryOnly (by decide), by decide +kernel⟩,
    by decide, Body.strictSSA_of_usesEntryOnly (by decide), by decide, by decide +kernel⟩

end LoadElimination

end Bytecode
