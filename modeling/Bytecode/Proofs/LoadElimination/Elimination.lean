import Bytecode.Proofs.Body.TrivialPhi
import Bytecode.Proofs.LoadElimination.Sweep
/-!
# One elimination as a rewriting

What the sweep does to a body is always one of three rewritings at the instruction it stands at: the known value
supersedes the result of a read, the read becomes the creation of a constant, or an initialization check goes, whose
result nobody uses.
-/

namespace Bytecode

theorem Constant.dest?_materialize (constant : Constant) (dest : ValueId) :
    (constant.materialize dest).dest? = some dest := by
  cases constant <;> rfl

theorem Constant.operands_materialize (constant : Constant) (dest : ValueId) :
    (constant.materialize dest).operands = [] := by
  cases constant <;> rfl

namespace Body

/-- The value is the result of an initialization check. -/
def IsInitResult (body : Body) (value : ValueId) : Prop :=
  ∃ instruction ∈ body.instructions, ∃ type, instruction.operation = .initClass value type

/-- No result of an initialization check is used. -/
def InitUnused (body : Body) : Prop :=
  ∀ value, body.IsInitResult value → value ∉ body.uses

private theorem initUnused_iff {body : Body} :
    body.InitUnused ↔ (body.instructions.all fun instruction =>
      match instruction.operation with
      | .initClass value _ => decide (value ∉ body.uses)
      | _ => true) = true := by
  rw [List.all_eq_true]
  constructor
  · intro h instruction hinstruction
    split
    · rename_i value type hoperation
      exact decide_eq_true (h value ⟨instruction, hinstruction, type, hoperation⟩)
    · rfl
  · rintro h value ⟨instruction, hinstruction, type, hoperation⟩
    have hunused := h instruction hinstruction
    rw [hoperation] at hunused
    exact of_decide_eq_true hunused

instance (body : Body) : Decidable body.InitUnused :=
  decidable_of_iff _ initUnused_iff.symm

theorem AvailableAfter.mono_take {body : Body} {position : Nat} {block : Block} {instructions : List Instruction}
    {value : ValueId} {shorter longer : Nat}
    (h : body.AvailableAfter position block (instructions.take shorter) value) (hle : shorter ≤ longer) :
    body.AvailableAfter position block (instructions.take longer) value := by
  have hsplit : instructions.take longer
      = instructions.take shorter ++ (instructions.take longer).drop shorter := by
    conv_lhs => rw [← List.take_append_drop shorter (instructions.take longer)]
    rw [List.take_take, Nat.min_eq_left hle]
  rw [hsplit]
  exact h.append _

end Body

namespace LoadElimination

/-! ### Redundancy -/

/-- A value that is known of a read field. -/
def Scope.knownRead? (scope : Scope) (body : Body) (facts : Facts) : Operation → Option Known
  | .instanceGet _ object field => do
    facts.fields.instance? (← scope.trackedField? field false).id (body.aliasRoot object)
  | .staticGet _ field => do
    facts.fields.static? (← scope.trackedField? field true).id
  | _ => none

/-- An instruction is redundant if it reads a field with a known value or checks a class known to be initialized. -/
theorem Scope.redundancy?_cases {scope : Scope} {body : Body} {facts : Facts} {operation : Operation}
    {redundancy : Redundancy} (h : scope.redundancy? body facts operation = some redundancy) :
    (∃ dest known, operation.dest? = some dest ∧ (∀ other type, operation ≠ .initClass other type) ∧
      scope.knownRead? body facts operation = some known ∧ scope.usable? dest known = some redundancy) ∨
    ∃ dest type, operation = .initClass dest type ∧ type ∈ facts.initialized ∧ redundancy = .initialized type := by
  unfold redundancy? at h
  split at h
  · rename_i dest object field
    obtain ⟨definition, hdefinition, h⟩ := Option.bind_eq_some_iff.1 h
    split at h
    · cases h
    · obtain ⟨known, hknown, h⟩ := Option.bind_eq_some_iff.1 h
      refine .inl ⟨dest, known, rfl, fun _ _ => Operation.noConfusion, ?_, h⟩
      simp [knownRead?, hdefinition, hknown]
  · rename_i dest field
    obtain ⟨definition, hdefinition, h⟩ := Option.bind_eq_some_iff.1 h
    split at h
    · cases h
    · obtain ⟨known, hknown, h⟩ := Option.bind_eq_some_iff.1 h
      refine .inl ⟨dest, known, rfl, fun _ _ => Operation.noConfusion, ?_, h⟩
      simp [knownRead?, hdefinition, hknown]
  · rename_i dest type
    split at h
    · rename_i hinitialized
      exact .inr ⟨dest, type, rfl, hinitialized, (Option.some.inj h).symm⟩
    · cases h
  · cases h

theorem Scope.dest?_of_redundancy? {scope : Scope} {body : Body} {facts : Facts} {operation : Operation}
    {redundancy : Redundancy} (h : scope.redundancy? body facts operation = some redundancy) :
    ∃ dest, operation.dest? = some dest := by
  rcases redundancy?_cases h with ⟨dest, -, hdest, -⟩ | ⟨dest, type, rfl, -⟩
  · exact ⟨dest, hdest⟩
  · exact ⟨dest, rfl⟩

theorem mentions_of_knownRead? {scope : Scope} {body : Body} {facts : Facts} {operation : Operation} {value : ValueId}
    (h : scope.knownRead? body facts operation = some (.existing value)) : Mentions facts.fields value := by
  unfold Scope.knownRead? at h
  split at h
  · obtain ⟨definition, -, h⟩ := Option.bind_eq_some_iff.1 h
    exact .of_instance? h
  · obtain ⟨definition, -, h⟩ := Option.bind_eq_some_iff.1 h
    exact .of_static? h
  · cases h

/-! ### The rewritings -/

/-- What eliminating an instruction that defines `dest` does to a body. -/
def Redundancy.rewriting (dest : ValueId) : Redundancy → Rewriting
  | .existingValue _ value => .supersede dest value
  | .constantValue _ constant => .redefine dest (constant.materialize dest)
  | .initialized _ => .supersede dest dest

theorem Redundancy.rewriting_lawful (redundancy : Redundancy) (dest : ValueId) :
    (redundancy.rewriting dest).Lawful := by
  cases redundancy with
  | existingValue _ value => exact Rewriting.supersede_lawful dest value
  | constantValue _ constant =>
    exact Rewriting.redefine_lawful (constant.dest?_materialize dest) (constant.operands_materialize dest)
  | initialized _ => exact Rewriting.supersede_lawful dest dest

theorem Redundancy.gone_rewriting {redundancy : Redundancy} {dest value : ValueId} (hne : value ≠ dest) :
    (redundancy.rewriting dest).gone value = false := by
  cases redundancy <;> simp [rewriting, Rewriting.supersede, Rewriting.redefine, hne]

/-- Only the instruction that defines the value can go. -/
theorem Redundancy.instruction_rewriting_isSome {redundancy : Redundancy} {dest : ValueId} {instruction : Instruction}
    (hne : instruction.operation.dest? ≠ some dest) :
    ((redundancy.rewriting dest).instruction instruction).isSome = true := by
  cases redundancy <;> simp [rewriting, Rewriting.supersede, Rewriting.redefine, hne]

/-- An instruction that neither defines nor uses the value stays as it is. -/
theorem Redundancy.instruction_rewriting_eq_self {redundancy : Redundancy} {dest : ValueId} {instruction : Instruction}
    (hne : instruction.operation.dest? ≠ some dest) (hunused : dest ∉ instruction.uses) :
    (redundancy.rewriting dest).instruction instruction = some instruction := by
  have hsame : ∀ new, instruction.mapUses (Rewriting.replacing dest new) = instruction := by
    intro new
    refine Rewriting.mapUses_eq_self fun value hvalue => if_neg ?_
    rintro rfl
    exact hunused hvalue
  cases redundancy with
  | existingValue _ value => exact (Rewriting.supersede_other value hne).trans (congrArg some (hsame value))
  | constantValue => exact congrArg some (if_neg hne)
  | initialized => exact (Rewriting.supersede_other dest hne).trans (congrArg some (hsame dest))

/-- What an instruction becomes has the same operation up to names, keeps debug values or creates a constant. -/
theorem Redundancy.operation_rewriting {redundancy : Redundancy} {dest : ValueId} {instruction rewritten : Instruction}
    (h : (redundancy.rewriting dest).instruction instruction = some rewritten) :
    (∃ rename, rewritten.operation = instruction.operation.mapOperands rename) ∨
      rewritten.operation = .debugLocalRead ∨ ∃ constant : Constant, rewritten.operation = constant.materialize dest := by
  have hsuperseded : ∀ new, (Rewriting.supersede dest new).instruction instruction = some rewritten →
      (∃ rename, rewritten.operation = instruction.operation.mapOperands rename) ∨
        rewritten.operation = .debugLocalRead := by
    intro new hnew
    by_cases hdest : instruction.operation.dest? = some dest
    · rw [Rewriting.supersede_definition new hdest] at hnew
      split at hnew <;> cases hnew
      exact .inr rfl
    · rw [Rewriting.supersede_other new hdest] at hnew
      cases hnew
      exact .inl ⟨_, rfl⟩
  cases redundancy with
  | existingValue _ new => exact (hsuperseded new h).imp_right .inl
  | initialized _ => exact (hsuperseded dest h).imp_right .inl
  | constantValue _ constant =>
    obtain rfl := Option.some.inj h
    split
    · exact .inr (.inr ⟨constant, rfl⟩)
    · exact .inl ⟨id, (Operation.mapOperands_eq_self fun _ _ => rfl).symm⟩

/-- The instruction that defines the value is still there exactly if the sweep goes past it. -/
theorem Redundancy.length_rewriting (redundancy : Redundancy) {dest : ValueId} {instruction : Instruction}
    (hdest : instruction.operation.dest? = some dest) :
    ((redundancy.rewriting dest).instruction instruction).toList.length
      = if isRemoved instruction redundancy then 0 else 1 := by
  cases redundancy with
  | existingValue _ value =>
    rw [rewriting, Rewriting.supersede_definition value hdest, isRemoved]
    split <;> rfl
  | constantValue => simp [rewriting, Rewriting.redefine, isRemoved]
  | initialized =>
    rw [rewriting, Rewriting.supersede_definition dest hdest, isRemoved]
    split <;> rfl

theorem Sweep.body_eliminate {scope : Scope} {sweep : Sweep} {block position : Nat} {instruction : Instruction}
    {facts : Facts} {redundancy : Redundancy} (hdistinct : sweep.body.definitions.Nodup)
    (hinstruction : sweep.body.instruction? block position = some instruction)
    (hredundant : scope.redundancy? sweep.body facts instruction.operation = some redundancy) {dest : ValueId}
    (hdest : instruction.operation.dest? = some dest) :
    (sweep.eliminate scope block position redundancy).body = (redundancy.rewriting dest).body sweep.body := by
  rcases Scope.redundancy?_cases hredundant with ⟨found, known, hfound, -, -, husable⟩ | ⟨_, type, -, -, rfl⟩
  · obtain rfl : dest = found := Option.some.inj (hdest.symm.trans hfound)
    cases known with
    | existing value =>
      obtain rfl := Option.some.inj husable
      exact Rewriting.discardInstruction_eq hdistinct hinstruction hdest value
    | constant constant =>
      rw [Scope.usable?, Option.ite_none_right_eq_some] at husable
      obtain rfl := Option.some.inj husable.2
      exact Rewriting.replaceOperation_eq hdistinct hinstruction hdest _
  · exact Rewriting.discardInstruction_eq_self hdistinct hinstruction hdest

/-- In front of the instruction that is eliminated, a block keeps its length. -/
theorem Redundancy.take_rewriting {redundancy : Redundancy} {dest : ValueId} {block : Block} {position : Nat}
    (hnot : dest ∉ (block.instructions.take position).filterMap (·.operation.dest?)) :
    ((redundancy.rewriting dest).block block).instructions.take (block.instructions.take position).length
      = (block.instructions.take position).filterMap (redundancy.rewriting dest).instruction := by
  have hlength : ((block.instructions.take position).filterMap (redundancy.rewriting dest).instruction).length
      = (block.instructions.take position).length := by
    rw [List.length_filterMap_eq_countP, List.countP_eq_length]
    intro instruction hinstruction
    exact instruction_rewriting_isSome fun heq => hnot (List.mem_filterMap.2 ⟨instruction, hinstruction, heq⟩)
  conv_lhs =>
    rw [Rewriting.block]
    rw [← List.take_append_drop position block.instructions]
  rw [List.filterMap_append, List.take_append_drop, ← hlength, List.take_left]

end LoadElimination

end Bytecode
