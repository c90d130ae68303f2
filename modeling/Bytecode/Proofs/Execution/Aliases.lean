import Bytecode.Proofs.Execution.Faithful
/-!
# Aliases hold the same

The value of an `assume` is a copy of its source, and a body records it as an alias. The source may get another name later
while the alias stays as recorded, so the end of an alias chain need not be defined any more. What matters is that values
with one alias root are copies of one value, the origin of that root: wherever one of them can be used the origin can be
used too, and the two hold the same.
-/

namespace Bytecode

namespace Body

/-- The source of the assumption that a value comes from. -/
def assumedSource? (body : Body) (value : ValueId) : Option ValueId :=
  body.instructions.findSome? fun instruction =>
    match instruction.operation with
    | .assume dest source => if dest = value then some source else none
    | _ => none

def followAssumptions (body : Body) : (steps : Nat) → ValueId → ValueId
  | 0, value => value
  | steps + 1, value =>
    match body.assumedSource? value with
    | some source => body.followAssumptions steps source
    | none => value

/-- The value that a value is a copy of under assumptions. -/
def copied (body : Body) (value : ValueId) : ValueId :=
  body.followAssumptions body.instructions.length value

/-- Values with one alias root are copies of one value. -/
def AliasesAssumed (body : Body) : Prop :=
  ∀ value ∈ body.definitions, ∀ other ∈ body.definitions, body.aliasRoot value = body.aliasRoot other →
    body.copied value = body.copied other

instance (body : Body) : Decidable body.AliasesAssumed :=
  inferInstanceAs (Decidable (∀ value ∈ body.definitions, ∀ other ∈ body.definitions, _ → _))

/-- The value that the values with an alias root are copies of. -/
def aliasOrigin (body : Body) (root : ValueId) : ValueId :=
  ((body.definitions.find? (body.aliasRoot · = root)).map body.copied).getD root

theorem aliasRoot_eq {body other : Body} (h : other.values = body.values) (value : ValueId) :
    other.aliasRoot value = body.aliasRoot value := by
  have hfollow : ∀ steps value, other.followAliases steps value = body.followAliases steps value := by
    intro steps
    induction steps with
    | zero => exact fun _ => rfl
    | succ steps ih =>
      intro value
      simp only [followAliases, value?, h, ih]
  rw [aliasRoot, aliasRoot, hfollow, h]

variable {body : Body}

/-- The source of an assumption is available where its value is defined. -/
theorem supports_of_assume (hbody : body.WellFormed) (hssa : body.StrictSSA) {instruction : Instruction}
    {value source : ValueId} (hmem : instruction ∈ body.instructions)
    (hoperation : instruction.operation = .assume value source) : Rewriting.Supports body value source := by
  have hdest : instruction.operation.dest? = some value := by
    rw [hoperation]
    rfl
  intro position block hblock hreachable
  constructor
  · intro hphi
    obtain ⟨other, hother, hinstruction⟩ := List.mem_flatMap.1 hmem
    obtain ⟨index, hindex⟩ := List.mem_iff_getElem?.1 hother
    exact absurd hdest (dest?_ne_of_phi hbody.distinct hblock hphi hindex hinstruction)
  · intro earlier found later hsplit hfound
    have hfoundMem : found ∈ body.instructions :=
      List.mem_flatMap.2 ⟨block, List.mem_of_getElem? hblock, by rw [hsplit]; simp⟩
    obtain rfl := instruction_unique hbody.distinct hfoundMem hmem hfound hdest
    refine hssa.use_available position block hblock hreachable earlier found later hsplit source ?_
    rw [Instruction.uses, hoperation]
    simp [Operation.operands]

/-- A value that is available somewhere is defined. -/
theorem AvailableAfter.mem_definitions {position : Nat} {block : Block} (hblock : body.block? position = some block)
    {earlier later : List Instruction} (hsplit : block.instructions = earlier ++ later) {value : ValueId}
    (h : body.AvailableAfter position block earlier value) : value ∈ body.definitions := by
  obtain ⟨upper, hdefined, -⟩ := h.atEnd hblock hsplit
  exact Body.mem_definitions.2 ⟨upper, hdefined⟩

private theorem assumedSource?_eq_some {value source : ValueId} (h : body.assumedSource? value = some source) :
    ∃ instruction ∈ body.instructions, instruction.operation = .assume value source := by
  obtain ⟨instruction, hmem, hsource⟩ := List.exists_of_findSome?_eq_some h
  split at hsource
  · rename_i dest found hoperation
    rw [Option.ite_none_right_eq_some] at hsource
    obtain ⟨rfl, hfound⟩ := hsource
    cases hfound
    exact ⟨instruction, hmem, hoperation⟩
  · cases hsource

/-- Whatever every assumption carries over from its value to its source holds of the value copied. -/
theorem copied_induction {P : ValueId → Prop} {value : ValueId} (h : P value)
    (hlink : ∀ value source, ∀ instruction ∈ body.instructions, instruction.operation = .assume value source →
      P value → P source) :
    P (body.copied value) := by
  have hfollow : ∀ steps value, P value → P (body.followAssumptions steps value) := by
    intro steps
    induction steps with
    | zero => exact fun _ h => h
    | succ steps ih =>
      intro value h
      unfold followAssumptions
      split
      · rename_i source hsource
        obtain ⟨instruction, hmem, hoperation⟩ := assumedSource?_eq_some hsource
        exact ih source (hlink value source instruction hmem hoperation h)
      · exact h
  exact hfollow _ value h

private theorem aliasOrigin_aliasRoot (haliases : body.AliasesAssumed) {value : ValueId}
    (hvalue : value ∈ body.definitions) :
    body.aliasOrigin (body.aliasRoot value) = body.copied value := by
  have hsome : (body.definitions.find? (body.aliasRoot · = body.aliasRoot value)).isSome = true :=
    List.find?_isSome.2 ⟨value, hvalue, decide_eq_true rfl⟩
  obtain ⟨found, hfound⟩ := Option.isSome_iff_exists.1 hsome
  have hroot : body.aliasRoot found = body.aliasRoot value := by simpa using List.find?_some hfound
  rw [aliasOrigin, hfound]
  exact haliases found (List.mem_of_find?_eq_some hfound) value hvalue hroot

/-- Where a value is available, the origin of its alias root is. -/
theorem AvailableAfter.aliasOrigin (haliases : body.AliasesAssumed) (hbody : body.WellFormed) (hssa : body.StrictSSA)
    {position : Nat} {block : Block} (hblock : body.block? position = some block) (hreachable : body.Reachable position)
    {earlier later : List Instruction} (hsplit : block.instructions = earlier ++ later) {value : ValueId}
    (h : body.AvailableAfter position block earlier value) :
    body.AvailableAfter position block earlier (body.aliasOrigin (body.aliasRoot value)) := by
  rw [aliasOrigin_aliasRoot haliases (h.mem_definitions hblock hsplit)]
  refine copied_induction h fun value source instruction hmem hoperation havailable => ?_
  exact (supports_of_assume hbody hssa hmem hoperation).availableAfter hblock hreachable hsplit havailable

end Body

namespace Execution

open LoadElimination (Scope)

variable {Datum Address World : Type} [DecidableEq Address] {machine : Machine Datum Address World} {scope : Scope}
  {body : Body} {start : Situation Datum Address World}

/-- The value of an assumption holds what its source holds. -/
theorem Passes.agreeAt_assume (hbody : body.WellFormed) (hssa : body.StrictSSA) {instruction : Instruction}
    {value source : ValueId} (hmem : instruction ∈ body.instructions)
    (hoperation : instruction.operation = .assume value source) {position : Nat} {earlier : List Instruction}
    {state : State Datum Address World} (h : Passes machine scope body start position earlier state) :
    AgreeAt body value source position earlier state := by
  have hdest : instruction.operation.dest? = some value := by
    rw [hoperation]
    rfl
  refine h.agreeAt hbody (Body.supports_of_assume hbody hssa hmem hoperation) ?_ ?_
  · intro position block earlier found later state after hpasses hblock hsplit hfound hexecute
    have hfoundMem : found ∈ body.instructions :=
      List.mem_flatMap.2 ⟨block, List.mem_of_getElem? hblock, by rw [hsplit]; simp⟩
    obtain rfl := Body.instruction_unique hbody.distinct hfoundMem hmem hfound hdest
    obtain ⟨data, result, situation, hdata, hperform, rfl⟩ := execute_eq_next hexecute
    rw [hoperation] at hdata hperform ⊢
    simp only [perform, outcome] at hperform
    split at hperform
    · rename_i hhead
      cases hperform
      rw [env_of_head hdata hhead]
      exact (assign_self state.env value _).symm
    · cases hperform
  · intro position target block next earlier found later state moved _ _ _ _ hnext hphi
    obtain ⟨other, hother, hinstruction⟩ := List.mem_flatMap.1 hmem
    obtain ⟨index, hindex⟩ := List.mem_iff_getElem?.1 hother
    exact absurd hdest (Body.dest?_ne_of_phi hbody.distinct hnext hphi hindex hinstruction)

/-- The origin of a value's alias root holds what the value holds. -/
theorem Passes.env_aliasOrigin (haliases : body.AliasesAssumed) (hbody : body.WellFormed) (hssa : body.StrictSSA)
    {position : Nat} {earlier : List Instruction} {state : State Datum Address World}
    (h : Passes machine scope body start position earlier state) {value : ValueId}
    (havailable : body.Available position earlier value) {datum : Datum} (hdatum : state.env value = some datum) :
    state.env (body.aliasOrigin (body.aliasRoot value)) = some datum := by
  obtain ⟨block, later, hblock, hsplit⟩ := h.split hbody
  obtain ⟨found, hfound, hafter⟩ := havailable
  obtain rfl := Option.some.inj (hfound.symm.trans hblock)
  rw [Body.aliasOrigin_aliasRoot haliases (hafter.mem_definitions hblock hsplit)]
  refine (Body.copied_induction (P := fun value => body.AvailableAfter position found earlier value ∧
    state.env value = some datum) ⟨hafter, hdatum⟩ fun value source instruction hmem hoperation ⟨hafter, hdatum⟩ => ?_).2
  refine ⟨?_, h.agreeAt_assume hbody hssa hmem hoperation ⟨found, hblock, hafter⟩ datum hdatum⟩
  exact (Body.supports_of_assume hbody hssa hmem hoperation).availableAfter hblock (h.reachable hbody) hsplit hafter

end Execution

end Bytecode
