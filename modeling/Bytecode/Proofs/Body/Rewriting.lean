import Bytecode.Proofs.Body.StrictSSA
/-!
# Rewriting a body

A body is rewritten instruction by instruction: every instruction stays, changes or goes, some values are no longer
defined, and other values are used in their place. If what is used in place of a value is available wherever the value
was, a strict body without defects stays one. Two kinds of rewriting are used. One value can supersede another, whose
definition then goes, be it an instruction or a phi; and the instruction that defines a value can get an operation without
operands that defines it too.
-/

namespace Bytecode

/-- What becomes of instructions and values. -/
structure Rewriting where
  /-- Values whose definition goes. -/
  gone : ValueId → Bool
  /-- What is used in place of a value. -/
  rename : ValueId → ValueId
  /-- What an instruction becomes, if it does not go. -/
  instruction : Instruction → Option Instruction

namespace Rewriting

def block (rewriting : Rewriting) (block : Block) : Block :=
  { block with
    phis := (block.phis.filter fun phi => !rewriting.gone phi.dest).map (·.mapOperands rewriting.rename)
    instructions := block.instructions.filterMap rewriting.instruction }

def body (rewriting : Rewriting) (body : Body) : Body :=
  { body with blocks := body.blocks.map rewriting.block }

/-- Instructions keep their definitions, apart from those that go, use only renamed values and end a block as before. -/
structure Lawful (rewriting : Rewriting) : Prop where
  dest? : ∀ instruction, (rewriting.instruction instruction).bind (·.operation.dest?)
    = instruction.operation.dest?.filter fun dest => !rewriting.gone dest
  uses : ∀ instruction rewritten, rewriting.instruction instruction = some rewritten →
    ∀ value ∈ rewritten.uses, ∃ used ∈ instruction.uses, rewriting.rename used = value
  successorCount? : ∀ instruction, (rewriting.instruction instruction).bind (·.operation.successorCount?)
    = instruction.operation.successorCount?

theorem block?_body (rewriting : Rewriting) (body : Body) (position : Nat) :
    (rewriting.body body).block? position = (body.block? position).map rewriting.block :=
  List.getElem?_map

theorem block?_of {body : Body} {position : Nat} {block : Block} (rewriting : Rewriting)
    (h : body.block? position = some block) : (rewriting.body body).block? position = some (rewriting.block block) := by
  rw [block?_body, h]
  rfl

theorem mem_instructions_body {rewriting : Rewriting} {body : Body} {rewritten : Instruction} :
    rewritten ∈ (rewriting.body body).instructions ↔
      ∃ instruction ∈ body.instructions, rewriting.instruction instruction = some rewritten := by
  simp only [Body.instructions, Rewriting.body, Rewriting.block, List.flatMap_map, List.mem_flatMap, List.mem_filterMap]
  constructor
  · rintro ⟨block, hblock, instruction, hinstruction, hrewritten⟩
    exact ⟨instruction, ⟨block, hblock, hinstruction⟩, hrewritten⟩
  · rintro ⟨instruction, ⟨block, hblock, hinstruction⟩, hrewritten⟩
    exact ⟨block, hblock, instruction, hinstruction, hrewritten⟩

theorem sameFlow (rewriting : Rewriting) (body : Body) : body.SameFlow (rewriting.body body) := by
  simp [Body.SameFlow, Rewriting.body, Rewriting.block, Function.comp_def]

namespace Lawful

variable {rewriting : Rewriting}

theorem filterMap_dest? (h : rewriting.Lawful) (instructions : List Instruction) :
    (instructions.filterMap rewriting.instruction).filterMap (·.operation.dest?)
      = (instructions.filterMap (·.operation.dest?)).filter fun dest => !rewriting.gone dest := by
  rw [List.filterMap_filterMap, List.filter_filterMap]
  exact List.filterMap_congr fun instruction _ => h.dest? instruction

theorem block_definitions (h : rewriting.Lawful) (block : Block) :
    (rewriting.block block).definitions = block.definitions.filter fun dest => !rewriting.gone dest := by
  rw [Block.definitions, Block.definitions, List.filter_append, ← h.filterMap_dest?]
  simp [Rewriting.block, Phi.mapOperands, List.filter_map, Function.comp_def]

theorem body_definitions (h : rewriting.Lawful) (body : Body) :
    (rewriting.body body).definitions = body.definitions.filter fun dest => !rewriting.gone dest := by
  rw [Body.definitions, Body.definitions, List.filter_flatMap, Rewriting.body, List.flatMap_map]
  exact List.flatMap_congr fun block _ => h.block_definitions block

theorem definedIn_iff (h : rewriting.Lawful) {body : Body} {position : Nat} {value : ValueId} :
    (rewriting.body body).DefinedIn position value ↔
      body.DefinedIn position value ∧ rewriting.gone value = false := by
  unfold Body.DefinedIn
  rw [block?_body]
  constructor
  · rintro ⟨_, hblock, hmem⟩
    obtain ⟨block, hbefore, rfl⟩ := Option.map_eq_some_iff.1 hblock
    rw [h.block_definitions, List.mem_filter, Bool.not_eq_true'] at hmem
    exact ⟨⟨block, hbefore, hmem.1⟩, hmem.2⟩
  · rintro ⟨⟨block, hblock, hmem⟩, hstays⟩
    refine ⟨rewriting.block block, by rw [hblock]; rfl, ?_⟩
    rw [h.block_definitions, List.mem_filter, Bool.not_eq_true']
    exact ⟨hmem, hstays⟩

/-- What a rewritten block uses was used before. -/
theorem block_uses (h : rewriting.Lawful) {block : Block} {value : ValueId}
    (hvalue : value ∈ (rewriting.block block).uses) : ∃ used ∈ block.uses, rewriting.rename used = value := by
  rcases List.mem_append.1 hvalue with hphi | hinstruction
  · obtain ⟨phi, hphi, hoperand⟩ := List.mem_flatMap.1 hphi
    obtain ⟨before, hbefore, rfl⟩ := List.mem_map.1 hphi
    obtain ⟨used, hused, rfl⟩ := List.mem_map.1 hoperand
    refine ⟨used, List.mem_append_left _ (List.mem_flatMap.2 ⟨before, List.mem_of_mem_filter hbefore, hused⟩), rfl⟩
  · obtain ⟨instruction, hinstruction, huse⟩ := List.mem_flatMap.1 hinstruction
    obtain ⟨before, hbefore, hrewritten⟩ := List.mem_filterMap.1 hinstruction
    obtain ⟨used, hused, rfl⟩ := h.uses before instruction hrewritten value huse
    exact ⟨used, List.mem_append_right _ (List.mem_flatMap.2 ⟨before, hbefore, hused⟩), rfl⟩

theorem body_uses (h : rewriting.Lawful) {body : Body} {value : ValueId}
    (hvalue : value ∈ (rewriting.body body).uses) : ∃ used ∈ body.uses, rewriting.rename used = value := by
  obtain ⟨block, hblock, hmem⟩ := List.mem_flatMap.1 hvalue
  obtain ⟨before, hbefore, rfl⟩ := List.mem_map.1 hblock
  obtain ⟨used, hused, rfl⟩ := h.block_uses hmem
  exact ⟨used, List.mem_flatMap.2 ⟨before, hbefore, hused⟩, rfl⟩

/-! ### Well-formedness -/

private theorem isTerminator_eq_false (h : rewriting.Lawful) {instruction rewritten : Instruction}
    (hrewritten : rewriting.instruction instruction = some rewritten)
    (hopen : instruction.operation.isTerminator = false) : rewritten.operation.isTerminator = false := by
  have hcount := h.successorCount? instruction
  rw [hrewritten] at hcount
  unfold Operation.isTerminator at hopen ⊢
  rwa [← hcount] at hopen

private theorem blockFits (h : rewriting.Lawful) {body : Body} {position : Nat} {block : Block}
    (hfits : body.BlockFits position block)
    (hrename : ∀ value ∈ body.definitions, value ∈ block.uses →
      rewriting.rename value ∈ body.definitions ∧ rewriting.gone (rewriting.rename value) = false) :
    (rewriting.body body).BlockFits position (rewriting.block block) where
  ends := by
    obtain ⟨front, last, hsplit, hcount, hfront⟩ := hfits.ends
    have hlast := h.successorCount? last
    rw [hcount] at hlast
    obtain ⟨rewritten, hrewritten, hcount'⟩ := Option.bind_eq_some_iff.1 hlast
    refine ⟨front.filterMap rewriting.instruction, rewritten, ?_, hcount', ?_⟩
    · simp [Rewriting.block, hsplit, hrewritten]
    · intro instruction hinstruction
      obtain ⟨before, hbefore, heq⟩ := List.mem_filterMap.1 hinstruction
      exact h.isTerminator_eq_false heq (hfront before hbefore)
  targets := by
    rw [(rewriting.sameFlow body).length_eq]
    exact hfits.targets
  phis := by
    intro phi hphi
    obtain ⟨before, hbefore, rfl⟩ := List.mem_map.1 hphi
    rw [(rewriting.sameFlow body).predecessors_eq, Phi.mapOperands, List.length_map]
    exact hfits.phis before (List.mem_of_mem_filter hbefore)
  uses := by
    intro value hvalue
    obtain ⟨used, hused, rfl⟩ := h.block_uses hvalue
    obtain ⟨hdefined, hstays⟩ := hrename used (hfits.uses used hused) hused
    rw [h.body_definitions, List.mem_filter, Bool.not_eq_true']
    exact ⟨hdefined, hstays⟩

theorem wellFormed (h : rewriting.Lawful) {body : Body} (hbody : body.WellFormed)
    (hrename : ∀ value ∈ body.uses,
      rewriting.rename value ∈ body.definitions ∧ rewriting.gone (rewriting.rename value) = false) :
    (rewriting.body body).WellFormed where
  nonempty := by simpa [Rewriting.body] using hbody.nonempty
  allocated := by
    intro value hvalue
    rw [h.body_definitions] at hvalue
    exact hbody.allocated value (List.mem_of_mem_filter hvalue)
  distinct := by
    rw [h.body_definitions]
    exact hbody.distinct.filter _
  fits := by
    intro position block hblock
    rw [block?_body] at hblock
    obtain ⟨before, hbefore, rfl⟩ := Option.map_eq_some_iff.1 hblock
    refine h.blockFits (hbody.fits position before hbefore) fun value _ hvalue => hrename value ?_
    exact List.mem_flatMap.2 ⟨before, List.mem_of_getElem? hbefore, hvalue⟩

/-! ### Strictness -/

theorem availableAtStart (h : rewriting.Lawful) {body : Body} {position : Nat} {value : ValueId}
    (hvalue : body.AvailableAtStart position value) (hstays : rewriting.gone value = false) :
    (rewriting.body body).AvailableAtStart position value := by
  obtain ⟨upper, hne, hdefined, hdominates⟩ := hvalue
  exact ⟨upper, hne, h.definedIn_iff.2 ⟨hdefined, hstays⟩, (rewriting.sameFlow body).dominates_iff.2 hdominates⟩

theorem availableAtEnd (h : rewriting.Lawful) {body : Body} {position : Nat} {value : ValueId}
    (hvalue : body.AvailableAtEnd position value) (hstays : rewriting.gone value = false) :
    (rewriting.body body).AvailableAtEnd position value := by
  obtain ⟨upper, hdefined, hdominates⟩ := hvalue
  exact ⟨upper, h.definedIn_iff.2 ⟨hdefined, hstays⟩, (rewriting.sameFlow body).dominates_iff.2 hdominates⟩

theorem availableAfter (h : rewriting.Lawful) {body : Body} {position : Nat} {block : Block}
    {earlier : List Instruction} {value : ValueId} (hvalue : body.AvailableAfter position block earlier value)
    (hstays : rewriting.gone value = false) :
    (rewriting.body body).AvailableAfter position (rewriting.block block)
      (earlier.filterMap rewriting.instruction) value := by
  rcases hvalue with hstart | hphi | hearlier
  · exact .inl (h.availableAtStart hstart hstays)
  · right
    left
    obtain ⟨phi, hmem, rfl⟩ := List.mem_map.1 hphi
    refine List.mem_map.2 ⟨phi.mapOperands rewriting.rename, List.mem_map_of_mem ?_, rfl⟩
    exact List.mem_filter.2 ⟨hmem, by rw [hstays]; rfl⟩
  · right
    right
    rw [h.filterMap_dest?, List.mem_filter, Bool.not_eq_true']
    exact ⟨hearlier, hstays⟩

theorem strictSSA (h : rewriting.Lawful) {body : Body} (hssa : body.StrictSSA)
    (hafter : ∀ position block earlier later value, body.block? position = some block → body.Reachable position →
      block.instructions = earlier ++ later → body.AvailableAfter position block earlier value → value ∈ body.uses →
      rewriting.gone (rewriting.rename value) = false ∧
        body.AvailableAfter position block earlier (rewriting.rename value))
    (hend : ∀ position value, body.AvailableAtEnd position value → value ∈ body.uses →
      rewriting.gone (rewriting.rename value) = false ∧ body.AvailableAtEnd position (rewriting.rename value)) :
    (rewriting.body body).StrictSSA where
  entry_phis := by
    intro block hblock
    rw [block?_body] at hblock
    obtain ⟨before, hbefore, rfl⟩ := Option.map_eq_some_iff.1 hblock
    simp [Rewriting.block, hssa.entry_phis before hbefore]
  use_available := by
    intro position block hblock hreachable earlier instruction later hsplit value hvalue
    rw [block?_body] at hblock
    rw [(rewriting.sameFlow body).reachable_iff] at hreachable
    obtain ⟨before, hbefore, rfl⟩ := Option.map_eq_some_iff.1 hblock
    obtain ⟨front, rest, hfront, rfl, hrest⟩ := List.filterMap_eq_append_iff.1 hsplit
    obtain ⟨skipped, original, last, rfl, hskipped, hrewritten, -⟩ := List.filterMap_eq_cons_iff.1 hrest
    obtain ⟨used, hused, rfl⟩ := h.uses original instruction hrewritten value hvalue
    have hparts : before.instructions = (front ++ skipped) ++ original :: last := by
      rw [hfront, List.append_assoc]
    have hmem : used ∈ body.uses := by
      refine List.mem_flatMap.2 ⟨before, List.mem_of_getElem? hbefore, List.mem_append_right _ ?_⟩
      exact List.mem_flatMap.2 ⟨original, by rw [hparts]; simp, hused⟩
    obtain ⟨hstays, havailable⟩ := hafter position before (front ++ skipped) (original :: last) used hbefore hreachable
      hparts (hssa.use_available position before hbefore hreachable _ _ _ hparts used hused) hmem
    have hrewrittenFront : (front ++ skipped).filterMap rewriting.instruction
        = front.filterMap rewriting.instruction := by
      rw [List.filterMap_append, List.filterMap_eq_nil_iff.2 hskipped, List.append_nil]
    rw [← hrewrittenFront]
    exact h.availableAfter havailable hstays
  operand_available := by
    intro position block hblock phi hphi index predecessor value hpredecessor hvalue
    rw [block?_body] at hblock
    rw [(rewriting.sameFlow body).predecessors_eq] at hpredecessor
    obtain ⟨before, hbefore, rfl⟩ := Option.map_eq_some_iff.1 hblock
    obtain ⟨original, horiginal, rfl⟩ := List.mem_map.1 hphi
    have horiginal := List.mem_of_mem_filter horiginal
    rw [Phi.mapOperands, List.getElem?_map] at hvalue
    obtain ⟨used, hused, rfl⟩ := Option.map_eq_some_iff.1 hvalue
    have hmem : used ∈ body.uses := by
      refine List.mem_flatMap.2 ⟨before, List.mem_of_getElem? hbefore, List.mem_append_left _ ?_⟩
      exact List.mem_flatMap.2 ⟨original, horiginal, List.mem_of_getElem? hused⟩
    obtain ⟨hstays, havailable⟩ := hend predecessor used
      (hssa.operand_available position before hbefore original horiginal index predecessor used hpredecessor hused) hmem
    exact h.availableAtEnd havailable hstays

end Lawful

/-! ### One value supersedes another -/

/-- What is used in place of a value when `new` supersedes `old`. -/
def replacing (old new value : ValueId) : ValueId :=
  if value = old then new else value

/-- The definition of `old` goes and `new` is used in its place. An instruction with debug values keeps these. -/
def supersede (old new : ValueId) : Rewriting where
  gone value := value = old
  rename := replacing old new
  instruction instruction :=
    if instruction.operation.dest? = some old then
      if instruction.debugValues.isEmpty then none
      else some ⟨.debugLocalRead, instruction.debugValues.map (replacing old new)⟩
    else some (instruction.mapUses (replacing old new))

theorem supersede_definition {old : ValueId} (new : ValueId) {instruction : Instruction}
    (h : instruction.operation.dest? = some old) :
    (supersede old new).instruction instruction =
      if instruction.debugValues.isEmpty then none
      else some ⟨.debugLocalRead, instruction.debugValues.map (replacing old new)⟩ :=
  if_pos h

theorem supersede_other {old : ValueId} (new : ValueId) {instruction : Instruction}
    (h : instruction.operation.dest? ≠ some old) :
    (supersede old new).instruction instruction = some (instruction.mapUses (replacing old new)) :=
  if_neg h

theorem uses_mapUses (f : ValueId → ValueId) (instruction : Instruction) :
    (instruction.mapUses f).uses = instruction.uses.map f := by
  simp [Instruction.uses, Instruction.mapUses, Operation.operands_mapOperands]

theorem mapUses_eq_self {f : ValueId → ValueId} {instruction : Instruction}
    (h : ∀ value ∈ instruction.uses, f value = value) : instruction.mapUses f = instruction := by
  rw [Instruction.mapUses, Operation.mapOperands_eq_self fun value hvalue => h value (List.mem_append_left _ hvalue),
    List.map_congr_left fun value hvalue => h value (List.mem_append_right _ hvalue), List.map_id']

theorem supersede_lawful (old new : ValueId) : (supersede old new).Lawful where
  dest? := by
    intro instruction
    by_cases hdest : instruction.operation.dest? = some old
    · have hfilter : (some old).filter (fun dest => !(supersede old new).gone dest) = none := by
        simp [Option.filter, supersede]
      rw [supersede_definition new hdest, hdest, hfilter]
      split <;> rfl
    · rw [supersede_other new hdest, Option.bind_some, Instruction.mapUses, Operation.dest?_mapOperands]
      cases heq : instruction.operation.dest? with
      | none => rfl
      | some dest =>
        have hne : dest ≠ old := fun hold => hdest (hold ▸ heq)
        simp [Option.filter, supersede, hne]
  uses := by
    intro instruction rewritten hrewritten value hvalue
    by_cases hdest : instruction.operation.dest? = some old
    · rw [supersede_definition new hdest] at hrewritten
      split at hrewritten
      · cases hrewritten
      · obtain rfl := Option.some.inj hrewritten
        obtain ⟨used, hused, rfl⟩ := List.mem_map.1 hvalue
        exact ⟨used, List.mem_append_right _ hused, rfl⟩
    · rw [supersede_other new hdest] at hrewritten
      obtain rfl := Option.some.inj hrewritten
      rw [uses_mapUses] at hvalue
      exact List.mem_map.1 hvalue
  successorCount? := by
    intro instruction
    by_cases hdest : instruction.operation.dest? = some old
    · have hcount : instruction.operation.successorCount? = none := by
        simpa [Operation.isTerminator] using Operation.isTerminator_of_dest? hdest
      rw [supersede_definition new hdest, hcount]
      split <;> rfl
    · rw [supersede_other new hdest, Option.bind_some, Instruction.mapUses, Operation.successorCount?_mapOperands]

/-- The value `new` is available where `old` gets its value, at every definition of `old` that can be reached. -/
def Supports (body : Body) (old new : ValueId) : Prop :=
  ∀ position block, body.block? position = some block → body.Reachable position →
    (old ∈ block.phis.map (·.dest) → body.AvailableAtStart position new) ∧
    ∀ earlier instruction later, block.instructions = earlier ++ instruction :: later →
      instruction.operation.dest? = some old → body.AvailableAfter position block earlier new

namespace Supports

variable {body : Body} {old new : ValueId}

theorem atEnd (h : Supports body old new) {position : Nat} (hdefined : body.DefinedIn position old)
    (hreachable : body.Reachable position) : body.AvailableAtEnd position new := by
  obtain ⟨block, hblock, hmem⟩ := hdefined
  obtain ⟨hphi, hinstruction⟩ := h position block hblock hreachable
  rcases List.mem_append.1 hmem with hphis | hinstructions
  · exact (hphi hphis).atEnd
  · obtain ⟨instruction, hinstr, hdest⟩ := List.mem_filterMap.1 hinstructions
    obtain ⟨earlier, later, hsplit⟩ := List.append_of_mem hinstr
    exact (hinstruction earlier instruction later hsplit hdest).atEnd hblock hsplit

theorem availableAtStart (h : Supports body old new) {position : Nat} (hreachable : body.Reachable position)
    (hold : body.AvailableAtStart position old) : body.AvailableAtStart position new := by
  obtain ⟨upper, hne, hdefined, hdominates⟩ := hold
  exact (h.atEnd hdefined (hdominates.reachable hreachable)).atStart hdominates hne hreachable

theorem availableAtEnd (h : Supports body old new) {position : Nat} (hreachable : body.Reachable position)
    (hold : body.AvailableAtEnd position old) : body.AvailableAtEnd position new := by
  obtain ⟨upper, hdefined, hdominates⟩ := hold
  obtain ⟨top, hdefined', htop⟩ := h.atEnd hdefined (hdominates.reachable hreachable)
  exact ⟨top, hdefined', htop.trans hdominates⟩

theorem availableAfter (h : Supports body old new) {position : Nat} {block : Block}
    (hblock : body.block? position = some block) (hreachable : body.Reachable position)
    {earlier later : List Instruction} (hsplit : block.instructions = earlier ++ later)
    (hold : body.AvailableAfter position block earlier old) : body.AvailableAfter position block earlier new := by
  rcases hold with hstart | hphi | hearlier
  · exact .inl (h.availableAtStart hreachable hstart)
  · exact .inl ((h position block hblock hreachable).1 hphi)
  · obtain ⟨instruction, hmem, hdest⟩ := List.mem_filterMap.1 hearlier
    obtain ⟨front, rest, rfl⟩ := List.append_of_mem hmem
    rw [List.append_assoc] at hsplit
    exact ((h position block hblock hreachable).2 front instruction _ hsplit hdest).append _

end Supports

/-- What is used in place of a value stays defined, as long as no value supersedes itself. -/
theorem supersede_gone_rename {old new value : ValueId} (h : value = old → new ≠ old) :
    (supersede old new).gone ((supersede old new).rename value) = false := by
  by_cases heq : value = old
  · simp [supersede, replacing, heq, h heq]
  · simp [supersede, replacing, heq]

/-- A value that is not used can go, and any other can be superseded by another defined value. -/
theorem supersede_wellFormed {body : Body} {old new : ValueId} (hbody : body.WellFormed)
    (h : old ∈ body.uses → new ≠ old ∧ new ∈ body.definitions) : ((supersede old new).body body).WellFormed := by
  refine (supersede_lawful old new).wellFormed hbody fun value hvalue => ⟨?_, ?_⟩
  · by_cases heq : value = old
    · simpa [supersede, replacing, heq] using (h (heq ▸ hvalue)).2
    · simpa [supersede, replacing, heq] using hbody.defined_of_use hvalue
  · exact supersede_gone_rename fun heq => (h (heq ▸ hvalue)).1

/-- Strictness is kept too if the superseding value is available where the other was defined. -/
theorem supersede_keeps {body : Body} {old new : ValueId} (hbody : body.WellFormed) (hssa : body.StrictSSA)
    (h : old ∈ body.uses → new ≠ old ∧ new ∈ body.definitions ∧ Supports body old new) :
    ((supersede old new).body body).WellFormed ∧ ((supersede old new).body body).StrictSSA := by
  have hstays : ∀ value ∈ body.uses, (supersede old new).gone ((supersede old new).rename value) = false :=
    fun value hvalue => supersede_gone_rename fun heq => (h (heq ▸ hvalue)).1
  refine ⟨supersede_wellFormed hbody fun hused => ⟨(h hused).1, (h hused).2.1⟩,
    (supersede_lawful old new).strictSSA hssa ?_ ?_⟩
  · intro position block earlier later value hblock hreachable hsplit havailable hvalue
    refine ⟨hstays value hvalue, ?_⟩
    by_cases heq : value = old
    · subst heq
      simpa [supersede, replacing] using
        (h hvalue).2.2.availableAfter hblock hreachable hsplit havailable
    · simpa [supersede, replacing, heq] using havailable
  · intro position value havailable hvalue
    refine ⟨hstays value hvalue, ?_⟩
    by_cases heq : value = old
    · subst heq
      by_cases hreachable : body.Reachable position
      · simpa [supersede, replacing] using (h hvalue).2.2.availableAtEnd hreachable havailable
      · simpa [supersede, replacing] using
          Body.AvailableAtEnd.of_not_reachable (h hvalue).2.1 hreachable
    · simpa [supersede, replacing, heq] using havailable

/-! ### Another operation for a value -/

/-- The instruction that defines `dest` gets another operation. -/
def redefine (dest : ValueId) (operation : Operation) : Rewriting where
  gone _ := false
  rename := id
  instruction instruction :=
    some (if instruction.operation.dest? = some dest then { instruction with operation } else instruction)

theorem redefine_lawful {dest : ValueId} {operation : Operation} (hdest : operation.dest? = some dest)
    (hoperands : operation.operands = []) : (redefine dest operation).Lawful where
  dest? := by
    intro instruction
    have hfilter : ∀ found : Option ValueId,
        found.filter (fun value => !(redefine dest operation).gone value) = found := by
      intro found
      cases found <;> rfl
    rw [hfilter]
    by_cases heq : instruction.operation.dest? = some dest
    · simp [redefine, heq, hdest]
    · simp [redefine, heq]
  uses := by
    intro instruction rewritten hrewritten value hvalue
    obtain rfl := Option.some.inj hrewritten
    refine ⟨value, ?_, rfl⟩
    split at hvalue
    · rw [Instruction.uses, hoperands, List.nil_append] at hvalue
      exact List.mem_append_right _ hvalue
    · exact hvalue
  successorCount? := by
    intro instruction
    by_cases heq : instruction.operation.dest? = some dest
    · have hcount : ∀ other : Operation, other.dest? = some dest → other.successorCount? = none := by
        intro other hother
        simpa [Operation.isTerminator] using Operation.isTerminator_of_dest? hother
      simp [redefine, heq, hcount operation hdest, hcount _ heq]
    · simp [redefine, heq]

theorem redefine_keeps {body : Body} {dest : ValueId} {operation : Operation} (hbody : body.WellFormed)
    (hssa : body.StrictSSA) (hdest : operation.dest? = some dest) (hoperands : operation.operands = []) :
    ((redefine dest operation).body body).WellFormed ∧ ((redefine dest operation).body body).StrictSSA := by
  have hlawful := redefine_lawful hdest hoperands
  constructor
  · exact hlawful.wellFormed hbody fun value hvalue => ⟨hbody.defined_of_use hvalue, rfl⟩
  · exact hlawful.strictSSA hssa (fun _ _ _ _ _ _ _ _ havailable _ => ⟨rfl, havailable⟩)
      fun _ _ havailable _ => ⟨rfl, havailable⟩

/-! ### The steps of the library as rewritings -/

/-- A rewriting that treats all blocks alike but the one that defines a value. -/
theorem body_eq_modifyBlock {rewriting : Rewriting} {body : Body} (hdistinct : body.definitions.Nodup) {position : Nat}
    {block : Block} (hblock : body.block? position = some block) {dest : ValueId} (hdest : dest ∈ block.definitions)
    {all this : Block → Block} (hother : ∀ other, dest ∉ other.definitions → rewriting.block other = all other)
    (hthis : rewriting.block block = this (all block)) :
    rewriting.body body = { body with blocks := body.blocks.map all }.modifyBlock position this := by
  rw [Rewriting.body, Body.modifyBlock]
  congr 1
  apply List.ext_getElem?
  intro index
  rw [List.getElem?_map, List.getElem?_modify, List.getElem?_map]
  by_cases heq : position = index
  · subst heq
    have hget : body.blocks[position]? = some block := hblock
    simp [hget, hthis]
  · cases hget : body.blocks[index]? with
    | none => simp
    | some other =>
      have hnot : dest ∉ other.definitions := fun hmem =>
        heq (Body.DefinedIn.unique hdistinct ⟨block, hblock, hdest⟩ ⟨other, hget, hmem⟩)
      simp [heq, hother other hnot]

theorem filter_supersede_phis {old : ValueId} (new : ValueId) {phis : List Phi} (h : old ∉ phis.map (·.dest)) :
    phis.filter (fun phi => !(supersede old new).gone phi.dest) = phis := by
  rw [List.filter_eq_self]
  intro phi hphi
  have hne : phi.dest ≠ old := fun heq => h (heq ▸ List.mem_map_of_mem hphi)
  simp [supersede, hne]

theorem filterMap_supersede {old : ValueId} (new : ValueId) {instructions : List Instruction}
    (h : old ∉ instructions.filterMap (·.operation.dest?)) :
    instructions.filterMap (supersede old new).instruction
      = instructions.map (·.mapUses (replacing old new)) := by
  rw [← List.filterMap_eq_map]
  refine List.filterMap_congr fun instruction hmem => supersede_other new fun heq => h ?_
  exact List.mem_filterMap.2 ⟨instruction, hmem, heq⟩

theorem supersede_block_of_not_mem {old : ValueId} (new : ValueId) {block : Block} (h : old ∉ block.definitions) :
    (supersede old new).block block = block.mapUses (replacing old new) := by
  rw [Block.definitions, List.mem_append, not_or] at h
  rw [Rewriting.block, filter_supersede_phis new h.1, filterMap_supersede new h.2]
  rfl

/-- Around the instruction that defines a value, nothing else in the block does. -/
theorem split_at_definition {block : Block} (hdistinct : block.definitions.Nodup) {index : Nat}
    {instruction : Instruction} (hget : block.instructions[index]? = some instruction) {dest : ValueId}
    (hdest : instruction.operation.dest? = some dest) :
    block.instructions = block.instructions.take index ++ instruction :: block.instructions.drop (index + 1) ∧
      dest ∉ block.phis.map (·.dest) ∧ dest ∉ (block.instructions.take index).filterMap (·.operation.dest?) ∧
      dest ∉ (block.instructions.drop (index + 1)).filterMap (·.operation.dest?) := by
  have hsplit := eq_take_cons_drop hget
  have hinstructions : block.instructions.filterMap (·.operation.dest?)
      = (block.instructions.take index).filterMap (·.operation.dest?) ++
        dest :: (block.instructions.drop (index + 1)).filterMap (·.operation.dest?) := by
    conv_lhs => rw [hsplit]
    simp only [List.filterMap_append, List.filterMap_cons, hdest]
  rw [Block.definitions, hinstructions, List.nodup_append] at hdistinct
  obtain ⟨-, hnodup, hdisjoint⟩ := hdistinct
  rw [List.nodup_append, List.nodup_cons] at hnodup
  obtain ⟨-, ⟨hlater, -⟩, hearlier⟩ := hnodup
  refine ⟨hsplit, fun hmem => hdisjoint dest hmem dest (by simp) rfl, fun hmem => ?_, hlater⟩
  exact hearlier dest hmem dest List.mem_cons_self rfl

/-- A block defines a value at one place only. -/
theorem index_unique {block : Block} (hdistinct : block.definitions.Nodup) {left right : Nat}
    {first second : Instruction} (hfirst : block.instructions[left]? = some first)
    (hsecond : block.instructions[right]? = some second) {dest : ValueId}
    (hfirstDest : first.operation.dest? = some dest) (hsecondDest : second.operation.dest? = some dest) :
    left = right := by
  have hnot : ∀ {lower upper : Nat} {early late : Instruction}, block.instructions[lower]? = some early →
      block.instructions[upper]? = some late → early.operation.dest? = some dest →
      late.operation.dest? = some dest → ¬lower < upper := by
    intro lower upper early late hearly hlate hearlyDest hlateDest hlt
    obtain ⟨-, -, hbefore, -⟩ := split_at_definition hdistinct hlate hlateDest
    refine hbefore (List.mem_filterMap.2 ⟨early, ?_, hearlyDest⟩)
    rw [List.mem_iff_getElem?]
    exact ⟨lower, by rw [List.getElem?_take_of_lt hlt, hearly]⟩
  rcases Nat.lt_trichotomy left right with hlt | heq | hgt
  · exact absurd hlt (hnot hfirst hsecond hfirstDest hsecondDest)
  · exact heq
  · exact absurd hgt (hnot hsecond hfirst hsecondDest hfirstDest)

/-- The block that defines a superseded value by an instruction: only that instruction goes or gives up its operation. -/
theorem supersede_block_of_instruction {old : ValueId} (new : ValueId) {block : Block}
    (hdistinct : block.definitions.Nodup) {index : Nat} {instruction : Instruction}
    (hget : block.instructions[index]? = some instruction) (hdest : instruction.operation.dest? = some old) :
    (supersede old new).block block =
      { block.mapUses (replacing old new) with
        instructions := (block.instructions.take index).map (·.mapUses (replacing old new)) ++
          ((supersede old new).instruction instruction).toList ++
          (block.instructions.drop (index + 1)).map (·.mapUses (replacing old new)) } := by
  obtain ⟨hsplit, hphis, hbefore, hlater⟩ := split_at_definition hdistinct hget hdest
  rw [Rewriting.block, filter_supersede_phis new hphis]
  conv_lhs => rw [hsplit]
  rw [List.filterMap_append, filterMap_supersede new hbefore]
  cases hrewritten : (supersede old new).instruction instruction with
  | none =>
    rw [List.filterMap_cons_none hrewritten, filterMap_supersede new hlater, Option.toList_none, List.append_nil]
    rfl
  | some rewritten =>
    rw [List.filterMap_cons_some hrewritten, filterMap_supersede new hlater, Option.toList_some, List.append_assoc,
      List.singleton_append]
    rfl

/-- Replacing a value and then discarding its definition. -/
theorem discardInstruction_eq {body : Body} (hdistinct : body.definitions.Nodup) {position index : Nat}
    {instruction : Instruction} (hinstruction : body.instruction? position index = some instruction) {old : ValueId}
    (hdest : instruction.operation.dest? = some old) (new : ValueId) :
    (body.replaceUses old new).discardInstruction position index = (supersede old new).body body := by
  obtain ⟨block, hblock, hget⟩ := Option.bind_eq_some_iff.1 hinstruction
  have hmem : old ∈ block.definitions :=
    List.mem_append_right _ (List.mem_filterMap.2 ⟨instruction, List.mem_of_getElem? hget, hdest⟩)
  have hthis := supersede_block_of_instruction new (Body.block_definitions_nodup hdistinct hblock) hget hdest
  have hmapped : (body.replaceUses old new).instruction? position index
      = some (instruction.mapUses (replacing old new)) := by
    have hblock' : (body.replaceUses old new).block? position = some (block.mapUses (replacing old new)) := by
      rw [Body.block?, Body.replaceUses, Body.mapUses, List.getElem?_map]
      exact congrArg (Option.map _) hblock
    rw [Body.instruction?, hblock']
    simp [Block.mapUses, hget]
  have hlt := (List.getElem?_eq_some_iff.1 hget).1
  rw [Body.discardInstruction, hmapped]
  by_cases hdebug : instruction.debugValues.isEmpty = true
  · have hempty : (some (instruction.mapUses (replacing old new))).any (!·.debugValues.isEmpty) = false := by
      simp [Instruction.mapUses, hdebug]
    rw [supersede_definition new hdest, if_pos hdebug, Option.toList_none, List.append_nil] at hthis
    rw [hempty, if_neg Bool.false_ne_true, Body.removeInstruction]
    refine (body_eq_modifyBlock hdistinct hblock hmem (fun other => supersede_block_of_not_mem new) ?_).symm
    rw [hthis, List.eraseIdx_eq_take_drop_succ]
    simp [Block.mapUses, List.map_take, List.map_drop]
  · have hnonempty : (some (instruction.mapUses (replacing old new))).any (!·.debugValues.isEmpty) = true := by
      simpa [Instruction.mapUses] using hdebug
    rw [supersede_definition new hdest, if_neg hdebug, Option.toList_some] at hthis
    rw [hnonempty, if_pos rfl, Body.replaceOperation]
    refine (body_eq_modifyBlock hdistinct hblock hmem (fun other => supersede_block_of_not_mem new) ?_).symm
    have hlt' : index < (block.mapUses (replacing old new)).instructions.length := by
      simpa [Block.mapUses] using hlt
    rw [hthis, List.modify_eq_take_cons_drop hlt']
    simp [Block.mapUses, List.map_take, List.map_drop, Instruction.mapUses, (List.getElem?_eq_some_iff.1 hget).2]

private theorem replaceUses_self (body : Body) (value : ValueId) : body.replaceUses value value = body := by
  have hrename : (fun other => if other = value then value else other) = id := by
    funext other
    by_cases h : other = value <;> simp [h]
  have hinstruction : ∀ instruction : Instruction, instruction.mapUses id = instruction := fun instruction =>
    mapUses_eq_self fun _ _ => rfl
  have hblock : ∀ block : Block, block.mapUses id = block := by
    intro block
    simp [Block.mapUses, Phi.mapOperands, hinstruction]
  rw [Body.replaceUses, Body.mapUses, hrename, List.map_congr_left fun block _ => hblock block, List.map_id']

/-- Discarding an instruction whose result is not used. -/
theorem discardInstruction_eq_self {body : Body} (hdistinct : body.definitions.Nodup) {position index : Nat}
    {instruction : Instruction} (hinstruction : body.instruction? position index = some instruction) {old : ValueId}
    (hdest : instruction.operation.dest? = some old) :
    body.discardInstruction position index = (supersede old old).body body := by
  rw [← discardInstruction_eq hdistinct hinstruction hdest old, replaceUses_self]

theorem replaceOperation_eq {body : Body} (hdistinct : body.definitions.Nodup) {position index : Nat}
    {instruction : Instruction} (hinstruction : body.instruction? position index = some instruction) {dest : ValueId}
    (hdest : instruction.operation.dest? = some dest) (operation : Operation) :
    body.replaceOperation position index operation = (redefine dest operation).body body := by
  obtain ⟨block, hblock, hget⟩ := Option.bind_eq_some_iff.1 hinstruction
  obtain ⟨hlt, hget'⟩ := List.getElem?_eq_some_iff.1 hget
  have hmem : dest ∈ block.definitions :=
    List.mem_append_right _ (List.mem_filterMap.2 ⟨instruction, List.mem_of_getElem? hget, hdest⟩)
  have hphis : ∀ phis : List Phi, ((phis.filter fun phi => !(redefine dest operation).gone phi.dest).map
      (·.mapOperands (redefine dest operation).rename)) = phis := by
    intro phis
    simp [redefine, Phi.mapOperands]
  have hinstructions : ∀ instructions : List Instruction, dest ∉ instructions.filterMap (·.operation.dest?) →
      instructions.filterMap (redefine dest operation).instruction = instructions := by
    intro instructions hnot
    rw [List.filterMap_congr fun other hother => ?_, List.filterMap_some]
    have hne : other.operation.dest? ≠ some dest := fun heq =>
      hnot (List.mem_filterMap.2 ⟨other, hother, heq⟩)
    simp [redefine, hne]
  have hother : ∀ other : Block, dest ∉ other.definitions → (redefine dest operation).block other = id other := by
    intro other hnot
    rw [Block.definitions, List.mem_append, not_or] at hnot
    rw [Rewriting.block, hphis, hinstructions _ hnot.2]
    rfl
  have hblocks : body = { body with blocks := body.blocks.map id } := by
    rw [List.map_id]
  conv_lhs => rw [hblocks]
  refine (body_eq_modifyBlock hdistinct hblock hmem hother ?_).symm
  obtain ⟨hsplit, -, hbefore, hlater⟩ :=
    split_at_definition (Body.block_definitions_nodup hdistinct hblock) hget hdest
  rw [Rewriting.block, hphis]
  conv_lhs => rw [hsplit]
  have hfound : (redefine dest operation).instruction instruction = some { instruction with operation } := by
    simp [redefine, hdest]
  rw [List.filterMap_append, hinstructions _ hbefore, List.filterMap_cons_some hfound, hinstructions _ hlater, id,
    List.modify_eq_take_cons_drop hlt, hget']

end Rewriting

/-- A value is not available in front of the instruction that defines it. -/
theorem Body.not_availableAfter_of_dest? {body : Body} (hdistinct : body.definitions.Nodup) {position : Nat} {block : Block}
    (hblock : body.block? position = some block) {index : Nat} {instruction : Instruction}
    (hget : block.instructions[index]? = some instruction) {value : ValueId}
    (hdest : instruction.operation.dest? = some value) :
    ¬body.AvailableAfter position block (block.instructions.take index) value := by
  obtain ⟨-, hphis, hearlier, -⟩ :=
    Rewriting.split_at_definition (Body.block_definitions_nodup hdistinct hblock) hget hdest
  have hdefined : body.DefinedIn position value := .of_dest? hblock (List.mem_of_getElem? hget) hdest
  rintro (⟨upper, hne, hupper, -⟩ | hphi | hmem)
  · exact hne (Body.DefinedIn.unique hdistinct hupper hdefined)
  · exact hphis hphi
  · exact hearlier hmem

/-- A value has one instruction at one place that defines it. -/
theorem Body.definition_unique {body : Body} (hdistinct : body.definitions.Nodup) {position other : Nat}
    {block otherBlock : Block} (hblock : body.block? position = some block)
    (hother : body.block? other = some otherBlock) {earlier later front back : List Instruction}
    {instruction found : Instruction} (hsplit : block.instructions = earlier ++ instruction :: later)
    (hparts : otherBlock.instructions = front ++ found :: back) {dest : ValueId}
    (hdest : instruction.operation.dest? = some dest) (hfound : found.operation.dest? = some dest) :
    other = position ∧ front = earlier ∧ found = instruction := by
  have hdefined : ∀ {place : Nat} {home : Block} {left right : List Instruction} {middle : Instruction},
      body.block? place = some home → home.instructions = left ++ middle :: right → middle.operation.dest? = some dest →
      body.DefinedIn place dest := by
    intro place home left right middle hhome hparts hmiddle
    refine .of_dest? hhome ?_ hmiddle
    rw [hparts]
    simp
  obtain rfl := DefinedIn.unique hdistinct (hdefined hother hparts hfound) (hdefined hblock hsplit hdest)
  obtain rfl := Option.some.inj (hother.symm.trans hblock)
  have hget : otherBlock.instructions[earlier.length]? = some instruction := by simp [hsplit]
  have hgetFound : otherBlock.instructions[front.length]? = some found := by simp [hparts]
  have hlength := Rewriting.index_unique (block_definitions_nodup hdistinct hblock) hgetFound hget hfound hdest
  obtain ⟨hfront, htail⟩ := List.append_inj (hparts.symm.trans hsplit) hlength
  exact ⟨rfl, hfront, (List.cons.inj htail).1⟩

/-- A value that is available where another is defined by an instruction can stand for it. -/
theorem Rewriting.supports_of_availableAfter {body : Body} (hdistinct : body.definitions.Nodup) {position : Nat}
    {block : Block} (hblock : body.block? position = some block) {earlier later : List Instruction}
    {instruction : Instruction} (hsplit : block.instructions = earlier ++ instruction :: later) {old new : ValueId}
    (hdest : instruction.operation.dest? = some old) (h : body.AvailableAfter position block earlier new) :
    Supports body old new := by
  have hget : block.instructions[earlier.length]? = some instruction := by simp [hsplit]
  obtain ⟨-, hphis, -, -⟩ := split_at_definition (Body.block_definitions_nodup hdistinct hblock) hget hdest
  have hdefined : body.DefinedIn position old := .of_dest? hblock (List.mem_of_getElem? hget) hdest
  intro other otherBlock hother _
  constructor
  · intro hphi
    obtain rfl := Body.DefinedIn.unique hdistinct ⟨otherBlock, hother, List.mem_append_left _ hphi⟩ hdefined
    obtain rfl := Option.some.inj (hother.symm.trans hblock)
    exact absurd hphi hphis
  · intro front found back hparts hfound
    obtain ⟨rfl, rfl, rfl⟩ := Body.definition_unique hdistinct hblock hother hsplit hparts hdest hfound
    obtain rfl := Option.some.inj (hother.symm.trans hblock)
    exact h

end Bytecode
