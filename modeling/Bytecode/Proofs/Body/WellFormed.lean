import Bytecode.Body.Defect
import Mathlib.Data.List.Nodup
/-!
# Bodies without a defect

What it means that the check of a body finds nothing. Every value has at most one definition and every use has one, every
block ends in its only terminator, which fits the block's successors, and every edge and every phi fits the flow of
control. The rest of the theory speaks of bodies in these terms and not in those of the check.
-/

namespace Bytecode

/-- An operation that defines a value ends no block. -/
theorem Operation.isTerminator_of_dest? {operation : Operation} {dest : ValueId} (h : operation.dest? = some dest) :
    operation.isTerminator = false := by
  cases operation <;> first | rfl | cases h

namespace Body

/-- A block fits into its body. -/
structure BlockFits (body : Body) (position : Nat) (block : Block) : Prop where
  ends : ∃ front last, block.instructions = front ++ [last] ∧
    last.operation.successorCount? = some block.successors.length ∧
    ∀ instruction ∈ front, instruction.operation.isTerminator = false
  targets : ∀ target ∈ block.allSuccessors, target < body.blocks.length
  phis : ∀ phi ∈ block.phis, phi.operands.length = (body.predecessors position).length
  uses : ∀ value ∈ block.uses, value ∈ body.definitions

structure WellFormed (body : Body) : Prop where
  nonempty : body.blocks ≠ []
  allocated : ∀ value ∈ body.definitions, value.index < body.values.length
  distinct : body.definitions.Nodup
  fits : ∀ position block, body.block? position = some block → body.BlockFits position block

theorem WellFormed.defined_of_use {body : Body} (h : body.WellFormed) {value : ValueId} (hvalue : value ∈ body.uses) :
    value ∈ body.definitions := by
  obtain ⟨block, hblock, hmem⟩ := List.mem_flatMap.1 hvalue
  obtain ⟨position, hposition⟩ := List.mem_iff_getElem?.1 hblock
  exact (h.fits position block hposition).uses value hmem

/-! ### The check -/

private theorem definitionDefect?_eq_none_iff (allocated : Nat) (pending seen : List ValueId) :
    definitionDefect? allocated pending seen = none ↔
      (∀ value ∈ pending, value.index < allocated ∧ value ∉ seen) ∧ pending.Nodup := by
  induction pending generalizing seen with
  | nil => simp [definitionDefect?]
  | cons value pending ih =>
    rw [definitionDefect?]
    by_cases hallocated : allocated ≤ value.index
    · rw [if_pos hallocated]
      simp
      omega
    · rw [if_neg hallocated]
      by_cases hseen : value ∈ seen
      · simp [hseen]
      · rw [if_neg hseen, ih, List.forall_mem_cons, List.nodup_cons]
        constructor
        · rintro ⟨hall, hnodup⟩
          refine ⟨⟨⟨Nat.lt_of_not_le hallocated, hseen⟩, fun other hother => ?_⟩, fun hmem => ?_, hnodup⟩
          · obtain ⟨hlt, hnew⟩ := hall other hother
            exact ⟨hlt, fun hmem => hnew (List.mem_cons_of_mem _ hmem)⟩
          · exact (hall value hmem).2 List.mem_cons_self
        · rintro ⟨⟨-, hall⟩, hnew, hnodup⟩
          refine ⟨fun other hother => ⟨(hall other hother).1, fun hmem => ?_⟩, hnodup⟩
          rcases List.mem_cons.1 hmem with rfl | hold
          · exact hnew hother
          · exact (hall other hother).2 hold

private theorem endDefect?_eq_none_iff (block : Block) (position : Nat) :
    block.endDefect? position = none ↔
      ∃ front last, block.instructions = front ++ [last] ∧
        last.operation.successorCount? = some block.successors.length := by
  unfold Block.endDefect?
  cases hlast : block.instructions.getLast? with
  | none =>
    rw [List.getLast?_eq_none_iff] at hlast
    simp [hlast]
  | some last =>
    obtain ⟨front, hfront⟩ := List.getLast?_eq_some_iff.1 hlast
    simp only [hfront, List.append_singleton_inj]
    cases hcount : last.operation.successorCount? with
    | none =>
      refine iff_of_false (by simp) ?_
      rintro ⟨_, _, ⟨-, rfl⟩, hother⟩
      cases hcount.symm.trans hother
    | some needed =>
      constructor
      · intro h
        refine ⟨front, last, ⟨rfl, rfl⟩, ?_⟩
        rw [hcount]
        by_contra hne
        dsimp only at h
        rw [if_neg fun heq => hne (congrArg some heq)] at h
        cases h
      · rintro ⟨_, _, ⟨-, rfl⟩, hother⟩
        exact if_pos (Option.some.inj (hcount.symm.trans hother))

private theorem blockDefect?_eq_none_iff (body : Body) (position : Nat) (block : Block) :
    body.blockDefect? position block = none ↔ body.BlockFits position block := by
  have hearly : block.earlyTerminatorDefect? position = none ↔
      ∀ instruction ∈ block.instructions.dropLast, instruction.operation.isTerminator = false := by
    simp [Block.earlyTerminatorDefect?]
  have htarget : block.targetDefect? position body.blocks.length = none ↔
      ∀ target ∈ block.allSuccessors, target < body.blocks.length := by
    simp [Block.targetDefect?]
  have hphi : block.phiDefect? position (body.predecessors position).length = none ↔
      ∀ phi ∈ block.phis, phi.operands.length = (body.predecessors position).length := by
    simp [Block.phiDefect?]
  have huse : block.useDefect? position body.definitions = none ↔ ∀ value ∈ block.uses, value ∈ body.definitions := by
    simp [Block.useDefect?]
  rw [blockDefect?, Option.or_eq_none_iff, Option.or_eq_none_iff, Option.or_eq_none_iff, Option.or_eq_none_iff,
    endDefect?_eq_none_iff, hearly, htarget, hphi, huse]
  constructor
  · rintro ⟨⟨⟨⟨⟨front, last, hsplit, hcount⟩, hfront⟩, htargets⟩, hphis⟩, huses⟩
    rw [hsplit, List.dropLast_concat] at hfront
    exact ⟨⟨front, last, hsplit, hcount, hfront⟩, htargets, hphis, huses⟩
  · rintro ⟨⟨front, last, hsplit, hcount, hfront⟩, htargets, hphis, huses⟩
    refine ⟨⟨⟨⟨⟨front, last, hsplit, hcount⟩, ?_⟩, htargets⟩, hphis⟩, huses⟩
    rw [hsplit, List.dropLast_concat]
    exact hfront

/-- The check accepts exactly the well-formed bodies. -/
theorem defect?_eq_none_iff (body : Body) : body.defect? = none ↔ body.WellFormed := by
  unfold defect?
  by_cases hempty : body.blocks = []
  · rw [hempty]
    exact iff_of_false (by simp) fun h => h.nonempty hempty
  · rw [if_neg (by simpa using hempty), Option.or_eq_none_iff, definitionDefect?_eq_none_iff]
    simp only [List.findSome?_eq_none_iff, Prod.forall, List.mem_zipIdx_iff_getElem?, blockDefect?_eq_none_iff]
    constructor
    · rintro ⟨⟨hall, hnodup⟩, hfits⟩
      exact ⟨hempty, fun value hvalue => (hall value hvalue).1, hnodup, fun position block => hfits block position⟩
    · intro h
      exact ⟨⟨fun value hvalue => ⟨h.allocated value hvalue, List.not_mem_nil⟩, h.distinct⟩,
        fun block position => h.fits position block⟩

end Body

end Bytecode
