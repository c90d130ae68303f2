import Bytecode.Proofs.Body.Composition
/-!
# Substituting uses

One visit of all uses of a body puts a value in the place of another and counts as it goes. Its result is the substitution
of all uses at once, and its count the number of uses the value had: what is visited is exactly what counts as used, each
use once. A visit can therefore be described part by part (`Tallies`), from a single use up to the body.

A substitution reaches the uses and nothing else. Of an operation it keeps the kind, the defined value and all that
the flow of control is read from; of a body it keeps the definitions, the edges and what is recorded about the values. To
say that no other part changes either, all uses are blotted out with one value: what is left is then the same.
-/

namespace Bytecode

/-! ### Operations -/

namespace Operation

/-- All operands are replaced by their images, and nothing else is. -/
structure Substituted (f : ValueId → ValueId) (before after : Operation) : Prop where
  operands : after.operands = before.operands.map f
  mnemonic : after.mnemonic = before.mnemonic
  dest? : after.dest? = before.dest?
  canThrow : after.canThrow = before.canThrow
  isTerminator : after.isTerminator = before.isTerminator
  successorCount? : after.successorCount? = before.successorCount?
  apart : ∀ blot : ValueId, after.mapOperands (fun _ => blot) = before.mapOperands fun _ => blot

private theorem substituted_mapOperands (f : ValueId → ValueId) (operation : Operation) :
    Substituted f operation (operation.mapOperands f) where
  operands := operands_mapOperands f operation
  mnemonic := by cases operation <;> rfl
  dest? := dest?_mapOperands f operation
  canThrow := operation.canThrow_mapOperands f
  isTerminator := by rw [isTerminator, isTerminator, successorCount?_mapOperands]
  successorCount? := successorCount?_mapOperands f operation
  apart blot := mapOperands_mapOperands f (fun _ => blot) operation

end Operation

/-! ### Bodies -/

namespace Body

theorem uses_mapUses (f : ValueId → ValueId) (body : Body) : (body.mapUses f).uses = body.uses.map f := by
  have hblock : ∀ block : Block, (block.mapUses f).uses = block.uses.map f := by
    intro block
    simp [Block.uses, Block.mapUses, Phi.mapOperands, List.flatMap_map, List.map_flatMap, Rewriting.uses_mapUses]
  simp [uses, mapUses, List.flatMap_map, List.map_flatMap, hblock]

private theorem definitions_mapUses (f : ValueId → ValueId) (body : Body) :
    (body.mapUses f).definitions = body.definitions := by
  have hblock : ∀ block : Block, (block.mapUses f).definitions = block.definitions := by
    intro block
    simp [Block.definitions, Block.mapUses, Phi.mapOperands, Instruction.mapUses, Function.comp_def,
      Operation.dest?_mapOperands]
  simp [definitions, mapUses, List.flatMap_map, hblock]

theorem mapUses_mapUses (f g : ValueId → ValueId) (body : Body) :
    (body.mapUses f).mapUses g = body.mapUses fun value => g (f value) := by
  simp [mapUses, Block.mapUses, Phi.mapOperands, Rewriting.mapUses_mapUses, Function.comp_def]

/-- `new` is used wherever `old` was used, and nothing else changes. -/
structure Substituted (old new : ValueId) (before after : Body) : Prop where
  uses : after.uses = before.uses.map (Rewriting.replacing old new)
  definitions : after.definitions = before.definitions
  sameFlow : before.SameFlow after
  values : after.values = before.values
  method : after.method = before.method
  apart : ∀ blot : ValueId, after.mapUses (fun _ => blot) = before.mapUses fun _ => blot

private theorem substituted_replaceUses (body : Body) (old new : ValueId) :
    Substituted old new body (body.replaceUses old new) where
  uses := body.uses_mapUses _
  definitions := body.definitions_mapUses _
  sameFlow := by simp [SameFlow, replaceUses, mapUses, Block.mapUses, Function.comp_def]
  values := rfl
  method := rfl
  apart blot := body.mapUses_mapUses _ fun _ => blot

namespace Substituted

variable {old new : ValueId} {before after : Body}

private theorem useCount_old (h : Substituted old new before after) (hne : old ≠ new) : after.useCount old = 0 := by
  rw [useCount, h.uses, List.count_eq_zero]
  intro hmem
  obtain ⟨used, -, hused⟩ := List.mem_map.1 hmem
  by_cases hold : used = old
  · exact hne (by rw [← hused, hold, Rewriting.replacing, if_pos rfl])
  · exact hold (by rw [← hused, Rewriting.replacing, if_neg hold])

private theorem useCount_new (h : Substituted old new before after) (hne : old ≠ new) :
    after.useCount new = before.useCount new + before.useCount old := by
  rw [useCount, useCount, useCount, h.uses]
  induction before.uses with
  | nil => rfl
  | cons used later ih =>
    rw [List.map_cons, List.count_cons, List.count_cons, List.count_cons, ih]
    by_cases hold : used = old
    · subst hold
      simp only [Rewriting.replacing, if_true, beq_self_eq_true, beq_eq_false_iff_ne.2 hne, Bool.false_eq_true, if_false]
      omega
    · simp only [Rewriting.replacing, if_neg hold, beq_eq_false_iff_ne.2 hold, Bool.false_eq_true, if_false]
      omega

end Substituted

end Body

/-! ### Visits that count -/

/-- Visiting an entry leaves its image and counts how often it uses `old`. -/
def Tallies {α : Type} (old : ValueId) (visit : α → StateM Nat α) (image : α → α) (uses : α → List ValueId) : Prop :=
  ∀ entry count, (visit entry).run count = pure (image entry, count + (uses entry).count old)

namespace Tallies

section Entries

variable {α : Type} {old : ValueId} {visit : α → StateM Nat α} {image : α → α} {uses : α → List ValueId}

theorem list (h : Tallies old visit image uses) :
    Tallies old (List.mapM visit) (List.map image) (List.flatMap uses) := by
  intro entries
  induction entries with
  | nil => intro count; simp
  | cons entry entries ih => intro count; simp [h entry, ih, Nat.add_assoc]

private theorem option (h : Tallies old visit image uses) :
    Tallies old (Option.mapM visit) (Option.map image) fun entry => entry.toList.flatMap uses := by
  intro entry count
  cases entry with
  | none => simp
  | some entry => simp [h entry]

end Entries

variable {old : ValueId} {visit : ValueId → StateM Nat ValueId} {f : ValueId → ValueId}

theorem operation (h : Tallies old visit f fun value => [value]) :
    Tallies old (Operation.visitOperands visit) (Operation.mapOperands f) Operation.operands := by
  intro operation count
  have hoption : ∀ value : Option ValueId, (value.mapM fun used => (pure (f used) : Id ValueId)).run = value.map f := by
    intro value
    cases value <;> rfl
  cases operation <;>
    simp [Operation.visitOperands, Operation.mapOperands, Operation.operands, h _ _, h.list _ _, h.option _ _, hoption,
      List.count_cons, Nat.add_assoc, Nat.add_comm, Nat.add_left_comm]

theorem phi (h : Tallies old visit f fun value => [value]) :
    Tallies old (Phi.visitOperands visit) (Phi.mapOperands f) Phi.operands := by
  intro phi count
  simp [Phi.visitOperands, Phi.mapOperands, h.list _ _]

theorem instruction (h : Tallies old visit f fun value => [value]) :
    Tallies old (Instruction.visitUses visit) (Instruction.mapUses f) Instruction.uses := by
  intro instruction count
  simp [Instruction.visitUses, Instruction.mapUses, Instruction.uses, h.operation _ _, h.list _ _, Nat.add_assoc]

theorem block (h : Tallies old visit f fun value => [value]) :
    Tallies old (Block.visitUses visit) (Block.mapUses f) Block.uses := by
  intro block count
  simp [Block.visitUses, Block.mapUses, Block.uses, h.phi.list _ _, h.instruction.list _ _, Nat.add_assoc]

theorem body (h : Tallies old visit f fun value => [value]) :
    Tallies old (Body.visitUses visit) (Body.mapUses f) Body.uses := by
  intro body count
  simp [Body.visitUses, Body.mapUses, Body.uses, h.block.list _ _]

end Tallies

private theorem Body.rewriteUses_eq (body : Body) (old new : ValueId) :
    body.rewriteUses old new = (body.replaceUses old new, body.useCount old) := by
  have huse : Tallies old
      (fun used => if used = old then modifyGet fun count => (new, count + 1) else return used)
      (Rewriting.replacing old new) fun value => [value] := by
    intro used count
    by_cases h : used = old <;> simp [Rewriting.replacing, h]
  have hvisit := huse.body body 0
  rw [Nat.zero_add] at hvisit
  exact hvisit

/-- Updating the operands of an operation one by one substitutes them, and leaves the operation as it is if every operand
stays; so one visit of a body substitutes the uses of a value exactly and tells how many there were. -/
theorem Body.uses_substituted_exactly :
    (∀ (f : ValueId → ValueId) (operation : Operation),
      Operation.Substituted f operation (Id.run (operation.visitOperands fun value => pure (f value)))) ∧
    (∀ operation : Operation, Id.run (operation.visitOperands pure) = operation) ∧
    ∀ (body : Body) (old new : ValueId),
      (body.rewriteUses old new).2 = body.useCount old ∧
      Body.Substituted old new body (body.rewriteUses old new).1 ∧
      (old ≠ new → (body.rewriteUses old new).1.useCount old = 0 ∧
        (body.rewriteUses old new).1.useCount new = body.useCount new + (body.rewriteUses old new).2) := by
  refine ⟨?_, ?_, ?_⟩
  · intro f operation
    rw [Operation.visitOperands_pure]
    exact operation.substituted_mapOperands f
  · intro operation
    have hid : operation.mapOperands id = operation := Operation.mapOperands_eq_self fun _ _ => rfl
    exact (congrArg Id.run (operation.visitOperands_pure id)).trans hid
  · intro body old new
    rw [body.rewriteUses_eq]
    have hsubstituted := body.substituted_replaceUses old new
    exact ⟨rfl, hsubstituted, fun hne => ⟨hsubstituted.useCount_old hne, hsubstituted.useCount_new hne⟩⟩

/-- Uses the value `1` as an operand of a phi, an argument, a debug value and the value returned, and has
another value as its alias. -/
def usedEverywhere : Body :=
  { method := ⟨0⟩
    values := [{}, { localName := some "x" }, { aliasOf := some ⟨1⟩ }, {}]
    blocks :=
      [{ instructions := [{ operation := .argument ⟨0⟩ 0 }, { operation := .assume ⟨1⟩ ⟨0⟩ },
          { operation := .assume ⟨2⟩ ⟨1⟩ }, { operation := .goto }]
         successors := [1] },
        { phis := [⟨⟨3⟩, [⟨1⟩, ⟨2⟩]⟩]
          instructions := [{ operation := .invoke none .static ⟨⟨0⟩, "f", "(II)V"⟩ [⟨1⟩, ⟨1⟩], debugValues := [⟨1⟩, ⟨3⟩] },
            { operation := .branch .eq ⟨2⟩ (some ⟨1⟩) }]
          successors := [1, 2] },
        { instructions := [{ operation := .return (some ⟨1⟩) }] }] }

theorem Body.uses_substituted_exactly_of_usedEverywhere :
    (⟨1⟩ : ValueId) ≠ ⟨3⟩ ∧ (usedEverywhere.rewriteUses ⟨1⟩ ⟨3⟩).2 = 7 ∧ usedEverywhere.useCount ⟨3⟩ = 1 ∧
      (usedEverywhere.rewriteUses ⟨1⟩ ⟨3⟩).1.useCount ⟨1⟩ = 0 ∧ (usedEverywhere.rewriteUses ⟨1⟩ ⟨3⟩).1.useCount ⟨3⟩ = 8 ∧
      (usedEverywhere.rewriteUses ⟨1⟩ ⟨3⟩).1.definitions = [⟨0⟩, ⟨1⟩, ⟨2⟩, ⟨3⟩] := by
  have hne : (⟨1⟩ : ValueId) ≠ ⟨3⟩ := by decide
  obtain ⟨-, -, hbody⟩ := Body.uses_substituted_exactly
  obtain ⟨hcount, hsubstituted, hgrows⟩ := hbody usedEverywhere ⟨1⟩ ⟨3⟩
  have hseven : usedEverywhere.useCount ⟨1⟩ = 7 := by decide
  obtain ⟨hold, hnew⟩ := hgrows hne
  rw [hcount, hseven] at hnew
  exact ⟨hne, hcount.trans hseven, by decide, hold, hnew, hsubstituted.definitions⟩

end Bytecode
