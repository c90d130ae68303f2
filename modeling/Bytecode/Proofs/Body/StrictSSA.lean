import Bytecode.Proofs.Body.WellFormed
import Bytecode.Proofs.Graph.DominatorTree
import Mathlib.Data.List.Pairwise
/-!
# Strict single assignment

A value is available at a point if its definition lies on every way there: in a block that dominates the point's block, in
a phi of that block or earlier in the block. In a strict body every instruction that can be reached uses only values that
are available to it, and the operand that a phi has for a predecessor is available at that predecessor's end.
-/

namespace Bytecode

theorem eq_take_cons_drop {α : Type} {entries : List α} {index : Nat} {entry : α} (h : entries[index]? = some entry) :
    entries = entries.take index ++ entry :: entries.drop (index + 1) := by
  obtain ⟨hlt, rfl⟩ := List.getElem?_eq_some_iff.1 h
  rw [← List.drop_eq_getElem_cons hlt, List.take_append_drop]

namespace Body

/-- A phi or an instruction of the block defines the value. -/
def DefinedIn (body : Body) (position : Nat) (value : ValueId) : Prop :=
  ∃ block, body.block? position = some block ∧ value ∈ block.definitions

def Reachable (body : Body) (position : Nat) : Prop :=
  body.flowGraph.Reachable 0 position

def Dominates (body : Body) (upper lower : Nat) : Prop :=
  body.flowGraph.Dominates 0 upper lower

def AvailableAtStart (body : Body) (position : Nat) (value : ValueId) : Prop :=
  ∃ upper, upper ≠ position ∧ body.DefinedIn upper value ∧ body.Dominates upper position

def AvailableAtEnd (body : Body) (position : Nat) (value : ValueId) : Prop :=
  ∃ upper, body.DefinedIn upper value ∧ body.Dominates upper position

/-- The value is available in a block after the instructions `earlier` at its start. -/
def AvailableAfter (body : Body) (position : Nat) (block : Block) (earlier : List Instruction) (value : ValueId) : Prop :=
  body.AvailableAtStart position value ∨ value ∈ block.phis.map (·.dest) ∨
    value ∈ earlier.filterMap (·.operation.dest?)

structure StrictSSA (body : Body) : Prop where
  entry_phis : ∀ block, body.block? 0 = some block → block.phis = []
  use_available : ∀ position block, body.block? position = some block → body.Reachable position →
    ∀ earlier instruction later, block.instructions = earlier ++ instruction :: later →
    ∀ value ∈ instruction.uses, body.AvailableAfter position block earlier value
  operand_available : ∀ position block, body.block? position = some block → ∀ phi ∈ block.phis,
    ∀ (index predecessor : Nat) (value : ValueId), (body.predecessors position)[index]? = some predecessor →
    phi.operands[index]? = some value → body.AvailableAtEnd predecessor value

/-! ### The flow of control -/

theorem mem_predecessors {body : Body} {source target : Nat} :
    source ∈ body.predecessors target ↔
      target < body.blocks.length ∧ ∃ block, body.block? source = some block ∧ target ∈ block.allSuccessors := by
  unfold predecessors
  by_cases htarget : target < body.blocks.length
  · simp only [htarget, if_true, true_and, List.mem_filter, List.mem_range, Option.any_eq_true, List.contains_iff_mem]
    constructor
    · exact fun h => h.2
    · rintro ⟨block, hblock, hmem⟩
      exact ⟨(List.getElem?_eq_some_iff.1 hblock).1, block, hblock, hmem⟩
  · simp [htarget]

theorem mem_flowGraph_successors {body : Body} {source target : Nat} :
    target ∈ body.flowGraph.successors source ↔
      ∃ block, body.block? source = some block ∧ target ∈ block.allSuccessors := by
  unfold flowGraph
  cases hblock : body.block? source <;> simp [hblock]

theorem flowGraph_predecessorsInverse (body : Body) : body.flowGraph.PredecessorsInverse := by
  intro source target
  constructor
  · intro hmem
    obtain ⟨hlt, block, hblock, hsuccessor⟩ := mem_predecessors.1 hmem
    exact ⟨(List.getElem?_eq_some_iff.1 hblock).1, hlt, mem_flowGraph_successors.2 ⟨block, hblock, hsuccessor⟩⟩
  · rintro ⟨-, hlt, hedge⟩
    exact mem_predecessors.2 ⟨hlt, mem_flowGraph_successors.1 hedge⟩

theorem flowGraph_predecessorsSound (body : Body) : body.flowGraph.PredecessorsSound :=
  body.flowGraph_predecessorsInverse.sound

/-- Two bodies with the same flow of control. -/
def SameFlow (body other : Body) : Prop :=
  other.blocks.map (fun block => (block.successors, block.handlers))
    = body.blocks.map fun block => (block.successors, block.handlers)

namespace SameFlow

variable {body other : Body}

theorem refl (body : Body) : body.SameFlow body :=
  rfl

theorem trans {third : Body} (h : body.SameFlow other) (hthird : other.SameFlow third) : body.SameFlow third :=
  Eq.trans hthird h

theorem length_eq (h : body.SameFlow other) : other.blocks.length = body.blocks.length := by
  simpa using congrArg List.length h

theorem block?_map_eq (h : body.SameFlow other) (position : Nat) :
    (other.block? position).map (fun block => (block.successors, block.handlers))
      = (body.block? position).map fun block => (block.successors, block.handlers) := by
  rw [block?, block?, ← List.getElem?_map, ← List.getElem?_map, h]

private theorem allSuccessors_eq (h : body.SameFlow other) (position : Nat) :
    (other.block? position).map (·.allSuccessors) = (body.block? position).map (·.allSuccessors) := by
  have hpairs := congrArg (Option.map fun (flow : List Nat × List Handler) => flow.1 ++ flow.2.map (·.target))
    (h.block?_map_eq position)
  rw [Option.map_map, Option.map_map] at hpairs
  exact hpairs

theorem predecessors_eq (h : body.SameFlow other) : other.predecessors = body.predecessors := by
  funext target
  have hany : ∀ source, (other.block? source).any (·.allSuccessors.contains target)
      = (body.block? source).any (·.allSuccessors.contains target) := by
    intro source
    have heq := congrArg (Option.any (·.contains target)) (h.allSuccessors_eq source)
    rwa [Option.any_map, Option.any_map] at heq
  unfold predecessors
  rw [h.length_eq]
  simp only [hany]

theorem flowGraph_eq (h : body.SameFlow other) : other.flowGraph = body.flowGraph := by
  have hsuccessors : other.flowGraph.successors = body.flowGraph.successors := by
    funext position
    exact congrArg (Option.getD · []) (h.allSuccessors_eq position)
  have hpredecessors : other.flowGraph.predecessors = body.flowGraph.predecessors := h.predecessors_eq
  have hsize : other.flowGraph.size = body.flowGraph.size := h.length_eq
  cases hother : other.flowGraph
  cases hbody : body.flowGraph
  simp_all

theorem reachable_iff (h : body.SameFlow other) {position : Nat} :
    other.Reachable position ↔ body.Reachable position := by
  rw [Reachable, Reachable, h.flowGraph_eq]

theorem dominates_iff (h : body.SameFlow other) {upper lower : Nat} :
    other.Dominates upper lower ↔ body.Dominates upper lower := by
  rw [Dominates, Dominates, h.flowGraph_eq]

end SameFlow

/-! ### Definitions -/

theorem mem_definitions {body : Body} {value : ValueId} :
    value ∈ body.definitions ↔ ∃ position, body.DefinedIn position value := by
  simp only [definitions, List.mem_flatMap, DefinedIn, block?]
  constructor
  · rintro ⟨block, hblock, hmem⟩
    obtain ⟨position, hposition⟩ := List.mem_iff_getElem?.1 hblock
    exact ⟨position, block, hposition, hmem⟩
  · rintro ⟨position, block, hblock, hmem⟩
    exact ⟨block, List.mem_of_getElem? hblock, hmem⟩

theorem DefinedIn.of_dest? {body : Body} {position : Nat} {block : Block} (hblock : body.block? position = some block)
    {instruction : Instruction} (hmem : instruction ∈ block.instructions) {value : ValueId}
    (hdest : instruction.operation.dest? = some value) : body.DefinedIn position value :=
  ⟨block, hblock, List.mem_append_right _ (List.mem_filterMap.2 ⟨instruction, hmem, hdest⟩)⟩

/-- A value is defined in one block only. -/
theorem DefinedIn.unique {body : Body} (h : body.definitions.Nodup) {left right : Nat} {value : ValueId}
    (hleft : body.DefinedIn left value) (hright : body.DefinedIn right value) : left = right := by
  obtain ⟨blockLeft, hblockLeft, hmemLeft⟩ := hleft
  obtain ⟨blockRight, hblockRight, hmemRight⟩ := hright
  obtain ⟨hltLeft, hgetLeft⟩ := List.getElem?_eq_some_iff.1 hblockLeft
  obtain ⟨hltRight, hgetRight⟩ := List.getElem?_eq_some_iff.1 hblockRight
  rw [definitions, List.nodup_flatMap, List.pairwise_iff_getElem] at h
  rcases Nat.lt_trichotomy left right with hlt | heq | hgt
  · exact absurd (hgetRight ▸ hmemRight) (h.2 left right hltLeft hltRight hlt (hgetLeft ▸ hmemLeft))
  · exact heq
  · exact absurd (hgetLeft ▸ hmemLeft) (h.2 right left hltRight hltLeft hgt (hgetRight ▸ hmemRight))

theorem block_definitions_nodup {body : Body} (h : body.definitions.Nodup) {position : Nat} {block : Block}
    (hblock : body.block? position = some block) : block.definitions.Nodup :=
  (List.nodup_flatMap.1 h).1 block (List.mem_of_getElem? hblock)

/-! ### Instructions -/

/-- What a phi defines is defined by no instruction. -/
theorem dest?_ne_of_phi {body : Body} (hdistinct : body.definitions.Nodup) {position other : Nat}
    {block otherBlock : Block} {value : ValueId} (hblock : body.block? position = some block)
    (hphi : value ∈ block.phis.map (·.dest)) (hother : body.block? other = some otherBlock) {instruction : Instruction}
    (hinstruction : instruction ∈ otherBlock.instructions) : instruction.operation.dest? ≠ some value := by
  intro hdest
  have hmem : value ∈ otherBlock.instructions.filterMap (·.operation.dest?) :=
    List.mem_filterMap.2 ⟨instruction, hinstruction, hdest⟩
  obtain rfl := DefinedIn.unique hdistinct ⟨otherBlock, hother, List.mem_append_right _ hmem⟩
    ⟨block, hblock, List.mem_append_left _ hphi⟩
  obtain rfl := Option.some.inj (hother.symm.trans hblock)
  exact (List.nodup_append.1 (block_definitions_nodup hdistinct hblock)).2.2 _ hphi _ hmem rfl

theorem mem_instructions_of_instruction? {body : Body} {block position : Nat} {instruction : Instruction}
    (h : body.instruction? block position = some instruction) : instruction ∈ body.instructions := by
  obtain ⟨target, htarget, hget⟩ := Option.bind_eq_some_iff.1 h
  exact List.mem_flatMap.2 ⟨target, List.mem_of_getElem? htarget, List.mem_of_getElem? hget⟩

theorem mem_uses_of_mem_instructions {body : Body} {instruction : Instruction} {value : ValueId}
    (h : instruction ∈ body.instructions) (hvalue : value ∈ instruction.uses) : value ∈ body.uses := by
  obtain ⟨block, hblock, hmem⟩ := List.mem_flatMap.1 h
  exact List.mem_flatMap.2 ⟨block, hblock, List.mem_append_right _ (List.mem_flatMap.2 ⟨instruction, hmem, hvalue⟩)⟩

/-- No two instructions define one value. -/
theorem instruction_unique {body : Body} (hdistinct : body.definitions.Nodup) {left right : Instruction}
    (hleft : left ∈ body.instructions) (hright : right ∈ body.instructions) {value : ValueId}
    (hleftDest : left.operation.dest? = some value) (hrightDest : right.operation.dest? = some value) :
    left = right := by
  have hsublist : (body.instructions.filterMap (·.operation.dest?)).Sublist body.definitions := by
    unfold instructions definitions
    induction body.blocks with
    | nil => exact List.Sublist.refl _
    | cons block blocks ih =>
      rw [List.flatMap_cons, List.flatMap_cons, List.filterMap_append]
      exact (List.sublist_append_right _ _).append ih
  have hpairwise := List.pairwise_filterMap.1 (hdistinct.sublist hsublist)
  by_contra hne
  have hsymmetric : Std.Symm fun left right : Instruction =>
      ∀ value, left.operation.dest? = some value → ∀ other, right.operation.dest? = some other → value ≠ other :=
    ⟨fun _ _ h value hvalue other hother heq => h other hother value hvalue heq.symm⟩
  exact hpairwise.forall hleft hright hne value hleftDest value hrightDest rfl

/-! ### Availability -/

theorem AvailableAtStart.atEnd {body : Body} {position : Nat} {value : ValueId}
    (h : body.AvailableAtStart position value) : body.AvailableAtEnd position value := by
  obtain ⟨upper, -, hdefined, hdominates⟩ := h
  exact ⟨upper, hdefined, hdominates⟩

theorem AvailableAfter.append {body : Body} {position : Nat} {block : Block} {earlier : List Instruction}
    {value : ValueId} (h : body.AvailableAfter position block earlier value) (more : List Instruction) :
    body.AvailableAfter position block (earlier ++ more) value := by
  refine h.imp_right (Or.imp_right fun hmem => ?_)
  rw [List.filterMap_append]
  exact List.mem_append_left _ hmem

theorem AvailableAfter.atEnd {body : Body} {position : Nat} {block : Block} (hblock : body.block? position = some block)
    {earlier later : List Instruction} (hsplit : block.instructions = earlier ++ later) {value : ValueId}
    (h : body.AvailableAfter position block earlier value) : body.AvailableAtEnd position value := by
  have hdefined : value ∈ block.definitions → body.AvailableAtEnd position value := fun hmem =>
    ⟨position, ⟨block, hblock, hmem⟩, Digraph.Dominates.refl _⟩
  rcases h with hstart | hphi | hearlier
  · exact hstart.atEnd
  · exact hdefined (List.mem_append_left _ hphi)
  · refine hdefined (List.mem_append_right _ ?_)
    rw [hsplit, List.filterMap_append]
    exact List.mem_append_left _ hearlier

/-- What is available at the end of a block is available further down. -/
theorem AvailableAtEnd.atStart {body : Body} {upper lower : Nat} {value : ValueId} (h : body.AvailableAtEnd upper value)
    (hdominates : body.Dominates upper lower) (hne : upper ≠ lower) (hlower : body.Reachable lower) :
    body.AvailableAtStart lower value := by
  obtain ⟨top, hdefined, htop⟩ := h
  refine ⟨top, ?_, hdefined, htop.trans hdominates⟩
  rintro rfl
  exact hne (hdominates.antisymm htop hlower)

theorem AvailableAtEnd.of_not_reachable {body : Body} {position : Nat} {value : ValueId}
    (hvalue : value ∈ body.definitions) (h : ¬body.Reachable position) : body.AvailableAtEnd position value := by
  obtain ⟨upper, hdefined⟩ := mem_definitions.1 hvalue
  exact ⟨upper, hdefined, fun passed hpath => absurd ⟨passed, hpath⟩ h⟩

/-! ### A test -/

/-- Every use is defined in the entry block, or before it in its own block. -/
def usesEntryOnly (body : Body) : Bool :=
  let entry := ((body.block? 0).map (·.definitions)).getD []
  (body.block? 0).all (·.phis.isEmpty) &&
    (List.range body.blocks.length).all fun position => (body.block? position).all fun block =>
      ((List.range block.instructions.length).all fun index => block.instructions[index]?.all fun instruction =>
        instruction.uses.all fun value => (position ≠ 0 && value ∈ entry) || value ∈ block.phis.map (·.dest) ||
          value ∈ (block.instructions.take index).filterMap (·.operation.dest?)) &&
      block.phis.all fun phi => (List.range phi.operands.length).all fun index =>
        ((body.predecessors position)[index]?).all fun predecessor => phi.operands[index]?.all fun value =>
          value ∈ entry || value ∈ ((body.block? predecessor).map (·.definitions)).getD []

/-- The entry dominates every block, so a body that passes the test is strict. -/
theorem strictSSA_of_usesEntryOnly {body : Body} (h : body.usesEntryOnly = true) : body.StrictSSA := by
  have hentry : ∀ value, value ∈ ((body.block? 0).map (·.definitions)).getD [] → body.DefinedIn 0 value := by
    intro value hvalue
    cases hblock : body.block? 0 with
    | none => simp [hblock] at hvalue
    | some block => exact ⟨block, hblock, by simpa [hblock] using hvalue⟩
  simp only [usesEntryOnly, Bool.and_eq_true, Option.all_eq_true, List.all_eq_true, List.mem_range, Bool.or_eq_true,
    decide_eq_true_eq] at h
  obtain ⟨hphis, hblocks⟩ := h
  refine ⟨fun block hblock => List.isEmpty_iff.1 (hphis block hblock), ?_, ?_⟩
  · intro position block hblock _ earlier instruction later hsplit value hvalue
    have hposition := (List.getElem?_eq_some_iff.1 hblock).1
    have hindex : block.instructions[earlier.length]? = some instruction := by simp [hsplit]
    have hlt := (List.getElem?_eq_some_iff.1 hindex).1
    rcases (hblocks position hposition block hblock).1 earlier.length hlt instruction hindex value hvalue with
      (⟨hne, hdefined⟩ | hphi) | hearlier
    · exact .inl ⟨0, Ne.symm hne, hentry value hdefined, Digraph.entry_dominates position⟩
    · exact .inr (.inl hphi)
    · rw [hsplit, List.take_left] at hearlier
      exact .inr (.inr hearlier)
  · intro position block hblock phi hphi index predecessor value hpredecessor hvalue
    have hposition := (List.getElem?_eq_some_iff.1 hblock).1
    have hlt := (List.getElem?_eq_some_iff.1 hvalue).1
    rcases (hblocks position hposition block hblock).2 phi hphi index hlt predecessor hpredecessor value hvalue with
      hdefined | hdefined
    · exact ⟨0, hentry value hdefined, Digraph.entry_dominates predecessor⟩
    · cases hfound : body.block? predecessor with
      | none => simp [hfound] at hdefined
      | some source =>
        exact ⟨predecessor, ⟨source, hfound, by simpa [hfound] using hdefined⟩, Digraph.Dominates.refl _⟩

end Body

end Bytecode
