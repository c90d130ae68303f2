import Bytecode.Body.Builder
import Bytecode.Proofs.Body.StrictSSA
import Bytecode.Proofs.Except
import Mathlib.Data.Set.Card
/-!
# What a builder hands out

The rules for a body, read off its parts one by one: which place defines a value, which block leads to which, what a block
ends in. Nothing here speaks of the order in which the check goes through a body, of the lists it collects on the way or of
the list of predecessors it counts by. Whatever steps a body was built by, the builder hands it out exactly if it keeps
the rules, and what is listed as the predecessors of a block are the blocks that lead there, in ascending order.

A builder starts with one block and no step takes a block away, so a body without blocks never comes to the check.
-/

namespace Bytecode

private theorem nodup_filterMap_iff {α β : Type} {f : α → Option β} {entries : List α} :
    (entries.filterMap f).Nodup ↔ ∀ (left right : Nat) (a b : α) (value : β), entries[left]? = some a →
      entries[right]? = some b → f a = some value → f b = some value → left = right := by
  unfold List.Nodup
  rw [List.pairwise_filterMap, List.pairwise_iff_getElem]
  constructor
  · intro h left right a b value hleft hright ha hb
    obtain ⟨hltLeft, rfl⟩ := List.getElem?_eq_some_iff.1 hleft
    obtain ⟨hltRight, rfl⟩ := List.getElem?_eq_some_iff.1 hright
    rcases Nat.lt_trichotomy left right with hlt | heq | hgt
    · exact absurd rfl (h left right hltLeft hltRight hlt value ha value hb)
    · exact heq
    · exact absurd rfl (h right left hltRight hltLeft hgt value hb value ha)
  · rintro h left right hltLeft hltRight hlt value hvalue _ hother rfl
    exact Nat.ne_of_lt hlt (h left right _ _ value (List.getElem?_eq_getElem hltLeft)
      (List.getElem?_eq_getElem hltRight) hvalue hother)

namespace Body

/-! ### The rules -/

/-- A place that may define a value: a phi or an instruction, by its block and its position there. -/
inductive Site where
  | phi (block index : Nat)
  | instruction (block index : Nat)

inductive DefinedAt (body : Body) : Site → ValueId → Prop
  | phi {block index : Nat} {owner : Block} {phi : Phi} : body.block? block = some owner →
      owner.phis[index]? = some phi → DefinedAt body (.phi block index) phi.dest
  | instruction {block index : Nat} {owner : Block} {instruction : Instruction} {value : ValueId} :
      body.block? block = some owner → owner.instructions[index]? = some instruction →
      instruction.operation.dest? = some value → DefinedAt body (.instruction block index) value

/-- The target is among the successors or the handlers' targets of a block. -/
def LeadsTo (body : Body) (source target : Nat) : Prop :=
  ∃ block, body.block? source = some block ∧
    (target ∈ block.successors ∨ ∃ handler ∈ block.handlers, handler.target = target)

structure KeepsRules (body : Body) : Prop where
  allocated : ∀ site value, body.DefinedAt site value → value.index < body.values.length
  defined_once : ∀ left right value, body.DefinedAt left value → body.DefinedAt right value → left = right
  ends : ∀ block ∈ body.blocks, ∃ front last, block.instructions = front ++ [last] ∧
    last.operation.isTerminator = true ∧ (∀ instruction ∈ front, instruction.operation.isTerminator = false) ∧
    last.operation.successorCount? = some block.successors.length
  targets : ∀ source target, body.LeadsTo source target → ∃ block, body.block? target = some block
  phi_arity : ∀ position block, body.block? position = some block → ∀ phi ∈ block.phis,
    phi.operands.length = {source | body.LeadsTo source position}.ncard
  phi_operands : ∀ block ∈ body.blocks, ∀ phi ∈ block.phis, ∀ value ∈ phi.operands, ∃ site, body.DefinedAt site value
  operands : ∀ block ∈ body.blocks, ∀ instruction ∈ block.instructions, ∀ value ∈ instruction.operation.operands,
    ∃ site, body.DefinedAt site value
  debugValues : ∀ block ∈ body.blocks, ∀ instruction ∈ block.instructions, ∀ value ∈ instruction.debugValues,
    ∃ site, body.DefinedAt site value

/-! ### Definitions -/

/-- The block of a site. -/
def Site.block : Site → Nat
  | .phi block _ | .instruction block _ => block

theorem DefinedAt.definedIn {body : Body} {site : Site} {value : ValueId} (h : body.DefinedAt site value) :
    body.DefinedIn site.block value := by
  cases h with
  | phi hblock hindex =>
    exact ⟨_, hblock, List.mem_append_left _ (List.mem_map_of_mem (List.mem_of_getElem? hindex))⟩
  | instruction hblock hindex hdest => exact .of_dest? hblock (List.mem_of_getElem? hindex) hdest

theorem exists_site_of_definedIn {body : Body} {position : Nat} {value : ValueId} (h : body.DefinedIn position value) :
    ∃ site, site.block = position ∧ body.DefinedAt site value := by
  obtain ⟨block, hblock, hmem⟩ := h
  rcases List.mem_append.1 hmem with hdest | hdest
  · obtain ⟨phi, hphi, rfl⟩ := List.mem_map.1 hdest
    obtain ⟨index, hindex⟩ := List.mem_iff_getElem?.1 hphi
    exact ⟨_, rfl, .phi hblock hindex⟩
  · obtain ⟨instruction, hinstruction, hvalue⟩ := List.mem_filterMap.1 hdest
    obtain ⟨index, hindex⟩ := List.mem_iff_getElem?.1 hinstruction
    exact ⟨_, rfl, .instruction hblock hindex hvalue⟩

theorem mem_definitions_iff {body : Body} {value : ValueId} :
    value ∈ body.definitions ↔ ∃ site, body.DefinedAt site value := by
  rw [mem_definitions]
  constructor
  · rintro ⟨position, hdefined⟩
    obtain ⟨site, -, hsite⟩ := exists_site_of_definedIn hdefined
    exact ⟨site, hsite⟩
  · rintro ⟨site, hsite⟩
    exact ⟨site.block, hsite.definedIn⟩

theorem block_definitions_eq (block : Block) :
    block.definitions
      = block.phis.filterMap (fun phi => some phi.dest) ++ block.instructions.filterMap (·.operation.dest?) := by
  rw [Block.definitions, ← List.filterMap_eq_map]
  rfl

theorem DefinedAt.unique {body : Body} (h : body.definitions.Nodup) {left right : Site} {value : ValueId}
    (hleft : body.DefinedAt left value) (hright : body.DefinedAt right value) : left = right := by
  have hblocks := DefinedIn.unique h hleft.definedIn hright.definedIn
  cases hleft with
  | @phi position index block phi hblock hindex =>
    have hnodup := block_definitions_nodup h hblock
    rw [block_definitions_eq, List.nodup_append] at hnodup
    generalize hvalue : phi.dest = value at hright
    cases hright with
    | @phi _ otherIndex otherBlock other hother hotherIndex =>
      obtain rfl : position = _ := hblocks
      obtain rfl := Option.some.inj (hblock.symm.trans hother)
      obtain rfl := nodup_filterMap_iff.1 hnodup.1 index otherIndex phi other _ hindex hotherIndex (congrArg some hvalue)
        rfl
      rfl
    | instruction hother hotherIndex hdest =>
      have hphi : value ∈ block.phis.map (·.dest) := List.mem_map.2 ⟨phi, List.mem_of_getElem? hindex, hvalue⟩
      exact absurd hdest (dest?_ne_of_phi h hblock hphi hother (List.mem_of_getElem? hotherIndex))
  | @instruction position index block instruction _ hblock hindex hdest =>
    have hnodup := block_definitions_nodup h hblock
    rw [block_definitions_eq, List.nodup_append] at hnodup
    cases hright with
    | @phi _ _ otherBlock phi hother hotherIndex =>
      have hphi : phi.dest ∈ otherBlock.phis.map (·.dest) := List.mem_map_of_mem (List.mem_of_getElem? hotherIndex)
      exact absurd hdest (dest?_ne_of_phi h hother hphi hblock (List.mem_of_getElem? hindex))
    | @instruction _ otherIndex otherBlock other _ hother hotherIndex hotherDest =>
      obtain rfl : position = _ := hblocks
      obtain rfl := Option.some.inj (hblock.symm.trans hother)
      obtain rfl := nodup_filterMap_iff.1 hnodup.2.1 index otherIndex instruction other value hindex hotherIndex hdest
        hotherDest
      rfl

private theorem definitions_nodup_iff {body : Body} :
    body.definitions.Nodup ↔
      ∀ left right value, body.DefinedAt left value → body.DefinedAt right value → left = right := by
  constructor
  · exact fun h left right value hleft hright => hleft.unique h hright
  · intro h
    rw [definitions, List.nodup_flatMap]
    constructor
    · intro block hmem
      obtain ⟨position, hblock⟩ := List.mem_iff_getElem?.1 hmem
      rw [block_definitions_eq, List.nodup_append]
      refine ⟨nodup_filterMap_iff.2 ?_, nodup_filterMap_iff.2 ?_, ?_⟩
      · intro left right a b value hleft hright ha hb
        obtain rfl := Option.some.inj ha
        have hsame : b.dest = a.dest := Option.some.inj hb
        have hother := DefinedAt.phi hblock hright
        rw [hsame] at hother
        cases h _ _ _ (.phi hblock hleft) hother
        rfl
      · intro left right a b value hleft hright ha hb
        cases h _ _ _ (.instruction hblock hleft ha) (.instruction hblock hright hb)
        rfl
      · rintro value hleft _ hright rfl
        obtain ⟨phi, hphi, hdest⟩ := List.mem_filterMap.1 hleft
        obtain ⟨instruction, hinstruction, hvalue⟩ := List.mem_filterMap.1 hright
        obtain rfl := Option.some.inj hdest
        obtain ⟨index, hindex⟩ := List.mem_iff_getElem?.1 hphi
        obtain ⟨other, hother⟩ := List.mem_iff_getElem?.1 hinstruction
        cases h _ _ _ (.phi hblock hindex) (.instruction hblock hother hvalue)
    · rw [List.pairwise_iff_getElem]
      intro left right hltLeft hltRight hlt value hleft hright
      obtain ⟨leftSite, rfl, hleftSite⟩ :=
        exists_site_of_definedIn ⟨_, List.getElem?_eq_getElem hltLeft, hleft⟩
      obtain ⟨rightSite, rfl, hrightSite⟩ :=
        exists_site_of_definedIn ⟨_, List.getElem?_eq_getElem hltRight, hright⟩
      rw [h leftSite rightSite value hleftSite hrightSite] at hlt
      exact Nat.lt_irrefl _ hlt

/-! ### Predecessors -/

private theorem predecessors_ascending (body : Body) (target : Nat) : (body.predecessors target).Pairwise (· < ·) := by
  unfold predecessors
  split
  · exact List.pairwise_lt_range.filter _
  · exact List.Pairwise.nil

theorem leadsTo_iff {body : Body} {source target : Nat} :
    body.LeadsTo source target ↔ ∃ block, body.block? source = some block ∧ target ∈ block.allSuccessors := by
  simp only [LeadsTo, Block.allSuccessors, List.mem_append, List.mem_map]

private theorem mem_predecessors_iff_leadsTo {body : Body} {source target : Nat}
    (htarget : target < body.blocks.length) :
    source ∈ body.predecessors target ↔ body.LeadsTo source target := by
  rw [mem_predecessors, leadsTo_iff]
  exact and_iff_right htarget

private theorem length_predecessors {body : Body} {target : Nat} (htarget : target < body.blocks.length) :
    (body.predecessors target).length = {source | body.LeadsTo source target}.ncard := by
  have hset : {source | body.LeadsTo source target} = ↑(body.predecessors target).toFinset := by
    ext source
    rw [Set.mem_ofPred_eq, Finset.mem_coe, List.mem_toFinset, mem_predecessors_iff_leadsTo htarget]
  have hnodup : (body.predecessors target).Nodup := (body.predecessors_ascending target).imp Nat.ne_of_lt
  rw [hset, Set.ncard_coe_finset, List.toFinset_card_of_nodup hnodup]

/-! ### The rules against the check -/

private theorem WellFormed.keepsRules {body : Body} (h : body.WellFormed) : body.KeepsRules := by
  have hfits : ∀ block ∈ body.blocks, ∃ position, body.block? position = some block ∧ body.BlockFits position block := by
    intro block hmem
    obtain ⟨position, hblock⟩ := List.mem_iff_getElem?.1 hmem
    exact ⟨position, hblock, h.fits position block hblock⟩
  have huse : ∀ block ∈ body.blocks, ∀ value ∈ block.uses, ∃ site, body.DefinedAt site value := by
    intro block hmem value hvalue
    obtain ⟨position, -, hblock⟩ := hfits block hmem
    exact mem_definitions_iff.1 (hblock.uses value hvalue)
  refine ⟨?_, definitions_nodup_iff.1 h.distinct, ?_, ?_, ?_, ?_, ?_, ?_⟩
  · intro site value hsite
    exact h.allocated value (mem_definitions_iff.2 ⟨site, hsite⟩)
  · intro block hmem
    obtain ⟨position, -, hblock⟩ := hfits block hmem
    obtain ⟨front, last, hsplit, hcount, hfront⟩ := hblock.ends
    exact ⟨front, last, hsplit, by rw [Operation.isTerminator, hcount]; rfl, hfront, hcount⟩
  · intro source target hleads
    obtain ⟨block, hblock, hmem⟩ := leadsTo_iff.1 hleads
    have hlt := (h.fits source block hblock).targets target hmem
    exact ⟨_, List.getElem?_eq_getElem hlt⟩
  · intro position block hblock phi hphi
    rw [(h.fits position block hblock).phis phi hphi]
    exact length_predecessors (List.getElem?_eq_some_iff.1 hblock).1
  · intro block hmem phi hphi value hvalue
    exact huse block hmem value (List.mem_append_left _ (List.mem_flatMap.2 ⟨phi, hphi, hvalue⟩))
  · intro block hmem instruction hinstruction value hvalue
    exact huse block hmem value
      (List.mem_append_right _ (List.mem_flatMap.2 ⟨instruction, hinstruction, List.mem_append_left _ hvalue⟩))
  · intro block hmem instruction hinstruction value hvalue
    exact huse block hmem value
      (List.mem_append_right _ (List.mem_flatMap.2 ⟨instruction, hinstruction, List.mem_append_right _ hvalue⟩))

theorem KeepsRules.wellFormed {body : Body} (h : body.KeepsRules) (hblocks : body.blocks ≠ []) : body.WellFormed := by
  refine ⟨hblocks, ?_, definitions_nodup_iff.2 h.defined_once, ?_⟩
  · intro value hvalue
    obtain ⟨site, hsite⟩ := mem_definitions_iff.1 hvalue
    exact h.allocated site value hsite
  · intro position block hblock
    have hmem : block ∈ body.blocks := List.mem_of_getElem? hblock
    refine ⟨?_, ?_, ?_, ?_⟩
    · obtain ⟨front, last, hsplit, -, hfront, hcount⟩ := h.ends block hmem
      exact ⟨front, last, hsplit, hcount, hfront⟩
    · intro target htarget
      obtain ⟨found, hfound⟩ := h.targets position target (leadsTo_iff.2 ⟨block, hblock, htarget⟩)
      exact (List.getElem?_eq_some_iff.1 hfound).1
    · intro phi hphi
      rw [h.phi_arity position block hblock phi hphi]
      exact (length_predecessors (List.getElem?_eq_some_iff.1 hblock).1).symm
    · intro value hvalue
      rw [mem_definitions_iff]
      rcases List.mem_append.1 hvalue with hused | hused
      · obtain ⟨phi, hphi, hoperand⟩ := List.mem_flatMap.1 hused
        exact h.phi_operands block hmem phi hphi value hoperand
      · obtain ⟨instruction, hinstruction, huse⟩ := List.mem_flatMap.1 hused
        rcases List.mem_append.1 huse with hoperand | hdebug
        · exact h.operands block hmem instruction hinstruction value hoperand
        · exact h.debugValues block hmem instruction hinstruction value hdebug

private theorem check_eq_ok_iff {body : Body} (hblocks : body.blocks ≠ []) : body.check = .ok () ↔ body.KeepsRules := by
  have hcheck : body.check = .ok () ↔ body.defect? = none := by
    unfold check
    cases body.defect? <;> simp
  rw [hcheck, defect?_eq_none_iff]
  exact ⟨fun h => h.keepsRules, fun h => h.wellFormed hblocks⟩

end Body

/-! ### Building -/

namespace BodyBuilder

variable {builder next : BodyBuilder}

theorem length_blocks_modifyCurrent {f : Block → Block} (h : builder.modifyCurrent f = .ok next) :
    next.body.blocks.length = builder.body.blocks.length := by
  unfold modifyCurrent at h
  split at h
  · obtain rfl := Except.ok.inj h
    exact List.length_modify ..
  · cases h

private theorem length_blocks_define {operation : ValueId → Operation} {value : ValueId}
    (h : builder.define operation = .ok (next, value)) : next.body.blocks.length = builder.body.blocks.length := by
  obtain ⟨emitted, hemit, heq⟩ := exists_of_bind_eq_ok h
  cases heq
  have hlength := length_blocks_modifyCurrent hemit
  exact hlength

private theorem length_blocks_assume {source value : ValueId} (h : builder.assume source = .ok (next, value)) :
    next.body.blocks.length = builder.body.blocks.length := by
  obtain ⟨⟨defined, dest⟩, hdefine, heq⟩ := exists_of_bind_eq_ok h
  cases heq
  have hlength := length_blocks_define hdefine
  exact hlength

private theorem length_blocks_phi {operands : List ValueId} {value : ValueId}
    (h : builder.phi operands = .ok (next, value)) :
    next.body.blocks.length = builder.body.blocks.length := by
  obtain ⟨placed, hplaced, heq⟩ := exists_of_bind_eq_ok h
  cases heq
  have hlength := length_blocks_modifyCurrent hplaced
  exact hlength

private theorem length_blocks_terminate {operation : Operation} {successors : List Nat}
    (h : builder.terminate operation successors = .ok next) :
    next.body.blocks.length = builder.body.blocks.length := by
  obtain ⟨emitted, hemit, hlinked⟩ := exists_of_bind_eq_ok h
  rw [length_blocks_modifyCurrent hlinked, length_blocks_modifyCurrent hemit]

/-- No step takes a block away. -/
theorem length_blocks_apply {step : Step} {created : Option Created} (h : builder.apply step = .ok (next, created)) :
    builder.body.blocks.length ≤ next.body.blocks.length := by
  cases step with
  | newBlock =>
    cases h
    simp
  | switchTo | currentBlock | newValue | setLocal =>
    cases h
    exact Nat.le_refl _
  | attachDebugValues values =>
    obtain ⟨after, hafter, heq⟩ := exists_of_map_eq_ok h
    cases heq
    exact (length_blocks_modifyCurrent hafter).ge
  | addHandler guard target =>
    obtain ⟨after, hafter, heq⟩ := exists_of_map_eq_ok h
    cases heq
    exact (length_blocks_modifyCurrent hafter).ge
  | phi operands =>
    obtain ⟨after, hafter, heq⟩ := exists_of_map_eq_ok h
    cases heq
    exact (length_blocks_phi hafter).ge
  | assume source =>
    obtain ⟨after, hafter, heq⟩ := exists_of_map_eq_ok h
    cases heq
    exact (length_blocks_assume hafter).ge
  | define operation =>
    obtain ⟨after, hafter, heq⟩ := exists_of_map_eq_ok h
    cases heq
    exact (length_blocks_define hafter).ge
  | emit operation =>
    obtain ⟨after, hafter, heq⟩ := exists_of_map_eq_ok h
    cases heq
    exact (length_blocks_modifyCurrent hafter).ge
  | terminate operation successors =>
    obtain ⟨after, hafter, heq⟩ := exists_of_map_eq_ok h
    cases heq
    exact (length_blocks_terminate hafter).ge

theorem exists_of_run_cons {step : Step} {rest : List Step} {created : List Created}
    (h : builder.run (step :: rest) = .ok (next, created)) :
    ∃ first reported others, builder.apply step = .ok (first, reported) ∧ first.run rest = .ok (next, others) := by
  obtain ⟨⟨first, reported⟩, hstep, hrest⟩ := exists_of_bind_eq_ok h
  obtain ⟨⟨last, others⟩, hlast, heq⟩ := exists_of_bind_eq_ok hrest
  cases heq
  exact ⟨first, reported, others, hstep, hlast⟩

private theorem length_blocks_run {steps : List Step} {created : List Created}
    (h : builder.run steps = .ok (next, created)) :
    builder.body.blocks.length ≤ next.body.blocks.length := by
  induction steps generalizing builder created with
  | nil =>
    cases h
    exact Nat.le_refl _
  | cons step steps ih =>
    obtain ⟨first, reported, others, hstep, hrest⟩ := exists_of_run_cons h
    exact Nat.le_trans (length_blocks_apply hstep) (ih hrest)

private theorem finish_eq_ok_iff {body : Body} :
    builder.finish = .ok body ↔ builder.body.check = .ok () ∧ body = builder.body := by
  unfold finish
  cases builder.body.check with
  | error error => simp [bind, Except.bind]
  | ok => simp [bind, Except.bind, pure, Except.pure, eq_comm]

/-- **Validation.** Whatever steps were taken, the builder hands out its body exactly if that keeps the rules. The
predecessors of a block of a body handed out are the blocks that lead to it, each once and in ascending order. -/
theorem finish_accepts_exactly_the_rules (method : MethodId) (steps : List Step) (builder : BodyBuilder)
    (created : List Created) (h : (start method).run steps = .ok (builder, created)) :
    ((∃ body, builder.finish = .ok body) ↔ builder.body.KeepsRules) ∧
    ∀ body, builder.finish = .ok body → body = builder.body ∧
      ∀ target < body.blocks.length, (body.predecessors target).Pairwise (· < ·) ∧
        ∀ source, source ∈ body.predecessors target ↔ body.LeadsTo source target := by
  have hblocks : builder.body.blocks ≠ [] := List.ne_nil_of_length_pos (length_blocks_run h)
  constructor
  · simp only [finish_eq_ok_iff, exists_and_left, exists_eq, and_true]
    exact Body.check_eq_ok_iff hblocks
  · intro body hfinish
    obtain ⟨-, rfl⟩ := finish_eq_ok_iff.1 hfinish
    refine ⟨rfl, fun target htarget => ⟨Body.predecessors_ascending _ target, fun source => ?_⟩⟩
    exact Body.mem_predecessors_iff_leadsTo htarget

/-- Two ways through a body that meet again; the block where they part has a handler there too. -/
def meetingWays : List Step :=
  [.define (.argument · 0), .newBlock, .newBlock, .addHandler none 2, .terminate (.branch .ne ⟨0⟩ none) [1, 2],
    .switchTo 1, .define (.constNumber · 1), .attachDebugValues [⟨0⟩], .terminate .goto [2],
    .switchTo 2, .phi [⟨0⟩, ⟨1⟩], .terminate (.return (some ⟨2⟩)) []]

def meetingWaysBody : Body where
  method := ⟨0⟩
  blocks :=
    [{ instructions := [{ operation := .argument ⟨0⟩ 0 }, { operation := .branch .ne ⟨0⟩ none }]
       successors := [1, 2]
       handlers := [{ guard := none, target := 2 }] },
     { instructions := [{ operation := .constNumber ⟨1⟩ 1, debugValues := [⟨0⟩] }, { operation := .goto }]
       successors := [2] },
     { phis := [{ dest := ⟨2⟩, operands := [⟨0⟩, ⟨1⟩] }]
       instructions := [{ operation := .return (some ⟨2⟩) }] }]
  values := [{}, {}, {}]

theorem finish_accepts_meetingWays :
    (start ⟨0⟩).run meetingWays = .ok (⟨meetingWaysBody, 2⟩,
      [.value ⟨0⟩, .block 1, .block 2, .value ⟨1⟩, .value ⟨2⟩]) ∧
    meetingWaysBody.KeepsRules ∧ ∀ source, source ∈ meetingWaysBody.predecessors 2 ↔ meetingWaysBody.LeadsTo source 2 := by
  have hrun : (start ⟨0⟩).run meetingWays = .ok (⟨meetingWaysBody, 2⟩,
      [.value ⟨0⟩, .block 1, .block 2, .value ⟨1⟩, .value ⟨2⟩]) := by rfl
  have hfinish : finish ⟨meetingWaysBody, 2⟩ = .ok meetingWaysBody := by rfl
  obtain ⟨haccepts, hpredecessors⟩ := finish_accepts_exactly_the_rules ⟨0⟩ meetingWays _ _ hrun
  exact ⟨hrun, haccepts.1 ⟨_, hfinish⟩, ((hpredecessors _ hfinish).2 2 (by decide)).2⟩

end BodyBuilder

end Bytecode
