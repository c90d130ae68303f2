import Bytecode.Proofs.Body.Rewriting
/-!
# One rewriting after another

Two rewritings in a row are one rewriting of the original body. A rewriting also loses nothing on the way back: what is
defined and available in the rewritten body was so before.
-/

namespace Bytecode.Rewriting

/-- Nothing changes. -/
def identity : Rewriting where
  gone _ := false
  rename := id
  instruction := some

def andThen (first second : Rewriting) : Rewriting where
  gone value := first.gone value || second.gone value
  rename value := second.rename (first.rename value)
  instruction instruction := (first.instruction instruction).bind second.instruction

theorem identity_body (body : Body) : identity.body body = body := by
  have hphi : ∀ phi : Phi, phi.mapOperands id = phi := fun phi => by simp [Phi.mapOperands]
  have hblock : ∀ block : Block, identity.block block = block := by
    intro block
    simp [Rewriting.block, identity, hphi]
  rw [Rewriting.body, List.map_congr_left fun block _ => hblock block, List.map_id']

theorem identity_lawful : identity.Lawful where
  dest? instruction := by
    rw [identity, Option.bind_some]
    cases instruction.operation.dest? <;> rfl
  uses := by
    rintro instruction rewritten ⟨⟩ value hvalue
    exact ⟨value, hvalue, rfl⟩
  successorCount? _ := rfl

theorem andThen_body (first second : Rewriting) (body : Body) :
    (first.andThen second).body body = second.body (first.body body) := by
  have hblock : ∀ block, (first.andThen second).block block = second.block (first.block block) := by
    intro block
    have hphis : (block.phis.filter fun phi => !(first.andThen second).gone phi.dest)
        = (block.phis.filter fun phi => !first.gone phi.dest).filter fun phi => !second.gone phi.dest := by
      rw [List.filter_filter]
      apply List.filter_congr
      intro phi _
      rw [andThen, Bool.not_or, Bool.and_comm]
    simp only [Rewriting.block, List.filter_map, List.map_map, List.filterMap_filterMap, hphis]
    congr 1
    apply List.map_congr_left
    intro phi _
    simp [Phi.mapOperands, andThen]
  simp only [Rewriting.body, List.map_map]
  congr 1
  exact List.map_congr_left fun block _ => hblock block

theorem Lawful.andThen {first second : Rewriting} (hfirst : first.Lawful) (hsecond : second.Lawful) :
    (first.andThen second).Lawful where
  dest? instruction := by
    have hone := hfirst.dest? instruction
    cases hrewritten : first.instruction instruction with
    | none =>
      rw [hrewritten, Option.bind_none] at hone
      cases hdest : instruction.operation.dest? with
      | none => simp [Rewriting.andThen, hrewritten]
      | some dest =>
        rw [hdest, eq_comm, Option.filter_eq_none_iff] at hone
        have hgone := hone dest rfl
        have hgone : first.gone dest = true := by simpa using hgone
        simp [Rewriting.andThen, hrewritten, Option.filter, hgone]
    | some rewritten =>
      rw [hrewritten, Option.bind_some] at hone
      simp only [Rewriting.andThen, hrewritten, Option.bind_some, hsecond.dest? rewritten, hone, Option.filter_filter]
      congr 1
      funext dest
      rw [Bool.not_or, Bool.and_comm]
  uses instruction rewritten hrewritten value hvalue := by
    obtain ⟨middle, hmiddle, hlast⟩ := Option.bind_eq_some_iff.1 hrewritten
    obtain ⟨used, hused, rfl⟩ := hsecond.uses middle rewritten hlast value hvalue
    obtain ⟨first, hfirstUsed, rfl⟩ := hfirst.uses instruction middle hmiddle used hused
    exact ⟨first, hfirstUsed, rfl⟩
  successorCount? instruction := by
    rw [← hfirst.successorCount? instruction]
    cases hrewritten : first.instruction instruction with
    | none => simp [Rewriting.andThen, hrewritten]
    | some rewritten =>
      simp only [Rewriting.andThen, hrewritten, Option.bind_some]
      exact hsecond.successorCount? rewritten

theorem mapUses_mapUses (f g : ValueId → ValueId) (instruction : Instruction) :
    (instruction.mapUses f).mapUses g = instruction.mapUses fun value => g (f value) := by
  simp [Instruction.mapUses, Operation.mapOperands_mapOperands]

/-! ### Back to the original body -/

namespace Lawful

variable {rewriting : Rewriting} {body : Body} {position : Nat} {value : ValueId}

theorem dest?_of_instruction (h : rewriting.Lawful) {instruction rewritten : Instruction}
    (hrewritten : rewriting.instruction instruction = some rewritten)
    (hdest : rewritten.operation.dest? = some value) : instruction.operation.dest? = some value := by
  have heq := h.dest? instruction
  rw [hrewritten, Option.bind_some, hdest] at heq
  exact (Option.filter_eq_some_iff.1 heq.symm).1

/-- A value that is still the result of an instruction is not gone. -/
theorem gone_of_instruction (h : rewriting.Lawful) {instruction rewritten : Instruction}
    (hrewritten : rewriting.instruction instruction = some rewritten)
    (hdest : rewritten.operation.dest? = some value) : rewriting.gone value = false := by
  have heq := h.dest? instruction
  rw [hrewritten, Option.bind_some, hdest, eq_comm, Option.filter_eq_some_iff, Bool.not_eq_true'] at heq
  exact heq.2

theorem availableAtStart_of (h : rewriting.Lawful) (hvalue : (rewriting.body body).AvailableAtStart position value) :
    body.AvailableAtStart position value := by
  obtain ⟨upper, hne, hdefined, hdominates⟩ := hvalue
  exact ⟨upper, hne, (h.definedIn_iff.1 hdefined).1, (rewriting.sameFlow body).dominates_iff.1 hdominates⟩

theorem availableAfter_of (h : rewriting.Lawful) {block : Block} {earlier : List Instruction}
    (hvalue : (rewriting.body body).AvailableAfter position (rewriting.block block)
      (earlier.filterMap rewriting.instruction) value) : body.AvailableAfter position block earlier value := by
  rcases hvalue with hstart | hphi | hearlier
  · exact .inl (h.availableAtStart_of hstart)
  · obtain ⟨phi, hmem, rfl⟩ := List.mem_map.1 hphi
    obtain ⟨before, hbefore, rfl⟩ := List.mem_map.1 hmem
    exact .inr (.inl (List.mem_map.2 ⟨before, List.mem_of_mem_filter hbefore, rfl⟩))
  · rw [h.filterMap_dest?] at hearlier
    exact .inr (.inr (List.mem_of_mem_filter hearlier))

end Lawful

end Bytecode.Rewriting
