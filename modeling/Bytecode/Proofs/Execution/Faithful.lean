import Bytecode.Proofs.Body.Composition
import Bytecode.Proofs.Body.TrivialPhi
import Bytecode.Proofs.Execution.Passing
/-!
# Rewritings that agree with runs

A rewriting is faithful to the runs of a body if, at every point that a run passes, a value holds what is used in its
place, and an instruction that does not merely get its operands renamed does nothing but define a value. What takes its
place then does no more than that and, unless the value goes, defines it alike.

All of this is said of runs of the original body. So a rewriting that is faithful stays so when more is rewritten: a value
may supersede another that holds the same wherever it can be used, as the value of a trivial phi does, and an instruction
may be replaced by one that has the same result.
-/

namespace Bytecode.Execution

open LoadElimination (Scope)

variable {Datum Address World : Type} [DecidableEq Address]

/-! ### Renamed operations -/

section Renaming

variable (machine : Machine Datum Address World) (scope : Scope)

omit [DecidableEq Address] in
theorem unnamed_mapOperands (f : ValueId → ValueId) (operation : Operation) :
    (operation.mapOperands f).unnamed = operation.unnamed :=
  Operation.mapOperands_mapOperands f _ operation

/-- The names of its operands do not matter to an operation. -/
theorem perform_mapOperands (f : ValueId → ValueId) (operation : Operation) (data : List Datum)
    (situation : Situation Datum Address World) :
    perform machine scope (operation.mapOperands f) data situation = perform machine scope operation data situation := by
  unfold perform
  rw [unnamed_mapOperands]
  cases operation <;> rfl

end Renaming

/-- Operands whose new names hold the same data. -/
theorem mapM_map_of_agree {env other : ValueId → Option Datum} {rename : ValueId → ValueId} {operands : List ValueId}
    {data : List Datum} (h : operands.mapM env = some data)
    (hagree : ∀ operand ∈ operands, ∀ datum, env operand = some datum → other (rename operand) = some datum) :
    (operands.map rename).mapM other = some data := by
  induction operands generalizing data with
  | nil => exact h
  | cons operand operands ih =>
    rw [List.mapM_cons] at h
    obtain ⟨datum, hdatum, h⟩ := Option.bind_eq_some_iff.1 h
    obtain ⟨rest, hrest, h⟩ := Option.bind_eq_some_iff.1 h
    have htail := ih hrest fun other hother => hagree other (List.mem_cons_of_mem _ hother)
    rw [List.map_cons, List.mapM_cons, hagree operand List.mem_cons_self datum hdatum, htail]
    exact h

/-! ### Faithful rewritings -/

section Faithful

variable (machine : Machine Datum Address World) (scope : Scope)

/-- The instruction goes on to the next one and changes nothing but the environment. -/
def Silent (operation : Operation) (state after : State Datum Address World) : Prop :=
  execute machine scope operation state = .next after ∧ after.situation = state.situation

/-- What may become of an instruction that is executed in a state. -/
inductive StandsFor (rename : ValueId → ValueId) (instruction : Instruction) (state : State Datum Address World) :
    Option Instruction → Prop
  | renamed {rewritten : Instruction}
      (hoperation : rewritten.operation = instruction.operation.mapOperands rename) :
      StandsFor rename instruction state (some rewritten)
  | gone {after : State Datum Address World} (hsilent : Silent machine scope instruction.operation state after) :
      StandsFor rename instruction state none
  | replaced {rewritten : Instruction} {after : State Datum Address World} {result : Datum}
      (hsilent : Silent machine scope instruction.operation state after)
      (hoperands : rewritten.operation.operands = [])
      (hdone : perform machine scope rewritten.operation [] state.situation = .done result state.situation)
      (hresult : ∀ dest, rewritten.operation.dest? = some dest → after.env dest = some result) :
      StandsFor rename instruction state (some rewritten)

/-- The rewriting agrees with everything that runs of the body do. -/
structure Faithful (body : Body) (start : Situation Datum Address World) (rewriting : Rewriting) : Prop where
  lawful : rewriting.Lawful
  available : ∀ {position block earlier later}, body.block? position = some block → body.Reachable position →
    block.instructions = earlier ++ later → ∀ value, body.AvailableAfter position block earlier value →
    body.AvailableAfter position block earlier (rewriting.rename value)
  agrees : ∀ {position earlier state}, Passes machine scope body start position earlier state →
    ∀ value, AgreeAt body value (rewriting.rename value) position earlier state
  stands : ∀ {position block earlier instruction later state}, Passes machine scope body start position earlier state →
    body.block? position = some block → block.instructions = earlier ++ instruction :: later →
    execute machine scope instruction.operation state ≠ .faulty →
    StandsFor machine scope rewriting.rename instruction state (rewriting.instruction instruction)

theorem faithful_identity (body : Body) (start : Situation Datum Address World) :
    Faithful machine scope body start .identity where
  lawful := Rewriting.identity_lawful
  available _ _ _ _ havailable := havailable
  agrees _ _ _ _ hdatum := hdatum
  stands {_ _ _ instruction _ _} _ _ _ _ := by
    exact .renamed (Operation.mapOperands_eq_self fun _ _ => rfl).symm

end Faithful

/-! ### Rewriting further -/

section Further

variable {machine : Machine Datum Address World} {scope : Scope} {body : Body}
  {start : Situation Datum Address World} {rewriting : Rewriting}

omit [DecidableEq Address] in
theorem getElem?_of_idxOf? {entries : List Nat} {entry index : Nat} (h : entries.idxOf? entry = some index) :
    entries[index]? = some entry := by
  obtain ⟨hlt, heq, -⟩ := List.idxOf?_eq_some_iff.1 h
  rw [List.getElem?_eq_getElem hlt]
  simpa using heq

/-- What stands for an instruction still does so under other names. -/
theorem StandsFor.mapUses {rename : ValueId → ValueId} {instruction rewritten : Instruction}
    {state : State Datum Address World} (h : StandsFor machine scope rename instruction state (some rewritten))
    (f : ValueId → ValueId) :
    StandsFor machine scope (fun value => f (rename value)) instruction state (some (rewritten.mapUses f)) := by
  cases h with
  | renamed hoperation =>
    refine .renamed ?_
    rw [Instruction.mapUses, hoperation, Operation.mapOperands_mapOperands]
  | replaced hsilent hoperands hdone hresult =>
    refine .replaced hsilent ?_ ?_ fun dest hdest => hresult dest ?_
    · rw [Instruction.mapUses, Operation.operands_mapOperands, hoperands]
      rfl
    · rw [Instruction.mapUses, perform_mapOperands]
      exact hdone
    · rwa [Instruction.mapUses, Operation.dest?_mapOperands] at hdest

theorem Passes.split (hbody : body.WellFormed) {position : Nat} {earlier : List Instruction}
    {state : State Datum Address World} (h : Passes machine scope body start position earlier state) :
    ∃ block later, body.block? position = some block ∧ block.instructions = earlier ++ later := by
  cases h with
  | start =>
    obtain ⟨block, hblock⟩ := List.exists_mem_of_ne_nil _ hbody.nonempty
    have hlt := List.length_pos_of_mem hblock
    exact ⟨body.blocks[0], _, List.getElem?_eq_getElem hlt, rfl⟩
  | step _ hblock hsplit _ => exact ⟨_, _, hblock, by rw [hsplit, List.append_assoc]; rfl⟩
  | edge _ _ _ _ hnext => exact ⟨_, _, hnext, rfl⟩

/-- A second rewriting after a faithful one: what it uses in place of a value holds the same, and what it makes of the
instructions still stands for them. -/
theorem Faithful.andThen (h : Faithful machine scope body start rewriting) (hbody : body.WellFormed)
    {second : Rewriting} (hlawful : second.Lawful)
    (havailable : ∀ {position block earlier later}, body.block? position = some block → body.Reachable position →
      block.instructions = earlier ++ later → ∀ value, body.AvailableAfter position block earlier value →
      body.AvailableAfter position block earlier (second.rename value))
    (hagrees : ∀ {position earlier state}, Passes machine scope body start position earlier state →
      ∀ value, AgreeAt body value (second.rename value) position earlier state)
    (hstands : ∀ {position block earlier instruction later state},
      Passes machine scope body start position earlier state → body.block? position = some block →
      block.instructions = earlier ++ instruction :: later →
      execute machine scope instruction.operation state ≠ .faulty →
      StandsFor machine scope (rewriting.andThen second).rename instruction state
        ((rewriting.andThen second).instruction instruction)) :
    Faithful machine scope body start (rewriting.andThen second) where
  lawful := h.lawful.andThen hlawful
  available hblock hreachable hsplit value hvalue :=
    havailable hblock hreachable hsplit _ (h.available hblock hreachable hsplit value hvalue)
  agrees {position earlier state} hpasses value hvalue datum hdatum := by
    obtain ⟨block, later, hblock, hsplit⟩ := hpasses.split hbody
    obtain ⟨found, hfound, hafter⟩ := hvalue
    obtain rfl := Option.some.inj (hfound.symm.trans hblock)
    refine hagrees hpasses _ ⟨found, hblock, ?_⟩ datum (h.agrees hpasses value ⟨found, hblock, hafter⟩ datum hdatum)
    exact h.available hblock (hpasses.reachable hbody) hsplit value hafter
  stands := hstands

/-- A value supersedes another whose definition does nothing else, if the two agree. A value that is not used may go
without another in its place. -/
theorem Faithful.supersede (h : Faithful machine scope body start rewriting) (hbody : body.WellFormed)
    {old new : ValueId}
    (hagree : new = old ∨ Rewriting.Supports body old new ∧ ∀ {position earlier state},
      Passes machine scope body start position earlier state → AgreeAt body old new position earlier state)
    (hsilent : ∀ {position block earlier instruction later state},
      Passes machine scope body start position earlier state → body.block? position = some block →
      block.instructions = earlier ++ instruction :: later → instruction.operation.dest? = some old →
      execute machine scope instruction.operation state ≠ .faulty →
      ∃ after, Silent machine scope instruction.operation state after) :
    Faithful machine scope body start (rewriting.andThen (.supersede old new)) := by
  have hrename : ∀ value, Rewriting.replacing old new value = value ∨
      value = old ∧ new ≠ old ∧ Rewriting.replacing old new value = new := by
    intro value
    by_cases heq : value = old
    · by_cases hsame : new = old
      · exact .inl (by simp [Rewriting.replacing, heq, hsame])
      · exact .inr ⟨heq, hsame, by simp [Rewriting.replacing, heq]⟩
    · exact .inl (by simp [Rewriting.replacing, heq])
  refine h.andThen hbody (Rewriting.supersede_lawful old new) ?_ ?_ ?_
  · intro position block earlier later hblock hreachable hsplit value hvalue
    change body.AvailableAfter position block earlier (Rewriting.replacing old new value)
    rcases hrename value with heq | ⟨rfl, hne, heq⟩
    · rwa [heq]
    · rw [heq]
      exact (hagree.resolve_left hne).1.availableAfter hblock hreachable hsplit hvalue
  · intro position earlier state hpasses value
    change AgreeAt body value (Rewriting.replacing old new value) position earlier state
    rcases hrename value with heq | ⟨rfl, hne, heq⟩
    · rw [heq]
      exact fun _ _ hdatum => hdatum
    · rw [heq]
      exact (hagree.resolve_left hne).2 hpasses
  · intro position block earlier instruction later state hpasses hblock hsplit hfault
    have hstands := h.stands hpasses hblock hsplit hfault
    simp only [Rewriting.andThen]
    cases hbecomes : rewriting.instruction instruction with
    | none =>
      rw [hbecomes] at hstands
      cases hstands with
      | gone hsilent => exact .gone hsilent
    | some rewritten =>
      rw [hbecomes] at hstands
      rw [Option.bind_some]
      by_cases hdest : rewritten.operation.dest? = some old
      · obtain ⟨after, hafter⟩ := hsilent hpasses hblock hsplit
          (h.lawful.dest?_of_instruction hbecomes hdest) hfault
        rw [Rewriting.supersede_definition new hdest]
        split
        · exact .gone hafter
        · exact .replaced hafter rfl rfl (by rintro _ ⟨⟩)
      · rw [Rewriting.supersede_other new hdest]
        exact hstands.mapUses _

/-- The definition of a value is replaced by one with the same result. -/
theorem Faithful.redefine (h : Faithful machine scope body start rewriting) (hbody : body.WellFormed)
    {dest : ValueId} {operation : Operation} (hdest : operation.dest? = some dest) (hoperands : operation.operands = [])
    (hresult : ∀ {position block earlier instruction later state},
      Passes machine scope body start position earlier state → body.block? position = some block →
      block.instructions = earlier ++ instruction :: later → instruction.operation.dest? = some dest →
      execute machine scope instruction.operation state ≠ .faulty →
      ∃ after result, Silent machine scope instruction.operation state after ∧
        perform machine scope operation [] state.situation = .done result state.situation ∧
        after.env dest = some result) :
    Faithful machine scope body start (rewriting.andThen (.redefine dest operation)) := by
  refine h.andThen hbody (Rewriting.redefine_lawful hdest hoperands) (fun _ _ _ _ hvalue => hvalue)
    (fun _ _ _ _ hdatum => hdatum) ?_
  intro position block earlier instruction later state hpasses hblock hsplit hfault
  have hstands := h.stands hpasses hblock hsplit hfault
  simp only [Rewriting.andThen]
  cases hbecomes : rewriting.instruction instruction with
  | none =>
    rw [hbecomes] at hstands
    cases hstands with
    | gone hsilent => exact .gone hsilent
  | some rewritten =>
    rw [hbecomes] at hstands
    simp only [Option.bind_some, Rewriting.redefine]
    split
    · rename_i hdefines
      obtain ⟨after, result, hsilent, hdone, hvalue⟩ := hresult hpasses hblock hsplit
        (h.lawful.dest?_of_instruction hbecomes hdefines) hfault
      refine .replaced hsilent hoperands hdone fun other hother => ?_
      obtain rfl := Option.some.inj (hother.symm.trans hdest)
      exact hvalue
    · exact hstands

/-! ### Trivial phis -/

/-- A phi that has become trivial holds what its value holds: over every edge it selects that value or itself. -/
theorem Faithful.trivialPhi (h : Faithful machine scope body start rewriting) (hbody : body.WellFormed)
    (hssa : body.StrictSSA) (hrewritten : (rewriting.body body).WellFormed)
    (hstrict : (rewriting.body body).StrictSSA) {position : Nat} {block : Block}
    (hblock : (rewriting.body body).block? position = some block) {phi : Phi} (hphi : phi ∈ block.phis)
    {value : ValueId} (hvalue : phi.trivialValue? = some value) :
    Faithful machine scope body start (rewriting.andThen (.supersede phi.dest value)) := by
  have hdistinct := hbody.distinct
  have hsupports := (Body.supports_trivialValue hrewritten hstrict hblock hphi hvalue).2.2
  have hoperands := (Phi.trivialValue?_eq_some hvalue).2.2
  obtain ⟨before, hbefore, rfl⟩ := Option.map_eq_some_iff.1 ((rewriting.block?_body body position).symm.trans hblock)
  obtain ⟨original, horiginal, rfl⟩ := List.mem_map.1 hphi
  replace horiginal := List.mem_of_mem_filter horiginal
  have hnot : ∀ {other : Nat} {otherBlock : Block} {earlier later : List Instruction} {instruction : Instruction},
      body.block? other = some otherBlock → otherBlock.instructions = earlier ++ instruction :: later →
      instruction.operation.dest? ≠ some original.dest := by
    intro other otherBlock earlier later instruction hother hsplit
    exact Body.dest?_ne_of_phi hdistinct hbefore (List.mem_map_of_mem horiginal) hother (by rw [hsplit]; simp)
  have hsupportsOld : Rewriting.Supports body original.dest value := by
    intro other otherBlock hother hreachable
    refine ⟨fun hmem => ?_, fun earlier instruction later hsplit hdest => absurd hdest (hnot hother hsplit)⟩
    obtain rfl := Body.DefinedIn.unique hdistinct ⟨otherBlock, hother, List.mem_append_left _ hmem⟩
      ⟨before, hbefore, List.mem_append_left _ (List.mem_map_of_mem horiginal)⟩
    refine h.lawful.availableAtStart_of ((hsupports other _ hblock ?_).1 (List.mem_map_of_mem hphi))
    exact (rewriting.sameFlow body).reachable_iff.2 hreachable
  refine h.supersede hbody (.inr ⟨hsupportsOld, fun hpasses => hpasses.agreeAt hbody hsupportsOld ?_ ?_⟩) ?_
  · intro _ _ _ _ _ _ _ _ hother hsplit hdest
    exact absurd hdest (hnot hother hsplit)
  · intro source target sourceBlock next earlier instruction later state moved hpasses hsource hsplit hexit hnext hmem
      hagree datum hdatum
    obtain rfl := Body.DefinedIn.unique hdistinct ⟨next, hnext, List.mem_append_left _ hmem⟩
      ⟨before, hbefore, List.mem_append_left _ (List.mem_map_of_mem horiginal)⟩
    obtain rfl := Option.some.inj (hnext.symm.trans hbefore)
    rw [arrive_of_phi (Body.block_definitions_nodup hdistinct hnext) horiginal] at hdatum
    obtain ⟨operand, hoperand, hdatum⟩ := Option.bind_eq_some_iff.1 hdatum
    obtain ⟨index, hindex, hoperand⟩ := Option.bind_eq_some_iff.1 hoperand
    rw [hexit.env_eq] at hdatum ⊢
    have hend := hssa.operand_available target next hnext original horiginal index source operand
      (getElem?_of_idxOf? hindex) hoperand
    have havailable := hpasses.available_of_atEnd hdistinct hsource hsplit hend (by rw [hdatum]; nofun)
    have hrenamed := h.agrees hpasses operand havailable datum hdatum
    rcases hoperands _ (List.mem_map_of_mem (List.mem_of_getElem? hoperand)) with hself | hself
    · rw [hself] at hrenamed
      refine hagree ?_ datum hrenamed
      obtain ⟨here, hhere, hafter⟩ := havailable
      obtain rfl := Option.some.inj (hhere.symm.trans hsource)
      exact ⟨here, hhere, hself ▸ h.available hhere (hpasses.reachable hbody) hsplit operand hafter⟩
    · rwa [hself] at hrenamed
  · intro _ _ _ _ _ _ _ hother hsplit hdest
    exact absurd hdest (hnot hother hsplit)

/-- Removing all trivial phis of a faithfully rewritten body is faithful. -/
theorem Faithful.removeTrivialPhis (h : Faithful machine scope body start rewriting) (hbody : body.WellFormed)
    (hssa : body.StrictSSA) {current : Body} (hcurrent : current = rewriting.body body) (hrewritten : current.WellFormed)
    (hstrict : current.StrictSSA) :
    ∃ further, Faithful machine scope body start further ∧ current.removeTrivialPhis.1 = further.body body := by
  fun_induction Body.removeTrivialPhis current generalizing rewriting with
  | case1 current hnone => exact ⟨rewriting, h, hcurrent⟩
  | case2 current phi value blocks hsome result removed hrec ih =>
    obtain ⟨front, block, back, before, after, hblocks, hphis, hvalue, -⟩ := extractTrivial_eq_some hsome
    have hblock : current.block? front.length = some block := by
      rw [Body.block?, hblocks]
      simp
    have hphi : phi ∈ block.phis := by
      rw [hphis]
      simp
    have hkeeps := Rewriting.supersede_keeps hrewritten hstrict fun _ =>
      Body.supports_trivialValue hrewritten hstrict hblock hphi hvalue
    rw [Rewriting.replaceUses_extractTrivial hrewritten.distinct hsome] at hrec ih
    subst hcurrent
    have hfurther := h.trivialPhi hbody hssa hrewritten hstrict hblock hphi hvalue
    obtain ⟨further, hfaithful, heq⟩ := ih hfurther (Rewriting.andThen_body _ _ _).symm hkeeps.1 hkeeps.2
    rw [hrec] at heq
    exact ⟨further, hfaithful, heq⟩

end Further

end Bytecode.Execution
