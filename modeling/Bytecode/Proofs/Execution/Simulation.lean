import Bytecode.Proofs.Execution.Faithful
/-!
# Rewritten bodies run in step

A faithfully rewritten body runs in step with the original one: block by block the situations are the same, and so is
every available value that has not gone. Within a block the two go from instruction to instruction, the rewritten one
standing still where an instruction has gone, and they leave the block at the same instruction.

Nothing is said of faulty runs. Where the original run reads an undefined value, the rewritten one need not.
-/

namespace Bytecode.Execution

open LoadElimination (Scope)

variable {Datum Address World : Type} [DecidableEq Address]

/-! ### Similar states -/

/-- The situations are the same, and so is every available value that has not gone. -/
structure Similar (body : Body) (rewriting : Rewriting) (position : Nat) (earlier : List Instruction)
    (state other : State Datum Address World) : Prop where
  situation : other.situation = state.situation
  env : ∀ value, body.Available position earlier value → rewriting.gone value = false →
    ∀ datum, state.env value = some datum → other.env value = some datum

section Simulation

variable {machine : Machine Datum Address World} {scope : Scope} {body : Body}
  {start : Situation Datum Address World} {rewriting : Rewriting}

/-- The names that a rewritten body uses have not gone. -/
theorem gone_rename_eq_false (hlawful : rewriting.Lawful) (hrewritten : (rewriting.body body).WellFormed)
    {value : ValueId} (h : rewriting.rename value ∈ (rewriting.body body).uses) :
    rewriting.gone (rewriting.rename value) = false := by
  have hdefined := hrewritten.defined_of_use h
  rw [hlawful.body_definitions, List.mem_filter, Bool.not_eq_true'] at hdefined
  exact hdefined.2

section Points

variable {position : Nat} {block : Block} {earlier later : List Instruction} {instruction : Instruction}
  {state other : State Datum Address World}

/-- A value holds the same under the name that is used in the rewritten body. -/
theorem Similar.env_rename (hfaithful : Faithful machine scope body start rewriting) (hbody : body.WellFormed)
    (hrewritten : (rewriting.body body).WellFormed)
    (hpasses : Passes machine scope body start position earlier state) (hblock : body.block? position = some block)
    (hsplit : block.instructions = earlier ++ later) (h : Similar body rewriting position earlier state other)
    {value : ValueId} (hused : rewriting.rename value ∈ (rewriting.body body).uses)
    (havailable : body.AvailableAfter position block earlier value) {datum : Datum}
    (hdatum : state.env value = some datum) : other.env (rewriting.rename value) = some datum := by
  have hnew := hfaithful.available hblock (hpasses.reachable hbody) hsplit value havailable
  exact h.env _ ⟨block, hblock, hnew⟩ (gone_rename_eq_false hfaithful.lawful hrewritten hused) datum
    (hfaithful.agrees hpasses value ⟨block, hblock, havailable⟩ datum hdatum)

omit [DecidableEq Address] in
/-- An instruction leads to similar states if the value that it defines goes or is defined alike. -/
theorem Similar.append (h : Similar body rewriting position earlier state other)
    {after following : State Datum Address World}
    (hafter : ∀ value, instruction.operation.dest? ≠ some value → after.env value = state.env value)
    (hfollowing : ∀ value, instruction.operation.dest? ≠ some value → following.env value = other.env value)
    (hdest : ∀ value, instruction.operation.dest? = some value → rewriting.gone value = false →
      following.env value = after.env value)
    (hsituation : following.situation = after.situation) :
    Similar body rewriting position (earlier ++ [instruction]) after following := by
  refine ⟨hsituation, fun value havailable hstays datum hdatum => ?_⟩
  by_cases heq : instruction.operation.dest? = some value
  · rw [hdest value heq hstays]
    exact hdatum
  · rw [hafter value heq] at hdatum
    rw [hfollowing value heq]
    rcases available_append_iff.1 havailable with hbefore | ⟨hnew, -⟩
    · exact h.env value hbefore hstays datum hdatum
    · exact absurd hnew heq

/-- Effects of an instruction and of what it has become. -/
inductive Alike (body : Body) (rewriting : Rewriting) (position : Nat) (earlier : List Instruction)
    (instruction : Instruction) : Effect Datum Address World → Effect Datum Address World → Prop
  | next {state other : State Datum Address World}
      (h : Similar body rewriting position (earlier ++ [instruction]) state other) :
      Alike body rewriting position earlier instruction (.next state) (.next other)
  | jump {choice : Nat} {state other : State Datum Address World}
      (h : Similar body rewriting position earlier state other) :
      Alike body rewriting position earlier instruction (.jump choice state) (.jump choice other)
  | returned {result : Option Datum} {state other : State Datum Address World}
      (h : Similar body rewriting position earlier state other) :
      Alike body rewriting position earlier instruction (.returned result state) (.returned result other)
  | raised {exception : Datum} {state other : State Datum Address World}
      (h : Similar body rewriting position earlier state other) :
      Alike body rewriting position earlier instruction (.raised exception state) (.raised exception other)

/-- An instruction whose operands got other names for the same data. -/
theorem Similar.execute_renamed (h : Similar body rewriting position earlier state other)
    {rewritten : Instruction} (hoperation : rewritten.operation = instruction.operation.mapOperands rewriting.rename)
    (hoperands : ∀ operand ∈ instruction.operation.operands, ∀ datum, state.env operand = some datum →
      other.env (rewriting.rename operand) = some datum)
    (hfault : execute machine scope instruction.operation state ≠ .faulty) :
    Alike body rewriting position earlier instruction (execute machine scope instruction.operation state)
      (execute machine scope rewritten.operation other) := by
  cases hdata : instruction.operation.operands.mapM state.env with
  | none => exact absurd (by rw [execute, hdata]) hfault
  | some data =>
    have hdata' : rewritten.operation.operands.mapM other.env = some data := by
      rw [hoperation, Operation.operands_mapOperands]
      exact mapM_map_of_agree hdata hoperands
    have hperform : perform machine scope rewritten.operation data other.situation
        = perform machine scope instruction.operation data state.situation := by
      rw [hoperation, perform_mapOperands, h.situation]
    have hdest : rewritten.operation.dest? = instruction.operation.dest? := by
      rw [hoperation, Operation.dest?_mapOperands]
    unfold execute at hfault ⊢
    simp only [hdata, hdata', hperform, hdest] at hfault ⊢
    cases houtcome : perform machine scope instruction.operation data state.situation with
    | done result situation =>
      refine .next (h.append (fun value hne => assign_of_ne hne) (fun value hne => assign_of_ne hne) ?_ rfl)
      intro value heq _
      simp only [heq, assign_self]
    | jump choice => exact .jump h
    | returned result => exact .returned h
    | raised exception situation => exact .raised ⟨rfl, h.env⟩
    | faulty => simp [houtcome] at hfault

/-- An instruction and what has become of it, executed in similar states. -/
theorem Similar.execute (hfaithful : Faithful machine scope body start rewriting) (hbody : body.WellFormed)
    (hssa : body.StrictSSA) (hrewritten : (rewriting.body body).WellFormed)
    (hpasses : Passes machine scope body start position earlier state) (hblock : body.block? position = some block)
    (hsplit : block.instructions = earlier ++ instruction :: later)
    (h : Similar body rewriting position earlier state other)
    (hfault : execute machine scope instruction.operation state ≠ .faulty) :
    (rewriting.instruction instruction = none ∧ ∃ after,
      Execution.execute machine scope instruction.operation state = .next after ∧
        Similar body rewriting position (earlier ++ [instruction]) after other) ∨
    ∃ rewritten, rewriting.instruction instruction = some rewritten ∧
      Alike body rewriting position earlier instruction (Execution.execute machine scope instruction.operation state)
        (Execution.execute machine scope rewritten.operation other) := by
  have hdest := hfaithful.lawful.dest? instruction
  have hstands := hfaithful.stands hpasses hblock hsplit hfault
  generalize hbecomes : rewriting.instruction instruction = becomes at hstands hdest ⊢
  cases hstands with
  | @renamed rewritten hoperation =>
    refine .inr ⟨rewritten, rfl, h.execute_renamed hoperation (fun operand hoperand datum hdatum => ?_) hfault⟩
    have huse : operand ∈ instruction.uses := List.mem_append_left _ hoperand
    refine h.env_rename hfaithful hbody hrewritten hpasses hblock hsplit ?_
      (hssa.use_available position block hblock (hpasses.reachable hbody) _ _ _ hsplit operand huse) hdatum
    have hmem : rewritten ∈ (rewriting.block block).instructions :=
      List.mem_filterMap.2 ⟨instruction, by rw [hsplit]; simp, hbecomes⟩
    refine List.mem_flatMap.2 ⟨rewriting.block block, List.mem_map_of_mem (List.mem_of_getElem? hblock), ?_⟩
    refine List.mem_append_right _ (List.mem_flatMap.2 ⟨rewritten, hmem, List.mem_append_left _ ?_⟩)
    rw [hoperation, Operation.operands_mapOperands]
    exact List.mem_map_of_mem hoperand
  | @gone after hsilent =>
    refine .inl ⟨rfl, after, hsilent.1, h.append (fun value => env_of_execute hsilent.1) (fun _ _ => rfl) ?_ ?_⟩
    · intro value heq hstays
      rw [heq] at hdest
      simp [Option.filter, hstays] at hdest
    · rw [h.situation, hsilent.2]
  | @replaced rewritten after result hsilent hoperands hdone hresult =>
    refine .inr ⟨rewritten, rfl, ?_⟩
    have hexecute : Execution.execute machine scope rewritten.operation other
        = .next { env := assign other.env rewritten.operation.dest? result, situation := other.situation } := by
      rw [Execution.execute, hoperands]
      simp only [List.mapM_nil, Option.pure_def, h.situation, hdone]
    rw [hsilent.1, hexecute]
    refine .next (h.append (fun value => env_of_execute hsilent.1) (fun value hne => assign_of_ne ?_) ?_ ?_)
    · intro heq
      rw [Option.bind_some, heq] at hdest
      exact hne (Option.filter_eq_some_iff.1 hdest.symm).1
    · intro value heq hstays
      have hkept : rewritten.operation.dest? = some value := by
        rw [Option.bind_some, heq] at hdest
        simpa [Option.filter, hstays] using hdest
      simp only [hkept, assign_self, hresult value hkept]
    · exact h.situation.trans hsilent.2.symm

end Points

/-- A block that is left somewhere is left at the same instruction when it is rewritten, in similar states. -/
theorem executeAll_alike (hfaithful : Faithful machine scope body start rewriting) (hbody : body.WellFormed)
    (hssa : body.StrictSSA) (hrewritten : (rewriting.body body).WellFormed) {position : Nat} {block : Block}
    (hblock : body.block? position = some block) {rest : List Instruction} :
    ∀ {earlier : List Instruction} {state other : State Datum Address World},
      Passes machine scope body start position earlier state → block.instructions = earlier ++ rest →
      Similar body rewriting position earlier state other →
      executeAll machine scope rest state ≠ .faulty → (∀ after, executeAll machine scope rest state ≠ .next after) →
      ∃ front instruction back found, rest = front ++ instruction :: back ∧
        Passes machine scope body start position (earlier ++ front) found ∧
        execute machine scope instruction.operation found = executeAll machine scope rest state ∧
        Alike body rewriting position (earlier ++ front) instruction (executeAll machine scope rest state)
          (executeAll machine scope (rest.filterMap rewriting.instruction) other) := by
  induction rest with
  | nil =>
    intro earlier state other _ _ _ _ hnext
    exact absurd rfl (hnext state)
  | cons instruction rest ih =>
    intro earlier state other hpasses hsplit hsimilar hfault hnext
    have hhere : execute machine scope instruction.operation state ≠ .faulty := by
      intro heq
      refine hfault ?_
      simp only [executeAll, heq]
    rcases hsimilar.execute hfaithful hbody hssa hrewritten hpasses hblock hsplit hhere with
      ⟨hgone, after, hafter, hlater⟩ | ⟨rewritten, hbecomes, halike⟩
    · have hall : executeAll machine scope (instruction :: rest) state = executeAll machine scope rest after := by
        simp only [executeAll, hafter]
      rw [hall] at hfault hnext ⊢
      rw [List.filterMap_cons_none hgone]
      obtain ⟨front, found, back, middle, rfl, hmiddle, heffect, hrest⟩ :=
        ih (hpasses.step hblock hsplit hafter) (by rw [hsplit]; simp) hlater hfault hnext
      rw [List.append_assoc] at hmiddle hrest
      exact ⟨instruction :: front, found, back, middle, rfl, hmiddle, heffect, hrest⟩
    · rw [List.filterMap_cons_some hbecomes]
      generalize hleft : execute machine scope instruction.operation state = left at halike
      generalize hright : execute machine scope rewritten.operation other = right at halike
      cases halike with
      | @next after following hlater =>
        have hall : executeAll machine scope (instruction :: rest) state = executeAll machine scope rest after := by
          simp only [executeAll, hleft]
        have hall' : executeAll machine scope (rewritten :: rest.filterMap rewriting.instruction) other
            = executeAll machine scope (rest.filterMap rewriting.instruction) following := by
          simp only [executeAll, hright]
        rw [hall] at hfault hnext ⊢
        rw [hall']
        obtain ⟨front, found, back, middle, rfl, hmiddle, heffect, hrest⟩ :=
          ih (hpasses.step hblock hsplit hleft) (by rw [hsplit]; simp) hlater hfault hnext
        rw [List.append_assoc] at hmiddle hrest
        exact ⟨instruction :: front, found, back, middle, rfl, hmiddle, heffect, hrest⟩
      | jump h | returned h | raised h =>
        refine ⟨[], instruction, rest, state, rfl, by rwa [List.append_nil], ?_, ?_⟩
        · simp only [executeAll, hleft]
        · simp only [executeAll, hleft, hright, List.append_nil]
          constructor
          exact h

/-! ### Whole runs -/

/-- Runs that are at the same place in similar states, or have ended alike. -/
inductive InStep (body : Body) (rewriting : Rewriting) : Status Datum Address World → Status Datum Address World → Prop
  | running {position : Nat} {state other : State Datum Address World}
      (h : Similar body rewriting position [] state other) :
      InStep body rewriting (.running position state) (.running position other)
  | finished {ending : Ending Datum} {situation : Situation Datum Address World} :
      InStep body rewriting (.finished ending situation) (.finished ending situation)

omit [DecidableEq Address] in
theorem InStep.observe_eq {status other : Status Datum Address World} (h : InStep body rewriting status other) :
    other.observe = status.observe := by
  cases h with
  | running h => rw [Status.observe, Status.observe, h.situation]
  | finished => rfl

section Arriving

variable {position target : Nat} {block next : Block} {earlier later : List Instruction}
  {found state other : State Datum Address World}

/-- A value that is available at the start of the next block comes to it as it is. -/
theorem Similar.arrive_start (hfaithful : Faithful machine scope body start rewriting) (hbody : body.WellFormed)
    (hrewritten : (rewriting.body body).WellFormed)
    (hpasses : Passes machine scope body start position earlier found) (henv : state.env = found.env)
    (hblock : body.block? position = some block) (hsplit : block.instructions = earlier ++ later)
    (hnext : body.block? target = some next) (hsuccessor : target ∈ block.allSuccessors)
    (h : Similar body rewriting position earlier state other) {value : ValueId}
    (hstart : body.AvailableAtStart target value) (hstays : rewriting.gone value = false) {datum : Datum}
    (hdatum : arrive body position target next state.env value = some datum) :
    arrive (rewriting.body body) position target (rewriting.block next) other.env value = some datum := by
  rw [arrive_of_availableAtStart hbody.distinct hnext hstart] at hdatum
  rw [arrive_of_availableAtStart hrewritten.distinct (rewriting.block?_of hnext)
    (hfaithful.lawful.availableAtStart hstart hstays)]
  refine h.env value (hpasses.available_of_atEnd hbody.distinct hblock hsplit ?_ ?_) hstays datum hdatum
  · exact availableAtEnd_of_edge hblock hsuccessor hnext hstart
  · rw [← henv, hdatum]
    nofun

/-- A phi that has not gone selects the same operand under its new name. -/
theorem Similar.arrive_phi (hfaithful : Faithful machine scope body start rewriting) (hbody : body.WellFormed)
    (hssa : body.StrictSSA) (hrewritten : (rewriting.body body).WellFormed)
    (hpasses : Passes machine scope body start position earlier found) (henv : state.env = found.env)
    (hblock : body.block? position = some block) (hsplit : block.instructions = earlier ++ later)
    (hnext : body.block? target = some next) (h : Similar body rewriting position earlier state other) {phi : Phi}
    (hphi : phi ∈ next.phis) (hstays : rewriting.gone phi.dest = false) {datum : Datum}
    (hdatum : arrive body position target next state.env phi.dest = some datum) :
    arrive (rewriting.body body) position target (rewriting.block next) other.env phi.dest = some datum := by
  have hkept : phi.mapOperands rewriting.rename ∈ (rewriting.block next).phis :=
    List.mem_map_of_mem (List.mem_filter.2 ⟨hphi, by rw [hstays]; rfl⟩)
  have hnew : arrive (rewriting.body body) position target (rewriting.block next) other.env phi.dest
      = (((body.predecessors target).idxOf? position).bind ((phi.operands.map rewriting.rename)[·]?)).bind other.env := by
    rw [← (rewriting.sameFlow body).predecessors_eq]
    exact arrive_of_phi (Body.block_definitions_nodup hrewritten.distinct (rewriting.block?_of hnext)) hkept other.env
  rw [arrive_of_phi (Body.block_definitions_nodup hbody.distinct hnext) hphi] at hdatum
  obtain ⟨operand, hoperand, hdatum⟩ := Option.bind_eq_some_iff.1 hdatum
  obtain ⟨index, hindex, hoperand⟩ := Option.bind_eq_some_iff.1 hoperand
  rw [hnew, hindex, Option.bind_some, List.getElem?_map, hoperand, Option.map_some, Option.bind_some]
  have hused : rewriting.rename operand ∈ (rewriting.body body).uses := by
    refine List.mem_flatMap.2 ⟨rewriting.block next, List.mem_of_getElem? (rewriting.block?_of hnext), ?_⟩
    exact List.mem_append_left _ (List.mem_flatMap.2 ⟨_, hkept, List.mem_map_of_mem (List.mem_of_getElem? hoperand)⟩)
  have hend := hssa.operand_available target next hnext phi hphi index position operand (getElem?_of_idxOf? hindex)
    hoperand
  obtain ⟨here, hhere, havailable⟩ := hpasses.available_of_atEnd hbody.distinct hblock hsplit hend
    (by rw [← henv, hdatum]; nofun)
  obtain rfl := Option.some.inj (hhere.symm.trans hblock)
  have hagree := hfaithful.agrees hpasses operand ⟨here, hhere, havailable⟩ datum (henv ▸ hdatum)
  refine h.env _ ⟨here, hhere, ?_⟩ (gone_rename_eq_false hfaithful.lawful hrewritten hused) datum (henv ▸ hagree)
  exact hfaithful.available hhere (hpasses.reachable hbody) hsplit operand havailable

/-- Arriving at a block from similar states, one of which is that of a run. -/
theorem Similar.arrive (hfaithful : Faithful machine scope body start rewriting) (hbody : body.WellFormed)
    (hssa : body.StrictSSA) (hrewritten : (rewriting.body body).WellFormed)
    (hpasses : Passes machine scope body start position earlier found) (henv : state.env = found.env)
    (hblock : body.block? position = some block) (hsplit : block.instructions = earlier ++ later)
    (hnext : body.block? target = some next) (hsuccessor : target ∈ block.allSuccessors)
    (h : Similar body rewriting position earlier state other) :
    Similar body rewriting target [] { state with env := arrive body position target next state.env }
      { other with env := Execution.arrive (rewriting.body body) position target (rewriting.block next) other.env } := by
  refine ⟨h.situation, fun value havailable hstays datum hdatum => ?_⟩
  obtain ⟨reached, hreached, havailable⟩ := havailable
  obtain rfl := Option.some.inj (hreached.symm.trans hnext)
  rcases havailable with hstart | hphi | hnone
  · exact h.arrive_start hfaithful hbody hrewritten hpasses henv hblock hsplit hnext hsuccessor hstart hstays hdatum
  · obtain ⟨phi, hmem, rfl⟩ := List.mem_map.1 hphi
    exact h.arrive_phi hfaithful hbody hssa hrewritten hpasses henv hblock hsplit hnext hmem hstays hdatum
  · cases hnone

end Arriving

section Leaving

variable {position : Nat} {block : Block} {earlier later : List Instruction} {found : State Datum Address World}

private theorem goTo_inStep (hfaithful : Faithful machine scope body start rewriting) (hbody : body.WellFormed)
    (hssa : body.StrictSSA) (hrewritten : (rewriting.body body).WellFormed)
    (hpasses : Passes machine scope body start position earlier found) (hblock : body.block? position = some block)
    (hsplit : block.instructions = earlier ++ later) {state other : State Datum Address World}
    (henv : state.env = found.env) (h : Similar body rewriting position earlier state other) {target : Option Nat}
    (htarget : ∀ successor, target = some successor → successor ∈ block.allSuccessors)
    (hfault : goTo body position target state ≠ .faulty) :
    InStep body rewriting (goTo body position target state) (goTo (rewriting.body body) position target other) := by
  cases target with
  | none => exact absurd rfl hfault
  | some successor =>
    cases hnext : body.block? successor with
    | none =>
      refine absurd ?_ hfault
      simp only [goTo, hnext]
    | some next =>
      simp only [goTo, hnext, rewriting.block?_of hnext]
      exact .running (h.arrive hfaithful hbody hssa hrewritten hpasses henv hblock hsplit hnext
        (htarget successor rfl))

private theorem leave_inStep (hfaithful : Faithful machine scope body start rewriting) (hbody : body.WellFormed)
    (hssa : body.StrictSSA) (hrewritten : (rewriting.body body).WellFormed)
    (hpasses : Passes machine scope body start position earlier found) (hblock : body.block? position = some block)
    {instruction : Instruction} (hsplit : block.instructions = earlier ++ instruction :: later)
    {effect other : Effect Datum Address World} (heffect : execute machine scope instruction.operation found = effect)
    (h : Alike body rewriting position earlier instruction effect other)
    (hfault : leave machine body position block effect ≠ .faulty) :
    InStep body rewriting (leave machine body position block effect)
      (leave machine (rewriting.body body) position (rewriting.block block) other) := by
  cases h with
  | next => exact absurd rfl hfault
  | jump h =>
    refine goTo_inStep hfaithful hbody hssa hrewritten hpasses hblock hsplit ?_ h (fun successor hsuccessor => ?_) hfault
    · rw [(execute_eq_jump heffect).1]
    · exact List.mem_append_left _ (List.mem_of_getElem? hsuccessor)
  | returned h =>
    simp only [leave, h.situation]
    exact .finished
  | @raised exception state other h =>
    have hworld : other.situation.world = state.situation.world := by rw [h.situation]
    simp only [leave, hworld, Rewriting.block] at hfault ⊢
    cases hcatcher : machine.catcher? block.handlers exception state.situation.world with
    | none =>
      simp only [h.situation]
      exact .finished
    | some index =>
      simp only [hcatcher] at hfault ⊢
      have hcaught : Similar body rewriting position earlier
          { state with situation := { state.situation with caught := exception } }
          { other with situation := { other.situation with caught := exception } } :=
        ⟨by simp only [h.situation], h.env⟩
      simp only [hworld] at hcaught
      refine goTo_inStep hfaithful hbody hssa hrewritten hpasses hblock hsplit ?_ hcaught
        (fun successor hsuccessor => ?_) hfault
      · exact (execute_eq_raised heffect).1
      · obtain ⟨handler, hhandler, rfl⟩ := Option.map_eq_some_iff.1 hsuccessor
        exact List.mem_append_right _ (List.mem_map_of_mem (List.mem_of_getElem? hhandler))

end Leaving

/-- A faithfully rewritten body runs in step with the original one, unless that is faulty. -/
theorem run_inStep (hfaithful : Faithful machine scope body start rewriting) (hbody : body.WellFormed)
    (hssa : body.StrictSSA) (hrewritten : (rewriting.body body).WellFormed) (count : Nat)
    (hfault : run machine scope body start count ≠ .faulty) :
    InStep body rewriting (run machine scope body start count) (run machine scope (rewriting.body body) start count) := by
  induction count with
  | zero => exact .running ⟨rfl, fun _ _ _ _ hdatum => hdatum⟩
  | succ count ih =>
    rw [run] at hfault
    have hbefore : run machine scope body start count ≠ .faulty := by
      intro heq
      rw [heq] at hfault
      exact hfault rfl
    have hstep := ih hbefore
    rw [run, run]
    generalize hstatus : run machine scope body start count = status at hstep hfault ⊢
    generalize run machine scope (rewriting.body body) start count = other at hstep ⊢
    cases hstep with
    | finished => exact .finished
    | @running position state other h =>
      simp only [step] at hfault ⊢
      cases hblock : body.block? position with
      | none => simp [hblock] at hfault
      | some block =>
        simp only [hblock, rewriting.block?_of hblock] at hfault ⊢
        have hexit : executeAll machine scope block.instructions state ≠ .faulty ∧
            ∀ after, executeAll machine scope block.instructions state ≠ .next after :=
          ⟨fun heq => hfault (by rw [heq]; rfl), fun after heq => hfault (by rw [heq]; rfl)⟩
        obtain ⟨front, instruction, back, found, hsplit, hpasses, heffect, halike⟩ :=
          executeAll_alike hfaithful hbody hssa hrewritten hblock (passes_of_run hstatus) rfl h hexit.1 hexit.2
        exact leave_inStep hfaithful hbody hssa hrewritten hpasses hblock hsplit heffect halike hfault

end Simulation

end Bytecode.Execution
